import Chronoid.Uuidv7SequenceRuns

/-! The bounds of a UUIDv7 sequence bracket what it will still emit in its current
millisecond, and separate it from what it emitted before and will emit after. -/

namespace Chronoid

def uuidv7SequenceBounds (s : Uuidv7Sequence) : Uuidv7 × Uuidv7 :=
  let loCounter : Word32 := s.counter.setWidth 32 + 1#32
  let loCounter := if loCounter > uuidv7CounterMask then uuidv7CounterMask else loCounter
  (uuidv7SequenceEmit s.lastMs (loCounter.setWidth 16) (Vector.replicate 8 0#8),
    uuidv7SequenceEmit s.lastMs (uuidv7CounterMask.setWidth 16) (Vector.replicate 8 0xFF#8))

def headTail (x t : ℕ) : ℕ := x * 2 ^ 64 + 2 ^ 63 + t

theorem headTail_lt {x y t : ℕ} (h : x < y) (ht : t < 2 ^ 62) (u : ℕ) :
    headTail x t < headTail y u := by
  rw [headTail, headTail, Nat.add_assoc, Nat.add_assoc]
  exact Positional.leading_digit_lt (by omega) h

theorem headTail_le {x y t u : ℕ} (h : x ≤ y) (ht : t < 2 ^ 62) (htu : t ≤ u) :
    headTail x t ≤ headTail y u := by
  rcases Nat.lt_or_eq_of_le h with h | rfl
  · exact (headTail_lt h ht u).le
  · exact Nat.add_le_add_left htu _

theorem Uuidv7Sequence.Valid.emit_mark {s : Uuidv7Sequence} (hs : s.Valid) :
    bytesValue (uuidv7SequenceEmit s.lastMs s.counter s.randB).bytes =
      headTail s.mark (bytesValue s.randB.toList % 2 ^ 62) := by
  have hc := hs.counter_le
  have h0 := hs.lastMs_nonneg
  have hm := hs.lastMs_le
  rw [uuidv7MaxUnixMs] at hm
  rw [hs.emit_value, Uuidv7Fields.value, fieldsOf_ms, fieldsOf_randA, fieldsOf_randB, mark,
    uuidv7Head, headTail]
  omega

theorem bounds_value {s : Uuidv7Sequence} (hs : s.Valid) :
    bytesValue (uuidv7SequenceBounds s).1.bytes =
      headTail (s.lastMs.toNat * 2 ^ 16 + 0x7000 + min (s.counter.toNat + 1) 0xFFF) 0 ∧
    bytesValue (uuidv7SequenceBounds s).2.bytes =
      headTail (s.lastMs.toNat * 2 ^ 16 + 0x7FFF) (2 ^ 62 - 1) := by
  have hc := hs.counter_le
  have hlo : (if (s.counter.setWidth 32 + 1#32 : Word32) > uuidv7CounterMask then uuidv7CounterMask
      else s.counter.setWidth 32 + 1#32 : Word32).toNat = min (s.counter.toNat + 1) 0xFFF := by
    by_cases hfull : 0xFFF ≤ s.counter.toNat
    · rw [if_pos ((bumped_gt_iff _).mpr hfull), Nat.min_eq_right (by omega)]
      rfl
    · rw [if_neg (mt (bumped_gt_iff _).mp hfull), bumped_toNat, Nat.min_eq_left (by omega)]
  have hzero : bytesValue (Vector.replicate 8 0#8).toList = 0 := by decide
  have hones : bytesValue (Vector.replicate 8 0xFF#8).toList = 2 ^ 64 - 1 := by decide
  generalize hlow : (if (s.counter.setWidth 32 + 1#32 : Word32) > uuidv7CounterMask
      then uuidv7CounterMask else s.counter.setWidth 32 + 1#32 : Word32) = lo at hlo
  have hwidth : (lo.setWidth 16).toNat = min (s.counter.toNat + 1) 0xFFF := by
    rw [BitVec.toNat_setWidth, hlo]
    omega
  have hmin : Uuidv7Sequence.Valid ⟨s.lastMs, lo.setWidth 16, Vector.replicate 8 0#8⟩ :=
    ⟨by simp only [hwidth]; omega, hs.lastMs_nonneg, hs.lastMs_le⟩
  have hmask : (uuidv7CounterMask.setWidth 16 : Word16).toNat = 0xFFF := by decide
  have hmax : Uuidv7Sequence.Valid ⟨s.lastMs, uuidv7CounterMask.setWidth 16,
      Vector.replicate 8 0xFF#8⟩ :=
    ⟨hmask.le, hs.lastMs_nonneg, hs.lastMs_le⟩
  have hminval := hmin.emit_mark
  have hmaxval := hmax.emit_mark
  simp only [Uuidv7Sequence.mark, uuidv7Head] at hminval hmaxval
  rw [hwidth, hzero, Nat.zero_mod] at hminval
  rw [hmask, hones] at hmaxval
  simp only [uuidv7SequenceBounds, hlow]
  constructor
  · exact hminval
  · rw [hmaxval, Nat.add_assoc _ 0x7000, show (2 ^ 64 - 1) % 2 ^ 62 = 2 ^ 62 - 1 by norm_num]

/-- Everything a run emits is written from a valid sequence, between the marks of its ends. -/
theorem emitted_mark {src : RandomSource} {st : SequenceRun} (hv : st.seq.Valid)
    (calls : List NextCall)
    {id : Uuidv7} (h : id ∈ (Machine.run (sequenceStep src) st calls).2.reduceOption) :
    ∃ s : Uuidv7Sequence, s.Valid ∧ id = uuidv7SequenceEmit s.lastMs s.counter s.randB ∧
      st.seq.mark < s.mark ∧ s.mark ≤ (Machine.run (sequenceStep src) st calls).1.seq.mark := by
  have hemit : ∀ id ∈ Machine.emitted (sequenceStep src) st calls, ∃ s : Uuidv7Sequence, s.Valid ∧
      id = uuidv7SequenceEmit s.lastMs s.counter s.randB := by
    refine Machine.emitted_forall (I := fun st : SequenceRun => st.seq.Valid) (fun st c hv => ?_)
      hv calls
    have hn := next_step src st.draws c.wallMs hv c.out
    refine ⟨next_valid hv hn, fun id hid => ?_⟩
    have hv' := next_valid hv hn
    simp only [sequenceStep, Option.ite_none_right_eq_some, Option.some.injEq] at hid
    obtain ⟨hok, rfl⟩ := hid
    generalize uuidv7SequenceNext src st.draws c.wallMs st.seq c.out = r at *
    cases hn with
    | exhausted | tailFailed | counterFailed => cases hok
    | fresh | increment => exact ⟨_, hv', rfl⟩
  obtain ⟨s, hs, rfl⟩ := hemit id h
  have hkey := emit_bytes_value hs.lastMs_nonneg hs.lastMs_le hs.counter_le s.randB
  have hlow := (Machine.emitted_pairwise_lt (I := fun st : SequenceRun => st.seq.Valid)
    (fun st => st.seq.mark) (sequenceStep_mark src) hv calls).1 _ h
  have hhigh := (Machine.emitted_le (I := fun st : SequenceRun => st.seq.Valid)
    (fun st => st.seq.mark)
    (fun st c hv => ⟨(sequenceStep_mark src st c hv).1, (sequenceStep_mark src st c hv).2.1,
      fun a ha => ((sequenceStep_mark src st c hv).2.2 a ha).2⟩) hv calls).2 _ h
  rw [hkey] at hlow hhigh
  exact ⟨s, hs, rfl, hlow, hhigh⟩

theorem head_lt_of_ms_lt {m m' : Int} (h0 : 0 ≤ m) (h : m < m') (c : Word16) :
    m.toNat * 2 ^ 16 + 0x7FFF < uuidv7Head m' c := by
  rw [uuidv7Head]
  omega

theorem compare_ne_gt_of_le {a b : Uuidv7} (h : bytesValue a.bytes ≤ bytesValue b.bytes) :
    uuidv7Compare a b ≠ .gt := by
  rw [uuidv7Compare, memcmp_eq_compare (by simp), Nat.compare_ne_gt]
  exact h

theorem tail_lt (r : Vector Byte 8) : bytesValue r.toList % 2 ^ 62 < 2 ^ 62 :=
  Nat.mod_lt _ (by norm_num)

theorem bounds_of_later {s a : Uuidv7Sequence} (hs : s.Valid) (ha : a.Valid) (h : s.mark < a.mark) :
    (a.lastMs = s.lastMs ∧
      uuidv7Compare (uuidv7SequenceBounds s).1
        (uuidv7SequenceEmit a.lastMs a.counter a.randB) ≠ .gt ∧
      uuidv7Compare (uuidv7SequenceEmit a.lastMs a.counter a.randB)
        (uuidv7SequenceBounds s).2 ≠ .gt) ∨
    (s.lastMs < a.lastMs ∧
      uuidv7Compare (uuidv7SequenceBounds s).2
        (uuidv7SequenceEmit a.lastMs a.counter a.randB) = .lt) := by
  have hac := ha.counter_le
  have ha0 := ha.lastMs_nonneg
  have hc := hs.counter_le
  have h0 := hs.lastMs_nonneg
  simp only [Uuidv7Sequence.mark, uuidv7Head] at h
  by_cases hsame : a.lastMs = s.lastMs
  · -- the counter has moved on in the same millisecond, so it was not full
    rw [hsame] at h
    have hmin : s.lastMs.toNat * 2 ^ 16 + 0x7000 + min (s.counter.toNat + 1) 0xFFF ≤ a.mark := by
      rw [Uuidv7Sequence.mark, uuidv7Head, hsame]
      omega
    have hmax : a.mark ≤ s.lastMs.toNat * 2 ^ 16 + 0x7FFF := by
      rw [Uuidv7Sequence.mark, uuidv7Head, hsame]
      omega
    refine .inl ⟨hsame, compare_ne_gt_of_le ?_, compare_ne_gt_of_le ?_⟩
    · rw [(bounds_value hs).1, ha.emit_mark]
      exact headTail_le hmin (Nat.two_pow_pos 62) (Nat.zero_le _)
    · rw [(bounds_value hs).2, ha.emit_mark]
      exact headTail_le hmax (tail_lt a.randB) (Nat.le_sub_one_of_lt (tail_lt a.randB))
  · have hlater : s.lastMs < a.lastMs := by omega
    have hhead : s.lastMs.toNat * 2 ^ 16 + 0x7FFF < a.mark := head_lt_of_ms_lt h0 hlater _
    refine .inr ⟨hlater, uuidv7Compare_lt_iff.mpr ?_⟩
    rw [(bounds_value hs).2, ha.emit_mark]
    exact headTail_lt hhead (Nat.sub_lt (Nat.two_pow_pos 62) Nat.one_pos) _

theorem bounds_of_earlier {s a : Uuidv7Sequence} (hs : s.Valid) (ha : a.Valid)
    (h : a.mark ≤ s.mark) :
    uuidv7Compare (uuidv7SequenceEmit a.lastMs a.counter a.randB) (uuidv7SequenceBounds s).2 ≠ .gt ∧
      (s.counter.toNat ≠ 0xFFF →
        uuidv7Compare (uuidv7SequenceEmit a.lastMs a.counter a.randB)
          (uuidv7SequenceBounds s).1 = .lt) := by
  have hc := hs.counter_le
  have hmark : s.mark = s.lastMs.toNat * 2 ^ 16 + 0x7000 + s.counter.toNat := rfl
  refine ⟨compare_ne_gt_of_le ?_, fun hfull => uuidv7Compare_lt_iff.mpr ?_⟩
  · have hmax : a.mark ≤ s.lastMs.toNat * 2 ^ 16 + 0x7FFF := by omega
    rw [(bounds_value hs).2, ha.emit_mark]
    exact headTail_le hmax (tail_lt a.randB) (Nat.le_sub_one_of_lt (tail_lt a.randB))
  · have hmin : a.mark < s.lastMs.toNat * 2 ^ 16 + 0x7000 + min (s.counter.toNat + 1) 0xFFF := by
      omega
    rw [(bounds_value hs).1, ha.emit_mark]
    exact headTail_lt hmin (tail_lt a.randB) 0

/-- Whatever is emitted after a bounds call lies between its bounds as long as the
millisecond stays, and above both afterwards; whatever was emitted before lies at or below
the greatest, and below the least too unless the counter was already full. -/
theorem sequence_bounds_bracket (src : RandomSource) {k₀ k : ℕ} {s₀ s : Uuidv7Sequence}
    (hinit : uuidv7SequenceInit src k₀ s₀ = ⟨.ok, s, k⟩) (earlier later : List NextCall) :
    let st := (Machine.run (sequenceStep src) ⟨s, k⟩ earlier).1
    let bounds := uuidv7SequenceBounds st.seq
    (∀ id ∈ (Machine.run (sequenceStep src) st later).2.reduceOption,
      (uuidv7UnixMs id = st.seq.lastMs ∧ uuidv7Compare bounds.1 id ≠ .gt ∧
        uuidv7Compare id bounds.2 ≠ .gt) ∨
      (st.seq.lastMs < uuidv7UnixMs id ∧ uuidv7Compare bounds.2 id = .lt)) ∧
    ∀ id ∈ (Machine.run (sequenceStep src) ⟨s, k⟩ earlier).2.reduceOption,
      uuidv7Compare id bounds.2 ≠ .gt ∧
        (st.seq.counter.toNat ≠ 0xFFF → uuidv7Compare id bounds.1 = .lt) := by
  intro st bounds
  have hs := (init_ok hinit).1
  have hv : st.seq.Valid := sequenceRun_valid src ⟨s, k⟩ hs earlier
  constructor
  · intro id hid
    obtain ⟨a, ha, rfl, hlow, -⟩ := emitted_mark hv later hid
    rw [ha.unixMs_emit]
    exact bounds_of_later hv ha hlow
  · intro id hid
    obtain ⟨a, ha, rfl, -, hhigh⟩ := emitted_mark hs earlier hid
    exact bounds_of_earlier hv ha hhigh

theorem sequence_bounds_bracket_counting :
    let src : RandomSource := fun _ => ⟨0, fun _ => 0⟩
    let s := (uuidv7SequenceInit src 0 ⟨7, 7, Vector.replicate 8 7⟩).seq
    let c : NextCall := ⟨1000, ⟨Vector.replicate 16 0⟩⟩
    let st := (Machine.run (sequenceStep src) ⟨s, 2⟩ [c]).1
    let bounds := uuidv7SequenceBounds st.seq
    ∀ id ∈ (Machine.run (sequenceStep src) st [c]).2.reduceOption,
      (uuidv7UnixMs id = st.seq.lastMs ∧ uuidv7Compare bounds.1 id ≠ .gt ∧
        uuidv7Compare id bounds.2 ≠ .gt) ∨
      (st.seq.lastMs < uuidv7UnixMs id ∧ uuidv7Compare bounds.2 id = .lt) := by
  intro src s c
  have hinit : uuidv7SequenceInit src 0 ⟨7, 7, Vector.replicate 8 7⟩ = ⟨.ok, s, 2⟩ := by rfl
  exact (sequence_bounds_bracket src hinit [c] [c]).1

end Chronoid
