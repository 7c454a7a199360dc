import Chronoid.Library.Machine
import Chronoid.Uuidv7Parts
import Chronoid.Uuidv7Sequence

/-! Whole runs of a UUIDv7 sequence. The first eight bytes of an identifier hold
its millisecond and counter, so an order on these is an order on identifiers. -/

namespace Chronoid

def uuidv7Head (ms : Int) (counter : Word16) : ℕ := ms.toNat * 2 ^ 16 + 0x7000 + counter.toNat

/-- The layout inlined in the sequence is that of `uuidv7FromParts`. -/
theorem emit_eq_parts {ms : Int} (h0 : 0 ≤ ms) (hm : ms ≤ uuidv7MaxUnixMs) (out : Uuidv7)
    (c : Word16) (r : Vector Byte 8) :
    uuidv7FromParts out ms c r = (.ok, uuidv7SequenceEmit ms c r) := by
  rw [uuidv7FromParts, if_neg (by omega)]
  rfl

theorem Uuidv7Sequence.Valid.emit_value {s : Uuidv7Sequence} (hs : s.Valid) :
    bytesValue (uuidv7SequenceEmit s.lastMs s.counter s.randB).bytes =
      (fieldsOf s.lastMs s.counter s.randB).value := by
  have hh := parts_value hs.lastMs_nonneg hs.lastMs_le
    (uuidv7SequenceEmit s.lastMs s.counter s.randB) s.counter s.randB
  rwa [emit_eq_parts hs.lastMs_nonneg hs.lastMs_le] at hh

theorem Uuidv7Sequence.Valid.unixMs_emit {s : Uuidv7Sequence} (hs : s.Valid) :
    uuidv7UnixMs (uuidv7SequenceEmit s.lastMs s.counter s.randB) = s.lastMs := by
  have h0 := hs.lastMs_nonneg
  have hm := hs.lastMs_le
  rw [uuidv7MaxUnixMs] at hm
  rw [(marks_of_value hs.emit_value).2.2, fieldsOf_ms]
  omega

theorem Uuidv7Sequence.Valid.randA_emit {s : Uuidv7Sequence} (hs : s.Valid) :
    (uuidv7RandA (uuidv7SequenceEmit s.lastMs s.counter s.randB)).toNat = s.counter.toNat := by
  have hc := hs.counter_le
  have hh := congrArg (fun f => f.randA.val) (fieldsOf_eq hs.emit_value)
  simp only [fieldsOf_randA] at hh
  have hlt := randA_value (uuidv7SequenceEmit s.lastMs s.counter s.randB)
  omega

theorem Uuidv7Sequence.Valid.randB_emit {s : Uuidv7Sequence} (hs : s.Valid) :
    bytesValue (uuidv7RandB (uuidv7SequenceEmit s.lastMs s.counter s.randB)).toList =
      bytesValue s.randB.toList % 2 ^ 62 := by
  have hh := congrArg (fun f => f.randB.val) (fieldsOf_eq hs.emit_value)
  simp only [fieldsOf_randB] at hh
  have hlt := randB_value (uuidv7SequenceEmit s.lastMs s.counter s.randB)
  omega

theorem emit_head {ms : Int} {c : Word16} (h0 : 0 ≤ ms) (hm : ms ≤ uuidv7MaxUnixMs)
    (hc : c.toNat ≤ 0xFFF) (r : Vector Byte 8) :
    bytesValue ((uuidv7SequenceEmit ms c r).bytes.take 8) = uuidv7Head ms c := by
  have hh := parts_head h0 hm (uuidv7SequenceEmit ms c r) c r
  rw [emit_eq_parts h0 hm] at hh
  rw [hh, uuidv7Head]
  omega

theorem emit_bytes_value {ms : Int} {c : Word16} (h0 : 0 ≤ ms) (hm : ms ≤ uuidv7MaxUnixMs)
    (hc : c.toNat ≤ 0xFFF) (r : Vector Byte 8) :
    bytesValue (uuidv7SequenceEmit ms c r).bytes / 256 ^ 8 = uuidv7Head ms c := by
  have hsplit := bytesValue_append ((uuidv7SequenceEmit ms c r).bytes.take 8)
    ((uuidv7SequenceEmit ms c r).bytes.drop 8)
  have hlt := bytesValue_lt ((uuidv7SequenceEmit ms c r).bytes.drop 8)
  rw [List.take_append_drop, List.length_drop, Uuidv7.length_bytes, emit_head h0 hm hc] at hsplit
  rw [List.length_drop, Uuidv7.length_bytes] at hlt
  omega

/-- The mark a sequence leaves below every identifier it will still emit. -/
def Uuidv7Sequence.mark (s : Uuidv7Sequence) : ℕ := uuidv7Head s.lastMs s.counter

theorem next_mark {src : RandomSource} {k : ℕ} {wallMs : Int} {s : Uuidv7Sequence}
    {out : Uuidv7} {r : NextResult} (hs : s.Valid) (h : NextStep src k wallMs s out r) :
    s.mark ≤ r.seq.mark ∧
      (r.err = .ok → s.mark < bytesValue r.out.bytes / 256 ^ 8 ∧
        bytesValue r.out.bytes / 256 ^ 8 = r.seq.mark) := by
  have hs' := next_valid hs h
  have hemit (s : Uuidv7Sequence) (hs : s.Valid) :
      bytesValue (uuidv7SequenceEmit s.lastMs s.counter s.randB).bytes / 256 ^ 8 = s.mark :=
    emit_bytes_value hs.lastMs_nonneg hs.lastMs_le hs.counter_le s.randB
  cases h with
  | exhausted | tailFailed | counterFailed => exact ⟨le_refl _, by simp⟩
  | @fresh ms s' hms _ _ he =>
    have hlt : s.mark < s'.mark := by
      have := hs.counter_le
      have := hs.lastMs_nonneg
      have := hms.lt
      subst he
      simp only [Uuidv7Sequence.mark, uuidv7Head]
      omega
    exact ⟨hlt.le, fun _ => ⟨by rw [hemit s' hs']; exact hlt, hemit s' hs'⟩⟩
  | @increment s' _ hc he =>
    have hlt : s.mark < s'.mark := by
      subst he
      simp only [Uuidv7Sequence.mark, uuidv7Head, BitVec.toNat_add, BitVec.toNat_ofNat]
      omega
    exact ⟨hlt.le, fun _ => ⟨by rw [hemit s' hs']; exact hlt, hemit s' hs'⟩⟩

structure NextCall where
  wallMs : Int
  out : Uuidv7

structure SequenceRun where
  seq : Uuidv7Sequence
  draws : ℕ

def sequenceStep (src : RandomSource) (st : SequenceRun) (c : NextCall) :
    SequenceRun × Option Uuidv7 :=
  let r := uuidv7SequenceNext src st.draws c.wallMs st.seq c.out
  (⟨r.seq, r.draws⟩, if r.err = .ok then some r.out else none)

theorem sequenceRun_valid (src : RandomSource) (st : SequenceRun) (h : st.seq.Valid)
    (calls : List NextCall) : (Machine.run (sequenceStep src) st calls).1.seq.Valid :=
  Machine.run_invariant (I := fun st : SequenceRun => st.seq.Valid)
    (fun st c hs => next_valid hs (next_step src st.draws c.wallMs hs c.out)) h calls

theorem sequenceStep_mark (src : RandomSource) (st : SequenceRun) (c : NextCall)
    (hv : st.seq.Valid) : (sequenceStep src st c).1.seq.Valid ∧
      st.seq.mark ≤ (sequenceStep src st c).1.seq.mark ∧
        ∀ a, (sequenceStep src st c).2 = some a → st.seq.mark < bytesValue a.bytes / 256 ^ 8 ∧
          bytesValue a.bytes / 256 ^ 8 ≤ (sequenceStep src st c).1.seq.mark := by
  have hn := next_step src st.draws c.wallMs hv c.out
  obtain ⟨hle, hok⟩ := next_mark hv hn
  refine ⟨next_valid hv hn, hle, fun a ha => ?_⟩
  simp only [sequenceStep, Option.ite_none_right_eq_some, Option.some.injEq] at ha
  obtain ⟨he, rfl⟩ := ha
  exact ⟨(hok he).1, (hok he).2.le⟩

/-- Along every run from a successful initialization the emitted identifiers
increase, and every state reached keeps its counter and millisecond in range. -/
theorem sequence_emits_increasing (src : RandomSource) {k₀ k : ℕ} {s₀ s : Uuidv7Sequence}
    (hinit : uuidv7SequenceInit src k₀ s₀ = ⟨.ok, s, k⟩) (calls : List NextCall) :
    let r := Machine.run (sequenceStep src) ⟨s, k⟩ calls
    r.2.reduceOption.Pairwise (fun a b => uuidv7Compare a b = .lt) ∧ r.2.reduceOption.Nodup ∧
      r.1.seq.counter.toNat ≤ 0xFFF ∧ 0 ≤ r.1.seq.lastMs ∧ r.1.seq.lastMs ≤ 2 ^ 48 - 1 := by
  have hs := (init_ok hinit).1
  have hpair : (Machine.run (sequenceStep src) ⟨s, k⟩ calls).2.reduceOption.Pairwise
      (fun a b => uuidv7Compare a b = .lt) := by
    refine ((Machine.emitted_pairwise_lt (I := fun st : SequenceRun => st.seq.Valid)
      (fun st => st.seq.mark) (sequenceStep_mark src) hs calls).2).imp fun {a b} hab => ?_
    exact uuidv7Compare_lt_iff.mpr (Nat.lt_of_div_lt_div hab)
  have hv := sequenceRun_valid src ⟨s, k⟩ hs calls
  exact ⟨hpair, hpair.imp uuidv7Compare_ne_of_lt, hv.counter_le, hv.lastMs_nonneg, hv.lastMs_le⟩

theorem sequence_emits_increasing_from_epoch :
    let src : RandomSource := fun _ => ⟨0, fun _ => 0⟩
    let r := Machine.run (sequenceStep src) ⟨⟨0, 0, Vector.replicate 8 0⟩, 2⟩
      [⟨-1, ⟨Vector.replicate 16 0⟩⟩, ⟨1000, ⟨Vector.replicate 16 0⟩⟩]
    r.2.reduceOption.Pairwise (fun a b => uuidv7Compare a b = .lt) ∧ r.2.reduceOption.Nodup ∧
      r.1.seq.counter.toNat ≤ 0xFFF ∧ 0 ≤ r.1.seq.lastMs ∧ r.1.seq.lastMs ≤ 2 ^ 48 - 1 :=
  @sequence_emits_increasing (fun _ => ⟨0, fun _ => 0⟩) 0 2 ⟨7, 7, Vector.replicate 8 7⟩ _ rfl _

theorem NextStep.timeRange_iff {src : RandomSource} {k : ℕ} {wallMs : Int} {s : Uuidv7Sequence}
    {out : Uuidv7} {r : NextResult} (h : NextStep src k wallMs s out r) :
    r.err = .errTimeRange ↔ s.AtEnd := by
  have hnot {ms : Int} (hms : FreshMs s wallMs ms) : ¬s.AtEnd := fun hend => by
    have := hms.lt
    have := hend.1
    omega
  cases h with
  | exhausted hend => exact ⟨fun _ => hend, fun _ => rfl⟩
  | tailFailed hms | counterFailed hms | fresh hms =>
    exact ⟨(nomatch ·), fun h => absurd h (hnot hms)⟩
  | increment _ hlt => exact ⟨(nomatch ·), fun h => absurd h.2 hlt.ne⟩

/-- What a call returns in every reachable state: the only error besides a
failed draw is the end of the 48-bit range, where nothing is drawn. -/
theorem sequence_next_outcomes (src : RandomSource) {k₀ k : ℕ} {s₀ s : Uuidv7Sequence}
    (hinit : uuidv7SequenceInit src k₀ s₀ = ⟨.ok, s, k⟩) (calls : List NextCall) (c : NextCall) :
    let st := (Machine.run (sequenceStep src) ⟨s, k⟩ calls).1
    let r := uuidv7SequenceNext src st.draws c.wallMs st.seq c.out
    let failed := ∃ j, st.draws ≤ j ∧ j < r.draws ∧ (src j).ret ≠ 0
    (r.err = .ok ∨ r.err = .errRng ∧ failed ∨ r.err = .errTimeRange) ∧
      (r.err = .errTimeRange ↔ st.seq.AtEnd) ∧
      (r.err = .errTimeRange → r.draws = st.draws ∧ r.seq = st.seq) ∧
      (¬failed → ¬st.seq.AtEnd → r.err = .ok) := by
  intro st r failed
  have hv : st.seq.Valid := sequenceRun_valid src ⟨s, k⟩ (init_ok hinit).1 calls
  have hn : NextStep src st.draws c.wallMs st.seq c.out r :=
    next_step src st.draws c.wallMs hv c.out
  have hcases : r.err = .ok ∨ r.err = .errRng ∧ failed ∨
      r.err = .errTimeRange ∧ r.draws = st.draws ∧ r.seq = st.seq := by
    simp only [failed]
    generalize r = r at hn ⊢
    cases hn with
    | exhausted => exact .inr (.inr ⟨rfl, rfl, rfl⟩)
    | tailFailed _ h => exact .inr (.inl ⟨rfl, st.draws, le_refl _, by simp, h⟩)
    | counterFailed _ _ h => exact .inr (.inl ⟨rfl, st.draws + 1, by omega, by simp, h⟩)
    | fresh | increment => exact .inl rfl
  refine ⟨hcases.imp_right (Or.imp_right And.left), hn.timeRange_iff, fun he => ?_,
    fun hf hend => ?_⟩
  · rcases hcases with h | ⟨h, _⟩ | ⟨_, h⟩
    · simp [h] at he
    · simp [h] at he
    · exact h
  · rcases hcases with h | ⟨_, h⟩ | ⟨h, _⟩
    · exact h
    · exact absurd h hf
    · exact absurd (hn.timeRange_iff.mp h) hend

theorem sequence_next_outcomes_clock_error :
    let src : RandomSource := fun _ => ⟨0, fun _ => 0⟩
    let st := (Machine.run (sequenceStep src) ⟨⟨0, 0, Vector.replicate 8 0⟩, 2⟩
      [⟨1000, ⟨Vector.replicate 16 0⟩⟩]).1
    let r := uuidv7SequenceNext src st.draws (-1) st.seq ⟨Vector.replicate 16 0⟩
    let failed := ∃ j, st.draws ≤ j ∧ j < r.draws ∧ (src j).ret ≠ 0
    (r.err = .ok ∨ r.err = .errRng ∧ failed ∨ r.err = .errTimeRange) ∧
      (r.err = .errTimeRange ↔ st.seq.AtEnd) ∧
      (r.err = .errTimeRange → r.draws = st.draws ∧ r.seq = st.seq) ∧
      (¬failed → ¬st.seq.AtEnd → r.err = .ok) :=
  @sequence_next_outcomes (fun _ => ⟨0, fun _ => 0⟩) 0 2 ⟨7, 7, Vector.replicate 8 7⟩ _ rfl
    [⟨1000, ⟨Vector.replicate 16 0⟩⟩] ⟨-1, ⟨Vector.replicate 16 0⟩⟩

/-- A clock at the last millisecond with a counter drawn full: the next call
reports a time range error although no draw fails. -/
theorem sequence_next_exhausts :
    ¬∀ (src : RandomSource) (k₀ k : ℕ) (s₀ s : Uuidv7Sequence),
      uuidv7SequenceInit src k₀ s₀ = ⟨.ok, s, k⟩ → ∀ (calls : List NextCall) (c : NextCall),
        let st := (Machine.run (sequenceStep src) ⟨s, k⟩ calls).1
        let r := uuidv7SequenceNext src st.draws c.wallMs st.seq c.out
        r.err = .ok ∨ r.err = .errRng ∧ ∃ j, st.draws ≤ j ∧ j < r.draws ∧ (src j).ret ≠ 0 := by
  intro h
  have hh := h (fun _ => ⟨0, fun _ => 0xFF⟩) 0 2 ⟨0, 0, Vector.replicate 8 0⟩
    ⟨0, 0xFFF, Vector.replicate 8 0xFF⟩ rfl
    [⟨2 ^ 48 - 1, ⟨Vector.replicate 16 0⟩⟩] ⟨2 ^ 48 - 1, ⟨Vector.replicate 16 0⟩⟩
  simp only [ne_eq, not_true, and_false, exists_false, or_false] at hh
  exact absurd hh (by decide)

end Chronoid
