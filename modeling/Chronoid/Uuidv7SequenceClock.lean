import Chronoid.Uuidv7Trace

/-! How the millisecond a UUIDv7 sequence embeds follows the clock it reads. -/

namespace Chronoid

/-- The largest of the readings an identifier can hold, or zero. -/
def largestReading (calls : List NextCall) : Int :=
  calls.foldl (fun m c => if 0 ≤ c.wallMs ∧ c.wallMs ≤ uuidv7MaxUnixMs then max m c.wallMs else m) 0

/-- The call found its counter full and the clock not ahead. -/
def Emission.Rollover (e : Emission) : Prop :=
  (e.wallMs ≤ e.before.lastMs ∨ uuidv7MaxUnixMs < e.wallMs) ∧ e.before.counter.toNat = 0xFFF

instance : DecidablePred Emission.Rollover := fun _ => inferInstanceAs (Decidable (_ ∧ _))

def rollovers (src : RandomSource) (st : TracedRun) (calls : List NextCall) : ℕ :=
  (Machine.emitted (tracedStep src) st calls).countP fun e => decide e.Rollover

theorem largestReading_concat (calls : List NextCall) (c : NextCall) :
    largestReading calls ≤ largestReading (calls ++ [c]) ∧
      (0 ≤ c.wallMs → c.wallMs ≤ uuidv7MaxUnixMs → c.wallMs ≤ largestReading (calls ++ [c])) := by
  simp only [largestReading, List.foldl_concat]
  split_ifs with h
  · exact ⟨le_max_left _ _, fun _ _ => le_max_right _ _⟩
  · exact ⟨le_refl _, fun h0 hm => absurd ⟨h0, hm⟩ h⟩

theorem rollovers_concat (src : RandomSource) (st : TracedRun) (calls : List NextCall)
    (c : NextCall) : rollovers src st (calls ++ [c]) = rollovers src st calls +
      ((tracedStep src (Machine.run (tracedStep src) st calls).1 c).2.toList).countP
        fun e => decide e.Rollover := by
  rw [rollovers, Machine.emitted_concat, List.countP_append]
  rfl

theorem lastMs_le {src : RandomSource} {k : ℕ} {s : Uuidv7Sequence}
    (hst : (tracedInit k s).Invariant src) (hs : s.lastMs = 0) (calls : List NextCall) :
    (Machine.run (tracedStep src) (tracedInit k s) calls).1.run.seq.lastMs ≤
      largestReading calls + rollovers src (tracedInit k s) calls := by
  induction calls using List.reverseRecOn with
  | nil => exact hs.le
  | append_singleton calls c ih =>
    obtain ⟨hle, hreading⟩ := largestReading_concat calls c
    have hinv := traced_invariant hst calls
    rw [rollovers_concat, Machine.run_concat]
    generalize (Machine.run (tracedStep src) (tracedInit k s) calls).1 = st at *
    have h0 := hinv.sourced.valid.lastMs_nonneg
    have hstep := traced_step src st c hinv.sourced.valid
    generalize tracedStep src st c = r at hstep ⊢
    cases hstep with
    | failed => simp only [Option.toList_none, List.countP_nil]; omega
    | @fresh ms s hms _ _ he =>
      have hlast : s.lastMs = ms := by rw [he]
      simp only [Option.toList_some, List.countP_singleton, hlast]
      rcases hms with ⟨hlt, hm, rfl⟩ | ⟨hwall, hfull, _, rfl⟩
      · have := hreading (by omega) hm
        omega
      · have hroll : Emission.Rollover ⟨st.run.seq, c.wallMs, s,
            uuidv7SequenceEmit s.lastMs s.counter s.randB, ⟨st.run.draws, st.run.draws + 1⟩, 0⟩ :=
          ⟨hwall, hfull⟩
        rw [if_pos (by simpa [hlast] using hroll)]
        omega
    | @increment s hwall hlt he =>
      have hlast : s.lastMs = st.run.seq.lastMs := by rw [he]
      simp only [hlast]
      omega

/-- A reading that is not ahead, or out of range, plays no part in the call. -/
theorem next_clamped {src : RandomSource} {k : ℕ} {wallMs : Int} {s : Uuidv7Sequence} {out : Uuidv7}
    (h : wallMs ≤ s.lastMs ∨ uuidv7MaxUnixMs < wallMs) :
    uuidv7SequenceNext src k wallMs s out = uuidv7SequenceNext src k s.lastMs s out := by
  have hclamp : (if wallMs < s.lastMs ∨ wallMs > uuidv7MaxUnixMs then s.lastMs else wallMs) =
      if s.lastMs < s.lastMs ∨ s.lastMs > uuidv7MaxUnixMs then s.lastMs else s.lastMs := by
    split_ifs <;> omega
  simp only [uuidv7SequenceNext, hclamp]

theorem NextStep.clock {src : RandomSource} {k : ℕ} {wallMs : Int} {s : Uuidv7Sequence}
    {out : Uuidv7} {r : NextResult} (hs : s.Valid) (h : NextStep src k wallMs s out r)
    (hok : r.err = .ok) :
    uuidv7UnixMs r.out = r.seq.lastMs ∧
      (0 ≤ wallMs → wallMs ≤ uuidv7MaxUnixMs →
        wallMs ≤ r.seq.lastMs ∧ (s.lastMs < wallMs → r.seq.lastMs = wallMs)) ∧
      (wallMs ≤ s.lastMs ∨ uuidv7MaxUnixMs < wallMs → r.seq.lastMs = s.lastMs ∨
        r.seq.lastMs = s.lastMs + 1 ∧ s.counter.toNat = 0xFFF) := by
  have hv := next_valid hs h
  cases h with
  | exhausted | tailFailed | counterFailed => cases hok
  | @fresh ms s' hms _ _ he =>
    refine ⟨hv.unixMs_emit, ?_⟩
    have hlast : s'.lastMs = ms := by rw [he]
    simp only [hlast]
    rcases hms with ⟨hlt, hm, rfl⟩ | ⟨hwall, hfull, _, rfl⟩
    · exact ⟨fun _ _ => ⟨le_refl _, fun _ => rfl⟩, fun hwall => by omega⟩
    · exact ⟨fun _ _ => ⟨by omega, fun _ => by omega⟩, fun _ => .inr ⟨rfl, hfull⟩⟩
  | @increment s' hwall _ he =>
    refine ⟨hv.unixMs_emit, ?_⟩
    have hlast : s'.lastMs = s.lastMs := by rw [he]
    simp only [hlast]
    exact ⟨fun _ _ => ⟨by omega, fun _ => by omega⟩, fun _ => .inl trivial⟩

/-- A successful call embeds a millisecond at or above a reading in range, that reading when
it is ahead, and otherwise the last one or, with a full counter, the next. Over the run the
embedded millisecond outruns the largest reading by the rollovers at most. -/
theorem sequence_tracks_clock (src : RandomSource) {k₀ k : ℕ} {s₀ s : Uuidv7Sequence}
    (hinit : uuidv7SequenceInit src k₀ s₀ = ⟨.ok, s, k⟩) (calls : List NextCall) (c : NextCall) :
    let st := (Machine.run (sequenceStep src) ⟨s, k⟩ calls).1
    let r := uuidv7SequenceNext src st.draws c.wallMs st.seq c.out
    (r.err = .ok →
      (0 ≤ c.wallMs → c.wallMs ≤ 2 ^ 48 - 1 →
        c.wallMs ≤ uuidv7UnixMs r.out ∧
          (st.seq.lastMs < c.wallMs → uuidv7UnixMs r.out = c.wallMs)) ∧
      (c.wallMs ≤ st.seq.lastMs ∨ 2 ^ 48 - 1 < c.wallMs → uuidv7UnixMs r.out = st.seq.lastMs ∨
        uuidv7UnixMs r.out = st.seq.lastMs + 1 ∧ st.seq.counter.toNat = 0xFFF) ∧
      uuidv7UnixMs r.out ≤
        largestReading (calls ++ [c]) + rollovers src (tracedInit k₀ s) (calls ++ [c])) ∧
    (c.wallMs ≤ st.seq.lastMs ∨ 2 ^ 48 - 1 < c.wallMs →
      r = uuidv7SequenceNext src st.draws st.seq.lastMs st.seq c.out) := by
  intro st r
  obtain ⟨hs, -, -, rfl⟩ := init_eq hinit
  have hv : st.seq.Valid := sequenceRun_valid src ⟨s, k₀ + 2⟩ (init_ok hinit).1 calls
  refine ⟨fun hok => ?_, fun hwall => next_clamped hwall⟩
  obtain ⟨hms, htrack, hclamp⟩ := (next_step src st.draws c.wallMs hv c.out).clock hv hok
  have hle := lastMs_le (tracedInit_invariant hinit) (by rw [hs]) (calls ++ [c])
  have hlast : (Machine.run (tracedStep src) (tracedInit k₀ s) (calls ++ [c])).1.run.seq =
      r.seq := by
    rw [← (traced_run src (tracedInit k₀ s) (calls ++ [c])).1, Machine.run_concat]
    rfl
  rw [hlast] at hle
  rw [hms]
  exact ⟨htrack, hclamp, hle⟩

theorem sequence_tracks_clock_rollover :
    let src : RandomSource := fun _ => ⟨0, fun _ => 0xFF⟩
    let s := (uuidv7SequenceInit src 0 ⟨7, 7, Vector.replicate 8 7⟩).seq
    let c : NextCall := ⟨1000, ⟨Vector.replicate 16 0⟩⟩
    let st := (Machine.run (sequenceStep src) ⟨s, 2⟩ [c]).1
    let r := uuidv7SequenceNext src st.draws c.wallMs st.seq c.out
    uuidv7UnixMs r.out ≤ largestReading [c, c] + rollovers src (tracedInit 0 s) [c, c] ∧
      rollovers src (tracedInit 0 s) [c, c] = 1 := by
  intro src s c st r
  have hinit : uuidv7SequenceInit src 0 ⟨7, 7, Vector.replicate 8 7⟩ = ⟨.ok, s, 2⟩ := by rfl
  have hh := (sequence_tracks_clock src hinit [c] c).1 (by decide +kernel)
  exact ⟨hh.2.2, by decide +kernel⟩

end Chronoid
