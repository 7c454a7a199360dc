import Chronoid.KsuidNew
import Chronoid.Uuidv7Parts
import Chronoid.Uuidv7Sequence

/-! The UUIDv7 generators, and what all generators leave behind when they fail: nothing. -/

namespace Chronoid

structure Uuidv7NewResult where
  err : Uuidv7Err
  out : Uuidv7
  draws : ℕ

def uuidv7NewWithTime (src : RandomSource) (k : ℕ) (out : Uuidv7) (unixMs : Int) :
    Uuidv7NewResult :=
  if unixMs < 0 ∨ unixMs > uuidv7MaxUnixMs then ⟨.errTimeRange, out, k⟩
  else if (src k).ret ≠ 0 then ⟨.errRng, out, k + 1⟩
  else
    let rnd := (src k).buf 10
    let randA12bit : Word16 := (rnd.get 0).setWidth 16 <<< 8 ||| (rnd.get 1).setWidth 16
    let r :=
      uuidv7FromParts out unixMs randA12bit (Vector.ofFn fun i : Fin 8 => rnd.get (i.natAdd 2))
    ⟨r.1, r.2, k + 1⟩

/-- `now` is what `chronoid_now_ms` returns, -1 when the clock cannot be read. -/
def uuidv7New (src : RandomSource) (k : ℕ) (now : Int) (out : Uuidv7) : Uuidv7NewResult :=
  if now < 0 ∨ now > uuidv7MaxUnixMs then ⟨.errTimeRange, out, k⟩
  else uuidv7NewWithTime src k out now

inductive Uuidv7NewStep (src : RandomSource) (k : ℕ) (out : Uuidv7) (ms : Int) :
    Uuidv7NewResult → Prop
  | timeRange (hms : ms < 0 ∨ ms > uuidv7MaxUnixMs) :
      Uuidv7NewStep src k out ms ⟨.errTimeRange, out, k⟩
  | drawFailed (hms : ¬(ms < 0 ∨ ms > uuidv7MaxUnixMs)) (hret : (src k).ret ≠ 0) :
      Uuidv7NewStep src k out ms ⟨.errRng, out, k + 1⟩
  | made (hms : ¬(ms < 0 ∨ ms > uuidv7MaxUnixMs)) (hret : (src k).ret = 0) (id : Uuidv7) :
      Uuidv7NewStep src k out ms ⟨.ok, id, k + 1⟩

theorem uuidv7NewWithTime_step (src : RandomSource) (k : ℕ) (out : Uuidv7) (ms : Int) :
    Uuidv7NewStep src k out ms (uuidv7NewWithTime src k out ms) := by
  rw [uuidv7NewWithTime]
  by_cases hms : ms < 0 ∨ ms > uuidv7MaxUnixMs
  · rw [if_pos hms]
    exact .timeRange hms
  · rw [if_neg hms]
    by_cases hret : (src k).ret = 0
    · simp only [if_neg (not_not.mpr hret), uuidv7FromParts, if_neg hms]
      exact .made hms hret _
    · rw [if_pos hret]
      exact .drawFailed hms hret

theorem uuidv7New_step (src : RandomSource) (k : ℕ) (out : Uuidv7) (now : Int) :
    Uuidv7NewStep src k out now (uuidv7New src k now out) := by
  rw [uuidv7New]
  split_ifs with hms
  · exact .timeRange hms
  · exact uuidv7NewWithTime_step src k out now

theorem KsuidNewStep.unchanged {src : RandomSource} {k : ℕ} {out : Ksuid} {t : Word64}
    {r : KsuidNewResult} (h : KsuidNewStep src k out t r) (herr : r.err ≠ .ok) : r.out = out := by
  cases h with
  | timeRange | drawFailed => rfl
  | made => exact absurd rfl herr

theorem KsuidNewStep.undrawn {src : RandomSource} {k : ℕ} {out : Ksuid} {t : Word64}
    {r : KsuidNewResult} (h : KsuidNewStep src k out t r) (ht : ¬KsuidTimeInRange t.toInt) :
    r.err = .errTimeRange ∧ r.draws = k := by
  cases h with
  | timeRange => exact ⟨rfl, rfl⟩
  | drawFailed hin | made hin => exact absurd hin ht

theorem Uuidv7NewStep.unchanged {src : RandomSource} {k : ℕ} {out : Uuidv7} {ms : Int}
    {r : Uuidv7NewResult} (h : Uuidv7NewStep src k out ms r) (herr : r.err ≠ .ok) :
    r.out = out := by
  cases h with
  | timeRange | drawFailed => rfl
  | made => exact absurd rfl herr

theorem Uuidv7NewStep.undrawn {src : RandomSource} {k : ℕ} {out : Uuidv7} {ms : Int}
    {r : Uuidv7NewResult} (h : Uuidv7NewStep src k out ms r) (hms : ms < 0 ∨ ms > uuidv7MaxUnixMs) :
    r.err = .errTimeRange ∧ r.draws = k := by
  cases h with
  | timeRange => exact ⟨rfl, rfl⟩
  | drawFailed hin | made hin => exact absurd hms hin

theorem init_unchanged (src : RandomSource) (k : ℕ) (s : Uuidv7Sequence)
    (h : (uuidv7SequenceInit src k s).err ≠ .ok) : (uuidv7SequenceInit src k s).seq = s := by
  revert h
  simp only [uuidv7SequenceInit]
  split_ifs
  · exact fun _ => rfl
  · exact fun _ => rfl
  · exact fun h => absurd rfl h

theorem fresh_unchanged {src : RandomSource} {k : ℕ} {ms : Int} {s : Uuidv7Sequence} {out : Uuidv7}
    (h : (uuidv7SequenceFresh src k ms s out).err ≠ .ok) :
    (uuidv7SequenceFresh src k ms s out).seq = s ∧
      (uuidv7SequenceFresh src k ms s out).out = out := by
  revert h
  simp only [uuidv7SequenceFresh]
  split_ifs
  · exact fun _ => ⟨rfl, rfl⟩
  · exact fun _ => ⟨rfl, rfl⟩
  · exact fun h => absurd rfl h

theorem next_unchanged {src : RandomSource} {k : ℕ} {wallMs : Int} {s : Uuidv7Sequence}
    {out : Uuidv7} (h : (uuidv7SequenceNext src k wallMs s out).err ≠ .ok) :
    (uuidv7SequenceNext src k wallMs s out).seq = s ∧
      (uuidv7SequenceNext src k wallMs s out).out = out := by
  revert h
  simp only [uuidv7SequenceNext]
  generalize (if wallMs < s.lastMs ∨ wallMs > uuidv7MaxUnixMs then s.lastMs else wallMs) = ms
  split_ifs
  · exact fun _ => ⟨rfl, rfl⟩
  · exact fresh_unchanged
  · exact fun _ => ⟨rfl, rfl⟩
  · exact fresh_unchanged
  · exact fun h => absurd rfl h

theorem fresh_shift (src : RandomSource) (k d : ℕ) (ms : Int) (s : Uuidv7Sequence) (out : Uuidv7) :
    uuidv7SequenceFresh src (k + d) ms s out =
      { uuidv7SequenceFresh (fun j => src (k + j)) d ms s out with
        draws := k + (uuidv7SequenceFresh (fun j => src (k + j)) d ms s out).draws } := by
  simp only [uuidv7SequenceFresh, Nat.add_assoc]
  split_ifs <;> rfl

theorem next_shift (src : RandomSource) (k d : ℕ) (wallMs : Int) (s : Uuidv7Sequence)
    (out : Uuidv7) : uuidv7SequenceNext src (k + d) wallMs s out =
      { uuidv7SequenceNext (fun j => src (k + j)) d wallMs s out with
        draws := k + (uuidv7SequenceNext (fun j => src (k + j)) d wallMs s out).draws } := by
  simp only [uuidv7SequenceNext, fresh_shift]
  split_ifs <;> rfl

/-- Whatever the clock reads and whatever the draws do, a generator that fails leaves its
output and its sequence as they were, a time out of range costs no draw, and a sequence
that failed once answers the next call as if it had never been asked. -/
theorem generators_fail_atomically (src : RandomSource) (k : ℕ) :
    (∀ (out : Ksuid) (unixSeconds : Word64),
      let r := ksuidNewWithTime src k out unixSeconds
      (r.err ≠ .ok → r.out = out) ∧
        (¬KsuidTimeInRange unixSeconds.toInt → r.err = .errTimeRange ∧ r.draws = k)) ∧
    (∀ (clock : Option Word64) (out : Ksuid),
      let r := ksuidNew src k clock out
      r.err ≠ .ok → r.out = out) ∧
    (∀ (out : Uuidv7) (unixMs : Int),
      let r := uuidv7NewWithTime src k out unixMs
      (r.err ≠ .ok → r.out = out) ∧
        (unixMs < 0 ∨ unixMs > uuidv7MaxUnixMs → r.err = .errTimeRange ∧ r.draws = k)) ∧
    (∀ (now : Int) (out : Uuidv7),
      let r := uuidv7New src k now out
      r.err ≠ .ok → r.out = out) ∧
    (∀ s : Uuidv7Sequence,
      let r := uuidv7SequenceInit src k s
      r.err ≠ .ok → r.seq = s) ∧
    ∀ (wallMs : Int) (s : Uuidv7Sequence) (out : Uuidv7),
      let r := uuidv7SequenceNext src k wallMs s out
      r.err ≠ .ok → r.seq = s ∧ r.out = out ∧ ∀ retryMs : Int,
        let retry := uuidv7SequenceNext src r.draws retryMs r.seq r.out
        let first := uuidv7SequenceNext (fun j => src (r.draws + j)) 0 retryMs s out
        retry.err = first.err ∧ retry.seq = first.seq ∧ retry.out = first.out ∧
          retry.draws = r.draws + first.draws := by
  refine ⟨fun out t => ?_, fun clock out => ?_, fun out ms => ?_, fun now out => ?_, fun s => ?_,
    fun wallMs s out => ?_⟩
  · intro r
    have hstep : KsuidNewStep src k out t r := newWithTime_step src k out t
    exact ⟨hstep.unchanged, hstep.undrawn⟩
  · cases clock with
    | none => exact fun _ => rfl
    | some t => exact (newWithTime_step src k out t).unchanged
  · intro r
    have hstep : Uuidv7NewStep src k out ms r := uuidv7NewWithTime_step src k out ms
    exact ⟨hstep.unchanged, hstep.undrawn⟩
  · exact (uuidv7New_step src k out now).unchanged
  · exact init_unchanged src k s
  · intro r herr
    obtain ⟨hseq, hout⟩ : r.seq = s ∧ r.out = out := next_unchanged herr
    refine ⟨hseq, hout, fun retryMs => ?_⟩
    have hshift := next_shift src r.draws 0 retryMs s out
    rw [Nat.add_zero] at hshift
    intro retry first
    have hretry : retry = { first with draws := r.draws + first.draws } := by
      rw [← hshift]
      simp only [retry, hseq, hout]
    rw [hretry]
    exact ⟨rfl, rfl, rfl, rfl⟩

end Chronoid
