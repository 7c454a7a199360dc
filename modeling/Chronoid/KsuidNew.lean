import Chronoid.Ksuid
import Chronoid.Uuidv7

/-! KSUIDs made from a time: the constructor from parts, the generators, and the check of
the time they share. -/

namespace Chronoid

def ksuidEpochSeconds : Word64 := 1400000000#64

/-- An answer, with whether the subtraction of the epoch overflowed on the way: C leaves its
value undefined then, and the model goes on with the two's complement one. -/
structure KsuidPartsResult where
  err : KsuidErr
  out : Ksuid
  overflow : Bool
  deriving DecidableEq, Repr

structure KsuidNewResult extends KsuidPartsResult where
  draws : ℕ
  deriving DecidableEq, Repr

def be32Store (v : Word32) : Vector Byte 4 :=
  #v[(v >>> 24).setWidth 8, (v >>> 16).setWidth 8, (v >>> 8).setWidth 8, v.setWidth 8]

def ksuidFromParts {n : ℕ} (out : Ksuid) (unixSeconds : Word64) (payload : Vector Byte n) :
    KsuidPartsResult :=
  if n ≠ 16 then ⟨.errPayloadSize, out, false⟩
  else
    let corrected := unixSeconds - ksuidEpochSeconds
    let overflow := BitVec.ssubOverflow unixSeconds ksuidEpochSeconds
    if corrected.toInt < 0 ∨ corrected.toInt > 2 ^ 32 - 1 then ⟨.errTimeRange, out, overflow⟩
    else
      let b := memcpyAt out.b 0 (be32Store (corrected.setWidth 32)) 0 4
      ⟨.ok, ⟨memcpyAt b 4 payload 0 16⟩, overflow⟩

def ksuidNewWithTime (src : RandomSource) (k : ℕ) (out : Ksuid) (unixSeconds : Word64) :
    KsuidNewResult :=
  let corrected := unixSeconds - ksuidEpochSeconds
  let overflow := BitVec.ssubOverflow unixSeconds ksuidEpochSeconds
  if corrected.toInt < 0 ∨ corrected.toInt > 2 ^ 32 - 1 then ⟨⟨.errTimeRange, out, overflow⟩, k⟩
  else if (src k).ret ≠ 0 then ⟨⟨.errRng, out, overflow⟩, k + 1⟩
  else
    let payload := (src k).buf 16
    let b := memcpyAt out.b 0 (be32Store (corrected.setWidth 32)) 0 4
    ⟨⟨.ok, ⟨memcpyAt b 4 payload 0 16⟩, overflow⟩, k + 1⟩

/-- `clock` is what `timespec_get` reads, if it can. -/
def ksuidNew (src : RandomSource) (k : ℕ) (clock : Option Word64) (out : Ksuid) : KsuidNewResult :=
  match clock with
  | none => ⟨⟨.errTimeRange, out, false⟩, k⟩
  | some seconds => ksuidNewWithTime src k out seconds

def KsuidTimeInRange (t : Int) : Prop := 1400000000 ≤ t ∧ t ≤ 1400000000 + (2 ^ 32 - 1)

instance (t : Int) : Decidable (KsuidTimeInRange t) := inferInstanceAs (Decidable (_ ∧ _))

theorem ssubOverflow_epoch_iff (t : Word64) :
    BitVec.ssubOverflow t ksuidEpochSeconds = false ↔ -2 ^ 63 + 1400000000 ≤ t.toInt := by
  have hepoch : ksuidEpochSeconds.toInt = 1400000000 := by decide
  have hhigh := t.toInt_lt
  rw [BitVec.ssubOverflow, hepoch]
  simp only [Bool.or_eq_false_iff, decide_eq_false_iff_not]
  omega

theorem corrected_out_iff (t : Word64) :
    ((t - ksuidEpochSeconds).toInt < 0 ∨ (t - ksuidEpochSeconds).toInt > 2 ^ 32 - 1) ↔
      ¬KsuidTimeInRange t.toInt := by
  have hepoch : ksuidEpochSeconds.toInt = 1400000000 := by decide
  have hlow := t.le_toInt
  have hhigh := t.toInt_lt
  rw [BitVec.toInt_sub, hepoch, KsuidTimeInRange, Int.bmod_def]
  split_ifs <;> omega

theorem fromParts_check (out : Ksuid) (t : Word64) (payload : Vector Byte 16) :
    (ksuidFromParts out t payload).overflow = BitVec.ssubOverflow t ksuidEpochSeconds ∧
      (ksuidFromParts out t payload).err =
        if KsuidTimeInRange t.toInt then .ok else .errTimeRange := by
  have hiff := corrected_out_iff t
  rw [ksuidFromParts, if_neg (by simp)]
  by_cases ht : KsuidTimeInRange t.toInt
  · simp only [if_neg (mt hiff.mp (not_not.mpr ht)), if_pos ht, and_self]
  · simp only [if_pos (hiff.mpr ht), if_neg ht, and_self]

inductive KsuidNewStep (src : RandomSource) (k : ℕ) (out : Ksuid) (t : Word64) :
    KsuidNewResult → Prop
  | timeRange (ht : ¬KsuidTimeInRange t.toInt) :
      KsuidNewStep src k out t ⟨⟨.errTimeRange, out, BitVec.ssubOverflow t ksuidEpochSeconds⟩, k⟩
  | drawFailed (ht : KsuidTimeInRange t.toInt) (hret : (src k).ret ≠ 0) :
      KsuidNewStep src k out t ⟨⟨.errRng, out, BitVec.ssubOverflow t ksuidEpochSeconds⟩, k + 1⟩
  | made (ht : KsuidTimeInRange t.toInt) (hret : (src k).ret = 0) (id : Ksuid) :
      KsuidNewStep src k out t ⟨⟨.ok, id, BitVec.ssubOverflow t ksuidEpochSeconds⟩, k + 1⟩

theorem newWithTime_step (src : RandomSource) (k : ℕ) (out : Ksuid) (t : Word64) :
    KsuidNewStep src k out t (ksuidNewWithTime src k out t) := by
  have hiff := corrected_out_iff t
  rw [ksuidNewWithTime]
  by_cases ht : KsuidTimeInRange t.toInt
  · rw [if_neg (mt hiff.mp (not_not.mpr ht))]
    by_cases hret : (src k).ret = 0
    · rw [if_neg (not_not.mpr hret)]
      exact .made ht hret _
    · rw [if_pos hret]
      exact .drawFailed ht hret
  · rw [if_pos (hiff.mpr ht)]
    exact .timeRange ht

theorem newWithTime_check (src : RandomSource) (k : ℕ) (out : Ksuid) (t : Word64) :
    (ksuidNewWithTime src k out t).overflow = BitVec.ssubOverflow t ksuidEpochSeconds ∧
      ((ksuidNewWithTime src k out t).err = .errTimeRange ↔ ¬KsuidTimeInRange t.toInt) := by
  have hstep := newWithTime_step src k out t
  generalize ksuidNewWithTime src k out t = r at hstep ⊢
  cases hstep with
  | timeRange ht => exact ⟨rfl, fun _ => ht, fun _ => rfl⟩
  | drawFailed ht | made ht => exact ⟨rfl, (nomatch ·), fun h => absurd ht h⟩

/-- The check of the time is exact and free of overflow, in the constructor and in the
generator, just for the times from which the epoch can be subtracted. -/
theorem ksuid_time_check_iff (t : Word64) :
    ((∀ (out : Ksuid) (payload : Vector Byte 16),
        let r := ksuidFromParts out t payload
        r.overflow = false ∧ r.err = if KsuidTimeInRange t.toInt then .ok else .errTimeRange) ∧
      ∀ (src : RandomSource) (k : ℕ) (out : Ksuid),
        let r := ksuidNewWithTime src k out t
        r.overflow = false ∧ (r.err = .errTimeRange ↔ ¬KsuidTimeInRange t.toInt)) ↔
      -2 ^ 63 + 1400000000 ≤ t.toInt := by
  rw [← ssubOverflow_epoch_iff]
  constructor
  · rintro ⟨hparts, -⟩
    have hno := (hparts ⟨Vector.replicate 20 0#8⟩ (Vector.replicate 16 0#8)).1
    rwa [(fromParts_check _ t _).1] at hno
  · intro hno
    constructor
    · intro out payload
      exact ⟨(fromParts_check out t payload).1.trans hno, (fromParts_check out t payload).2⟩
    · intro src k out
      exact ⟨(newWithTime_check src k out t).1.trans hno, (newWithTime_check src k out t).2⟩

theorem ksuid_time_check_overflows :
    (ksuidFromParts ⟨Vector.replicate 20 0#8⟩ (BitVec.intMin 64)
      (Vector.replicate 16 0#8)).overflow = true ∧
      (ksuidNewWithTime (fun _ => ⟨0, fun _ => 0⟩) 0 ⟨Vector.replicate 20 0#8⟩
        (BitVec.intMin 64)).overflow = true := by
  rw [(fromParts_check _ _ _).1, (newWithTime_check _ _ _ _).1]
  decide

end Chronoid
