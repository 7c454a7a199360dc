import Chronoid.Bytes

/-! The long division that both directions of the base62 codec run on, with its
64-bit arithmetic. -/

namespace Chronoid

open Positional (value numeral divStep)

/-- One limb of the long division by `divisor` of a number in base `base`. -/
def longDivStep {w : ℕ} (base divisor : Word64) (acc : List (BitVec w) × Word64) (limb : BitVec w) :
    List (BitVec w) × Word64 :=
  let value := limb.setWidth 64 + acc.2 * base
  let digit := value / divisor
  (if acc.1.length ≠ 0 ∨ digit ≠ 0#64 then acc.1 ++ [digit.setWidth w] else acc.1, value % divisor)

def longDiv {w : ℕ} (base divisor : Word64) (bp : List (BitVec w)) : List (BitVec w) × Word64 :=
  bp.foldl (longDivStep base divisor) ([], 0#64)

def limbValues {w : ℕ} (acc : List (BitVec w) × Word64) : List ℕ × ℕ :=
  (acc.1.map BitVec.toNat, acc.2.toNat)

section LongDiv

variable {w : ℕ} {base divisor : Word64}

theorem joined_fits (hw : w ≤ 64) (hfit : divisor.toNat * base.toNat ≤ 2 ^ 64)
    {r : Word64} {limb : BitVec w} (hlimb : limb.toNat < base.toNat)
    (hr : r.toNat < divisor.toNat) :
    r.toNat * base.toNat < 2 ^ 64 ∧ limb.toNat + r.toNat * base.toNat < 2 ^ 64 ∧
      (limb.setWidth 64 + r * base).toNat = limb.toNat + r.toNat * base.toNat ∧
      (limb.toNat + r.toNat * base.toNat) / divisor.toNat < base.toNat := by
  have hjoin := Positional.joined_lt hr hlimb
  refine ⟨by omega, by omega, ?_, Nat.div_lt_of_lt_mul hjoin⟩
  have := Nat.pow_le_pow_right (n := 2) (by decide) hw
  rw [BitVec.toNat_add, BitVec.toNat_mul, BitVec.toNat_setWidth, Nat.mod_eq_of_lt (a := limb.toNat),
    Nat.mod_eq_of_lt (a := r.toNat * _), Nat.mod_eq_of_lt]
  all_goals omega

theorem limbValues_longDivStep (hw : w ≤ 64) (hbase : base.toNat ≤ 2 ^ w)
    (hfit : divisor.toNat * base.toNat ≤ 2 ^ 64) {acc : List (BitVec w) × Word64} {limb : BitVec w}
    (hlimb : limb.toNat < base.toNat) (hacc : acc.2.toNat < divisor.toNat) :
    limbValues (longDivStep base divisor acc limb) =
      divStep base.toNat divisor.toNat (limbValues acc) limb.toNat := by
  obtain ⟨-, -, hvalue, hquot⟩ := joined_fits hw hfit hlimb hacc
  have hdigit : (limb.toNat + acc.2.toNat * base.toNat) / divisor.toNat < 2 ^ w :=
    Nat.lt_of_lt_of_le hquot hbase
  have hzero : (limb.setWidth 64 + acc.2 * base) / divisor = 0#64 ↔
      (limb.toNat + acc.2.toNat * base.toNat) / divisor.toNat = 0 := by
    rw [← BitVec.toNat_inj, BitVec.toNat_udiv, hvalue]
    rfl
  simp only [limbValues, longDivStep, divStep, BitVec.toNat_umod, hvalue, ne_eq, hzero,
    List.length_map, Prod.mk.injEq, and_true]
  split_ifs with h
  · simp [BitVec.toNat_udiv, hvalue, Nat.mod_eq_of_lt hdigit]
  · rfl

theorem longDiv_concat (bp : List (BitVec w)) (limb : BitVec w) :
    longDiv base divisor (bp ++ [limb]) = longDivStep base divisor (longDiv base divisor bp) limb :=
  List.foldl_concat ..

theorem longDiv_remainder_lt (hpos : 0 < divisor.toNat) (bp : List (BitVec w)) :
    (longDiv base divisor bp).2.toNat < divisor.toNat := by
  induction bp using List.reverseRecOn with
  | nil => exact hpos
  | append_singleton bp limb _ =>
    rw [longDiv_concat, longDivStep, BitVec.toNat_umod]
    exact Nat.mod_lt _ hpos

theorem limbValues_longDiv (hw : w ≤ 64) (hbase : base.toNat ≤ 2 ^ w) (hone : 1 < base.toNat)
    (hfit : divisor.toNat * base.toNat ≤ 2 ^ 64) (hpos : 0 < divisor.toNat) {bp : List (BitVec w)}
    (hbp : ∀ x ∈ bp, x.toNat < base.toNat) :
    limbValues (longDiv base divisor bp) =
      (numeral base.toNat (value base.toNat (bp.map BitVec.toNat) / divisor.toNat),
        value base.toNat (bp.map BitVec.toNat) % divisor.toNat) := by
  have hfold : limbValues (longDiv base divisor bp) =
      (bp.map BitVec.toNat).foldl (divStep base.toNat divisor.toNat) ([], 0) := by
    induction bp using List.reverseRecOn with
    | nil => rfl
    | append_singleton bp x ih =>
      have heq := ih fun y hy => hbp y (List.mem_append_left _ hy)
      rw [longDiv_concat, limbValues_longDivStep hw hbase hfit (hbp x (by simp))
        (longDiv_remainder_lt hpos bp), heq, List.map_append, List.foldl_append]
      rfl
  rw [hfold]
  refine Positional.foldl_divStep hone hpos fun d hd => ?_
  obtain ⟨x, hx, rfl⟩ := List.mem_map.mp hd
  exact hbp x hx

/-- One step of a pass from the running remainder `r`: no product and no sum overflows, the cast of
the digit loses nothing, and the remainder stays one. -/
structure StepSound (base divisor r : Word64) (limb : BitVec w) : Prop where
  remainder : r.toNat < divisor.toNat
  product : r.toNat * base.toNat < 2 ^ 64
  sum : limb.toNat + r.toNat * base.toNat < 2 ^ 64
  digit : ((limb.setWidth 64 + r * base) / divisor).toNat < base.toNat
  cast : (((limb.setWidth 64 + r * base) / divisor).setWidth w).toNat =
    ((limb.setWidth 64 + r * base) / divisor).toNat
  next : ((limb.setWidth 64 + r * base) % divisor).toNat < divisor.toNat

/-- Every step of a pass over `bp` is sound, and has room for its digit among those before it. -/
def PassSound (base divisor : Word64) (bp : List (BitVec w)) : Prop :=
  ∀ pre limb post, bp = pre ++ limb :: post →
    StepSound base divisor (longDiv base divisor pre).2 limb ∧
      (longDiv base divisor pre).1.length ≤ pre.length

theorem stepSound (hw : w ≤ 64) (hbase : base.toNat ≤ 2 ^ w)
    (hfit : divisor.toNat * base.toNat ≤ 2 ^ 64) {r : Word64} {limb : BitVec w}
    (hlimb : limb.toNat < base.toNat) (hr : r.toNat < divisor.toNat) :
    StepSound base divisor r limb := by
  obtain ⟨hproduct, hsum, hvalue, hquot⟩ := joined_fits hw hfit hlimb hr
  have hdigit : ((limb.setWidth 64 + r * base) / divisor).toNat < base.toNat := by
    rwa [BitVec.toNat_udiv, hvalue]
  refine ⟨hr, hproduct, hsum, hdigit, ?_, ?_⟩
  · rw [BitVec.toNat_setWidth]
    exact Nat.mod_eq_of_lt (Nat.lt_of_lt_of_le hdigit hbase)
  · rw [BitVec.toNat_umod]
    exact Nat.mod_lt _ (Nat.zero_lt_of_lt hr)

theorem longDiv_length_le (bp : List (BitVec w)) :
    (longDiv base divisor bp).1.length ≤ bp.length := by
  induction bp using List.reverseRecOn with
  | nil => exact Nat.le_refl 0
  | append_singleton bp limb ih =>
    rw [longDiv_concat, longDivStep]
    split_ifs
    · simpa using ih
    · simp only [List.length_append]
      omega

theorem passSound (hw : w ≤ 64) (hbase : base.toNat ≤ 2 ^ w)
    (hfit : divisor.toNat * base.toNat ≤ 2 ^ 64) (hpos : 0 < divisor.toNat) {bp : List (BitVec w)}
    (hbp : ∀ x ∈ bp, x.toNat < base.toNat) : PassSound base divisor bp := by
  rintro pre limb post rfl
  exact ⟨stepSound hw hbase hfit (hbp limb (by simp)) (longDiv_remainder_lt hpos pre),
    longDiv_length_le pre⟩

end LongDiv

/-- What a pass of either loop hands to the next one: a quotient that has room for one digit
less than the number had. -/
theorem longDiv_pass {w : ℕ} (base divisor : Word64) (hw : w ≤ 64) (hbase : base.toNat ≤ 2 ^ w)
    (hone : 1 < base.toNat) (hfit : divisor.toNat * base.toNat ≤ 2 ^ 64) (hpos : 0 < divisor.toNat)
    {bp : List (BitVec w)} (hbp : ∀ x ∈ bp, x.toNat < base.toNat) :
    let v := value base.toNat (bp.map BitVec.toNat)
    let r := longDiv base divisor bp
    value base.toNat (r.1.map BitVec.toNat) = v / divisor.toNat ∧ r.2.toNat = v % divisor.toNat ∧
      (∀ x ∈ r.1, x.toNat < base.toNat) ∧
      ∀ k, v < divisor.toNat ^ (k + 1) →
        v / divisor.toNat < divisor.toNat ^ k ∧ (r.1 ≠ [] → 0 < k) := by
  intro v r
  obtain ⟨hq, hr⟩ := Prod.mk.inj (limbValues_longDiv hw hbase hone hfit hpos hbp)
  refine ⟨by rw [hq, Positional.value_numeral], hr, fun x hx => ?_, fun k hroom => ?_⟩
  · have hmem := List.mem_map_of_mem (f := BitVec.toNat) hx
    rw [hq] at hmem
    exact Positional.numeral_lt hone hmem
  · have hlt : v / divisor.toNat < divisor.toNat ^ k := Nat.div_lt_of_lt_mul (by rwa [← pow_succ'])
    refine ⟨hlt, fun hne => Nat.pos_of_ne_zero fun hk => hne ?_⟩
    have hzero : v / divisor.toNat = 0 := by simpa [hk] using hlt
    rwa [hzero, Positional.numeral_zero, List.map_eq_nil_iff] at hq

theorem toNat_lt_two_pow {w : ℕ} {bp : List (BitVec w)} : ∀ x ∈ bp, x.toNat < 2 ^ w :=
  fun x _ => x.isLt

end Chronoid
