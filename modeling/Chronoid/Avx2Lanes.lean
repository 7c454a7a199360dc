import Chronoid.Bytes
import Chronoid.Library.Reciprocal

/-! The four 64-bit lanes of an AVX2 register, the intrinsics of the bulk encoder and
its exact division by 62. -/

namespace Chronoid

/-- A 256-bit register as four 64-bit lanes. -/
abbrev M256i := Vector Word64 4

def mm256Set1Epi64x (x : Word64) : M256i := Vector.replicate 4 x
def mm256SetzeroSi256 : M256i := Vector.replicate 4 0#64
def mm256SrliEpi64 (a : M256i) (count : ℕ) : M256i := a.map fun x : Word64 => x >>> count
def mm256SlliEpi64 (a : M256i) (count : ℕ) : M256i := a.map fun x : Word64 => x <<< count
def mm256AddEpi64 (a b : M256i) : M256i := Vector.zipWith (· + ·) a b
def mm256SubEpi64 (a b : M256i) : M256i := Vector.zipWith (· - ·) a b
def mm256AndSi256 (a b : M256i) : M256i := Vector.zipWith (· &&& ·) a b
def mm256OrSi256 (a b : M256i) : M256i := Vector.zipWith (· ||| ·) a b

def mm256MulEpu32 (a b : M256i) : M256i :=
  Vector.zipWith (fun x y => (x.setWidth 32).setWidth 64 * (y.setWidth 32).setWidth 64) a b

def mm256CmpgtEpi64 (a b : M256i) : M256i :=
  Vector.zipWith (fun x y => if y.slt x then BitVec.allOnes 64 else 0#64) a b

def ksuidDiv62M : Word64 := 0x421084210842108#64

def ksuidMulhi64Avx2 (a b : M256i) : M256i :=
  let mask32 := mm256Set1Epi64x 0xFFFFFFFF#64
  let aHi := mm256SrliEpi64 a 32
  let bHi := mm256SrliEpi64 b 32
  let ll := mm256MulEpu32 a b
  let lh := mm256MulEpu32 a bHi
  let hl := mm256MulEpu32 aHi b
  let hh := mm256MulEpu32 aHi bHi
  let llHi := mm256SrliEpi64 ll 32
  let lhLo := mm256AndSi256 lh mask32
  let hlLo := mm256AndSi256 hl mask32
  let lhHi := mm256SrliEpi64 lh 32
  let hlHi := mm256SrliEpi64 hl 32
  let midLow := mm256AddEpi64 (mm256AddEpi64 lhLo hlLo) llHi
  let midCarry := mm256SrliEpi64 midLow 32
  mm256AddEpi64 (mm256AddEpi64 hh lhHi) (mm256AddEpi64 hlHi midCarry)

def ksuidDivmod62Avx2 (value mag : M256i) : M256i × M256i :=
  let q := ksuidMulhi64Avx2 value mag
  let q62 := mm256SubEpi64 (mm256SlliEpi64 q 6) (mm256SlliEpi64 q 1)
  let r := mm256SubEpi64 value q62
  let ge62 := mm256CmpgtEpi64 r (mm256Set1Epi64x 61#64)
  (mm256AddEpi64 q (mm256AndSi256 ge62 (mm256Set1Epi64x 1#64)),
    mm256SubEpi64 r (mm256AndSi256 ge62 (mm256Set1Epi64x 62#64)))

theorem toNat_mulEpu32 (x y : Word64) :
    ((x.setWidth 32).setWidth 64 * (y.setWidth 32).setWidth 64).toNat =
      x.toNat % 2 ^ 32 * (y.toNat % 2 ^ 32) := by
  have hx : x.toNat % 2 ^ 32 < 2 ^ 32 := Nat.mod_lt _ (by decide)
  have hy : y.toNat % 2 ^ 32 < 2 ^ 32 := Nat.mod_lt _ (by decide)
  have hxy := Nat.mul_lt_mul'' hx hy
  simp only [BitVec.toNat_mul, BitVec.toNat_setWidth]
  rw [Nat.mod_eq_of_lt (a := x.toNat % 2 ^ 32) (by omega),
    Nat.mod_eq_of_lt (a := y.toNat % 2 ^ 32) (by omega), Nat.mod_eq_of_lt (by omega)]

theorem toNat_srl32 (z : Word64) : (z >>> 32).toNat = z.toNat / 2 ^ 32 := by
  rw [BitVec.toNat_ushiftRight, Nat.shiftRight_eq_div_pow]

theorem toNat_and_mask32 (z : Word64) : (z &&& 0xFFFFFFFF#64).toNat = z.toNat % 2 ^ 32 := by
  rw [BitVec.toNat_and]
  exact Nat.and_two_pow_sub_one_eq_mod _ 32

theorem toNat_srl32_mod (z : Word64) : (z >>> 32).toNat % 2 ^ 32 = z.toNat / 2 ^ 32 := by
  have hz := z.isLt
  rw [toNat_srl32]
  omega

/-- In one lane no sum of the high product wraps, so it has the value of the schoolbook product. -/
theorem mulhi_lane {x y ll lh hl hh : Word64}
    (hll : ll.toNat = x.toNat % 2 ^ 32 * (y.toNat % 2 ^ 32))
    (hlh : lh.toNat = x.toNat % 2 ^ 32 * (y.toNat / 2 ^ 32))
    (hhl : hl.toNat = x.toNat / 2 ^ 32 * (y.toNat % 2 ^ 32))
    (hhh : hh.toNat = x.toNat / 2 ^ 32 * (y.toNat / 2 ^ 32)) :
    let mid := (lh &&& 0xFFFFFFFF#64) + (hl &&& 0xFFFFFFFF#64)
    let carry := (mid + ll >>> 32) >>> 32
    (lh &&& 0xFFFFFFFF#64).toNat + (hl &&& 0xFFFFFFFF#64).toNat < 2 ^ 64 ∧
      mid.toNat + (ll >>> 32).toNat < 2 ^ 64 ∧ hh.toNat + (lh >>> 32).toNat < 2 ^ 64 ∧
      (hl >>> 32).toNat + carry.toNat < 2 ^ 64 ∧
      (hh + lh >>> 32).toNat + (hl >>> 32 + carry).toNat < 2 ^ 64 ∧
      (hh + lh >>> 32 + (hl >>> 32 + carry)).toNat = x.toNat * y.toNat / 2 ^ 64 := by
  have hhigh := Reciprocal.mul_high (n := 2 ^ 32) (by decide) (x.toNat / 2 ^ 32) (x.toNat % 2 ^ 32)
      (y.toNat / 2 ^ 32) (y.toNat % 2 ^ 32)
  rw [Nat.div_add_mod', Nat.div_add_mod', ← hll, ← hlh, ← hhl, ← hhh] at hhigh
  have hlt : x.toNat * y.toNat / (2 ^ 32 * 2 ^ 32) < 2 ^ 64 :=
    Nat.div_lt_of_lt_mul (Nat.mul_lt_mul'' x.isLt y.isLt)
  rw [hhigh] at hlt
  have hllt := ll.isLt
  have hmid : ((lh &&& 0xFFFFFFFF#64) + (hl &&& 0xFFFFFFFF#64)).toNat =
      lh.toNat % 2 ^ 32 + hl.toNat % 2 ^ 32 := by
    rw [BitVec.toNat_add, toNat_and_mask32, toNat_and_mask32]
    omega
  have hcarry : (((lh &&& 0xFFFFFFFF#64) + (hl &&& 0xFFFFFFFF#64) + ll >>> 32) >>> 32).toNat =
      (lh.toNat % 2 ^ 32 + hl.toNat % 2 ^ 32 + ll.toNat / 2 ^ 32) / 2 ^ 32 := by
    rw [toNat_srl32, BitVec.toNat_add, hmid, toNat_srl32]
    omega
  have hleft : (hh + lh >>> 32).toNat = hh.toNat + lh.toNat / 2 ^ 32 := by
    rw [BitVec.toNat_add, toNat_srl32]
    omega
  intro mid carry
  have hright : (hl >>> 32 + carry).toNat = hl.toNat / 2 ^ 32 +
      (lh.toNat % 2 ^ 32 + hl.toNat % 2 ^ 32 + ll.toNat / 2 ^ 32) / 2 ^ 32 := by
    rw [BitVec.toNat_add, hcarry, toNat_srl32]
    omega
  rw [hmid, hcarry, hleft, hright, BitVec.toNat_add, hleft, hright,
    show 2 ^ 64 = 2 ^ 32 * 2 ^ 32 from rfl, hhigh, toNat_and_mask32, toNat_and_mask32, toNat_srl32,
    toNat_srl32, toNat_srl32]
  omega

theorem mulhi_lane_mulEpu32 (x y : Word64) :
    let mul (u v : Word64) := (u.setWidth 32).setWidth 64 * (v.setWidth 32).setWidth 64
    (mul x y).toNat = x.toNat % 2 ^ 32 * (y.toNat % 2 ^ 32) ∧
      (mul x (y >>> 32)).toNat = x.toNat % 2 ^ 32 * (y.toNat / 2 ^ 32) ∧
      (mul (x >>> 32) y).toNat = x.toNat / 2 ^ 32 * (y.toNat % 2 ^ 32) ∧
      (mul (x >>> 32) (y >>> 32)).toNat = x.toNat / 2 ^ 32 * (y.toNat / 2 ^ 32) := by
  intro mul
  have hlh := toNat_mulEpu32 x (y >>> 32)
  have hhl := toNat_mulEpu32 (x >>> 32) y
  have hhh := toNat_mulEpu32 (x >>> 32) (y >>> 32)
  rw [toNat_srl32_mod] at hlh hhl
  rw [toNat_srl32_mod, toNat_srl32_mod] at hhh
  exact ⟨toNat_mulEpu32 x y, hlh, hhl, hhh⟩

theorem toNat_mulhi64 (a b : M256i) {k : ℕ} (h : k < 4) :
    (ksuidMulhi64Avx2 a b)[k].toNat = a[k].toNat * b[k].toNat / 2 ^ 64 := by
  simp only [ksuidMulhi64Avx2, mm256AddEpi64, mm256SrliEpi64, mm256AndSi256, mm256MulEpu32,
    mm256Set1Epi64x, Vector.getElem_zipWith, Vector.getElem_map, Vector.getElem_replicate]
  obtain ⟨hll, hlh, hhl, hhh⟩ := mulhi_lane_mulEpu32 a[k] b[k]
  obtain ⟨-, -, -, -, -, hvalue⟩ := mulhi_lane hll hlh hhl hhh
  exact hvalue

/-- `mm256AddEpi64`, refused where the sum of some lane does not fit. -/
def mm256AddEpi64Checked (a b : M256i) : Option M256i :=
  if ∀ k, (a.get k).toNat + (b.get k).toNat < 2 ^ 64 then some (mm256AddEpi64 a b) else none

/-- `ksuidMulhi64Avx2` with every addition checked. -/
def ksuidMulhi64Checked (a b : M256i) : Option M256i := do
  let mask32 := mm256Set1Epi64x 0xFFFFFFFF#64
  let aHi := mm256SrliEpi64 a 32
  let bHi := mm256SrliEpi64 b 32
  let ll := mm256MulEpu32 a b
  let lh := mm256MulEpu32 a bHi
  let hl := mm256MulEpu32 aHi b
  let hh := mm256MulEpu32 aHi bHi
  let llHi := mm256SrliEpi64 ll 32
  let lhLo := mm256AndSi256 lh mask32
  let hlLo := mm256AndSi256 hl mask32
  let lhHi := mm256SrliEpi64 lh 32
  let hlHi := mm256SrliEpi64 hl 32
  let mid ← mm256AddEpi64Checked lhLo hlLo
  let midLow ← mm256AddEpi64Checked mid llHi
  let midCarry := mm256SrliEpi64 midLow 32
  let left ← mm256AddEpi64Checked hh lhHi
  let right ← mm256AddEpi64Checked hlHi midCarry
  mm256AddEpi64Checked left right

theorem mm256AddEpi64Checked_of_lt {a b : M256i}
    (h : ∀ k (hk : k < 4), a[k].toNat + b[k].toNat < 2 ^ 64) :
    mm256AddEpi64Checked a b = some (mm256AddEpi64 a b) := by
  rw [mm256AddEpi64Checked]
  exact if_pos fun k : Fin 4 => h k.val k.isLt

theorem ksuidMulhi64Checked_eq (a b : M256i) :
    ksuidMulhi64Checked a b = some (ksuidMulhi64Avx2 a b) := by
  have hlane (k : ℕ) (hk : k < 4) := mulhi_lane (mulhi_lane_mulEpu32 a[k] b[k]).1
    (mulhi_lane_mulEpu32 a[k] b[k]).2.1 (mulhi_lane_mulEpu32 a[k] b[k]).2.2.1
    (mulhi_lane_mulEpu32 a[k] b[k]).2.2.2
  simp only [ksuidMulhi64Checked]
  rw [mm256AddEpi64Checked_of_lt, Option.bind_eq_bind, Option.bind_some, mm256AddEpi64Checked_of_lt,
    Option.bind_some, mm256AddEpi64Checked_of_lt, Option.bind_some, mm256AddEpi64Checked_of_lt,
    Option.bind_some, mm256AddEpi64Checked_of_lt]
  · rfl
  all_goals
    intro k hk
    simp only [mm256AddEpi64, mm256SrliEpi64, mm256AndSi256, mm256MulEpu32, mm256Set1Epi64x,
      Vector.getElem_zipWith, Vector.getElem_map, Vector.getElem_replicate]
  · exact (hlane k hk).2.2.2.2.1
  · exact (hlane k hk).2.2.2.1
  · exact (hlane k hk).2.2.1
  · exact (hlane k hk).2.1
  · exact (hlane k hk).1

theorem toNat_ksuidDiv62M : ksuidDiv62M.toNat = 2 ^ 64 / 62 := by
  decide

theorem divmod62_lane {v q : Word64} (hq : q.toNat = v.toNat * (2 ^ 64 / 62) / 2 ^ 64) :
    (q + ((if (61#64).slt (v - (q <<< 6 - q <<< 1)) then BitVec.allOnes 64 else 0#64) &&&
        1#64)).toNat = v.toNat / 62 ∧
      (v - (q <<< 6 - q <<< 1) -
        ((if (61#64).slt (v - (q <<< 6 - q <<< 1)) then BitVec.allOnes 64 else 0#64) &&&
          62#64)).toNat = v.toNat % 62 := by
  have hlow : q.toNat ≤ v.toNat / 62 := hq ▸ Reciprocal.mul_floor_div_le (by decide) (by decide)
  have hhigh : v.toNat / 62 ≤ q.toNat + 1 := hq ▸ Reciprocal.div_le_mul_floor_div (by decide) v.isLt
  obtain ⟨hle, hlt, hquot, hrem⟩ := Reciprocal.corrected (by decide) hlow hhigh
  have hv := v.isLt
  have hr : (v - (q <<< 6 - q <<< 1)).toNat = v.toNat - q.toNat * 62 := by
    rw [BitVec.toNat_sub, BitVec.toNat_sub, BitVec.toNat_shiftLeft, BitVec.toNat_shiftLeft,
      Nat.shiftLeft_eq, Nat.shiftLeft_eq]
    omega
  generalize v - (q <<< 6 - q <<< 1) = r at *
  have hcmp : (61#64).slt r = decide (62 ≤ r.toNat) := by
    rw [BitVec.slt_eq_decide, BitVec.toInt_eq_toNat_of_lt (by decide),
      BitVec.toInt_eq_toNat_of_lt (by omega)]
    refine decide_eq_decide.mpr ?_
    rw [BitVec.toNat_ofNat]
    omega
  rw [hcmp, ← hquot, ← hrem, ← hr]
  by_cases hge : 62 ≤ r.toNat
  · simp only [hge, decide_true, if_true, BitVec.allOnes_and]
    bv_omega
  · simp [hge]

theorem ksuidDivmod62Avx2_getElem (value : M256i) {k : ℕ} (h : k < 4) :
    (ksuidDivmod62Avx2 value (mm256Set1Epi64x ksuidDiv62M)).1[k].toNat = value[k].toNat / 62 ∧
      (ksuidDivmod62Avx2 value (mm256Set1Epi64x ksuidDiv62M)).2[k].toNat = value[k].toNat % 62 := by
  have hq := toNat_mulhi64 value (mm256Set1Epi64x ksuidDiv62M) h
  have hmag : (mm256Set1Epi64x ksuidDiv62M)[k].toNat = 2 ^ 64 / 62 := by
    rw [mm256Set1Epi64x, Vector.getElem_replicate, toNat_ksuidDiv62M]
  rw [hmag] at hq
  unfold ksuidDivmod62Avx2
  generalize ksuidMulhi64Avx2 value (mm256Set1Epi64x ksuidDiv62M) = q at *
  simp only [mm256AddEpi64, mm256SubEpi64, mm256AndSi256, mm256SlliEpi64, mm256CmpgtEpi64,
    mm256Set1Epi64x, Vector.getElem_zipWith, Vector.getElem_map, Vector.getElem_replicate]
  exact divmod62_lane hq

/-- No sum of the high product wraps in any lane, it is the exact one, and the division by 62
built on it is exact for every 64-bit value. -/
theorem avx2_division_exact :
    (∀ a b : M256i, ksuidMulhi64Checked a b = some (ksuidMulhi64Avx2 a b) ∧
      ∀ k, ((ksuidMulhi64Avx2 a b).get k).toNat = (a.get k).toNat * (b.get k).toNat / 2 ^ 64) ∧
    ∀ (value : M256i) (k : Fin 4),
      let d := ksuidDivmod62Avx2 value (mm256Set1Epi64x ksuidDiv62M)
      (d.1.get k).toNat = (value.get k).toNat / 62 ∧
          (d.2.get k).toNat = (value.get k).toNat % 62 := by
  constructor
  · intro a b
    exact ⟨ksuidMulhi64Checked_eq a b, fun k => toNat_mulhi64 a b k.isLt⟩
  · intro value k
    exact ksuidDivmod62Avx2_getElem value k.isLt

end Chronoid
