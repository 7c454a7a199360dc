import Chronoid.Bytes
import Mathlib.Tactic.IntervalCases

/-! The 128-bit byte registers of SSE2 and NEON and the intrinsics the sixteen-byte
kernels use. -/

namespace Chronoid

/-- Which kernels a build selects for the base62 decoder and the KSUID compare. -/
inductive Simd where
  | sse2
  | neonA64
  | neonV7
  | scalar
  deriving DecidableEq, Repr

/-- A 128-bit register as its bytes, lane 0 at the lowest address. -/
abbrev M128 := Vector Byte 16

def minByte (x y : Byte) : Byte := if x ≤ y then x else y
def byteMask (p : Bool) : Byte := if p then 0xFF#8 else 0#8

def mmSet1Epi8 (x : Byte) : M128 := Vector.replicate 16 x
def mmAddEpi8 (a b : M128) : M128 := Vector.zipWith (· + ·) a b
def mmSubEpi8 (a b : M128) : M128 := Vector.zipWith (· - ·) a b
def mmMinEpu8 (a b : M128) : M128 := Vector.zipWith minByte a b
def mmCmpeqEpi8 (a b : M128) : M128 := Vector.zipWith (fun x y => byteMask (x == y)) a b
def mmAndSi128 (a b : M128) : M128 := Vector.zipWith (· &&& ·) a b
def mmOrSi128 (a b : M128) : M128 := Vector.zipWith (· ||| ·) a b
def mmAndnotSi128 (a b : M128) : M128 := Vector.zipWith (fun x y => ~~~x &&& y) a b

def mmMovemaskEpi8 (a : M128) : Word32 :=
  (BitVec.ofBoolListLE (a.toList.map BitVec.msb)).setWidth 32

def mmSrliEpi16 (a : M128) (count : ℕ) : M128 := Vector.ofFn fun i =>
  let lane := a[2 * (i.val / 2) + 1] ++ a[2 * (i.val / 2)]
  if i.val % 2 = 0 then (lane >>> count).setWidth 8 else (lane >>> count >>> 8).setWidth 8

/-- Table lookup by the low four bits of each index byte, zero where its top bit is set. -/
def mmShuffleEpi8 (a idx : M128) : M128 :=
  idx.map fun x => if x.msb then 0#8 else a.get ((x.setWidth 4).toFin)

def mmUnpackloEpi8 (a b : M128) : M128 := Vector.ofFn fun i =>
  if i.val % 2 = 0 then a[i.val / 2] else b[i.val / 2]
def mmUnpackhiEpi8 (a b : M128) : M128 := Vector.ofFn fun i =>
  if i.val % 2 = 0 then a[8 + i.val / 2] else b[8 + i.val / 2]

def vdupqNU8 (x : Byte) : M128 := Vector.replicate 16 x
def vaddqU8 (a b : M128) : M128 := Vector.zipWith (· + ·) a b
def vsubqU8 (a b : M128) : M128 := Vector.zipWith (· - ·) a b
def vcleqU8 (a b : M128) : M128 := Vector.zipWith (fun x y => byteMask (x ≤ y)) a b
def vceqqU8 (a b : M128) : M128 := Vector.zipWith (fun x y => byteMask (x == y)) a b
def vandqU8 (a b : M128) : M128 := Vector.zipWith (· &&& ·) a b
def vorrqU8 (a b : M128) : M128 := Vector.zipWith (· ||| ·) a b
def vbicqU8 (a b : M128) : M128 := Vector.zipWith (fun x y => x &&& ~~~y) a b

def vminvqU8 (a : M128) : Byte := a.toList.foldl minByte 0xFF#8

def vgetLowU8 (a : M128) : Vector Byte 8 := Vector.ofFn fun i => a[i.val]
def vgetHighU8 (a : M128) : Vector Byte 8 := Vector.ofFn fun i => a[i.val + 8]
def vandU8 (a b : Vector Byte 8) : Vector Byte 8 := Vector.zipWith (· &&& ·) a b

/-- Pairwise minima of the first operand in the low half, of the second in the high. -/
def vpminU8 (a b : Vector Byte 8) : Vector Byte 8 :=
  #v[minByte (a.get 0) (a.get 1), minByte (a.get 2) (a.get 3), minByte (a.get 4) (a.get 5),
    minByte (a.get 6) (a.get 7), minByte (b.get 0) (b.get 1), minByte (b.get 2) (b.get 3),
    minByte (b.get 4) (b.get 5), minByte (b.get 6) (b.get 7)]

/-- Whether the register is 0xFF in every lane, as AArch64 finds it. -/
def allOnesA64 (m : M128) : Bool := vminvqU8 m == 0xFF#8

/-- The same on ARMv7, which has no minimum across the register. -/
def allOnesV7 (m : M128) : Bool :=
  let both := vandU8 (vgetLowU8 m) (vgetHighU8 m)
  let r := vpminU8 both both
  let r := vpminU8 r r
  let r := vpminU8 r r
  r.get 0 == 0xFF#8

theorem byteMask_msb (p : Bool) : (byteMask p).msb = p := by
  cases p <;> rfl

theorem byteMask_eq_ones {p : Bool} : byteMask p = 0xFF#8 ↔ p = true := by
  cases p <;> simp [byteMask]

theorem getLsbD_mmMovemaskEpi8 (a : M128) {i : ℕ} (h : i < 16) :
    (mmMovemaskEpi8 a).getLsbD i = a[i].msb := by
  rw [mmMovemaskEpi8, BitVec.getLsbD_setWidth, BitVec.getLsbD_ofBoolListLE]
  simp [h, List.getD_eq_getElem?_getD, show i < 32 by omega]

theorem getLsbD_mmMovemaskEpi8_of_ge (a : M128) {i : ℕ} (h : 16 ≤ i) :
    (mmMovemaskEpi8 a).getLsbD i = false := by
  rw [mmMovemaskEpi8, BitVec.getLsbD_setWidth, BitVec.getLsbD_ofBoolListLE]
  simp [h, List.getD_eq_getElem?_getD]

theorem mmMovemaskEpi8_eq_full (a : M128) :
    mmMovemaskEpi8 a = 0xFFFF#32 ↔ ∀ i (h : i < 16), a[i].msb = true := by
  have hfull : ∀ i, (0xFFFF#32).getLsbD i = decide (i < 16) := by
    intro i
    by_cases hi : i < 32
    · revert i
      decide
    · rw [BitVec.getLsbD_of_ge _ _ (by omega)]
      simp [show ¬i < 16 by omega]
  constructor
  · intro h i hi
    rw [← getLsbD_mmMovemaskEpi8 a hi, h, hfull]
    simp [hi]
  · intro h
    refine BitVec.eq_of_getLsbD_eq fun i _ => ?_
    rw [hfull]
    by_cases hi : i < 16
    · simp [getLsbD_mmMovemaskEpi8 a hi, h i hi, hi]
    · simp [getLsbD_mmMovemaskEpi8_of_ge a (Nat.le_of_not_lt hi), hi]

theorem minByte_eq_ones {x y : Byte} : minByte x y = 0xFF#8 ↔ x = 0xFF#8 ∧ y = 0xFF#8 := by
  unfold minByte
  split_ifs with h <;> bv_omega

theorem foldl_minByte_eq_ones (xs : List Byte) (x : Byte) :
    xs.foldl minByte x = 0xFF#8 ↔ x = 0xFF#8 ∧ ∀ y ∈ xs, y = 0xFF#8 := by
  induction xs generalizing x with
  | nil => simp
  | cons y ys ih => simp [ih, minByte_eq_ones, and_assoc]

theorem and_eq_ones {x y : Byte} : x &&& y = 0xFF#8 ↔ x = 0xFF#8 ∧ y = 0xFF#8 := by
  constructor
  · intro h
    have hx : (x &&& y).toNat ≤ x.toNat := Nat.and_le_left
    have hy : (x &&& y).toNat ≤ y.toNat := Nat.and_le_right
    rw [h] at hx hy
    constructor <;> bv_omega
  · rintro ⟨rfl, rfl⟩
    rfl

theorem allOnesA64_iff (m : M128) : allOnesA64 m = true ↔ ∀ i (h : i < 16), m[i] = 0xFF#8 := by
  rw [allOnesA64, beq_iff_eq, vminvqU8, foldl_minByte_eq_ones]
  simp [Vector.forall_mem_iff_forall_getElem]

theorem vandU8_low_high (m : M128) (i : ℕ) (h : i < 8) :
    (vandU8 (vgetLowU8 m) (vgetHighU8 m))[i] = m[i] &&& m[i + 8] := by
  simp [vandU8, vgetLowU8, vgetHighU8]

theorem allOnesV7_iff (m : M128) : allOnesV7 m = true ↔ ∀ i (h : i < 16), m[i] = 0xFF#8 := by
  have hmin (v : Vector Byte 8) : vpminU8 v v = #v[minByte v[0] v[1], minByte v[2] v[3],
      minByte v[4] v[5], minByte v[6] v[7], minByte v[0] v[1], minByte v[2] v[3],
      minByte v[4] v[5], minByte v[6] v[7]] := rfl
  have hhead (v : Vector Byte 8) : v.get 0 = v[0] := rfl
  simp only [allOnesV7, hhead, hmin, beq_iff_eq, Vector.getElem_mk, List.getElem_toArray,
    List.getElem_cons_zero, List.getElem_cons_succ, minByte_eq_ones, vandU8_low_high, and_eq_ones]
  constructor
  · intro h i hi
    interval_cases i <;> simp_all
  · intro h
    refine ⟨⟨⟨?_, ?_⟩, ?_, ?_⟩, ⟨?_, ?_⟩, ?_, ?_⟩ <;> exact ⟨h _ _, h _ _⟩

end Chronoid
