import Chronoid.Simd128

/-! The base62 alphabet, its inverse table, and the kernels that translate and
validate sixteen characters at a time. -/

namespace Chronoid

def kB62Alphabet : List Byte :=
  (['0', '1', '2', '3', '4', '5', '6', '7', '8', '9',
    'A', 'B', 'C', 'D', 'E', 'F', 'G', 'H', 'I', 'J', 'K', 'L', 'M',
    'N', 'O', 'P', 'Q', 'R', 'S', 'T', 'U', 'V', 'W', 'X', 'Y', 'Z',
    'a', 'b', 'c', 'd', 'e', 'f', 'g', 'h', 'i', 'j', 'k', 'l', 'm',
    'n', 'o', 'p', 'q', 'r', 's', 't', 'u', 'v', 'w', 'x', 'y', 'z'].map charByte) ++ [0#8]

def valueRun (first count : ℕ) : List Byte :=
  (List.range count).map fun i => BitVec.ofNat 8 (first + i)
def invalidRun (count : ℕ) : List Byte := List.replicate count 0xFF#8

def kB62Value : List Byte :=
  invalidRun 0x30 ++ valueRun 0 10 ++ invalidRun 7 ++ valueRun 10 26 ++ invalidRun 6 ++
    valueRun 36 26 ++ invalidRun 5 ++ invalidRun 128

theorem length_kB62Value : kB62Value.length = 256 := by
  simp only [kB62Value, invalidRun, valueRun, List.length_append, List.length_replicate,
    List.length_map, List.length_range]

def b62Value (c : Byte) : Byte := kB62Value.get ⟨c.toNat, length_kB62Value.symm ▸ c.isLt⟩

/-- The digit a character stands for: `0`-`9`, `A`-`Z`, `a`-`z` are 0..61. -/
def base62Digit (c : Byte) : Option ℕ :=
  if 0x30 ≤ c.toNat ∧ c.toNat ≤ 0x39 then some (c.toNat - 0x30)
  else if 0x41 ≤ c.toNat ∧ c.toNat ≤ 0x5A then some (c.toNat - 0x41 + 10)
  else if 0x61 ≤ c.toNat ∧ c.toNat ≤ 0x7A then some (c.toNat - 0x61 + 36)
  else none

def base62Char (d : ℕ) : Byte := kB62Alphabet.getD d 0#8

theorem base62Digit_lt {c : Byte} {d : ℕ} (h : base62Digit c = some d) : d < 62 := by
  simp only [base62Digit] at h
  split_ifs at h <;> simp only [Option.some.injEq] at h <;> omega

theorem kB62Value_eq : kB62Value = (List.range 256).map fun n =>
    (base62Digit (BitVec.ofNat 8 n)).elim 0xFF#8 (BitVec.ofNat 8) := by
  decide +kernel

theorem b62Value_eq (c : Byte) :
    b62Value c = (base62Digit c).elim 0xFF#8 (BitVec.ofNat 8) := by
  simp only [b62Value, kB62Value_eq, List.get_eq_getElem, List.getElem_map, List.getElem_range,
    BitVec.ofNat_toNat, BitVec.setWidth_eq]

theorem b62Value_eq_invalid {c : Byte} : b62Value c = 0xFF#8 ↔ base62Digit c = none := by
  rw [b62Value_eq]
  cases h : base62Digit c with
  | none => simp
  | some d =>
    have := base62Digit_lt h
    simp only [Option.elim_some, reduceCtorEq, iff_false]
    bv_omega

theorem toNat_b62Value {c : Byte} {d : ℕ} (h : base62Digit c = some d) :
    (b62Value c).toNat = d := by
  have := base62Digit_lt h
  simp only [b62Value_eq, h, Option.elim_some, BitVec.toNat_ofNat]
  omega

theorem kB62Alphabet_getElem? {d : ℕ} (h : d < 62) : kB62Alphabet[d]? = some (base62Char d) := by
  have : d < kB62Alphabet.length := Nat.lt_trans h (by decide)
  simp [base62Char, this]

theorem base62Digit_base62Char {d : ℕ} (h : d < 62) : base62Digit (base62Char d) = some d := by
  revert d
  decide

theorem base62Char_of_base62Digit {c : Byte} {d : ℕ} (h : base62Digit c = some d) :
    base62Char d = c := by
  have hh : ∀ c : Byte, (base62Digit c).elim c base62Char = c := by decide
  simpa [h] using hh c

theorem base62Char_lt_succ : ∀ d < 61, base62Char d < base62Char (d + 1) := by
  decide

theorem base62Char_lt_iff : ∀ d < 62, ∀ e < 62, (base62Char d < base62Char e ↔ d < e) := by
  have hmono {d e : ℕ} (hde : d < e) (he : e < 62) : base62Char d < base62Char e := by
    induction e, hde using Nat.le_induction with
    | base => exact base62Char_lt_succ d (by omega)
    | succ e hde ih => exact BitVec.lt_trans (ih (by omega)) (base62Char_lt_succ e (by omega))
  intro d hd e he
  refine ⟨fun h => ?_, fun h => hmono h he⟩
  by_contra hle
  rcases Nat.lt_or_eq_of_le (Nat.le_of_not_lt hle) with hed | rfl
  · exact BitVec.lt_asymm h (hmono hed hd)
  · exact BitVec.lt_irrefl _ h

def base62Translate16Scalar (inp : M128) : M128 × Int :=
  let out := inp.map b62Value
  let valid := out.toList.foldl (fun valid v => if v == 0xFF#8 then false else valid) true
  (out, if valid then 0 else -1)

def base62Translate16Sse2 (v : M128) : M128 × Int :=
  let d := mmSubEpi8 v (mmSet1Epi8 (charByte '0'))
  let dMask := mmCmpeqEpi8 (mmMinEpu8 d (mmSet1Epi8 9#8)) d
  let dVal := mmAndSi128 dMask d
  let u := mmSubEpi8 v (mmSet1Epi8 (charByte 'A'))
  let uMask := mmCmpeqEpi8 (mmMinEpu8 u (mmSet1Epi8 25#8)) u
  let uVal := mmAndSi128 uMask (mmAddEpi8 u (mmSet1Epi8 10#8))
  let l := mmSubEpi8 v (mmSet1Epi8 (charByte 'a'))
  let lMask := mmCmpeqEpi8 (mmMinEpu8 l (mmSet1Epi8 25#8)) l
  let lVal := mmAndSi128 lMask (mmAddEpi8 l (mmSet1Epi8 36#8))
  let anyMask := mmOrSi128 (mmOrSi128 dMask uMask) lMask
  let values := mmOrSi128 (mmOrSi128 dVal uVal) lVal
  let invalidFill := mmAndnotSi128 anyMask (mmSet1Epi8 0xFF#8)
  (mmOrSi128 values invalidFill, if mmMovemaskEpi8 anyMask == 0xFFFF#32 then 0 else -1)

/-- `allOnes` is the reduction of the build: across the register on AArch64, pairwise on ARMv7. -/
def base62Translate16Neon (allOnes : M128 → Bool) (v : M128) : M128 × Int :=
  let d := vsubqU8 v (vdupqNU8 (charByte '0'))
  let dMask := vcleqU8 d (vdupqNU8 9#8)
  let dVal := vandqU8 dMask d
  let u := vsubqU8 v (vdupqNU8 (charByte 'A'))
  let uMask := vcleqU8 u (vdupqNU8 25#8)
  let uVal := vandqU8 uMask (vaddqU8 u (vdupqNU8 10#8))
  let l := vsubqU8 v (vdupqNU8 (charByte 'a'))
  let lMask := vcleqU8 l (vdupqNU8 25#8)
  let lVal := vandqU8 lMask (vaddqU8 l (vdupqNU8 36#8))
  let anyMask := vorrqU8 (vorrqU8 dMask uMask) lMask
  let values := vorrqU8 (vorrqU8 dVal uVal) lVal
  let invalidFill := vbicqU8 (vdupqNU8 0xFF#8) anyMask
  (vorrqU8 values invalidFill, if allOnes anyMask then 0 else -1)

def base62Translate16 : Simd → M128 → M128 × Int
  | .sse2 => base62Translate16Sse2
  | .neonA64 => base62Translate16Neon allOnesA64
  | .neonV7 => base62Translate16Neon allOnesV7
  | .scalar => base62Translate16Scalar

theorem foldl_valid (vs : List Byte) (valid : Bool) :
    vs.foldl (fun valid v => if v == 0xFF#8 then false else valid) valid =
      (valid && vs.all fun v => v != 0xFF#8) := by
  induction vs generalizing valid with
  | nil => simp
  | cons v vs ih =>
    rw [List.foldl_cons, ih, List.all_cons]
    cases h : v == 0xFF#8 <;> simp [h, bne]

/-- What every kernel computes: the table at each character, and whether all are digits. -/
def Translates (kernel : M128 → M128 × Int) : Prop :=
  ∀ v, kernel v =
    (v.map b62Value, if ∀ i (h : i < 16), (base62Digit v[i]).isSome then 0 else -1)

theorem base62Translate16Scalar_translates : Translates base62Translate16Scalar := by
  intro v
  simp only [base62Translate16Scalar, foldl_valid, Bool.true_and, Prod.mk.injEq, true_and]
  congr 1
  simp [b62Value_eq_invalid, Option.ne_none_iff_isSome]

theorem base62Translate16Sse2_translates : Translates base62Translate16Sse2 := by
  intro v
  simp only [base62Translate16Sse2, Prod.mk.injEq, beq_iff_eq, mmMovemaskEpi8_eq_full]
  constructor
  · ext1 i hi
    simp only [mmSubEpi8, mmAddEpi8, mmSet1Epi8, mmCmpeqEpi8, mmMinEpu8, mmAndSi128, mmOrSi128,
      mmAndnotSi128, Vector.getElem_zipWith, Vector.getElem_replicate, Vector.getElem_map,
      b62Value_eq]
    generalize v[i] = x
    revert x
    decide
  · refine if_congr (forall₂_congr fun i hi => ?_) rfl rfl
    simp only [mmSubEpi8, mmSet1Epi8, mmCmpeqEpi8, mmMinEpu8, mmOrSi128,
      Vector.getElem_zipWith, Vector.getElem_replicate]
    generalize v[i] = x
    revert x
    decide

theorem base62Translate16Neon_translates {allOnes : M128 → Bool}
    (h : ∀ m, allOnes m = true ↔ ∀ i (h : i < 16), m[i] = 0xFF#8) :
    Translates (base62Translate16Neon allOnes) := by
  intro v
  simp only [base62Translate16Neon, Prod.mk.injEq, h]
  constructor
  · ext1 i hi
    simp only [vsubqU8, vaddqU8, vdupqNU8, vcleqU8, vandqU8, vorrqU8, vbicqU8,
      Vector.getElem_zipWith, Vector.getElem_replicate, Vector.getElem_map, b62Value_eq]
    generalize v[i] = x
    revert x
    decide
  · refine if_congr (forall₂_congr fun i hi => ?_) rfl rfl
    simp only [vsubqU8, vdupqNU8, vcleqU8, vorrqU8, Vector.getElem_zipWith,
      Vector.getElem_replicate]
    generalize v[i] = x
    revert x
    decide

theorem base62Translate16_translates (simd : Simd) : Translates (base62Translate16 simd) := by
  cases simd with
  | sse2 => exact base62Translate16Sse2_translates
  | neonA64 => exact base62Translate16Neon_translates allOnesA64_iff
  | neonV7 => exact base62Translate16Neon_translates allOnesV7_iff
  | scalar => exact base62Translate16Scalar_translates

end Chronoid
