import Chronoid.Ksuid
import Chronoid.Simd128

/-! The 20-byte compare kernels agree with `memcmp` on sign. -/

namespace Chronoid

def signOf : Ordering → Int
  | .lt => -1
  | .eq => 0
  | .gt => 1

def byteSign (x y : Byte) : Int := if x < y then -1 else 1

/-- The loop over the bytes `lo .. lo + n - 1`, with the value it returns from inside. -/
def compareLoop (a b : Vector Byte 20) : (lo n : ℕ) → lo + n ≤ 20 → Option Int
  | _, 0, _ => none
  | lo, n + 1, h =>
    if a[lo] ≠ b[lo] then some (byteSign a[lo] b[lo]) else compareLoop a b (lo + 1) n (by omega)

theorem tail_le : 16 + 4 ≤ 20 := by decide

def ksuidCompare20Scalar (a b : Vector Byte 20) : Int :=
  let r := memcmp a.toList b.toList
  (if r = .gt then 1 else 0) - (if r = .lt then 1 else 0)

/-- The index of the lowest set bit; on zero the builtin promises nothing. -/
def ksuidCtz32 (x : Word32) : ℕ := ((List.range 32).find? fun i => x.getLsbD i).getD 32

def ksuidFirstDiffSse2 (eqMask : Word32) : ℕ :=
  let diff := ~~~eqMask &&& 0xFFFF#32
  if diff = 0#32 then 16 else ksuidCtz32 diff

def headLanes (a : Vector Byte 20) : M128 := Vector.ofFn fun i => a[i.val]

def ksuidCompare20Sse2 (a b : Vector Byte 20) : Int :=
  let eqMask := mmMovemaskEpi8 (mmCmpeqEpi8 (headLanes a) (headLanes b))
  let idx := ksuidFirstDiffSse2 eqMask
  if h : idx < 16 then byteSign a[idx] b[idx]
  else (compareLoop a b 16 4 tail_le).getD 0

def ksuidCompare20Neon (allOnes : M128 → Bool) (a b : Vector Byte 20) : Int :=
  let veq := vceqqU8 (headLanes a) (headLanes b)
  let head := if !allOnes veq then compareLoop a b 0 16 (by decide) else none
  match head with
  | some r => r
  | none => (compareLoop a b 16 4 tail_le).getD 0

def ksuidCompare (simd : Simd) (a b : Ksuid) : Int :=
  match simd with
  | .sse2 => ksuidCompare20Sse2 a.b b.b
  | .neonA64 => ksuidCompare20Neon allOnesA64 a.b b.b
  | .neonV7 => ksuidCompare20Neon allOnesV7 a.b b.b
  | .scalar => ksuidCompare20Scalar a.b b.b

theorem ksuidCompare20Scalar_eq (a b : Vector Byte 20) :
    ksuidCompare20Scalar a b = signOf (memcmp a.toList b.toList) := by
  rw [ksuidCompare20Scalar]
  cases memcmp a.toList b.toList <;> rfl

theorem signOf_memcmp_of_first {n : ℕ} {a b : Vector Byte n} {i : ℕ} (hi : i < n)
    (heq : ∀ j (hj : j < i), a[j] = b[j]) (hne : a[i] ≠ b[i]) :
    signOf (memcmp a.toList b.toList) = byteSign a[i] b[i] := by
  have hsplit (v : Vector Byte n) :
      v.toList = v.toList.take i ++ v[i] :: v.toList.drop (i + 1) := by
    rw [← Vector.getElem_toList (by simpa using hi), List.getElem_cons_drop, List.take_append_drop]
  have hpre : a.toList.take i = b.toList.take i := by
    refine List.ext_getElem (by simp) fun j hj _ => ?_
    simpa using heq j (by simp at hj; omega)
  rw [hsplit a, hsplit b, hpre, memcmp_append rfl, memcmp_self, memcmp, byteSign]
  by_cases hlt : a[i] < b[i]
  · simp [hlt, signOf]
  · have hgt : b[i] < a[i] := by
      have := mt BitVec.eq_of_toNat_eq hne
      rw [BitVec.lt_def] at *
      omega
    simp [hlt, hgt, signOf]

theorem signOf_memcmp_of_eq {n : ℕ} {a b : Vector Byte n} (h : ∀ j (hj : j < n), a[j] = b[j]) :
    signOf (memcmp a.toList b.toList) = 0 := by
  rw [Vector.ext h, memcmp_self]
  rfl

theorem compareLoop_spec (a b : Vector Byte 20) (lo n : ℕ) (h : lo + n ≤ 20) :
    (compareLoop a b lo n h = none ∧ ∀ j (hj : j < lo + n), lo ≤ j → a[j] = b[j]) ∨
    ∃ i, ∃ hi : i < lo + n, lo ≤ i ∧ (∀ j (hj : j < i), lo ≤ j → a[j] = b[j]) ∧ a[i] ≠ b[i] ∧
      compareLoop a b lo n h = some (byteSign a[i] b[i]) := by
  induction n generalizing lo with
  | zero => exact .inl ⟨rfl, fun j hj hlo => by omega⟩
  | succ n ih =>
    rw [compareLoop]
    by_cases hlo : a[lo] = b[lo]
    · rw [if_neg (not_not.mpr hlo)]
      have hjoin : ∀ {j : ℕ} (hj : j < 20), lo ≤ j → (lo + 1 ≤ j → a[j] = b[j]) → a[j] = b[j] := by
        intro j hj hle hh
        rcases Nat.eq_or_lt_of_le hle with rfl | hlt
        · exact hlo
        · exact hh hlt
      rcases ih (lo + 1) (by omega) with ⟨hnone, hall⟩ | ⟨i, hi, hle, hall, hne, hsome⟩
      · exact .inl ⟨hnone, fun j hj hle => hjoin (by omega) hle (hall j (by omega))⟩
      · exact .inr ⟨i, by omega, by omega, fun j hj hle => hjoin (by omega) hle (hall j hj),
          hne, hsome⟩
    · rw [if_pos hlo]
      exact .inr ⟨lo, by omega, le_refl lo, fun j hj hle => by omega, hlo, rfl⟩

theorem compareLoop_tail {a b : Vector Byte 20} (hhead : ∀ j (hj : j < 16), a[j] = b[j]) :
    (compareLoop a b 16 4 tail_le).getD 0 = signOf (memcmp a.toList b.toList) := by
  have hall {j : ℕ} (hj : j < 20) (h : 16 ≤ j → a[j] = b[j]) : a[j] = b[j] := by
    by_cases hlow : j < 16
    · exact hhead j hlow
    · exact h (by omega)
  rcases compareLoop_spec a b 16 4 tail_le with ⟨hnone, heq⟩ | ⟨i, hi, _, heq, hne, hsome⟩
  · rw [hnone, signOf_memcmp_of_eq fun j hj => hall hj (heq j hj)]
    rfl
  · rw [hsome, signOf_memcmp_of_first (by omega) (fun j hj => hall (by omega) (heq j hj)) hne]
    rfl

theorem ksuidCompare20Neon_eq {allOnes : M128 → Bool}
    (h : ∀ m, allOnes m = true ↔ ∀ i (h : i < 16), m[i] = 0xFF#8) (a b : Vector Byte 20) :
    ksuidCompare20Neon allOnes a b = signOf (memcmp a.toList b.toList) := by
  have hones : allOnes (vceqqU8 (headLanes a) (headLanes b)) = true ↔
      ∀ j (hj : j < 16), a[j] = b[j] := by
    rw [h]
    simp [vceqqU8, headLanes, byteMask_eq_ones]
  simp only [ksuidCompare20Neon]
  by_cases hall : ∀ j (hj : j < 16), a[j] = b[j]
  · simp only [hones.mpr hall]
    exact compareLoop_tail hall
  · rw [if_pos (by simpa [← Bool.not_eq_true, hones] using hall)]
    rcases compareLoop_spec a b 0 16 (by decide) with ⟨_, heq⟩ | ⟨i, hi, _, heq, hne, hsome⟩
    · exact absurd (fun j hj => heq j (by omega) (by omega)) hall
    · simp only [hsome]
      exact (signOf_memcmp_of_first (by omega) (fun j hj => heq j hj (by omega)) hne).symm

theorem ksuidFirstDiffSse2_spec (eqMask : Word32) :
    (ksuidFirstDiffSse2 eqMask = 16 ∧ ∀ j < 16, eqMask.getLsbD j = true) ∨
    (ksuidFirstDiffSse2 eqMask < 16 ∧ eqMask.getLsbD (ksuidFirstDiffSse2 eqMask) = false ∧
      ∀ j < ksuidFirstDiffSse2 eqMask, eqMask.getLsbD j = true) := by
  have hlow : ∀ j < 32, (0xFFFF#32).getLsbD j = decide (j < 16) := by decide
  have hbit (j : ℕ) (hj : j < 32) :
      (~~~eqMask &&& 0xFFFF#32).getLsbD j = (!eqMask.getLsbD j && decide (j < 16)) := by
    rw [BitVec.getLsbD_and, BitVec.getLsbD_not, hlow j hj]
    simp [hj]
  rw [ksuidFirstDiffSse2]
  generalize ~~~eqMask &&& 0xFFFF#32 = diff at *
  by_cases hz : diff = 0#32
  · subst hz
    refine .inl ⟨by simp, fun j hj => ?_⟩
    have := hbit j (by omega)
    simpa [hj] using this
  · right
    simp only [hz, if_false, ksuidCtz32]
    cases hfind : (List.range 32).find? fun i => diff.getLsbD i with
    | none =>
      rw [List.find?_range_eq_none] at hfind
      refine absurd (BitVec.eq_of_getLsbD_eq fun j hj => ?_) hz
      simpa using hfind j hj
    | some i =>
      rw [List.find?_range_eq_some, List.mem_range] at hfind
      obtain ⟨hset, hi, hbefore⟩ := hfind
      rw [hbit i hi] at hset
      simp only [Bool.and_eq_true, Bool.not_eq_true', decide_eq_true_eq] at hset
      refine ⟨hset.2, hset.1, fun j hj => ?_⟩
      have hj : j < i := hj
      have := hbefore j hj
      rw [hbit j (by omega)] at this
      simpa [show j < 16 by omega] using this

theorem getLsbD_eqMask (a b : Vector Byte 20) {j : ℕ} (hj : j < 16) :
    (mmMovemaskEpi8 (mmCmpeqEpi8 (headLanes a) (headLanes b))).getLsbD j = (a[j] == b[j]) := by
  rw [getLsbD_mmMovemaskEpi8 _ hj]
  simp only [mmCmpeqEpi8, headLanes, Vector.getElem_zipWith, Vector.getElem_ofFn, byteMask_msb]

theorem ksuidCompare20Sse2_eq (a b : Vector Byte 20) :
    ksuidCompare20Sse2 a b = signOf (memcmp a.toList b.toList) := by
  unfold ksuidCompare20Sse2
  rcases ksuidFirstDiffSse2_spec (mmMovemaskEpi8 (mmCmpeqEpi8 (headLanes a) (headLanes b))) with
    ⟨hfull, hall⟩ | ⟨hidx, hne, hbefore⟩
  · refine (dif_neg (by omega)).trans (compareLoop_tail fun j hj => ?_)
    have hj' := hall j hj
    rw [getLsbD_eqMask a b hj] at hj'
    exact eq_of_beq hj'
  · refine (dif_pos hidx).trans (signOf_memcmp_of_first (by omega) (fun j hj => ?_) ?_).symm
    · have hj' := hbefore j hj
      rw [getLsbD_eqMask a b (by omega)] at hj'
      exact eq_of_beq hj'
    · rw [getLsbD_eqMask a b hidx] at hne
      exact ne_of_beq_false hne

theorem ksuidCompare_eq (simd : Simd) (a b : Ksuid) :
    ksuidCompare simd a b = signOf (memcmp a.bytes b.bytes) := by
  cases simd with
  | sse2 => exact ksuidCompare20Sse2_eq a.b b.b
  | neonA64 => exact ksuidCompare20Neon_eq allOnesA64_iff a.b b.b
  | neonV7 => exact ksuidCompare20Neon_eq allOnesV7_iff a.b b.b
  | scalar => exact ksuidCompare20Scalar_eq a.b b.b

/-- A three-way comparison that gives the sign of a total order. -/
structure SignOrder {α : Type*} (cmp : α → α → Int) : Prop where
  sign : ∀ a b, cmp a b = -1 ∨ cmp a b = 0 ∨ cmp a b = 1
  eq_zero_iff : ∀ a b, cmp a b = 0 ↔ a = b
  antisymm : ∀ a b, cmp b a = -cmp a b
  trans : ∀ a b c, cmp a b ≤ 0 → cmp b c ≤ 0 → cmp a c ≤ 0
  trans_lt : ∀ a b c, cmp a b < 0 → cmp b c < 0 → cmp a c < 0

theorem signOf_compare_cases (x y : ℕ) :
    (x < y ∧ signOf (compare x y) = -1) ∨ (x = y ∧ signOf (compare x y) = 0) ∨
      (y < x ∧ signOf (compare x y) = 1) := by
  rcases Nat.lt_trichotomy x y with h | h | h
  · exact .inl ⟨h, by rw [Nat.compare_eq_lt.mpr h]; rfl⟩
  · exact .inr (.inl ⟨h, by rw [Nat.compare_eq_eq.mpr h]; rfl⟩)
  · exact .inr (.inr ⟨h, by rw [Nat.compare_eq_gt.mpr h]; rfl⟩)

theorem SignOrder.of_key {α : Type*} {cmp : α → α → Int} {key : α → ℕ}
    (hkey : Function.Injective key)
    (h : ∀ a b, cmp a b = signOf (compare (key a) (key b))) : SignOrder cmp := by
  have hcases (a b : α) : (key a < key b ∧ cmp a b = -1) ∨ (key a = key b ∧ cmp a b = 0) ∨
      (key b < key a ∧ cmp a b = 1) := by
    rw [h]
    exact signOf_compare_cases (key a) (key b)
  constructor
  · intro a b
    have hab := hcases a b
    omega
  · intro a b
    rw [← hkey.eq_iff]
    have hab := hcases a b
    omega
  · intro a b
    have hab := hcases a b
    have hba := hcases b a
    omega
  · intro a b c
    have hab := hcases a b
    have hbc := hcases b c
    have hac := hcases a c
    omega
  · intro a b c
    have hab := hcases a b
    have hbc := hcases b c
    have hac := hcases a c
    omega

theorem bytesValue_toList_injective {n : ℕ} :
    Function.Injective fun a : Vector Byte n => bytesValue a.toList :=
  fun _ _ h => Vector.toList_inj.mp (bytesValue_inj (by simp) h)

/-- The vector kernels return what the scalar one does: the sign of the lexicographic order of
the bytes as unsigned numbers. -/
theorem ksuidCompare20_kernels :
    (∀ a b : Vector Byte 20,
      ksuidCompare20Sse2 a b = ksuidCompare20Scalar a b ∧
      ksuidCompare20Neon allOnesA64 a b = ksuidCompare20Scalar a b ∧
      ksuidCompare20Neon allOnesV7 a b = ksuidCompare20Scalar a b ∧
      ksuidCompare20Scalar a b =
        signOf (List.compareLex compare (a.toList.map BitVec.toNat) (b.toList.map BitVec.toNat))) ∧
    SignOrder ksuidCompare20Scalar := by
  constructor
  · intro a b
    have hscalar := ksuidCompare20Scalar_eq a b
    rw [← memcmp_eq_compareLex (by simp), hscalar]
    exact ⟨ksuidCompare20Sse2_eq a b, ksuidCompare20Neon_eq allOnesA64_iff a b,
      ksuidCompare20Neon_eq allOnesV7_iff a b, rfl⟩
  · apply SignOrder.of_key bytesValue_toList_injective
    intro a b
    rw [ksuidCompare20Scalar_eq, memcmp_eq_compare (by simp)]

theorem ksuidCompare_value (simd : Simd) (a c : Ksuid) :
    ksuidCompare simd a c = signOf (compare a.value c.value) := by
  rw [ksuidCompare_eq, memcmp_eq_compare (by simp)]
  rfl

end Chronoid
