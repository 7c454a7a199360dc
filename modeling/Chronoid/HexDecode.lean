import Chronoid.Base62Translate
import Chronoid.HexEncode

/-! The hexadecimal decoder: it looks every digit up, valid or not, and tests the
collected mask once at the end. -/

namespace Chronoid

def kHexValue : List Byte :=
  invalidRun 0x30 ++ valueRun 0 10 ++ invalidRun 7 ++ valueRun 10 6 ++ invalidRun 26 ++
    valueRun 10 6 ++ invalidRun 25 ++ invalidRun 128

theorem length_kHexValue : kHexValue.length = 256 := by
  simp only [kHexValue, invalidRun, valueRun, List.length_append, List.length_replicate,
    List.length_map, List.length_range]

def hexValue (c : Byte) : Byte := kHexValue.get ⟨c.toNat, length_kHexValue.symm ▸ c.isLt⟩

/-- The decoder's own table of offsets, a copy of the encoder's. -/
def kDecodeCharOff : Vector (Fin 35) 16 := kCharOff

theorem byteIndex_lt (i : Fin 16) : i.val < 16 := i.isLt

/-- One pass of the loop: the bytes so far and the mask of all lookups. -/
def hexDecodePass (s : ℕ → Byte) (acc : Vector Byte 16 × Word32) (i : Fin 16) :
    Vector Byte 16 × Word32 :=
  let off := (kDecodeCharOff.get i).val
  let hi := hexValue (s off)
  let lo := hexValue (s (off + 1))
  (acc.1.set i ((hi.setWidth 32 <<< 4 ||| lo.setWidth 32).setWidth 8) (byteIndex_lt i),
    acc.2 ||| hi.setWidth 32 ||| lo.setWidth 32)

/-- `tmp` is what the stack held where the decoder's temporary goes. -/
def hexDecode (tmp out : Vector Byte 16) (s : ℕ → Byte) (len : ℕ) : Int × Vector Byte 16 :=
  if len ≠ 36 then (-1, out)
  else if s 8 ≠ hyphen ∨ s 13 ≠ hyphen ∨ s 18 ≠ hyphen ∨ s 23 ≠ hyphen then (-1, out)
  else
    let r := (List.finRange 16).foldl (hexDecodePass s) (tmp, 0#32)
    if r.2 &&& 0xF0#32 ≠ 0#32 then (-1, out) else (0, r.1)

def hexDigit (c : Byte) : Option ℕ :=
  if 0x30 ≤ c.toNat ∧ c.toNat ≤ 0x39 then some (c.toNat - 0x30)
  else if 0x41 ≤ c.toNat ∧ c.toNat ≤ 0x46 then some (c.toNat - 0x41 + 10)
  else if 0x61 ≤ c.toNat ∧ c.toNat ≤ 0x66 then some (c.toNat - 0x61 + 10)
  else none

theorem hexDigit_lt {c : Byte} {d : ℕ} (h : hexDigit c = some d) : d < 16 := by
  simp only [hexDigit] at h
  split_ifs at h <;> simp only [Option.some.injEq] at h <;> omega

theorem kHexValue_eq : kHexValue = (List.range 256).map fun n =>
    (hexDigit (BitVec.ofNat 8 n)).elim 0xFF#8 (BitVec.ofNat 8) := by
  decide +kernel

theorem hexValue_eq (c : Byte) : hexValue c = (hexDigit c).elim 0xFF#8 (BitVec.ofNat 8) := by
  simp only [hexValue, kHexValue_eq, List.get_eq_getElem, List.getElem_map, List.getElem_range,
    BitVec.ofNat_toNat, BitVec.setWidth_eq]

/-- A lookup leaves the mask clean exactly when it finds a digit. -/
theorem hexValue_clean {c : Byte} :
    (hexValue c).setWidth 32 &&& 0xF0#32 = 0#32 ↔ (hexDigit c).isSome := by
  rw [hexValue_eq]
  revert c
  decide

theorem hexValue_pair {c c' : Byte} {d d' : ℕ} (h : hexDigit c = some d)
    (h' : hexDigit c' = some d') :
    (((hexValue c).setWidth 32 <<< 4 ||| (hexValue c').setWidth 32).setWidth 8 : Byte).toNat =
      d * 16 + d' := by
  have hpair : ∀ d < 16, ∀ d' < 16, (((BitVec.ofNat 8 d).setWidth 32 <<< 4 |||
      (BitVec.ofNat 8 d').setWidth 32 : Word32).setWidth 8 : Byte).toNat = d * 16 + d' := by
    decide
  rw [hexValue_eq, hexValue_eq, h, h', Option.elim_some, Option.elim_some]
  exact hpair d (hexDigit_lt h) d' (hexDigit_lt h')

def PairValid (s : ℕ → Byte) (i : Fin 16) : Prop :=
  (hexDigit (s (kDecodeCharOff.get i))).isSome ∧
    (hexDigit (s ((kDecodeCharOff.get i).val + 1))).isSome

theorem foldl_hexDecodePass_mask (s : ℕ → Byte) (is : List (Fin 16))
    (acc : Vector Byte 16 × Word32) : (is.foldl (hexDecodePass s) acc).2 &&& 0xF0#32 = 0#32 ↔
      acc.2 &&& 0xF0#32 = 0#32 ∧ ∀ i ∈ is, PairValid s i := by
  have hor (x y : Word32) : (x ||| y) &&& 0xF0#32 = 0#32 ↔ x &&& 0xF0#32 = 0#32 ∧
      y &&& 0xF0#32 = 0#32 := by
    rw [BitVec.and_or_distrib_right, BitVec.or_eq_zero_iff]
  induction is generalizing acc with
  | nil => simp
  | cons i is ih =>
    refine (ih (hexDecodePass s acc i)).trans ?_
    rw [hexDecodePass, hor, hor, hexValue_clean, hexValue_clean, List.forall_mem_cons, PairValid]
    simp only [and_assoc]

theorem foldl_hexDecodePass_frame (s : ℕ → Byte) {is : List (Fin 16)}
    (acc : Vector Byte 16 × Word32)
    {i : Fin 16} (h : i ∉ is) : (is.foldl (hexDecodePass s) acc).1.get i = acc.1.get i := by
  induction is generalizing acc with
  | nil => rfl
  | cons j is ih =>
    obtain ⟨hj, his⟩ := not_or.mp (mt List.mem_cons.mpr h)
    rw [List.foldl_cons, ih _ his]
    exact Vector.getElem_set_ne j.isLt i.isLt fun hij => hj (Fin.ext hij.symm)

theorem foldl_hexDecodePass (s : ℕ → Byte) {is : List (Fin 16)} (acc : Vector Byte 16 × Word32)
    (hnodup : is.Nodup) {i : Fin 16} (hi : i ∈ is) {d d' : ℕ}
    (hd : hexDigit (s (kDecodeCharOff.get i)) = some d)
    (hd' : hexDigit (s ((kDecodeCharOff.get i).val + 1)) = some d') :
    ((is.foldl (hexDecodePass s) acc).1.get i).toNat = d * 16 + d' := by
  induction is generalizing acc with
  | nil => simp at hi
  | cons j is ih =>
    obtain ⟨hj, hnodup⟩ := List.nodup_cons.mp hnodup
    rcases List.mem_cons.mp hi with rfl | hi
    · rw [List.foldl_cons, foldl_hexDecodePass_frame s _ hj, ← hexValue_pair hd hd']
      exact congrArg BitVec.toNat (Vector.getElem_set_self _)
    · exact ih _ hnodup hi

end Chronoid
