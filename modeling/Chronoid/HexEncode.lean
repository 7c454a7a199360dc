import Chronoid.Simd128
import Mathlib.Tactic.FinCases

/-! The canonical 8-4-4-4-12 hexadecimal text of sixteen bytes, and the scalar and
SSSE3 encoders that write it. -/

namespace Chronoid

def kHexLower : List Byte :=
  ['0', '1', '2', '3', '4', '5', '6', '7', '8', '9', 'a', 'b', 'c', 'd', 'e', 'f'].map charByte

def hexLower (nibble : ℕ) : Byte := kHexLower.getD nibble 0#8

/-- Where the high nibble of each byte goes; the low nibble follows it. -/
def kCharOff : Vector (Fin 35) 16 := #v[0, 2, 4, 6, 9, 11, 14, 16, 19, 21, 24, 26, 28, 30, 32, 34]

def hyphen : Byte := charByte '-'

def hexEncodeLowerScalar (out : Vector Byte 36) (inp : Vector Byte 16) : Vector Byte 36 :=
  let out := (List.finRange 16).foldl (fun out i =>
    let b := inp[i]
    let off := kCharOff[i]
    (out.set off (hexLower (b >>> 4 &&& 0x0F#8).toNat)).set (off + 1)
      (hexLower (b &&& 0x0F#8).toNat)) out
  (((out.set 8 hyphen).set 13 hyphen).set 18 hyphen).set 23 hyphen

def kHexLowerLut : M128 := Vector.ofFn fun i => hexLower i

def spliceHyphens (out : Vector Byte 36) (tmp : Vector Byte 32) : Vector Byte 36 :=
  let out := (memcpyAt out 0 tmp 0 8).set 8 hyphen
  let out := (memcpyAt out 9 tmp 8 4).set 13 hyphen
  let out := (memcpyAt out 14 tmp 12 4).set 18 hyphen
  let out := (memcpyAt out 19 tmp 16 4).set 23 hyphen
  memcpyAt out 24 tmp 20 12

def hexEncodeLowerSsse3 (out : Vector Byte 36) (v : M128) : Vector Byte 36 :=
  let maskLow := mmSet1Epi8 0x0F#8
  let hiNibbles := mmAndSi128 (mmSrliEpi16 v 4) maskLow
  let loNibbles := mmAndSi128 v maskLow
  let asciiHi := mmShuffleEpi8 kHexLowerLut hiNibbles
  let asciiLo := mmShuffleEpi8 kHexLowerLut loNibbles
  spliceHyphens out (mmUnpackloEpi8 asciiHi asciiLo ++ mmUnpackhiEpi8 asciiHi asciiLo)

/-- The encoder the build selects: SSSE3 where the compiler has it, else the scalar one. -/
def hexEncodeLower (ssse3 : Bool) (out : Vector Byte 36) (inp : Vector Byte 16) : Vector Byte 36 :=
  if ssse3 then hexEncodeLowerSsse3 out inp else hexEncodeLowerScalar out inp

def nibbles (bs : List Byte) : List ℕ := bs.flatMap fun b => [b.toNat / 16, b.toNat % 16]

def hexText (ds : List ℕ) : List Byte :=
  let cs := ds.map hexLower
  cs.take 8 ++ hyphen :: ((cs.drop 8).take 4 ++ hyphen :: ((cs.drop 12).take 4 ++
    hyphen :: ((cs.drop 16).take 4 ++ hyphen :: cs.drop 20)))

theorem toList_sixteen (inp : Vector Byte 16) :
    inp.toList = [inp[0], inp[1], inp[2], inp[3], inp[4], inp[5], inp[6], inp[7], inp[8], inp[9],
      inp[10], inp[11], inp[12], inp[13], inp[14], inp[15]] := by
  refine List.ext_getElem (by simp) fun i hi _ => ?_
  have hi : i < 16 := by simpa using hi
  interval_cases i <;> rfl

theorem toNat_low_nibble (b : Byte) : (b &&& 0x0F#8).toNat = b.toNat % 16 := by
  rw [BitVec.toNat_and]
  exact Nat.and_two_pow_sub_one_eq_mod _ 4

theorem toNat_high_nibble (b : Byte) : (b >>> 4 &&& 0x0F#8).toNat = b.toNat / 16 := by
  have := b.isLt
  rw [toNat_low_nibble, BitVec.toNat_ushiftRight, Nat.shiftRight_eq_div_pow]
  omega

structure HexLayout (inp : Vector Byte 16) (text : Vector Byte 36) : Prop where
  high : ∀ i : Fin 16, text[kCharOff[i].val] = hexLower (inp[i].toNat / 16)
  low : ∀ i : Fin 16, text[kCharOff[i].val + 1] = hexLower (inp[i].toNat % 16)
  hyphens : text[8] = hyphen ∧ text[13] = hyphen ∧ text[18] = hyphen ∧ text[23] = hyphen

theorem layout_cover : ∀ p < 36, (p = 8 ∨ p = 13 ∨ p = 18 ∨ p = 23) ∨
    ∃ i : Fin 16, p = kCharOff[i].val ∨ p = kCharOff[i].val + 1 := by
  decide

theorem layout_disjoint : ∀ i j : Fin 16, i ≠ j →
    kCharOff[i].val ≠ kCharOff[j].val ∧ kCharOff[i].val ≠ kCharOff[j].val + 1 ∧
      kCharOff[i].val + 1 ≠ kCharOff[j].val ∧ kCharOff[i].val + 1 ≠ kCharOff[j].val + 1 := by
  decide

theorem layout_hyphens : ∀ i : Fin 16, ∀ p ∈ [8, 13, 18, 23],
    kCharOff[i].val ≠ p ∧ kCharOff[i].val + 1 ≠ p := by
  decide

theorem HexLayout.unique {inp : Vector Byte 16} {s t : Vector Byte 36} (hs : HexLayout inp s)
    (ht : HexLayout inp t) : s = t := by
  ext1 p hp
  obtain ⟨h8, h13, h18, h23⟩ := hs.hyphens
  obtain ⟨k8, k13, k18, k23⟩ := ht.hyphens
  rcases layout_cover p hp with (rfl | rfl | rfl | rfl) | ⟨i, rfl | rfl⟩
  · rw [h8, k8]
  · rw [h13, k13]
  · rw [h18, k18]
  · rw [h23, k23]
  · exact (hs.high i).trans (ht.high i).symm
  · exact (hs.low i).trans (ht.low i).symm

def hexPass (inp : Vector Byte 16) (out : Vector Byte 36) (i : Fin 16) : Vector Byte 36 :=
  (out.set kCharOff[i] (hexLower (inp[i] >>> 4 &&& 0x0F#8).toNat)).set (kCharOff[i] + 1)
    (hexLower (inp[i] &&& 0x0F#8).toNat)

theorem foldl_hexPass_frame (inp : Vector Byte 16) {is : List (Fin 16)}
    (out : Vector Byte 36) {p : ℕ}
    (hp : p < 36) (h : ∀ i ∈ is, kCharOff[i].val ≠ p ∧ kCharOff[i].val + 1 ≠ p) :
    (is.foldl (hexPass inp) out)[p] = out[p] := by
  induction is generalizing out with
  | nil => rfl
  | cons i is ih =>
    obtain ⟨hhi, hlo⟩ := h i (by simp)
    rw [List.foldl_cons, ih _ fun j hj => h j (List.mem_cons_of_mem _ hj), hexPass,
      Vector.getElem_set_ne _ _ hlo, Vector.getElem_set_ne _ _ hhi]

theorem foldl_hexPass (inp : Vector Byte 16) {is : List (Fin 16)} (out : Vector Byte 36)
    (hnodup : is.Nodup) {i : Fin 16} (hi : i ∈ is) :
    (is.foldl (hexPass inp) out)[kCharOff[i].val] = hexLower (inp[i].toNat / 16) ∧
      (is.foldl (hexPass inp) out)[kCharOff[i].val + 1] = hexLower (inp[i].toNat % 16) := by
  induction is generalizing out with
  | nil => simp at hi
  | cons j is ih =>
    obtain ⟨hj, hnodup⟩ := List.nodup_cons.mp hnodup
    rcases List.mem_cons.mp hi with rfl | hi
    · have hne : ∀ k ∈ is, k ≠ i := fun k hk h => hj (h ▸ hk)
      rw [List.foldl_cons, foldl_hexPass_frame inp _ _ fun k hk =>
          ⟨(layout_disjoint k i (hne k hk)).1, (layout_disjoint k i (hne k hk)).2.2.1⟩,
        foldl_hexPass_frame inp _ _ fun k hk =>
          ⟨(layout_disjoint k i (hne k hk)).2.1, (layout_disjoint k i (hne k hk)).2.2.2⟩]
      rw [hexPass, Vector.getElem_set_ne _ _ (by omega), Vector.getElem_set_self,
        Vector.getElem_set_self, toNat_high_nibble, toNat_low_nibble]
      exact ⟨rfl, rfl⟩
    · exact ih _ hnodup hi

theorem hexEncodeLowerScalar_layout (out : Vector Byte 36) (inp : Vector Byte 16) :
    HexLayout inp (hexEncodeLowerScalar out inp) := by
  have hfold : hexEncodeLowerScalar out inp =
      (((((List.finRange 16).foldl (hexPass inp) out).set 8 hyphen).set 13 hyphen).set 18
        hyphen).set 23 hyphen := rfl
  rw [hfold]
  constructor
  · intro i
    have hne := fun p hp => (layout_hyphens i p hp).1.symm
    repeat rw [Vector.getElem_set_ne _ _ (hne _ (by decide))]
    exact (foldl_hexPass inp out (List.nodup_finRange 16) (List.mem_finRange i)).1
  · intro i
    have hne := fun p hp => (layout_hyphens i p hp).2.symm
    repeat rw [Vector.getElem_set_ne _ _ (hne _ (by decide))]
    exact (foldl_hexPass inp out (List.nodup_finRange 16) (List.mem_finRange i)).2
  · simp

theorem mmSrliEpi16_nibble (v : M128) {i : ℕ} (h : i < 16) :
    ((mmSrliEpi16 v 4)[i] &&& 0x0F#8).toNat = v[i].toNat / 16 := by
  have hhi := v[2 * (i / 2) + 1].isLt
  have hlo := v[2 * (i / 2)].isLt
  rw [toNat_low_nibble]
  simp only [mmSrliEpi16, Vector.getElem_ofFn]
  split_ifs with heven
  · rw [BitVec.toNat_setWidth, BitVec.toNat_ushiftRight, toNat_append, Nat.shiftRight_eq_div_pow]
    simp only [show 2 * (i / 2) = i by omega] at *
    omega
  · rw [BitVec.toNat_setWidth, BitVec.toNat_ushiftRight, BitVec.toNat_ushiftRight, toNat_append,
      Nat.shiftRight_eq_div_pow, Nat.shiftRight_eq_div_pow]
    simp only [show 2 * (i / 2) + 1 = i by omega] at *
    omega

theorem mmShuffleEpi8_hexLower {x : Byte} : x.toNat < 16 →
    (if x.msb then 0#8 else kHexLowerLut.get (x.setWidth 4).toFin) = hexLower x.toNat := by
  revert x
  decide

def hyphensBefore (p : ℕ) : ℕ :=
  if p < 8 then 0 else if p < 13 then 1 else if p < 18 then 2 else if p < 23 then 3 else 4

theorem memcpyAt_set_out {n k : ℕ} (out : Vector Byte n) (src : Vector Byte k) (pos : ℕ) {c : Byte}
    {off len p q : ℕ} (hp : p < n) (hq : q < n) (h : p < off ∨ off + len ≤ p) (hne : q ≠ p) :
    (memcpyAt (out.set q c hq) off src pos len)[p] = out[p] := by
  rw [memcpyAt_out _ _ _ hp h, Vector.getElem_set_ne hq hp hne]

theorem getElem_spliceHyphens (out : Vector Byte 36) (tmp : Vector Byte 32) {p : ℕ} (hp : p < 36)
    (hne : p ≠ 8 ∧ p ≠ 13 ∧ p ≠ 18 ∧ p ≠ 23) :
    (spliceHyphens out tmp)[p] = tmp.toList.getD (p - hyphensBefore p) 0#8 := by
  simp only [spliceHyphens, hyphensBefore]
  split_ifs
  · repeat rw [memcpyAt_set_out _ _ _ hp _ (by omega) (by omega)]
    rw [memcpyAt_in _ _ _ _ (by omega) (by omega), Nat.zero_add]
  · repeat rw [memcpyAt_set_out _ _ _ hp _ (by omega) (by omega)]
    rw [memcpyAt_in _ _ _ _ (by omega) (by omega), show 8 + (p - 9) = p - 1 by omega]
  · repeat rw [memcpyAt_set_out _ _ _ hp _ (by omega) (by omega)]
    rw [memcpyAt_in _ _ _ _ (by omega) (by omega), show 12 + (p - 14) = p - 2 by omega]
  · repeat rw [memcpyAt_set_out _ _ _ hp _ (by omega) (by omega)]
    rw [memcpyAt_in _ _ _ _ (by omega) (by omega), show 16 + (p - 19) = p - 3 by omega]
  · rw [memcpyAt_in _ _ _ _ (by omega) (by omega), show 20 + (p - 24) = p - 4 by omega]

theorem spliceHyphens_hyphens (out : Vector Byte 36) (tmp : Vector Byte 32) :
    (spliceHyphens out tmp)[8] = hyphen ∧ (spliceHyphens out tmp)[13] = hyphen ∧
      (spliceHyphens out tmp)[18] = hyphen ∧ (spliceHyphens out tmp)[23] = hyphen := by
  simp only [spliceHyphens]
  refine ⟨?_, ?_, ?_, ?_⟩
  all_goals
    repeat rw [memcpyAt_set_out _ _ _ _ _ (by decide) (by decide)]
    rw [memcpyAt_out _ _ _ _ (by decide), Vector.getElem_set_self]

theorem kCharOff_sub : ∀ i : Fin 16,
    (kCharOff[i].val - hyphensBefore kCharOff[i] = 2 * i ∧
      kCharOff[i].val + 1 - hyphensBefore (kCharOff[i] + 1) = 2 * i + 1) := by
  decide

theorem getD_toList {n i : ℕ} (v : Vector Byte n) (h : i < n) : v.toList.getD i 0#8 = v[i] := by
  simp [List.getD_eq_getElem?_getD, h]

theorem getD_unpack (a b : M128) {k : ℕ} (h : k < 16) :
    (mmUnpackloEpi8 a b ++ mmUnpackhiEpi8 a b).toList.getD (2 * k) 0#8 = a[k] ∧
      (mmUnpackloEpi8 a b ++ mmUnpackhiEpi8 a b).toList.getD (2 * k + 1) 0#8 = b[k] := by
  rw [getD_toList _ (by omega), getD_toList _ (by omega), Vector.getElem_append,
    Vector.getElem_append]
  by_cases hlow : k < 8
  · rw [dif_pos (by omega), dif_pos (by omega)]
    simp [mmUnpackloEpi8, show (2 * k + 1) % 2 = 1 by omega, show (2 * k + 1) / 2 = k by omega]
  · rw [dif_neg (by omega), dif_neg (by omega)]
    simp [mmUnpackhiEpi8, show (2 * k - 16) % 2 = 0 by omega, show (2 * k - 15) % 2 = 1 by omega,
      show 8 + (2 * k - 16) / 2 = k by omega, show 8 + (2 * k - 15) / 2 = k by omega]

theorem hexEncodeLowerSsse3_layout (out : Vector Byte 36) (inp : Vector Byte 16) :
    HexLayout inp (hexEncodeLowerSsse3 out inp) := by
  have hhi (i : ℕ) (h : i < 16) : (mmShuffleEpi8 kHexLowerLut
      (mmAndSi128 (mmSrliEpi16 inp 4) (mmSet1Epi8 0x0F#8)))[i] = hexLower (inp[i].toNat / 16) := by
    have hlt := inp[i].isLt
    have hnibble := mmSrliEpi16_nibble inp h
    simp only [mmShuffleEpi8, mmAndSi128, mmSet1Epi8, Vector.getElem_map, Vector.getElem_zipWith,
      Vector.getElem_replicate]
    rw [mmShuffleEpi8_hexLower (by omega), hnibble]
  have hlo (i : ℕ) (h : i < 16) : (mmShuffleEpi8 kHexLowerLut
      (mmAndSi128 inp (mmSet1Epi8 0x0F#8)))[i] = hexLower (inp[i].toNat % 16) := by
    have hnibble := toNat_low_nibble inp[i]
    simp only [mmShuffleEpi8, mmAndSi128, mmSet1Epi8, Vector.getElem_map, Vector.getElem_zipWith,
      Vector.getElem_replicate]
    rw [mmShuffleEpi8_hexLower (by omega), hnibble]
  constructor
  · intro i
    have hne := fun p hp => (layout_hyphens i p hp).1
    refine (getElem_spliceHyphens _ _ _ ⟨hne _ (by decide), hne _ (by decide), hne _ (by decide),
      hne _ (by decide)⟩).trans ?_
    rw [(kCharOff_sub i).1, (getD_unpack _ _ i.isLt).1]
    exact hhi i i.isLt
  · intro i
    have hne := fun p hp => (layout_hyphens i p hp).2
    refine (getElem_spliceHyphens _ _ _ ⟨hne _ (by decide), hne _ (by decide), hne _ (by decide),
      hne _ (by decide)⟩).trans ?_
    rw [(kCharOff_sub i).2, (getD_unpack _ _ i.isLt).2]
    exact hlo i i.isLt
  · exact spliceHyphens_hyphens _ _

theorem hexText_layout (inp : Vector Byte 16) :
    ∃ text : Vector Byte 36, text.toList = hexText (nibbles inp.toList) ∧ HexLayout inp text := by
  rw [toList_sixteen]
  refine ⟨⟨(hexText (nibbles _)).toArray, rfl⟩, rfl, fun i => ?_, fun i => ?_, rfl, rfl, rfl, rfl⟩
  · fin_cases i <;> rfl
  · fin_cases i <;> rfl

theorem hexEncodeLower_layout (ssse3 : Bool) (out : Vector Byte 36) (inp : Vector Byte 16) :
    HexLayout inp (hexEncodeLower ssse3 out inp) := by
  cases ssse3 with
  | true => exact hexEncodeLowerSsse3_layout out inp
  | false => exact hexEncodeLowerScalar_layout out inp

theorem hexEncodeLower_eq (ssse3 : Bool) (out : Vector Byte 36) (inp : Vector Byte 16) :
    (hexEncodeLower ssse3 out inp).toList = hexText (nibbles inp.toList) := by
  obtain ⟨text, htext, hlayout⟩ := hexText_layout inp
  rw [← htext, hlayout.unique (hexEncodeLower_layout ssse3 out inp)]

end Chronoid
