import Chronoid.Base62Encode
import Chronoid.Ksuid

/-! The base62 decoder accepts the digit strings below 2^160 and writes the number
they denote. -/

namespace Chronoid

open Positional (value numeral fixed)

def storeLimb (out : Vector Byte 20) (n : ℕ) (h : n + 4 ≤ 20) (remainder : Word64) :
    Vector Byte 20 :=
  (((out.set n ((remainder >>> 24).setWidth 8)).set (n + 1) ((remainder >>> 16).setWidth 8)).set
    (n + 2) ((remainder >>> 8).setWidth 8)).set (n + 3) (remainder.setWidth 8)

/-- The `while` loop of the decoder: its verdict, the bytes not yet written and the buffer. -/
def decodeLoop : (n : ℕ) → n ≤ 20 → List Byte → Vector Byte 20 → KsuidErr × ℕ × Vector Byte 20
  | n, _, [], out => (.ok, n, out)
  | n + 4, h, digit :: rest, out =>
    let r := longDiv 62#64 4294967296#64 (digit :: rest)
    decodeLoop n (by omega) r.1 (storeLimb out n h r.2)
  | n, _, _ :: _, out => (.errStrValue, n, out)

def translateTail (inp : List Byte) : Option (List Byte) :=
  inp.mapM fun c => if b62Value c == 0xFF#8 then none else some (b62Value c)

def base62Decode (simd : Simd) (out : Vector Byte 20) (inp : Vector Byte 27) :
    KsuidErr × Vector Byte 20 :=
  let head := base62Translate16 simd (Vector.ofFn fun i => inp[i.val])
  if head.2 < 0 then (.errStrValue, out)
  else match translateTail (inp.toList.drop 16) with
    | none => (.errStrValue, out)
    | some tail =>
      match decodeLoop 20 (Nat.le_refl 20) (head.1.toList ++ tail) out with
      | (.ok, n, out) => (.ok, if n > 0 then memsetHead n 0#8 out else out)
      | (err, _, out) => (err, out)

def IsBase62 (s : List Byte) : Prop := ∀ c ∈ s, (base62Digit c).isSome

instance (s : List Byte) : Decidable (IsBase62 s) := inferInstanceAs (Decidable (∀ c ∈ s, _))

def base62Value (s : List Byte) : ℕ := value 62 (s.map fun c => (base62Digit c).getD 0)

theorem longDiv_decode {bp : List Byte} (hbp : ∀ x ∈ bp, x.toNat < 62) :
    let v := value 62 (bp.map BitVec.toNat)
    let r := longDiv 62#64 4294967296#64 bp
    value 62 (r.1.map BitVec.toNat) = v / 2 ^ 32 ∧ r.2.toNat = v % 2 ^ 32 ∧
      (∀ x ∈ r.1, x.toNat < 62) ∧
      ∀ k, v < (2 ^ 32) ^ (k + 1) → v / 2 ^ 32 < (2 ^ 32) ^ k ∧ (r.1 ≠ [] → 0 < k) :=
  longDiv_pass 62#64 4294967296#64 (by decide) (by decide) (by decide) (by decide) (by decide) hbp

theorem decodeLoop_pass {n : ℕ} (h : n + 4 ≤ 20) {bp : List Byte} (hbp : bp ≠ [])
    (out : Vector Byte 20) :
    decodeLoop (n + 4) h bp out =
      decodeLoop n (Nat.le_of_add_right_le h) (longDiv 62#64 4294967296#64 bp).1
      (storeLimb out n h (longDiv 62#64 4294967296#64 bp).2) := by
  obtain ⟨digit, rest, rfl⟩ := List.exists_cons_of_ne_nil hbp
  rw [decodeLoop]

theorem decodeLoop_full {bp : List Byte} (hbp : bp ≠ []) (out : Vector Byte 20) :
    decodeLoop 0 (Nat.zero_le 20) bp out = (.errStrValue, 0, out) := by
  obtain ⟨digit, rest, rfl⟩ := List.exists_cons_of_ne_nil hbp
  rfl

theorem decodeLoop_nil {n : ℕ} (h : n ≤ 20) (out : Vector Byte 20) :
    decodeLoop n h [] out = (.ok, n, out) := by
  rw [decodeLoop]

theorem storeLimb_above (out : Vector Byte 20) {n i : ℕ} (h : n + 4 ≤ 20) (r : Word64)
    (hin : n + 4 ≤ i) (hi : i < 20) : (storeLimb out n h r)[i] = out[i] := by
  simp only [storeLimb]
  repeat rw [Vector.getElem_set_ne _ _ (by omega)]

theorem storeLimb_at (out : Vector Byte 20) {n j : ℕ} (h : n + 4 ≤ 20) {r : Word64} {v : ℕ}
    (hr : r.toNat = v % 2 ^ 32) (hj : j < 4) :
    (storeLimb out n h r)[n + j] = BitVec.ofNat 8 (v / 256 ^ (3 - j)) := by
  have hbyte (k : ℕ) (hk : k < 4) : (r >>> (8 * k)).setWidth 8 = BitVec.ofNat 8 (v / 256 ^ k) := by
    apply BitVec.eq_of_toNat_eq
    rw [BitVec.toNat_setWidth, BitVec.toNat_ushiftRight, hr, BitVec.toNat_ofNat,
      Nat.shiftRight_eq_div_pow]
    interval_cases k <;> simp only [Nat.reduceMul, Nat.reducePow] <;> omega
  have h₀ : r.setWidth 8 = BitVec.ofNat 8 (v / 256 ^ 0) := by simpa using hbyte 0 (by decide)
  interval_cases j <;> simp only [storeLimb, Nat.add_zero]
  · rw [Vector.getElem_set_ne _ _ (by omega), Vector.getElem_set_ne _ _ (by omega),
      Vector.getElem_set_ne _ _ (by omega), Vector.getElem_set_self]
    exact hbyte 3 (by decide)
  · rw [Vector.getElem_set_ne _ _ (by omega), Vector.getElem_set_ne _ _ (by omega),
      Vector.getElem_set_self]
    exact hbyte 2 (by decide)
  · rw [Vector.getElem_set_ne _ _ (by omega), Vector.getElem_set_self]
    exact hbyte 1 (by decide)
  · rw [Vector.getElem_set_self]
    exact h₀

/-- The bytes of a quotient, and below them those of its remainder, are the number's. -/
theorem storeLimb_extends (out : Vector Byte 20) {k i : ℕ} (h : 4 * k + 4 ≤ 20) {r : Word64} {v : ℕ}
    (hr : r.toNat = v % 2 ^ 32) (hi : i < 20) :
    (if i < 4 * k then BitVec.ofNat 8 (v / 2 ^ 32 / 256 ^ (4 * k - 1 - i))
        else (storeLimb out (4 * k) h r)[i]) =
      if i < 4 * (k + 1) then BitVec.ofNat 8 (v / 256 ^ (4 * (k + 1) - 1 - i)) else out[i] := by
  by_cases hlow : i < 4 * k
  · rw [if_pos hlow, if_pos (by omega), Nat.div_div_eq_div_mul, show 2 ^ 32 = 256 ^ 4 by norm_num,
      ← pow_add, show 4 + (4 * k - 1 - i) = 4 * (k + 1) - 1 - i by omega]
  · rw [if_neg hlow]
    by_cases hmid : i < 4 * (k + 1)
    · obtain ⟨j, rfl⟩ := Nat.exists_eq_add_of_le (Nat.le_of_not_lt hlow)
      rw [if_pos hmid, storeLimb_at out h hr (by omega),
        show 4 * (k + 1) - 1 - (4 * k + j) = 3 - j by omega]
    · rw [if_neg hmid, storeLimb_above out h _ (by omega)]

/-- A number that fits the `4 * k` bytes left is written there, after the padding. -/
theorem decodeLoop_fits (k : ℕ) (h : 4 * k ≤ 20) (bp : List Byte) (hbp : ∀ x ∈ bp, x.toNat < 62)
    (out : Vector Byte 20) (hroom : value 62 (bp.map BitVec.toNat) < (2 ^ 32) ^ k)
    (hk : bp ≠ [] → 0 < k) :
    ∃ n out', decodeLoop (4 * k) h bp out = (.ok, n, out') ∧ ∀ i (hi : i < 20),
      (memsetHead n 0#8 out')[i] = if i < 4 * k then
        BitVec.ofNat 8 (value 62 (bp.map BitVec.toNat) / 256 ^ (4 * k - 1 - i)) else out[i] := by
  induction k generalizing bp out with
  | zero =>
    obtain rfl : bp = [] := by
      by_contra hne
      exact absurd (hk hne) (by decide)
    exact ⟨0, out, decodeLoop_nil h out, fun i hi => by simp [memsetHead]⟩
  | succ k ih =>
    by_cases hne : bp = []
    · subst hne
      refine ⟨4 * (k + 1), out, decodeLoop_nil h out, fun i hi => ?_⟩
      simp [memsetHead]
    · obtain ⟨hvalue, hr, hdigits, hnext⟩ := longDiv_decode hbp
      obtain ⟨hlt, hpos⟩ := hnext k hroom
      generalize hv : value 62 (bp.map BitVec.toNat) = v at *
      obtain ⟨n, out', hloop, hget⟩ := ih (by omega) _ hdigits
        (storeLimb out (4 * k) (by omega) (longDiv 62#64 4294967296#64 bp).2) (by rwa [hvalue]) hpos
      refine ⟨n, out', (decodeLoop_pass h hne out).trans hloop, fun i hi => ?_⟩
      rw [hget i hi, hvalue]
      exact storeLimb_extends out (by omega) hr hi

theorem decodeLoop_overflows (k : ℕ) (h : 4 * k ≤ 20) (bp : List Byte)
    (hbp : ∀ x ∈ bp, x.toNat < 62) (out : Vector Byte 20)
    (hbig : (2 ^ 32) ^ k ≤ value 62 (bp.map BitVec.toNat)) :
    (decodeLoop (4 * k) h bp out).1 = .errStrValue := by
  have hne : bp ≠ [] := by
    rintro rfl
    simp at hbig
  induction k generalizing bp out with
  | zero => rw [decodeLoop_full hne]
  | succ k ih =>
    obtain ⟨hvalue, -, hdigits, -⟩ := longDiv_decode hbp
    have hbig' : (2 ^ 32) ^ k ≤ value 62 ((longDiv 62#64 4294967296#64 bp).1.map BitVec.toNat) := by
      rwa [hvalue, Nat.le_div_iff_mul_le (by decide), ← pow_succ]
    refine (congrArg Prod.fst (decodeLoop_pass h hne out)).trans
      (ih _ _ hdigits _ hbig' fun hnil => ?_)
    rw [hnil] at hbig'
    simp at hbig'

theorem mapM_guard {α β : Type*} (p : α → Prop) [DecidablePred p] (f : α → β) (l : List α) :
    l.mapM (fun a => if p a then none else some (f a)) =
      if ∃ a ∈ l, p a then none else some (l.map f) := by
  induction l with
  | nil => simp
  | cons a l ih =>
    rw [List.mapM_cons, ih]
    by_cases ha : p a
    · simp [ha]
    · by_cases hl : ∃ a ∈ l, p a <;> simp [ha, hl]

theorem translateTail_eq (s : List Byte) :
    translateTail s = if IsBase62 s then some (s.map b62Value) else none := by
  have hinvalid : (∃ c ∈ s, b62Value c = 0xFF#8) ↔ ¬IsBase62 s := by
    simp [IsBase62, b62Value_eq_invalid]
  simp only [translateTail, beq_iff_eq, mapM_guard, hinvalid, ite_not]

theorem map_b62Value {s : List Byte} (h : IsBase62 s) :
    (s.map b62Value).map BitVec.toNat = s.map fun c => (base62Digit c).getD 0 := by
  rw [List.map_map]
  refine List.map_congr_left fun c hc => ?_
  obtain ⟨d, hd⟩ := Option.isSome_iff_exists.mp (h c hc)
  simp [toNat_b62Value hd, hd]

theorem b62Value_lt {s : List Byte} (h : IsBase62 s) : ∀ x ∈ s.map b62Value, x.toNat < 62 := by
  intro x hx
  obtain ⟨c, hc, rfl⟩ := List.mem_map.mp hx
  obtain ⟨d, hd⟩ := Option.isSome_iff_exists.mp (h c hc)
  rw [toNat_b62Value hd]
  exact base62Digit_lt hd

theorem toList_head (inp : Vector Byte 27) :
    (Vector.ofFn fun i : Fin 16 => inp[i.val]).toList = inp.toList.take 16 := by
  refine List.ext_getElem (by simp) fun i _ _ => ?_
  simp

theorem isBase62_append {s t : List Byte} : IsBase62 (s ++ t) ↔ IsBase62 s ∧ IsBase62 t := by
  simp only [IsBase62, List.forall_mem_append]

theorem isBase62_toList {n : ℕ} {v : Vector Byte n} :
    IsBase62 v.toList ↔ ∀ i (h : i < n), (base62Digit v[i]).isSome := by
  simp [IsBase62, Vector.forall_mem_iff_forall_getElem]

theorem base62Decode_eq (simd : Simd) (out : Vector Byte 20) (inp : Vector Byte 27) :
    base62Decode simd out inp =
      if IsBase62 inp.toList then
        match decodeLoop 20 (Nat.le_refl 20) (inp.toList.map b62Value) out with
        | (.ok, n, out) => (.ok, memsetHead n 0#8 out)
        | (err, _, out) => (err, out)
      else (.errStrValue, out) := by
  generalize hhead : (Vector.ofFn fun i : Fin 16 => inp[i.val]) = head
  generalize htail : inp.toList.drop 16 = tail
  have hsplit : inp.toList = head.toList ++ tail := by
    rw [← hhead, ← htail, toList_head, List.take_append_drop]
  have hvalid : IsBase62 inp.toList ↔
      (∀ i (h : i < 16), (base62Digit head[i]).isSome) ∧ IsBase62 tail := by
    rw [hsplit, isBase62_append, isBase62_toList]
  simp only [base62Decode, hhead, htail, base62Translate16_translates simd head, translateTail_eq]
  by_cases hh : ∀ i (h : i < 16), (base62Digit head[i]).isSome
  · rw [if_pos hh, if_neg (by decide)]
    by_cases ht : IsBase62 tail
    · rw [if_pos (hvalid.mpr ⟨hh, ht⟩), if_pos ht, hsplit, List.map_append, Vector.toList_map]
      simp only [memsetHead_pad]
    · rw [if_neg (mt (fun h => (hvalid.mp h).2) ht), if_neg ht]
  · rw [if_neg hh, if_pos (by decide), if_neg (mt (fun h => (hvalid.mp h).1) hh)]

theorem base62Decode_invalid (simd : Simd) (out : Vector Byte 20) {inp : Vector Byte 27}
    (h : ¬IsBase62 inp.toList) : base62Decode simd out inp = (.errStrValue, out) := by
  rw [base62Decode_eq, if_neg h]

theorem base62Decode_overflows (simd : Simd) (out : Vector Byte 20) {inp : Vector Byte 27}
    (h : IsBase62 inp.toList) (hbig : 2 ^ 160 ≤ base62Value inp.toList) :
    (base62Decode simd out inp).1 = .errStrValue := by
  have hh := decodeLoop_overflows 5 (Nat.le_refl 20) (inp.toList.map b62Value) (b62Value_lt h) out
    (by rwa [map_b62Value h, ← pow_mul])
  rw [base62Decode_eq, if_pos h]
  change (decodeLoop 20 _ _ _).1 = _ at hh
  split
  · rename_i heq
    rw [heq] at hh
    cases hh
  · rename_i heq
    rw [heq] at hh
    exact hh

theorem base62Decode_ok (simd : Simd) (out : Vector Byte 20) {inp : Vector Byte 27}
    (h : IsBase62 inp.toList) (hfits : base62Value inp.toList < 2 ^ 160) :
    ∃ bytes, base62Decode simd out inp = (.ok, bytes) ∧
      bytesValue bytes.toList = base62Value inp.toList := by
  obtain ⟨n, out', hloop, hget⟩ := decodeLoop_fits 5 (Nat.le_refl 20) (inp.toList.map b62Value)
    (b62Value_lt h) out (by rwa [map_b62Value h, ← pow_mul]) (by simp)
  rw [map_b62Value h, ← base62Value] at hget
  refine ⟨memsetHead n 0#8 out', ?_, ?_⟩
  · rw [base62Decode_eq, if_pos h, show decodeLoop 20 _ _ _ = _ from hloop]
  · have hbytes : (memsetHead n 0#8 out').toList.map BitVec.toNat =
        fixed 256 20 (base62Value inp.toList) := by
      refine List.ext_getElem (by simp) fun i hi _ => ?_
      have hi : i < 20 := by simpa using hi
      rw [List.getElem_map, Vector.getElem_toList, hget i hi, if_pos (by omega),
        Positional.getElem_fixed, BitVec.toNat_ofNat]
    rw [bytesValue, hbytes, Positional.value_fixed, show 256 ^ 20 = 2 ^ 160 by norm_num,
      Nat.mod_eq_of_lt hfits]

theorem translate_get (inp : M128) (i : Fin 16) :
    (base62Translate16Scalar inp).1.get i = b62Value (inp.get i) :=
  Vector.getElem_map b62Value i.isLt

theorem translate_digit (inp : M128) (i : Fin 16) :
    (∃ d ≤ 61, base62Digit (inp.get i) = some d ∧
      ((base62Translate16Scalar inp).1.get i).toNat = d) ∨
      base62Digit (inp.get i) = none ∧ (base62Translate16Scalar inp).1.get i = 0xFF#8 := by
  rw [translate_get]
  cases h : base62Digit (inp.get i) with
  | none => exact .inr ⟨rfl, b62Value_eq_invalid.mpr h⟩
  | some d => exact .inl ⟨d, Nat.le_of_lt_succ (base62Digit_lt h), rfl, toNat_b62Value h⟩

theorem translate_verdict (inp : M128) :
    (base62Translate16Scalar inp).2 =
      if ∃ i, (base62Translate16Scalar inp).1.get i = 0xFF#8 then -1 else 0 := by
  have hvalid : (∀ i (h : i < 16), (base62Digit inp[i]).isSome) ↔
      ¬∃ i, (base62Translate16Scalar inp).1.get i = 0xFF#8 := by
    simp only [translate_get, b62Value_eq_invalid, not_exists, ← ne_eq, Option.ne_none_iff_isSome]
    exact ⟨fun h i => h i.val i.isLt, fun h i hi => h ⟨i, hi⟩⟩
  have hret := congrArg Prod.snd (base62Translate16Scalar_translates inp)
  rw [hret]
  by_cases h : ∃ i, (base62Translate16Scalar inp).1.get i = 0xFF#8
  · rw [if_pos h, if_neg (mt hvalid.mp (not_not.mpr h))]
  · rw [if_neg h, if_pos (hvalid.mpr h)]

/-- The kernels translate alike, a lane to its digit or to the sentinel, and refuse just the inputs
with a sentinel; so no decoder can tell which of them it was built with. -/
theorem base62_translate_kernels :
    (∀ inp : M128,
      base62Translate16Sse2 inp = base62Translate16Scalar inp ∧
      base62Translate16Neon allOnesA64 inp = base62Translate16Scalar inp ∧
      base62Translate16Neon allOnesV7 inp = base62Translate16Scalar inp) ∧
    (∀ inp : M128,
      (∀ i, (∃ d ≤ 61, base62Digit (inp.get i) = some d ∧
          ((base62Translate16Scalar inp).1.get i).toNat = d) ∨
        base62Digit (inp.get i) = none ∧ (base62Translate16Scalar inp).1.get i = 0xFF#8) ∧
      (base62Translate16Scalar inp).2 =
        if ∃ i, (base62Translate16Scalar inp).1.get i = 0xFF#8 then -1 else 0) ∧
    ∀ simd out inp, base62Decode simd out inp = base62Decode .scalar out inp := by
  have hagree (simd : Simd) (inp : M128) :
      base62Translate16 simd inp = base62Translate16Scalar inp := by
    rw [base62Translate16_translates, base62Translate16Scalar_translates]
  refine ⟨fun inp => ?_, fun inp => ⟨translate_digit inp, translate_verdict inp⟩,
    fun simd out inp => ?_⟩
  · exact ⟨hagree .sse2 inp, hagree .neonA64 inp, hagree .neonV7 inp⟩
  · rw [base62Decode_eq, base62Decode_eq]

end Chronoid
