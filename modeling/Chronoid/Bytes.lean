import Chronoid.Library.Positional

/-! Bytes, machine words and the byte-order helpers. A buffer compares as the
number it denotes most significant byte first. -/

namespace Chronoid

abbrev Byte := BitVec 8
abbrev Word16 := BitVec 16
abbrev Word32 := BitVec 32
abbrev Word64 := BitVec 64

instance (priority := 2000) neZeroEight : NeZero 8 := ⟨by decide⟩
instance (priority := 2000) neZeroSixteen : NeZero 16 := ⟨by decide⟩

def charByte (c : Char) : Byte := BitVec.ofNat 8 c.toNat

/-- The sign of `memcmp` on two buffers of one length: that of the first
difference, bytes read as `unsigned char`. -/
def memcmp : List Byte → List Byte → Ordering
  | x :: xs, y :: ys => if x < y then .lt else if y < x then .gt else memcmp xs ys
  | _, _ => .eq

def bytesValue (bs : List Byte) : ℕ := Positional.value 256 (bs.map BitVec.toNat)

theorem toNat_lt_of_mem {w : ℕ} {bs : List (BitVec w)} : ∀ d ∈ bs.map BitVec.toNat, d < 2 ^ w := by
  intro d hd
  obtain ⟨b, _, rfl⟩ := List.mem_map.mp hd
  exact b.isLt

theorem map_toNat_injective {w : ℕ} : Function.Injective (List.map (BitVec.toNat (w := w))) :=
  List.map_injective_iff.mpr fun _ _ h => BitVec.eq_of_toNat_eq h

theorem bytesValue_lt (bs : List Byte) : bytesValue bs < 256 ^ bs.length := by
  have hh : bytesValue bs < 256 ^ (bs.map BitVec.toNat).length :=
    Positional.value_lt (by decide) toNat_lt_of_mem
  rwa [List.length_map] at hh

theorem bytesValue_append (xs ys : List Byte) :
    bytesValue (xs ++ ys) = bytesValue xs * 256 ^ ys.length + bytesValue ys := by
  simp [bytesValue, Positional.value_append]

theorem bytesValue_cons (x : Byte) (xs : List Byte) :
    bytesValue (x :: xs) = x.toNat * 256 ^ xs.length + bytesValue xs := by
  simp [bytesValue, Positional.value_cons]

@[simp] theorem bytesValue_nil : bytesValue [] = 0 := rfl

theorem bytesValue_take (bs : List Byte) (n : ℕ) :
    bytesValue (bs.take n) = bytesValue bs / 256 ^ (bs.length - n) := by
  have hsplit := bytesValue_append (bs.take n) (bs.drop n)
  have hlt := bytesValue_lt (bs.drop n)
  rw [List.take_append_drop, List.length_drop] at hsplit
  rw [List.length_drop] at hlt
  rw [hsplit, Nat.add_comm, Nat.add_mul_div_right _ _ (by positivity), Nat.div_eq_of_lt hlt,
    Nat.zero_add]

theorem bytesValue_drop (bs : List Byte) (n : ℕ) :
    bytesValue (bs.drop n) = bytesValue bs % 256 ^ (bs.length - n) := by
  have hsplit := bytesValue_append (bs.take n) (bs.drop n)
  have hlt := bytesValue_lt (bs.drop n)
  rw [List.take_append_drop, List.length_drop] at hsplit
  rw [List.length_drop] at hlt
  rw [hsplit, Nat.add_comm, Nat.add_mul_mod_self_right, Nat.mod_eq_of_lt hlt]

theorem bytesValue_inj {xs ys : List Byte} (hlen : xs.length = ys.length)
    (h : bytesValue xs = bytesValue ys) : xs = ys :=
  map_toNat_injective (Positional.value_inj (by decide) (by simpa using hlen)
    toNat_lt_of_mem toNat_lt_of_mem h)

theorem memcmp_eq_compareLex {xs ys : List Byte} (hlen : xs.length = ys.length) :
    memcmp xs ys = List.compareLex compare (xs.map BitVec.toNat) (ys.map BitVec.toNat) := by
  induction xs generalizing ys with
  | nil => cases ys with
    | nil => rfl
    | cons y ys => simp at hlen
  | cons x xs ih => cases ys with
    | nil => simp at hlen
    | cons y ys =>
      rw [memcmp, ih (by simpa using hlen), List.map_cons, List.map_cons, List.compareLex_cons_cons]
      simp only [BitVec.lt_def]
      rcases Nat.lt_trichotomy x.toNat y.toNat with h | h | h
      · simp [h, Nat.compare_eq_lt.mpr h]
      · simp [h]
      · simp [h, Nat.compare_eq_gt.mpr h, h.le]

theorem memcmp_eq_compare {xs ys : List Byte} (hlen : xs.length = ys.length) :
    memcmp xs ys = compare (bytesValue xs) (bytesValue ys) := by
  rw [memcmp_eq_compareLex hlen]
  exact Positional.compareLex_eq_compare_value (by decide) (by simpa using hlen)
    toNat_lt_of_mem toNat_lt_of_mem

theorem memcmp_lt_iff {xs ys : List Byte} (hlen : xs.length = ys.length) :
    memcmp xs ys = .lt ↔ bytesValue xs < bytesValue ys := by
  rw [memcmp_eq_compare hlen, Nat.compare_eq_lt]

theorem memcmp_self (xs : List Byte) : memcmp xs xs = .eq := by
  simp [memcmp_eq_compare rfl]

theorem memcmp_append {xs ys : List Byte} (hlen : xs.length = ys.length) (us vs : List Byte) :
    memcmp (xs ++ us) (ys ++ vs) = (memcmp xs ys).then (memcmp us vs) := by
  induction xs generalizing ys with
  | nil => cases ys with
    | nil => rfl
    | cons y ys => simp at hlen
  | cons x xs ih => cases ys with
    | nil => simp at hlen
    | cons y ys =>
      simp only [List.cons_append, memcmp, ih (by simpa using hlen)]
      split_ifs <;> rfl

/-- Texts over an alphabet in ascending order compare as the numbers they spell. -/
theorem memcmp_map_digits {b : ℕ} (hb : 1 < b) {alphabet : ℕ → Byte}
    (hmono : ∀ d < b, ∀ e < b, (alphabet d < alphabet e ↔ d < e)) {ds es : List ℕ}
    (hlen : ds.length = es.length) (hds : ∀ d ∈ ds, d < b) (hes : ∀ e ∈ es, e < b) :
    memcmp (ds.map alphabet) (es.map alphabet) =
      compare (Positional.value b ds) (Positional.value b es) := by
  rw [← Positional.compareLex_eq_compare_value hb hlen hds hes]
  induction ds generalizing es with
  | nil => cases es with
    | nil => rfl
    | cons e es => simp at hlen
  | cons d ds ih => cases es with
    | nil => simp at hlen
    | cons e es =>
      have hd := hds d (by simp)
      have he := hes e (by simp)
      rw [List.map_cons, List.map_cons, memcmp, List.compareLex_cons_cons,
        ih (by simpa using hlen) (fun x hx => hds x (List.mem_cons_of_mem _ hx))
          (fun x hx => hes x (List.mem_cons_of_mem _ hx))]
      simp only [hmono d hd e he, hmono e he d hd]
      rcases Nat.lt_trichotomy d e with h | h | h
      · simp [h, Nat.compare_eq_lt.mpr h]
      · simp [h]
      · simp [h, Nat.compare_eq_gt.mpr h, h.le]

theorem toNat_append {m n : ℕ} (x : BitVec m) (y : BitVec n) :
    (x ++ y).toNat = x.toNat * 2 ^ n + y.toNat := by
  rw [BitVec.toNat_append, ← Nat.shiftLeft_add_eq_or_of_lt y.isLt, Nat.shiftLeft_eq]

def be32Load {n : ℕ} (p : Vector Byte n) (off : ℕ) (h : off + 4 ≤ n) : Word32 :=
  p[off].setWidth 32 <<< 24 ||| p[off + 1].setWidth 32 <<< 16 |||
    p[off + 2].setWidth 32 <<< 8 ||| p[off + 3].setWidth 32

def le32Load {n : ℕ} (p : Vector Byte n) (off : ℕ) (h : off + 4 ≤ n) : Word32 :=
  p[off].setWidth 32 ||| p[off + 1].setWidth 32 <<< 8 ||| p[off + 2].setWidth 32 <<< 16 |||
    p[off + 3].setWidth 32 <<< 24

theorem be32Load_eq_append {n : ℕ} (p : Vector Byte n) (off : ℕ) (h : off + 4 ≤ n) :
    be32Load p off h = p[off] ++ p[off + 1] ++ p[off + 2] ++ p[off + 3] := by
  rw [be32Load]
  ext i hi
  simp only [BitVec.getElem_or, BitVec.getElem_shiftLeft, BitVec.getElem_setWidth]
  grind

theorem toNat_be32Load {n : ℕ} (p : Vector Byte n) (off : ℕ) (h : off + 4 ≤ n) :
    (be32Load p off h).toNat =
      bytesValue [p[off], p[off + 1], p[off + 2], p[off + 3]] := by
  rw [be32Load_eq_append, toNat_append, toNat_append, toNat_append]
  simp only [bytesValue_cons, List.length_cons, List.length_nil, bytesValue_nil]
  ring

/-- `memcpy (out + off, src + pos, len)`. -/
def memcpyAt {n k : ℕ} (out : Vector Byte n) (off : ℕ) (src : Vector Byte k) (pos len : ℕ) :
    Vector Byte n :=
  Vector.ofFn fun i =>
    if off ≤ i.val ∧ i.val < off + len then src.toList.getD (pos + (i.val - off)) 0#8 else out[i]

theorem memcpyAt_in {n k : ℕ} (out : Vector Byte n) (src : Vector Byte k) (pos : ℕ) {off len p : ℕ}
    (hp : p < n) (hle : off ≤ p) (hlt : p < off + len) :
    (memcpyAt out off src pos len)[p] = src.toList.getD (pos + (p - off)) 0#8 := by
  simp [memcpyAt, hle, hlt]

theorem memcpyAt_out {n k : ℕ} (out : Vector Byte n) (src : Vector Byte k) (pos : ℕ) {off len p : ℕ}
    (hp : p < n) (h : p < off ∨ off + len ≤ p) : (memcpyAt out off src pos len)[p] = out[p] := by
  simp [memcpyAt, show ¬(off ≤ p ∧ p < off + len) by omega]

def memsetHead {k : ℕ} (n : ℕ) (c : Byte) (out : Vector Byte k) : Vector Byte k :=
  Vector.ofFn fun i => if i.val < n then c else out[i.val]

/-- Both directions pad only when the loop left room, which comes to the same. -/
theorem memsetHead_pad {k : ℕ} (n : ℕ) (c : Byte) (out : Vector Byte k) :
    (if n > 0 then memsetHead n c out else out) = memsetHead n c out := by
  split_ifs with h
  · rfl
  · ext1 i hi
    simp [memsetHead, Nat.eq_zero_of_not_pos h]

end Chronoid
