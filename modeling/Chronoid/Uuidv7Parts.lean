import Chronoid.Uuidv7
import Mathlib.Tactic.IntervalCases

/-! Building a UUIDv7 from its fields and reading them back. The bytes, as one
number, hold the fields from the most significant bit down, so both equality and
order of identifiers are those of the fields. -/

namespace Chronoid

def uuidv7FromParts (out : Uuidv7) (unixMs : Int) (randA12bit : Word16) (randB : Vector Byte 8) :
    Uuidv7Err × Uuidv7 :=
  if unixMs < 0 ∨ unixMs > uuidv7MaxUnixMs then (.errTimeRange, out)
  else
    let ms : Word64 := BitVec.ofInt 64 unixMs
    let randA := randA12bit &&& 0x0FFF#16
    (.ok, ⟨#v[(ms >>> 40).setWidth 8, (ms >>> 32).setWidth 8, (ms >>> 24).setWidth 8,
      (ms >>> 16).setWidth 8, (ms >>> 8).setWidth 8, ms.setWidth 8,
      (0x70#16 ||| ((randA >>> 8) &&& 0x0F#16)).setWidth 8, (randA &&& 0xFF#16).setWidth 8,
      0x80#8 ||| (randB.get 0 &&& 0x3F#8), randB.get 1, randB.get 2, randB.get 3, randB.get 4,
      randB.get 5, randB.get 6, randB.get 7]⟩)

def uuidv7UnixMs (id : Uuidv7) : Int :=
  ((id.b.get 0).setWidth 64 <<< 40 ||| (id.b.get 1).setWidth 64 <<< 32 |||
    (id.b.get 2).setWidth 64 <<< 24 ||| (id.b.get 3).setWidth 64 <<< 16 |||
    (id.b.get 4).setWidth 64 <<< 8 ||| (id.b.get 5).setWidth 64 : Word64).toInt

def uuidv7Version (id : Uuidv7) : Byte := id.b.get 6 >>> 4 &&& 0x0F#8
def uuidv7Variant (id : Uuidv7) : Byte := id.b.get 8 >>> 6 &&& 0x03#8

/-- The twelve bits below the version, and the eight bytes that start with the variant. -/
def uuidv7RandA (id : Uuidv7) : Word16 := (id.b.get 6 ++ id.b.get 7) &&& 0x0FFF#16
def uuidv7RandB (id : Uuidv7) : Vector Byte 8 :=
  #v[id.b.get 8 &&& 0x3F#8, id.b.get 9, id.b.get 10, id.b.get 11, id.b.get 12, id.b.get 13,
    id.b.get 14, id.b.get 15]

/-- The free bits of a version 7 identifier. -/
structure Uuidv7Fields where
  ms : Fin (2 ^ 48)
  randA : Fin (2 ^ 12)
  randB : Fin (2 ^ 62)
  deriving DecidableEq

namespace Uuidv7Fields

def value (f : Uuidv7Fields) : ℕ :=
  (f.ms.val * 2 ^ 16 + 0x7000 + f.randA.val) * 2 ^ 64 + 2 ^ 63 + f.randB.val

def lex (f g : Uuidv7Fields) : Ordering :=
  (compare f.ms.val g.ms.val).then
    ((compare f.randA.val g.randA.val).then (compare f.randB.val g.randB.val))

theorem ext_val {f g : Uuidv7Fields} (hms : f.ms.val = g.ms.val) (ha : f.randA.val = g.randA.val)
    (hb : f.randB.val = g.randB.val) : f = g := by
  cases f
  cases g
  exact congr (congr (congrArg mk (Fin.ext hms)) (Fin.ext ha)) (Fin.ext hb)

theorem value_inj {f g : Uuidv7Fields} (h : f.value = g.value) : f = g := by
  rw [value, value] at h
  exact ext_val (by omega) (by omega) (by omega)

theorem compare_value (f g : Uuidv7Fields) : compare f.value g.value = f.lex g := by
  have hhead (f : Uuidv7Fields) : 0x7000 + f.randA.val < 2 ^ 16 := by omega
  have htail (f : Uuidv7Fields) : 2 ^ 63 + f.randB.val < 2 ^ 64 := by omega
  simp only [value, lex, Nat.add_assoc]
  rw [Positional.compare_mul_add (htail f) (htail g),
    Positional.compare_mul_add (hhead f) (hhead g), Positional.compare_add_left,
    Positional.compare_add_left, Ordering.then_assoc]

end Uuidv7Fields

theorem parts_ok {ms : Int} (h0 : 0 ≤ ms) (hm : ms ≤ uuidv7MaxUnixMs) (out out' : Uuidv7)
    (a : Word16) (b : Vector Byte 8) :
    uuidv7FromParts out ms a b = (.ok, (uuidv7FromParts out' ms a b).2) := by
  simp only [uuidv7FromParts, if_neg (show ¬(ms < 0 ∨ ms > uuidv7MaxUnixMs) by omega)]

theorem parts_head {ms : Int} (h0 : 0 ≤ ms) (hm : ms ≤ uuidv7MaxUnixMs) (out : Uuidv7)
    (a : Word16) (b : Vector Byte 8) :
    bytesValue ((uuidv7FromParts out ms a b).2.bytes.take 8) =
      ms.toNat * 2 ^ 16 + 0x7000 + a.toNat % 2 ^ 12 := by
  have hms : (BitVec.ofInt 64 ms).toNat = ms.toNat := by
    rw [uuidv7MaxUnixMs] at hm
    rw [BitVec.toNat_ofInt]
    omega
  have ha : (a &&& 0x0FFF#16).toNat = a.toNat % 2 ^ 12 := by
    rw [BitVec.toNat_and]
    exact Nat.and_two_pow_sub_one_eq_mod a.toNat 12
  have hlow : ((a &&& 0x0FFF#16) &&& 0xFF#16).toNat = a.toNat % 2 ^ 12 % 256 := by
    rw [BitVec.toNat_and, ha]
    exact Nat.and_two_pow_sub_one_eq_mod _ 8
  have hhigh : (0x70#16 ||| (((a &&& 0x0FFF#16) >>> 8) &&& 0x0F#16)).toNat =
      0x70 + a.toNat % 2 ^ 12 / 256 := by
    have hand : (((a &&& 0x0FFF#16) >>> 8) &&& 0x0F#16).toNat = a.toNat % 2 ^ 12 / 256 := by
      rw [BitVec.toNat_and, BitVec.toNat_ushiftRight, ha, Nat.shiftRight_eq_div_pow]
      refine (Nat.and_two_pow_sub_one_eq_mod (a.toNat % 2 ^ 12 / 2 ^ 8) 4).trans ?_
      omega
    rw [BitVec.toNat_or, hand]
    exact (Nat.two_pow_add_eq_or_of_lt (i := 4) (by omega) 7).symm
  simp only [uuidv7FromParts, if_neg (show ¬(ms < 0 ∨ ms > uuidv7MaxUnixMs) by omega),
    Uuidv7.bytes, Vector.toList_mk, List.take_succ_cons, List.take_zero, bytesValue_cons,
    bytesValue_nil, List.length_cons, List.length_nil, BitVec.toNat_setWidth,
    BitVec.toNat_ushiftRight, Nat.shiftRight_eq_div_pow, hlow, hhigh, hms]
  rw [uuidv7MaxUnixMs] at hm
  omega

theorem parts_tail {ms : Int} (h0 : 0 ≤ ms) (hm : ms ≤ uuidv7MaxUnixMs) (out : Uuidv7)
    (a : Word16) (b : Vector Byte 8) :
    bytesValue ((uuidv7FromParts out ms a b).2.bytes.drop 8) =
      2 ^ 63 + bytesValue b.toList % 2 ^ 62 := by
  have hb : b.toList =
      [b.get 0, b.get 1, b.get 2, b.get 3, b.get 4, b.get 5, b.get 6, b.get 7] := by
    refine List.ext_getElem (by simp) fun i hi _ => ?_
    have hi : i < 8 := by simpa using hi
    interval_cases i <;> rfl
  have hvariant : (0x80#8 ||| (b.get 0 &&& 0x3F#8)).toNat = 0x80 + (b.get 0).toNat % 64 := by
    rw [BitVec.toNat_or, BitVec.toNat_and]
    refine (congrArg (0x80 ||| ·) (Nat.and_two_pow_sub_one_eq_mod (b.get 0).toNat 6)).trans ?_
    exact (Nat.two_pow_add_eq_or_of_lt (i := 7) (by omega) 1).symm
  have hlt := bytesValue_lt [b.get 1, b.get 2, b.get 3, b.get 4, b.get 5, b.get 6, b.get 7]
  simp only [uuidv7FromParts, if_neg (show ¬(ms < 0 ∨ ms > uuidv7MaxUnixMs) by omega),
    Uuidv7.bytes, Vector.toList_mk, List.drop_succ_cons, List.drop_zero, hb]
  rw [bytesValue_cons, bytesValue_cons (b.get 0), hvariant]
  simp only [List.length_cons, List.length_nil, Nat.reduceAdd, Nat.reducePow] at *
  omega

def fieldsOf (ms : Int) (a : Word16) (b : Vector Byte 8) : Uuidv7Fields :=
  ⟨Fin.ofNat _ ms.toNat, Fin.ofNat _ a.toNat, Fin.ofNat _ (bytesValue b.toList)⟩

theorem fieldsOf_ms (ms : Int) (a : Word16) (b : Vector Byte 8) :
    (fieldsOf ms a b).ms.val = ms.toNat % 2 ^ 48 := rfl

theorem fieldsOf_randA (ms : Int) (a : Word16) (b : Vector Byte 8) :
    (fieldsOf ms a b).randA.val = a.toNat % 2 ^ 12 := rfl

theorem fieldsOf_randB (ms : Int) (a : Word16) (b : Vector Byte 8) :
    (fieldsOf ms a b).randB.val = bytesValue b.toList % 2 ^ 62 := rfl

theorem parts_value {ms : Int} (h0 : 0 ≤ ms) (hm : ms ≤ uuidv7MaxUnixMs) (out : Uuidv7)
    (a : Word16) (b : Vector Byte 8) :
    bytesValue (uuidv7FromParts out ms a b).2.bytes = (fieldsOf ms a b).value := by
  have hsplit := bytesValue_append ((uuidv7FromParts out ms a b).2.bytes.take 8)
    ((uuidv7FromParts out ms a b).2.bytes.drop 8)
  rw [List.take_append_drop, List.length_drop, Uuidv7.length_bytes, parts_head h0 hm,
    parts_tail h0 hm] at hsplit
  rw [hsplit]
  rw [uuidv7MaxUnixMs] at hm
  rw [Uuidv7Fields.value, fieldsOf_ms, fieldsOf_randA, fieldsOf_randB]
  omega

theorem Uuidv7.bytes_eq (id : Uuidv7) : id.bytes = [id.b.get 0, id.b.get 1, id.b.get 2, id.b.get 3,
    id.b.get 4, id.b.get 5, id.b.get 6, id.b.get 7, id.b.get 8, id.b.get 9, id.b.get 10,
    id.b.get 11, id.b.get 12, id.b.get 13, id.b.get 14, id.b.get 15] := by
  refine List.ext_getElem (by simp) fun i hi _ => ?_
  have hi : i < 16 := by simpa using hi
  interval_cases i <;> rfl

theorem unixMs_value (id : Uuidv7) : uuidv7UnixMs id = (bytesValue id.bytes / 2 ^ 80 : ℕ) := by
  have happend : ((id.b.get 0).setWidth 64 <<< 40 ||| (id.b.get 1).setWidth 64 <<< 32 |||
      (id.b.get 2).setWidth 64 <<< 24 ||| (id.b.get 3).setWidth 64 <<< 16 |||
      (id.b.get 4).setWidth 64 <<< 8 ||| (id.b.get 5).setWidth 64 : Word64) =
      (id.b.get 0 ++ id.b.get 1 ++ id.b.get 2 ++ id.b.get 3 ++ id.b.get 4 ++ id.b.get 5).setWidth
          64 := by
    ext i hi
    simp only [BitVec.getElem_or, BitVec.getElem_shiftLeft, BitVec.getElem_setWidth,
      BitVec.getLsbD_append]
    grind
  have hbytes : (id.b.get 0 ++ id.b.get 1 ++ id.b.get 2 ++ id.b.get 3 ++ id.b.get 4 ++
      id.b.get 5).toNat = bytesValue id.bytes / 2 ^ 80 := by
    have htake := bytesValue_take id.bytes 6
    rw [Uuidv7.length_bytes, show 256 ^ (16 - 6) = 2 ^ 80 by norm_num] at htake
    rw [← htake, id.bytes_eq]
    simp only [toNat_append, List.take_succ_cons, List.take_zero, bytesValue_cons, bytesValue_nil,
      List.length_cons, List.length_nil]
    ring
  have hlt := bytesValue_lt id.bytes
  rw [Uuidv7.length_bytes] at hlt
  have hwide : (BitVec.setWidth 64 (id.b.get 0 ++ id.b.get 1 ++ id.b.get 2 ++ id.b.get 3 ++
      id.b.get 4 ++ id.b.get 5)).toNat = bytesValue id.bytes / 2 ^ 80 := by
    rw [BitVec.toNat_setWidth, hbytes, Nat.mod_eq_of_lt (by omega)]
  rw [uuidv7UnixMs, happend, BitVec.toInt_eq_toNat_of_lt (by omega), hwide]

theorem Uuidv7.toNat_get (id : Uuidv7) (i : Fin 16) :
    (id.b.get i).toNat = bytesValue id.bytes / 256 ^ (15 - i.val) % 256 := by
  have hdigits := Positional.fixed_value (by decide) (@toNat_lt_of_mem 8 id.bytes)
  rw [List.length_map, Uuidv7.length_bytes] at hdigits
  have hi : i.val < (id.bytes.map BitVec.toNat).length := by simp
  have hget := List.getElem_of_eq hdigits.symm hi
  rwa [List.getElem_map, Positional.getElem_fixed] at hget

theorem version_value (id : Uuidv7) :
    (uuidv7Version id).toNat = bytesValue id.bytes / 2 ^ 76 % 16 := by
  have hget : (id.b.get 6).toNat = bytesValue id.bytes / 256 ^ 9 % 256 := id.toNat_get 6
  have hand : (uuidv7Version id).toNat = (id.b.get 6).toNat / 2 ^ 4 % 16 := by
    rw [uuidv7Version, BitVec.toNat_and, BitVec.toNat_ushiftRight, Nat.shiftRight_eq_div_pow]
    exact Nat.and_two_pow_sub_one_eq_mod _ 4
  omega

theorem variant_value (id : Uuidv7) :
    (uuidv7Variant id).toNat = bytesValue id.bytes / 2 ^ 62 % 4 := by
  have hget : (id.b.get 8).toNat = bytesValue id.bytes / 256 ^ 7 % 256 := id.toNat_get 8
  have hand : (uuidv7Variant id).toNat = (id.b.get 8).toNat / 2 ^ 6 % 4 := by
    rw [uuidv7Variant, BitVec.toNat_and, BitVec.toNat_ushiftRight, Nat.shiftRight_eq_div_pow]
    exact Nat.and_two_pow_sub_one_eq_mod _ 2
  omega

theorem randA_value (id : Uuidv7) :
    (uuidv7RandA id).toNat = bytesValue id.bytes / 2 ^ 64 % 2 ^ 12 := by
  have hhigh : (id.b.get 6).toNat = bytesValue id.bytes / 256 ^ 9 % 256 := id.toNat_get 6
  have hlow : (id.b.get 7).toNat = bytesValue id.bytes / 256 ^ 8 % 256 := id.toNat_get 7
  have hand : (uuidv7RandA id).toNat =
      ((id.b.get 6).toNat * 2 ^ 8 + (id.b.get 7).toNat) % 2 ^ 12 := by
    rw [uuidv7RandA, BitVec.toNat_and, toNat_append]
    exact Nat.and_two_pow_sub_one_eq_mod _ 12
  omega

theorem randB_value (id : Uuidv7) :
    bytesValue (uuidv7RandB id).toList = bytesValue id.bytes % 2 ^ 62 := by
  have hdrop := bytesValue_drop id.bytes 8
  rw [Uuidv7.length_bytes, id.bytes_eq] at hdrop
  simp only [List.drop_succ_cons, List.drop_zero] at hdrop
  rw [← id.bytes_eq, bytesValue_cons] at hdrop
  have hand : (id.b.get 8 &&& 0x3F#8).toNat = (id.b.get 8).toNat % 64 := by
    rw [BitVec.toNat_and]
    exact Nat.and_two_pow_sub_one_eq_mod _ 6
  have hlt := bytesValue_lt [id.b.get 9, id.b.get 10, id.b.get 11, id.b.get 12, id.b.get 13,
    id.b.get 14, id.b.get 15]
  simp only [List.length_cons, List.length_nil, Nat.reduceAdd, Nat.reduceSub] at hdrop hlt
  simp only [uuidv7RandB, Vector.toList_mk]
  rw [bytesValue_cons, hand]
  simp only [List.length_cons, List.length_nil, Nat.reduceAdd]
  generalize bytesValue [id.b.get 9, id.b.get 10, id.b.get 11, id.b.get 12, id.b.get 13,
    id.b.get 14, id.b.get 15] = rest at *
  have hx : (id.b.get 8).toNat * 256 ^ 7 + rest =
      (id.b.get 8).toNat % 64 * 256 ^ 7 + rest + (id.b.get 8).toNat / 64 * 2 ^ 62 := by omega
  have hroom : (id.b.get 8).toNat % 64 * 256 ^ 7 + rest < 2 ^ 62 := by omega
  rw [← Nat.mod_mod_of_dvd _ (show 2 ^ 62 ∣ 256 ^ 8 by norm_num), ← hdrop, hx,
    Nat.add_mul_mod_self_right, Nat.mod_eq_of_lt hroom]

theorem fieldsOf_eq {f : Uuidv7Fields} {id : Uuidv7} (h : bytesValue id.bytes = f.value) :
    fieldsOf (uuidv7UnixMs id) (uuidv7RandA id) (uuidv7RandB id) = f := by
  have hms := f.ms.isLt
  have ha := f.randA.isLt
  have hb := f.randB.isLt
  rw [Uuidv7Fields.value] at h
  apply Uuidv7Fields.ext_val
  · rw [fieldsOf_ms, unixMs_value, Int.toNat_natCast, h]
    omega
  · rw [fieldsOf_randA, randA_value, h]
    omega
  · rw [fieldsOf_randB, randB_value, h]
    omega

theorem Uuidv7.eq_of_value {a b : Uuidv7} (h : bytesValue a.bytes = bytesValue b.bytes) :
    a = b := by
  obtain ⟨a⟩ := a
  obtain ⟨b⟩ := b
  exact congrArg _ (Vector.toList_inj.mp (bytesValue_inj (by simp) h))

theorem parts_ok_iff {out : Uuidv7} {ms : Int} {a : Word16} {b : Vector Byte 8} :
    (uuidv7FromParts out ms a b).1 = .ok ↔ 0 ≤ ms ∧ ms ≤ uuidv7MaxUnixMs := by
  rw [uuidv7FromParts]
  split_ifs with h
  · simp only [false_iff]
    omega
  · simp only [true_iff]
    omega

theorem parts_failed {out : Uuidv7} {ms : Int} {a : Word16} {b : Vector Byte 8}
    (h : (uuidv7FromParts out ms a b).1 ≠ .ok) :
    uuidv7FromParts out ms a b = (.errTimeRange, out) := by
  rw [ne_eq, parts_ok_iff] at h
  rw [uuidv7FromParts, if_pos (by omega)]

/-- What makes sixteen bytes the image of fields: the two marks the library writes. -/
theorem value_eq_fields {id : Uuidv7} (hversion : uuidv7Version id = 7)
    (hvariant : uuidv7Variant id = 2) :
    bytesValue id.bytes = (fieldsOf (uuidv7UnixMs id) (uuidv7RandA id) (uuidv7RandB id)).value := by
  have hv := version_value id
  have hw := variant_value id
  have hlt := bytesValue_lt id.bytes
  rw [hversion] at hv
  rw [hvariant] at hw
  rw [Uuidv7.length_bytes] at hlt
  rw [Uuidv7Fields.value, fieldsOf_ms, fieldsOf_randA, fieldsOf_randB, unixMs_value, randA_value,
    randB_value, Int.toNat_natCast]
  generalize bytesValue id.bytes = v at *
  have hv : v / 2 ^ 76 % 16 = 7 := hv.symm
  have hw : v / 2 ^ 62 % 4 = 2 := hw.symm
  omega

theorem marks_of_value {id : Uuidv7} {f : Uuidv7Fields} (h : bytesValue id.bytes = f.value) :
    uuidv7Version id = 7 ∧ uuidv7Variant id = 2 ∧ uuidv7UnixMs id = f.ms.val := by
  have hms := f.ms.isLt
  have ha := f.randA.isLt
  have hb := f.randB.isLt
  rw [Uuidv7Fields.value] at h
  refine ⟨BitVec.eq_of_toNat_eq ?_, BitVec.eq_of_toNat_eq ?_, ?_⟩
  · rw [version_value, h]
    exact show _ = 7 by omega
  · rw [variant_value, h]
    exact show _ = 2 by omega
  · rw [unixMs_value, h]
    omega

theorem compare_toNat {x y : Int} (hx : 0 ≤ x) (hy : 0 ≤ y) :
    compare x.toNat y.toNat = compare x y := by
  rcases lt_trichotomy x y with h | rfl | h
  · rw [compare_lt_iff_lt.mpr h, compare_lt_iff_lt.mpr (by omega)]
  · rw [compare_eq_iff_eq.mpr rfl, compare_eq_iff_eq.mpr rfl]
  · rw [compare_gt_iff_gt.mpr h, compare_gt_iff_gt.mpr (by omega)]

/-- The layout is a bijection that keeps order: what a call builds depends on the time,
twelve bits of one argument and sixty-two of the other, it compares as these do, and
every identifier with the two marks is built from the fields it reads back as. -/
theorem uuidv7_layout_bijective :
    (∀ (out : Uuidv7) (ms : Int) (a : Word16) (b : Vector Byte 8),
      let r := uuidv7FromParts out ms a b
      (r.1 = .ok ↔ 0 ≤ ms ∧ ms ≤ 2 ^ 48 - 1) ∧ (r.1 ≠ .ok → r = (.errTimeRange, out)) ∧
        (r.1 = .ok → uuidv7Version r.2 = 7 ∧ uuidv7Variant r.2 = 2 ∧ uuidv7UnixMs r.2 = ms)) ∧
    (∀ (out out' : Uuidv7) (ms ms' : Int) (a a' : Word16) (b b' : Vector Byte 8),
      let r := uuidv7FromParts out ms a b
      let r' := uuidv7FromParts out' ms' a' b'
      r.1 = .ok → r'.1 = .ok →
        (r.2 = r'.2 ↔ ms = ms' ∧ a.toNat % 2 ^ 12 = a'.toNat % 2 ^ 12 ∧
          bytesValue b.toList % 2 ^ 62 = bytesValue b'.toList % 2 ^ 62) ∧
        uuidv7Compare r.2 r'.2 = (compare ms ms').then
          ((compare (a.toNat % 2 ^ 12) (a'.toNat % 2 ^ 12)).then
            (compare (bytesValue b.toList % 2 ^ 62) (bytesValue b'.toList % 2 ^ 62)))) ∧
    ∀ id out : Uuidv7, uuidv7Version id = 7 → uuidv7Variant id = 2 →
      uuidv7FromParts out (uuidv7UnixMs id) (uuidv7RandA id) (uuidv7RandB id) = (.ok, id) := by
  refine ⟨fun out ms a b => ⟨parts_ok_iff, parts_failed, fun hok => ?_⟩, ?_, ?_⟩
  · obtain ⟨h0, hm⟩ := parts_ok_iff.mp hok
    obtain ⟨hversion, hvariant, hms⟩ := marks_of_value (parts_value h0 hm out a b)
    refine ⟨hversion, hvariant, hms.trans ?_⟩
    rw [uuidv7MaxUnixMs] at hm
    rw [fieldsOf_ms]
    omega
  · intro out out' ms ms' a a' b b' r r' hok hok'
    obtain ⟨h0, hm⟩ := parts_ok_iff.mp hok
    obtain ⟨h0', hm'⟩ := parts_ok_iff.mp hok'
    have hvalue : bytesValue r.2.bytes = (fieldsOf ms a b).value := parts_value h0 hm out a b
    have hvalue' : bytesValue r'.2.bytes = (fieldsOf ms' a' b').value :=
      parts_value h0' hm' out' a' b'
    rw [uuidv7MaxUnixMs] at hm hm'
    have hms : ms.toNat % 2 ^ 48 = ms.toNat := Nat.mod_eq_of_lt (by omega)
    have hms' : ms'.toNat % 2 ^ 48 = ms'.toNat := Nat.mod_eq_of_lt (by omega)
    constructor
    · constructor
      · intro he
        have hf : fieldsOf ms a b = fieldsOf ms' a' b' :=
          Uuidv7Fields.value_inj (by rw [← hvalue, ← hvalue', he])
        have hfms : ms.toNat % 2 ^ 48 = ms'.toNat % 2 ^ 48 := congrArg (fun f => f.ms.val) hf
        exact ⟨by omega, congrArg (fun f => f.randA.val) hf, congrArg (fun f => f.randB.val) hf⟩
      · rintro ⟨rfl, ha, hb⟩
        apply Uuidv7.eq_of_value
        rw [hvalue, hvalue', Uuidv7Fields.ext_val (f := fieldsOf ms a b) (g := fieldsOf ms a' b')
          rfl ha hb]
    · rw [uuidv7Compare, memcmp_eq_compare (by simp), hvalue, hvalue', Uuidv7Fields.compare_value,
        Uuidv7Fields.lex, fieldsOf_ms, fieldsOf_ms, hms, hms', compare_toNat h0 h0']
      rfl
  · intro id out hversion hvariant
    have hlt := bytesValue_lt id.bytes
    rw [Uuidv7.length_bytes] at hlt
    have h0 : 0 ≤ uuidv7UnixMs id := by
      rw [unixMs_value]
      omega
    have hm : uuidv7UnixMs id ≤ uuidv7MaxUnixMs := by
      rw [unixMs_value, uuidv7MaxUnixMs]
      omega
    refine (parts_ok h0 hm out id _ _).trans (congrArg _ (Uuidv7.eq_of_value ?_))
    rw [parts_value h0 hm, value_eq_fields hversion hvariant]

theorem uuidv7_layout_bijective_sample :
    let r := uuidv7FromParts ⟨Vector.replicate 16 0#8⟩ 1 0xF123#16 (Vector.replicate 8 0xFF#8)
    let r' := uuidv7FromParts ⟨Vector.replicate 16 1#8⟩ 1 0x0123#16 (Vector.replicate 8 0xFF#8)
    r.2 = r'.2 :=
  ((uuidv7_layout_bijective.2.1 ⟨Vector.replicate 16 0#8⟩ ⟨Vector.replicate 16 1#8⟩ 1 1 0xF123#16
    0x0123#16 (Vector.replicate 8 0xFF#8) (Vector.replicate 8 0xFF#8) (by decide +kernel)
    (by decide +kernel)).1).mpr ⟨rfl, by decide, rfl⟩

end Chronoid
