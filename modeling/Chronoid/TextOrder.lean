import Chronoid.HexEncode
import Chronoid.KsuidCompare
import Chronoid.KsuidText
import Chronoid.Uuidv7

/-! The texts of both formats sort as the identifiers do. -/

namespace Chronoid

def uuidv7Format (ssse3 : Bool) (id : Uuidv7) (out : Vector Byte 36) : Vector Byte 36 :=
  hexEncodeLower ssse3 out id.b

theorem hexLower_lt_iff : ∀ d < 16, ∀ e < 16, (hexLower d < hexLower e ↔ d < e) := by
  decide

theorem nibbles_lt (bs : List Byte) : ∀ d ∈ nibbles bs, d < 16 := by
  intro d hd
  obtain ⟨b, _, hb⟩ := List.mem_flatMap.mp hd
  have := b.isLt
  simp only [List.mem_cons, List.not_mem_nil, or_false] at hb
  omega

theorem length_nibbles (bs : List Byte) : (nibbles bs).length = 2 * bs.length := by
  induction bs with
  | nil => rfl
  | cons b bs ih =>
    rw [nibbles, List.flatMap_cons, ← nibbles, List.length_append, ih, List.length_cons]
    simp
    omega

theorem value_nibbles (bs : List Byte) : Positional.value 16 (nibbles bs) = bytesValue bs := by
  induction bs with
  | nil => rfl
  | cons b bs ih =>
    rw [nibbles, List.flatMap_cons, ← nibbles, Positional.value_append, ih, length_nibbles,
      bytesValue_cons, pow_mul]
    simp only [Positional.value_cons, Positional.value_nil, List.length_cons, List.length_nil]
    rw [show b.toNat / 16 * 16 ^ (0 + 1) + (b.toNat % 16 * 16 ^ 0 + 0) = b.toNat by omega]
    norm_num

theorem memcmp_hyphen {xs ys : List Byte} (hlen : xs.length = ys.length) (us vs : List Byte) :
    memcmp (xs ++ hyphen :: us) (ys ++ hyphen :: vs) = memcmp (xs ++ us) (ys ++ vs) := by
  rw [memcmp_append hlen, memcmp_append hlen, memcmp]
  simp

theorem take_drop_groups {α : Type*} (l : List α) : l.take 8 ++ ((l.drop 8).take 4 ++
    ((l.drop 12).take 4 ++ ((l.drop 16).take 4 ++ l.drop 20))) = l := by
  have h16 := List.take_append_drop 4 (l.drop 16)
  have h12 := List.take_append_drop 4 (l.drop 12)
  have h8 := List.take_append_drop 4 (l.drop 8)
  simp only [List.drop_drop, Nat.reduceAdd] at h16 h12 h8
  rw [h16, h12, h8, List.take_append_drop]

/-- The hyphens stand in the same places of every text, so they do not count. -/
theorem memcmp_hexText {ds es : List ℕ} (hlen : ds.length = es.length) :
    memcmp (hexText ds) (hexText es) = memcmp (ds.map hexLower) (es.map hexLower) := by
  have hmap : (ds.map hexLower).length = (es.map hexLower).length := by simpa using hlen
  rw [hexText, hexText]
  generalize ds.map hexLower = xs at *
  generalize es.map hexLower = ys at *
  have h8 : (xs.take 8).length = (ys.take 8).length := by simp [hmap]
  have h12 : ((xs.drop 8).take 4).length = ((ys.drop 8).take 4).length := by simp [hmap]
  have h16 : ((xs.drop 12).take 4).length = ((ys.drop 12).take 4).length := by simp [hmap]
  have h20 : ((xs.drop 16).take 4).length = ((ys.drop 16).take 4).length := by simp [hmap]
  rw [memcmp_hyphen h8, memcmp_append h8, memcmp_hyphen h12, memcmp_append h12, memcmp_hyphen h16,
    memcmp_append h16, memcmp_hyphen h20, ← memcmp_append h16, ← memcmp_append h12,
    ← memcmp_append h8, take_drop_groups, take_drop_groups]

theorem memcmp_uuidv7Format (ssse3 ssse3' : Bool) (a b : Uuidv7) (out out' : Vector Byte 36) :
    memcmp (uuidv7Format ssse3 a out).toList (uuidv7Format ssse3' b out').toList =
      uuidv7Compare a b := by
  have hlen : (nibbles a.bytes).length = (nibbles b.bytes).length := by simp [length_nibbles]
  rw [uuidv7Format, uuidv7Format, hexEncodeLower_eq, hexEncodeLower_eq, ← Uuidv7.bytes,
    ← Uuidv7.bytes, memcmp_hexText hlen,
    memcmp_map_digits (by decide) hexLower_lt_iff hlen (nibbles_lt _) (nibbles_lt _),
    value_nibbles, value_nibbles, uuidv7Compare, memcmp_eq_compare (by simp)]

theorem memcmp_ksuidFormat {a b : Ksuid} {out out' s t : Vector Byte 27}
    (hs : ksuidFormat a out = some s) (ht : ksuidFormat b out' = some t) :
    memcmp s.toList t.toList = memcmp a.bytes b.bytes := by
  obtain ⟨s', hs', hstext⟩ := ksuidFormat_eq a out
  obtain ⟨t', ht', httext⟩ := ksuidFormat_eq b out'
  rw [Option.some_inj.mp (hs.symm.trans hs'), Option.some_inj.mp (ht.symm.trans ht'),
    hstext, httext, memcmp_base62Text (a.value_lt.trans (by norm_num))
    (b.value_lt.trans (by norm_num)), memcmp_eq_compare (by simp), Ksuid.value, Ksuid.value]

/-- Text order is binary order, in both formats and whatever kernels the build selects. -/
theorem text_order :
    (∀ (simd : Simd) (a b : Ksuid) (out out' : Vector Byte 27), ∃ s t,
      ksuidFormat a out = some s ∧ ksuidFormat b out' = some t ∧
        ksuidCompare simd a b = signOf (memcmp s.toList t.toList)) ∧
    ∀ (ssse3 : Bool) (a b : Uuidv7) (out out' : Vector Byte 36),
      uuidv7Compare a b =
        memcmp (uuidv7Format ssse3 a out).toList (uuidv7Format ssse3 b out').toList := by
  constructor
  · intro simd a b out out'
    obtain ⟨s, hs, _⟩ := ksuidFormat_eq a out
    obtain ⟨t, ht, _⟩ := ksuidFormat_eq b out'
    exact ⟨s, t, hs, ht, by rw [ksuidCompare_eq, memcmp_ksuidFormat hs ht]⟩
  · intro ssse3 a b out out'
    exact (memcmp_uuidv7Format ssse3 ssse3 a b out out').symm

end Chronoid
