import Chronoid.Base62Decode

/-! The 27-character KSUID text: parsing and formatting are inverse to each other,
and parsing accepts exactly the base62 numerals of the 160-bit numbers. -/

namespace Chronoid

open Positional (value fixed)

def readBuffer (n : ℕ) (s : ℕ → Byte) : Vector Byte n := Vector.ofFn fun i => s i

/-- `tmp` is what the stack held where the decoder's temporary goes. -/
def ksuidParse (simd : Simd) (tmp : Vector Byte 20) (out : Ksuid) (s : ℕ → Byte) (len : ℕ) :
    KsuidErr × Ksuid :=
  if len ≠ 27 then (.errStrSize, out)
  else
    let r := base62Decode simd tmp (readBuffer 27 s)
    if r.1 ≠ .ok then (r.1, out) else (.ok, ⟨r.2⟩)

def ksuidFormat (id : Ksuid) (out : Vector Byte 27) : Option (Vector Byte 27) :=
  base62Encode out id.b

theorem ksuidFormat_eq (id : Ksuid) (out : Vector Byte 27) :
    ∃ text, ksuidFormat id out = some text ∧ text.toList = base62Text id.value :=
  base62Encode_eq out id.b

/-- The texts of KSUIDs: digit strings whose number has 160 bits. -/
def KsuidGrammar (s : List Byte) : Prop := IsBase62 s ∧ base62Value s ≤ 2 ^ 160 - 1

theorem ksuidParse_eq (simd : Simd) (tmp : Vector Byte 20) (out : Ksuid) (s : ℕ → Byte) :
    (KsuidGrammar (readBuffer 27 s).toList ∧ ∃ id : Ksuid,
      ksuidParse simd tmp out s 27 = (.ok, id) ∧ id.value = base62Value (readBuffer 27 s).toList) ∨
    (¬KsuidGrammar (readBuffer 27 s).toList ∧
      ksuidParse simd tmp out s 27 = (.errStrValue, out)) := by
  by_cases h : IsBase62 (readBuffer 27 s).toList
  · by_cases hv : base62Value (readBuffer 27 s).toList < 2 ^ 160
    · obtain ⟨bytes, hdec, hbytes⟩ := base62Decode_ok simd tmp h hv
      exact .inl ⟨⟨h, Nat.le_sub_one_of_lt hv⟩, ⟨bytes⟩, by simp [ksuidParse, hdec], hbytes⟩
    · have hdec := base62Decode_overflows simd tmp h (Nat.le_of_not_lt hv)
      exact .inr ⟨fun hh => hv (Nat.lt_of_le_pred (by decide) hh.2), by simp [ksuidParse, hdec]⟩
  · exact .inr ⟨fun hh => h hh.1, by simp [ksuidParse, base62Decode_invalid simd tmp h]⟩

theorem isBase62_base62Text (v : ℕ) : IsBase62 (base62Text v) := by
  intro c hc
  obtain ⟨d, hd, rfl⟩ := List.mem_map.mp hc
  simp [base62Digit_base62Char (Positional.fixed_lt (by decide) hd)]

theorem base62Value_base62Text {v : ℕ} (h : v < 62 ^ 27) : base62Value (base62Text v) = v := by
  have hdigits : (base62Text v).map (fun c => (base62Digit c).getD 0) = fixed 62 27 v := by
    rw [base62Text, List.map_map]
    refine List.map_congr_left (fun d hd => ?_) |>.trans (List.map_id _)
    simp [base62Digit_base62Char (Positional.fixed_lt (by decide) hd)]
  rw [base62Value, hdigits, Positional.value_fixed, Nat.mod_eq_of_lt h]

theorem base62Text_base62Value {s : List Byte} (hlen : s.length = 27) (h : IsBase62 s) :
    base62Text (base62Value s) = s := by
  have hlt : ∀ d ∈ s.map (fun c => (base62Digit c).getD 0), d < 62 := by
    intro d hd
    obtain ⟨c, hc, rfl⟩ := List.mem_map.mp hd
    obtain ⟨d, hd⟩ := Option.isSome_iff_exists.mp (h c hc)
    simpa [hd] using base62Digit_lt hd
  have hfixed := Positional.fixed_value (by decide) hlt
  rw [List.length_map, hlen] at hfixed
  rw [base62Text, base62Value, hfixed, List.map_map]
  refine List.map_congr_left (fun c hc => ?_) |>.trans (List.map_id _)
  obtain ⟨d, hd⟩ := Option.isSome_iff_exists.mp (h c hc)
  simp [hd, base62Char_of_base62Digit hd]

/-- Parsing and formatting are inverse: every identifier is read back from its text,
and a text that parses is the one its identifier is written as. -/
theorem ksuid_text_round_trip (simd : Simd) (tmp : Vector Byte 20) (out : Ksuid) :
    (∀ (id : Ksuid) (buf : Vector Byte 27), ∃ text, ksuidFormat id buf = some text ∧
      ∀ s, readBuffer 27 s = text → ksuidParse simd tmp out s 27 = (.ok, id)) ∧
    ∀ s id, ksuidParse simd tmp out s 27 = (.ok, id) →
      ∀ buf, ksuidFormat id buf = some (readBuffer 27 s) := by
  constructor
  · intro id buf
    obtain ⟨text, hformat, htext⟩ := ksuidFormat_eq id buf
    refine ⟨text, hformat, fun s hs => ?_⟩
    have hlt : id.value < 62 ^ 27 := id.value_lt.trans (by norm_num)
    have hvalue : base62Value (readBuffer 27 s).toList = id.value := by
      rw [hs, htext, base62Value_base62Text hlt]
    rcases ksuidParse_eq simd tmp out s with ⟨_, id', hparse, hid⟩ | ⟨hbad, _⟩
    · rw [hparse, Ksuid.value_inj (hid.trans hvalue)]
    · refine absurd ⟨?_, ?_⟩ hbad
      · rw [hs, htext]
        exact isBase62_base62Text id.value
      · rw [hvalue]
        exact Nat.le_sub_one_of_lt id.value_lt
  · intro s id hok buf
    obtain ⟨text, hformat, htext⟩ := ksuidFormat_eq id buf
    rcases ksuidParse_eq simd tmp out s with ⟨hgrammar, id', hparse, hid⟩ | ⟨_, hparse⟩
    · have hsame : id' = id := (Prod.mk.inj (hparse.symm.trans hok)).2
      have hback : text.toList = (readBuffer 27 s).toList := by
        rw [htext, ← hsame, hid, base62Text_base62Value (by simp) hgrammar.1]
      rw [hformat, Vector.toList_inj.mp hback]
    · rw [hparse] at hok
      cases hok

theorem ksuid_text_round_trip_sample :
    let s : ℕ → Byte := fun i =>
      (['0', 'u', 'j', 't', 's', 'Y', 'c', 'g', 'v', 'S', 'T', 'l', '8', 'P',
      'A', 'u', 'A', 'd', 'q', 'W', 'Y', 'S', 'M', 'n', 'L', 'O', 'v'].map charByte).getD i 0#8
    let id : Ksuid :=
      ⟨#v[0x06#8, 0x69#8, 0xF7#8, 0xEF#8, 0xB5#8, 0xA1#8, 0xCD#8, 0x34#8, 0xB5#8, 0xF9#8,
        0x9D#8, 0x11#8, 0x54#8, 0xFB#8, 0x68#8, 0x53#8, 0x34#8, 0x5C#8, 0x97#8, 0x35#8]⟩
    ksuidParse .sse2 (Vector.replicate 20 0#8) ⟨Vector.replicate 20 0#8⟩ s 27 = (.ok, id) ∧
      ksuidFormat id (Vector.replicate 27 0#8) = some (readBuffer 27 s) := by
  intro s id
  have hparse : ksuidParse .sse2 (Vector.replicate 20 0#8) ⟨Vector.replicate 20 0#8⟩ s 27 =
      (.ok, id) := by
    decide +kernel
  exact ⟨hparse, (ksuid_text_round_trip .sse2 _ _).2 s id hparse _⟩

def maxText : List Byte :=
  ['a', 'W', 'g', 'E', 'P', 'T', 'l', '1', 't', 'm', 'e', 'b', 'f', 's', 'Q', 'z', 'F', 'P', '4',
    'b', 'x', 'w', 'g', 'y', '8', '0', 'V'].map charByte

theorem maxText_eq : maxText = base62Text (2 ^ 160 - 1) := by
  decide

theorem memcmp_base62Text {v w : ℕ} (hv : v < 62 ^ 27) (hw : w < 62 ^ 27) :
    memcmp (base62Text v) (base62Text w) = compare v w := by
  rw [base62Text, base62Text, memcmp_map_digits (by decide) base62Char_lt_iff (by simp)
    (fun _ => Positional.fixed_lt (by decide)) (fun _ => Positional.fixed_lt (by decide)),
    Positional.value_fixed, Positional.value_fixed, Nat.mod_eq_of_lt hv, Nat.mod_eq_of_lt hw]

theorem base62Value_lt {s : List Byte} (hlen : s.length = 27) (h : IsBase62 s) :
    base62Value s < 62 ^ 27 := by
  have hdigits : (s.map fun c => (base62Digit c).getD 0).length = 27 := by simpa using hlen
  rw [← hdigits]
  refine Positional.value_lt (by decide) fun d hd => ?_
  obtain ⟨c, hc, rfl⟩ := List.mem_map.mp hd
  obtain ⟨d, hd⟩ := Option.isSome_iff_exists.mp (h c hc)
  simpa [hd] using base62Digit_lt hd

theorem ksuidGrammar_iff_memcmp {s : List Byte} (hlen : s.length = 27) :
    KsuidGrammar s ↔ IsBase62 s ∧ memcmp s maxText ≠ .gt := by
  refine and_congr_right fun h => ?_
  rw [← base62Text_base62Value hlen h, maxText_eq,
    memcmp_base62Text (base62Value_lt hlen h) (by norm_num), base62Text_base62Value hlen h,
    ne_eq, Nat.compare_eq_gt, Nat.not_lt]

/-- Parsing accepts exactly the 27-digit numerals up to the text of the largest KSUID,
and leaves the destination alone otherwise. -/
theorem ksuidParse_grammar (simd : Simd) (tmp : Vector Byte 20) (out : Ksuid) (s : ℕ → Byte)
    (len : ℕ) :
    let text := (readBuffer 27 s).toList
    let r := ksuidParse simd tmp out s len
    (r.1 = .errStrSize ↔ len ≠ 27) ∧
    (r.1 = .ok ↔ len = 27 ∧ KsuidGrammar text) ∧
    (r.1 = .errStrValue ↔ len = 27 ∧ ¬KsuidGrammar text) ∧
    (KsuidGrammar text ↔ IsBase62 text ∧ memcmp text maxText ≠ .gt) ∧
    (r.1 = .ok → r.2.bytes.map BitVec.toNat = fixed 256 20 (base62Value text)) ∧
    (r.1 ≠ .ok → r.2 = out) := by
  intro text r
  have hlex : KsuidGrammar text ↔ IsBase62 text ∧ memcmp text maxText ≠ .gt :=
    ksuidGrammar_iff_memcmp (by simp [text])
  by_cases hlen : len = 27
  · subst hlen
    rcases ksuidParse_eq simd tmp out s with ⟨hgrammar, id, hparse, hid⟩ | ⟨hbad, hparse⟩
    · have hr : r = (.ok, id) := hparse
      have hgrammar : KsuidGrammar text := hgrammar
      have hbytes : id.bytes.map BitVec.toNat = fixed 256 20 (base62Value text) := by
        have hfixed : fixed 256 _ (value 256 (id.bytes.map BitVec.toNat)) =
            id.bytes.map BitVec.toNat :=
          Positional.fixed_value (by decide) toNat_lt_of_mem
        rw [List.length_map, id.length_bytes] at hfixed
        rw [← hid, Ksuid.value, bytesValue, hfixed]
      refine ⟨?_, ?_, ?_, hlex, ?_, ?_⟩ <;> simp [hr, hgrammar, hbytes]
    · have hr : r = (.errStrValue, out) := hparse
      have hbad : ¬KsuidGrammar text := hbad
      refine ⟨?_, ?_, ?_, hlex, ?_, ?_⟩ <;> simp [hr, hbad]
  · have hr : r = (.errStrSize, out) := if_pos hlen
    refine ⟨?_, ?_, ?_, hlex, ?_, ?_⟩ <;> simp [hr, hlen]

end Chronoid
