import Chronoid.Base62Translate
import Chronoid.LongDivision

/-! The base62 encoder writes the 27 digits of the 160-bit number it is given. -/

namespace Chronoid

open Positional (value numeral fixed)

/-- The `while` loop of the encoder. A pass with no room left would store before the
buffer, and one whose remainder is off the alphabet would read past it. -/
def encodeLoop : (n : ℕ) → n ≤ 27 → List Word32 → Vector Byte 27 → Option (ℕ × Vector Byte 27)
  | n, _, [], out => some (n, out)
  | 0, _, _ :: _, _ => none
  | n + 1, h, limb :: rest, out =>
    let r := longDiv 4294967296#64 62#64 (limb :: rest)
    kB62Alphabet[r.2.toNat]?.bind fun c => encodeLoop n (Nat.le_of_succ_le h) r.1 (out.set n c)

def payloadLimbs (inp : Vector Byte 20) : List Word32 :=
  [be32Load inp 0 (by decide), be32Load inp 4 (by decide), be32Load inp 8 (by decide),
    be32Load inp 12 (by decide), be32Load inp 16 (by decide)]

def base62Encode (out : Vector Byte 27) (inp : Vector Byte 20) : Option (Vector Byte 27) :=
  (encodeLoop 27 (Nat.le_refl 27) (payloadLimbs inp) out).map fun r =>
    if r.1 > 0 then memsetHead r.1 (charByte '0') r.2 else r.2

/-- The text of a number: its 27 base62 digits, most significant first. -/
def base62Text (v : ℕ) : List Byte := (fixed 62 27 v).map base62Char

theorem longDiv_encode (bp : List Word32) :
    let v := value (2 ^ 32) (bp.map BitVec.toNat)
    let r := longDiv 4294967296#64 62#64 bp
    value (2 ^ 32) (r.1.map BitVec.toNat) = v / 62 ∧ r.2.toNat = v % 62 ∧
      (∀ x ∈ r.1, x.toNat < 2 ^ 32) ∧
      ∀ n, v < 62 ^ (n + 1) → v / 62 < 62 ^ n ∧ (r.1 ≠ [] → 0 < n) :=
  longDiv_pass 4294967296#64 62#64 (by decide) (by decide) (by decide) (by decide) (by decide)
    toNat_lt_two_pow

theorem longDiv_encode_lt (bp : List Word32) : (longDiv 4294967296#64 62#64 bp).2.toNat < 62 :=
  longDiv_remainder_lt (by decide) bp

theorem encodeLoop_pass {n : ℕ} (h : n + 1 ≤ 27) {bp : List Word32} (hbp : bp ≠ [])
    (out : Vector Byte 27) :
    encodeLoop (n + 1) h bp out =
      encodeLoop n (Nat.le_of_succ_le h) (longDiv 4294967296#64 62#64 bp).1
      (out.set n (base62Char (longDiv 4294967296#64 62#64 bp).2.toNat)) := by
  obtain ⟨limb, rest, rfl⟩ := List.exists_cons_of_ne_nil hbp
  simp only [encodeLoop, kB62Alphabet_getElem? (longDiv_encode_lt (limb :: rest)), Option.bind_some]

theorem encodeLoop_spec {n : ℕ} (h : n ≤ 27) (bp : List Word32) (out : Vector Byte 27)
    (hroom : value (2 ^ 32) (bp.map BitVec.toNat) < 62 ^ n) (hn : bp ≠ [] → 0 < n) :
    ∃ r, encodeLoop n h bp out = some r ∧ ∀ i (hi : i < 27),
      (memsetHead r.1 (charByte '0') r.2)[i] = if i < n then
        base62Char (value (2 ^ 32) (bp.map BitVec.toNat) / 62 ^ (n - 1 - i) % 62) else out[i] := by
  induction n generalizing bp out with
  | zero =>
    obtain rfl : bp = [] := by
      by_contra hbp
      exact absurd (hn hbp) (by decide)
    exact ⟨(0, out), rfl, fun i hi => by simp [memsetHead]⟩
  | succ n ih =>
    by_cases hbp : bp = []
    · subst hbp
      refine ⟨(n + 1, out), rfl, fun i hi => ?_⟩
      simp only [memsetHead, Vector.getElem_ofFn, List.map_nil, Positional.value_nil, Nat.zero_div,
        Nat.zero_mod]
      rfl
    · obtain ⟨hvalue, hr, -, hnext⟩ := longDiv_encode bp
      obtain ⟨hlt, hpos⟩ := hnext n hroom
      rw [encodeLoop_pass h hbp, hr]
      generalize hv : value (2 ^ 32) (bp.map BitVec.toNat) = v at *
      obtain ⟨r, hloop, hget⟩ := ih (Nat.le_of_succ_le h)
        (longDiv 4294967296#64 62#64 bp).1 (out.set n (base62Char (v % 62)))
        (by rwa [hvalue]) hpos
      refine ⟨r, hloop, fun i hi => ?_⟩
      rw [hget i hi, hvalue]
      rcases Nat.lt_trichotomy i n with hin | rfl | hin
      · rw [if_pos hin, if_pos (by omega), Nat.div_div_eq_div_mul, ← pow_succ',
          show n - 1 - i + 1 = n + 1 - 1 - i by omega]
      · simp
      · rw [if_neg (by omega), if_neg (by omega), Vector.getElem_set_ne _ _ (by omega)]

theorem toList_eq_limbs (inp : Vector Byte 20) :
    inp.toList = [inp[0], inp[1], inp[2], inp[3]] ++ [inp[4], inp[5], inp[6], inp[7]] ++
      [inp[8], inp[9], inp[10], inp[11]] ++ [inp[12], inp[13], inp[14], inp[15]] ++
      [inp[16], inp[17], inp[18], inp[19]] := by
  refine List.ext_getElem (by simp) fun i hi _ => ?_
  have hi : i < 20 := by simpa using hi
  interval_cases i <;> rfl

theorem value_payloadLimbs (inp : Vector Byte 20) :
    value (2 ^ 32) ((payloadLimbs inp).map BitVec.toNat) = bytesValue inp.toList := by
  rw [toList_eq_limbs]
  simp only [payloadLimbs, List.map_cons, List.map_nil, toNat_be32Load, Positional.value_cons,
    Positional.value_nil, bytesValue_append, List.length_cons, List.length_nil]
  ring

theorem value_payloadLimbs_lt (inp : Vector Byte 20) :
    value (2 ^ 32) ((payloadLimbs inp).map BitVec.toNat) < 62 ^ 27 := by
  rw [value_payloadLimbs]
  refine (bytesValue_lt _).trans_le ?_
  simp

theorem base62Encode_eq (out : Vector Byte 27) (inp : Vector Byte 20) :
    ∃ text, base62Encode out inp = some text ∧
      text.toList = base62Text (bytesValue inp.toList) := by
  obtain ⟨r, hloop, hget⟩ := encodeLoop_spec (Nat.le_refl 27) (payloadLimbs inp) out
    (value_payloadLimbs_lt inp) (by simp)
  refine ⟨memsetHead r.1 (charByte '0') r.2, ?_, ?_⟩
  · simp only [base62Encode, hloop, Option.map_some, memsetHead_pad]
  · refine List.ext_getElem (by simp [base62Text]) fun i hi _ => ?_
    have hi : i < 27 := by simpa using hi
    rw [Vector.getElem_toList, hget i hi, if_pos hi, value_payloadLimbs]
    simp [base62Text, Positional.getElem_fixed]

end Chronoid
