import Chronoid.Bytes
import Mathlib.Data.List.TakeWhile

/-! Strings as the command line passes them, and the number that the option for the count takes. -/

namespace Chronoid

open Positional (value numeral)

def text (s : String) : List Byte := s.toList.map charByte

/-- A string up to its terminator. -/
@[ext]
structure CString where
  bytes : List Byte
  no_nul : 0#8 ∉ bytes
  deriving DecidableEq, Repr

def CString.at (s : CString) (i : ℕ) : Byte := s.bytes.getD i 0#8

def isSpace (c : Byte) : Bool := c = 0x20#8 || (0x09#8 ≤ c && c ≤ 0x0d#8)

def isDecimal (c : Byte) : Bool := 0x30#8 ≤ c && c ≤ 0x39#8

def decimalDigit (c : Byte) : ℕ := c.toNat - 0x30

/-- What `strtol` leaves behind: its value, `errno` set to `ERANGE` or not, and the text from
`*end`. -/
structure Strtol where
  value : Int
  erange : Bool
  rest : List Byte
  deriving DecidableEq, Repr

/-- `strtol` to base ten, for a `long` that reaches from `-(longMax + 1)` to `longMax`. Without a
digit the end is the start. -/
def strtol (longMax : ℕ) (s : List Byte) : Strtol :=
  let body := s.dropWhile isSpace
  let negative := body.head? = some (charByte '-')
  let digits := if negative ∨ body.head? = some (charByte '+') then body.tail else body
  let ds := digits.takeWhile isDecimal
  let v := value 10 (ds.map decimalDigit)
  let rest := digits.dropWhile isDecimal
  if ds = [] then ⟨0, false, s⟩
  else if negative then
    if v > longMax + 1 then ⟨-(longMax + 1), true, rest⟩ else ⟨-v, false, rest⟩
  else if v > longMax then ⟨longMax, true, rest⟩
  else ⟨v, false, rest⟩

/-- The value of `-n`, where the check of it passes. -/
def countArg (longMax : ℕ) (val : List Byte) : Option ℕ :=
  let v := strtol longMax val
  if v.erange = true ∨ v.rest ≠ [] ∨ v.value ≤ 0 then none else some v.value.toNat

/-- The spellings of a number: blanks, a plus sign or none, and digits, with nothing after them. -/
def CountText (val : List Byte) (n : ℕ) : Prop :=
  ∃ blanks sign ds, val = blanks ++ (sign ++ ds) ∧ (∀ c ∈ blanks, isSpace c = true) ∧
    (sign = [] ∨ sign = [charByte '+']) ∧ (∀ c ∈ ds, isDecimal c = true) ∧
      value 10 (ds.map decimalDigit) = n

def decimal (n : ℕ) : List Byte :=
  if n = 0 then [0x30#8] else (numeral 10 n).map fun d => 0x30#8 + BitVec.ofNat 8 d

theorem isDecimal_not_sign {c : Byte} (h : isDecimal c = true) :
    isSpace c = false ∧ c ≠ charByte '-' ∧ c ≠ charByte '+' := by
  revert c
  decide +kernel

theorem strtol_digits (longMax : ℕ) {blanks sign ds : List Byte}
    (hblanks : ∀ c ∈ blanks, isSpace c = true)
    (hsign : sign = [] ∨ sign = [charByte '+']) (hds : ∀ c ∈ ds, isDecimal c = true)
    (hne : ds ≠ []) : strtol longMax (blanks ++ (sign ++ ds)) =
      if value 10 (ds.map decimalDigit) > longMax then ⟨longMax, true, []⟩
      else ⟨value 10 (ds.map decimalDigit), false, []⟩ := by
  obtain ⟨d, ds', rfl⟩ := List.exists_cons_of_ne_nil hne
  obtain ⟨hspace, hminus, hplus⟩ := isDecimal_not_sign (hds d (by simp))
  have htake : (d :: ds').takeWhile isDecimal = d :: ds' := List.takeWhile_eq_self_iff.mpr hds
  have hdrop : (d :: ds').dropWhile isDecimal = [] := List.dropWhile_eq_nil_iff.mpr hds
  rcases hsign with rfl | rfl
  · have hbody : (blanks ++ ([] ++ d :: ds')).dropWhile isSpace = d :: ds' := by
      rw [List.dropWhile_append_of_pos hblanks, List.nil_append,
        List.dropWhile_cons_of_neg (by simp [hspace])]
    simp only [strtol, hbody, List.head?_cons, Option.some.injEq, hminus, hplus, or_self, if_false,
      htake, hdrop, reduceCtorEq]
  · have hbody : (blanks ++ ([charByte '+'] ++ d :: ds')).dropWhile isSpace =
        charByte '+' :: d :: ds' := by
      rw [List.dropWhile_append_of_pos hblanks, List.singleton_append,
        List.dropWhile_cons_of_neg (by decide)]
    have hsign : charByte '+' ≠ charByte '-' := by decide
    simp only [strtol, hbody, List.head?_cons, Option.some.injEq, hsign, false_or, if_true,
      if_false, List.tail_cons, htake, hdrop, reduceCtorEq]

theorem strtol_spelled {longMax n : ℕ} {val : List Byte} (h : strtol longMax val = ⟨n, false, []⟩)
    (hn : 0 < n) : CountText val n ∧ n ≤ longMax := by
  have hval : val = val.takeWhile isSpace ++ val.dropWhile isSpace :=
    List.takeWhile_append_dropWhile.symm
  simp only [strtol] at h
  generalize val.dropWhile isSpace = body at h hval
  by_cases hminus : body.head? = some (charByte '-')
  · exfalso
    simp only [hminus, true_or, if_true] at h
    split_ifs at h <;> simp only [Strtol.mk.injEq] at h <;> omega
  · have hbody : ∃ sign, (sign = [] ∨ sign = [charByte '+']) ∧
        body = sign ++ (if body.head? = some (charByte '+') then body.tail else body) := by
      split_ifs with hplus
      · exact ⟨[charByte '+'], .inr rfl, (List.cons_head?_tail hplus).symm⟩
      · exact ⟨[], .inl rfl, rfl⟩
    obtain ⟨sign, hsign, hsplit⟩ := hbody
    simp only [hminus, false_or, if_false] at h
    generalize (if body.head? = some (charByte '+') then body.tail else body) = digits at h hsplit
    have hdigits : digits = digits.takeWhile isDecimal ++ digits.dropWhile isDecimal :=
      List.takeWhile_append_dropWhile.symm
    split_ifs at h with hnone hover
    · simp only [Strtol.mk.injEq] at h
      omega
    · simp only [Strtol.mk.injEq, Bool.true_eq_false, false_and, and_false] at h
    · simp only [Strtol.mk.injEq, true_and, Nat.cast_inj] at h
      rw [h.2, List.append_nil] at hdigits
      refine ⟨⟨val.takeWhile isSpace, sign, digits, ?_, ?_, hsign, ?_, ?_⟩, by omega⟩
      · rw [← hsplit]
        exact hval
      · exact fun c hc => List.mem_takeWhile_imp hc
      · rw [hdigits]
        exact fun c hc => List.mem_takeWhile_imp hc
      · rw [hdigits]
        exact h.1

/-- The count is what its text spells, and there is one just for the positive numbers that fit a
`long`. -/
theorem countArg_iff {longMax n : ℕ} {val : List Byte} :
    countArg longMax val = some n ↔ CountText val n ∧ 0 < n ∧ n ≤ longMax := by
  constructor
  · intro h
    simp only [countArg] at h
    split_ifs at h with hbad
    simp only [not_or, Bool.not_eq_true, not_not, not_le] at hbad
    obtain ⟨herange, hrest, hpos⟩ := hbad
    have hn : (strtol longMax val).value = n := by
      have hh := Option.some_inj.mp h
      omega
    have hpos' : 0 < n := by omega
    have hread : strtol longMax val = ⟨n, false, []⟩ := by
      rw [← hn, ← herange, ← hrest]
    obtain ⟨htext, hle⟩ := strtol_spelled hread hpos'
    exact ⟨htext, hpos', hle⟩
  · rintro ⟨⟨blanks, sign, ds, rfl, hblanks, hsign, hds, hvalue⟩, hpos, hle⟩
    have hne : ds ≠ [] := by
      rintro rfl
      simp at hvalue
      omega
    have hfits : ¬(value 10 (ds.map decimalDigit) > longMax) := by omega
    rw [countArg, strtol_digits longMax hblanks hsign hds hne, if_neg hfits, hvalue]
    simp [hpos.ne']

theorem isDecimal_digit : ∀ d < 10, isDecimal (0x30#8 + BitVec.ofNat 8 d) = true ∧
    decimalDigit (0x30#8 + BitVec.ofNat 8 d) = d := by
  decide

theorem decimal_text (n : ℕ) :
    (∀ c ∈ decimal n, isDecimal c = true) ∧ value 10 ((decimal n).map decimalDigit) = n := by
  rw [decimal]
  split_ifs with h
  · subst h
    decide
  · have hlt : ∀ d ∈ numeral 10 n, d < 10 := fun d hd => Positional.numeral_lt (by decide) hd
    constructor
    · intro c hc
      obtain ⟨d, hd, rfl⟩ := List.mem_map.mp hc
      exact (isDecimal_digit d (hlt d hd)).1
    · have hmap : (numeral 10 n).map (decimalDigit ∘ fun d => 0x30#8 + BitVec.ofNat 8 d) =
          numeral 10 n :=
        (List.map_congr_left fun d hd => (isDecimal_digit d (hlt d hd)).2).trans (List.map_id _)
      rw [List.map_map, hmap, Positional.value_numeral]

end Chronoid
