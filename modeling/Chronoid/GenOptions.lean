import Chronoid.GenCount
import Chronoid.Ksuid
import Chronoid.Library.WordScan
import Chronoid.Uuidv7

/-! The options of `chronoid-gen`: the loop that reads them off the front of the command line, and
the grammar of what it takes. -/

namespace Chronoid

inductive OutputFormat where
  | string
  | inspect
  | time
  | timestamp
  | payload
  | raw
  deriving DecidableEq, Repr

inductive IdFormat where
  | ksuid
  | uuidv7
  deriving DecidableEq, Repr

structure GenOptions where
  count : ℕ
  format : OutputFormat
  idformat : IdFormat
  idformatExplicit : Bool
  verbose : Bool
  deriving DecidableEq, Repr

def GenOptions.default : GenOptions := ⟨1, .string, .ksuid, false, false⟩

/-- Everything the program can say on its error output. -/
inductive GenError where
  | unknownIdFormat (val : List Byte)
  | unknownOption (a : CString)
  | missingArgument (flag : Byte)
  | invalidCount (val : CString)
  | unknownFormat (val : CString)
  | payloadUnsupported
  | uuidv7NewFailed (e : Uuidv7Err)
  | ksuidNewFailed (e : KsuidErr)
  | badLength (a : CString)
  | formatMismatch (idformat : IdFormat) (a : CString) (detected : IdFormat)
  | uuidv7ParseFailed (a : CString) (e : Uuidv7Err)
  | ksuidParseFailed (a : CString) (e : KsuidErr)
  deriving DecidableEq, Repr

def OutputFormat.name : OutputFormat → List Byte
  | .string => text "string"
  | .inspect => text "inspect"
  | .time => text "time"
  | .timestamp => text "timestamp"
  | .payload => text "payload"
  | .raw => text "raw"

def IdFormat.name : IdFormat → List Byte
  | .ksuid => text "ksuid"
  | .uuidv7 => text "uuidv7"

def parseFormat (s : List Byte) : Option OutputFormat :=
  if s = text "string" then some .string
  else if s = text "inspect" then some .inspect
  else if s = text "time" then some .time
  else if s = text "timestamp" then some .timestamp
  else if s = text "payload" then some .payload
  else if s = text "raw" then some .raw
  else none

def parseIdformat (s : List Byte) : Option IdFormat :=
  if s = text "ksuid" then some .ksuid else if s = text "uuidv7" then some .uuidv7 else none

inductive ScanResult where
  | ready (o : GenOptions) (args : List CString)
  | help
  | fails (e : GenError)
  deriving DecidableEq, Repr

/-- The option loop, from the word at `idx` on. -/
def scanOptions (longMax : ℕ) : GenOptions → List CString → ScanResult
  | o, [] => .ready o []
  | o, a :: rest =>
    if a.at 0 ≠ charByte '-' ∨ a.at 1 = 0#8 then .ready o (a :: rest)
    else if a.at 1 = charByte '-' then
      if a.bytes.take 9 = text "--format=" then
        match parseIdformat (a.bytes.drop 9) with
        | none => .fails (.unknownIdFormat (a.bytes.drop 9))
        | some f => scanOptions longMax { o with idformat := f, idformatExplicit := true } rest
      else .fails (.unknownOption a)
    else if a.at 2 ≠ 0#8 then .fails (.unknownOption a)
    else if a.at 1 = charByte 'v' then scanOptions longMax { o with verbose := true } rest
    else if a.at 1 = charByte 'h' then .help
    else if a.at 1 = charByte 'n' ∨ a.at 1 = charByte 'f' then
      match rest with
      | [] => .fails (.missingArgument (a.at 1))
      | val :: rest =>
        if a.at 1 = charByte 'n' then
          match countArg longMax val.bytes with
          | none => .fails (.invalidCount val)
          | some n => scanOptions longMax { o with count := n } rest
        else
          match parseFormat val.bytes with
          | none => .fails (.unknownFormat val)
          | some f => scanOptions longMax { o with format := f } rest
    else .fails (.unknownOption a)

theorem charByte_dash_ne : charByte '-' ≠ 0#8 := by decide

def flagWord (c : Byte) (h : c ≠ 0#8) : CString :=
  ⟨[charByte '-', c], by simp [charByte_dash_ne.symm, h.symm]⟩

theorem OutputFormat.name_no_nul (f : OutputFormat) : 0#8 ∉ f.name := by
  cases f <;> decide

theorem IdFormat.name_no_nul (f : IdFormat) : 0#8 ∉ text "--format=" ++ f.name := by
  cases f <;> decide

theorem flag_no_nul : charByte 'v' ≠ 0#8 ∧ charByte 'h' ≠ 0#8 ∧ charByte 'n' ≠ 0#8 ∧
    charByte 'f' ≠ 0#8 := by
  decide

/-- An option as it may stand on the command line; a count goes with the text that spells it. -/
inductive OptionWord (longMax : ℕ) where
  | verbose
  | count (val : CString) (n : ℕ) (h : CountText val.bytes n ∧ 0 < n ∧ n ≤ longMax)
  | format (f : OutputFormat)
  | idformat (f : IdFormat)

variable {longMax : ℕ}

def OptionWord.spelling : OptionWord longMax → List CString
  | .verbose => [flagWord (charByte 'v') flag_no_nul.1]
  | .count val _ _ => [flagWord (charByte 'n') flag_no_nul.2.2.1, val]
  | .format f => [flagWord (charByte 'f') flag_no_nul.2.2.2, ⟨f.name, f.name_no_nul⟩]
  | .idformat f => [⟨text "--format=" ++ f.name, f.name_no_nul⟩]

def OptionWord.effect : OptionWord longMax → GenOptions → GenOptions
  | .verbose, o => { o with verbose := true }
  | .count _ n _, o => { o with count := n }
  | .format f, o => { o with format := f }
  | .idformat f, o => { o with idformat := f, idformatExplicit := true }

/-- A word that starts with a hyphen and is not just one. -/
def CString.Dashed (a : CString) : Prop := ∃ c t, a.bytes = charByte '-' :: c :: t

/-- What the loop refuses, by the word it refuses it at. -/
inductive BadHead (longMax : ℕ) : List CString → GenError → Prop
  | idFormat (a : CString) (val : List Byte) (rest : List CString)
      (h : a.bytes = text "--format=" ++ val)
      (hval : ∀ f : IdFormat, val ≠ f.name) : BadHead longMax (a :: rest) (.unknownIdFormat val)
  | long (a : CString) (rest : List CString) (h : text "--" <+: a.bytes)
      (hno : ¬text "--format=" <+: a.bytes) : BadHead longMax (a :: rest) (.unknownOption a)
  | cluster (a : CString) (rest : List CString) {c d : Byte} {t : List Byte}
      (h : a.bytes = charByte '-' :: c :: d :: t)
      (hc : c ≠ charByte '-') : BadHead longMax (a :: rest) (.unknownOption a)
  | letter (a : CString) (rest : List CString) {c : Byte} (h : a.bytes = [charByte '-', c])
      (hc : c ∉ ['-', 'v', 'h', 'n', 'f'].map charByte) :
      BadHead longMax (a :: rest) (.unknownOption a)
  | missing (a : CString) {c : Byte} (h : a.bytes = [charByte '-', c])
      (hc : c = charByte 'n' ∨ c = charByte 'f') : BadHead longMax [a] (.missingArgument c)
  | count (a val : CString) (rest : List CString) (h : a.bytes = [charByte '-', charByte 'n'])
      (hval : ∀ n, ¬(CountText val.bytes n ∧ 0 < n ∧ n ≤ longMax)) :
      BadHead longMax (a :: val :: rest) (.invalidCount val)
  | format (a val : CString) (rest : List CString) (h : a.bytes = [charByte '-', charByte 'f'])
      (hval : ∀ f : OutputFormat, val.bytes ≠ f.name) :
      BadHead longMax (a :: val :: rest) (.unknownFormat val)

/-- How the loop ends, on the words that are left. -/
inductive ScanEnds (longMax : ℕ) (o : GenOptions) : List CString → ScanResult → Prop
  | all : ScanEnds longMax o [] (.ready o [])
  | identifier (a : CString) (rest : List CString) (h : ¬a.Dashed) :
      ScanEnds longMax o (a :: rest) (.ready o (a :: rest))
  | help (a : CString) (rest : List CString) (h : a.bytes = [charByte '-', charByte 'h']) :
      ScanEnds longMax o (a :: rest) .help
  | bad {args : List CString} {e : GenError} (h : BadHead longMax args e) :
      ScanEnds longMax o args (.fails e)

theorem parseFormat_eq_some {s : List Byte} {f : OutputFormat} :
    parseFormat s = some f ↔ s = f.name := by
  constructor
  · intro h
    simp only [parseFormat] at h
    split_ifs at h with h₁ h₂ h₃ h₄ h₅ h₆ <;> cases h <;> assumption
  · rintro rfl
    cases f <;> decide

theorem parseIdformat_eq_some {s : List Byte} {f : IdFormat} :
    parseIdformat s = some f ↔ s = f.name := by
  constructor
  · intro h
    simp only [parseIdformat] at h
    split_ifs at h with h₁ h₂ <;> cases h <;> assumption
  · rintro rfl
    cases f <;> decide

theorem CString.at_dashed {a : CString} {c : Byte} {t : List Byte}
    (h : a.bytes = charByte '-' :: c :: t) :
    a.at 0 = charByte '-' ∧ a.at 1 = c ∧ c ≠ 0#8 ∧ (a.at 2 = 0#8 ↔ t = []) := by
  have hno := a.no_nul
  rw [h] at hno
  simp only [CString.at, h]
  refine ⟨rfl, rfl, fun hc => hno (by simp [hc]), ?_⟩
  cases t with
  | nil => simp
  | cons d t =>
    exact ⟨fun hd => absurd (show d = 0#8 from hd) fun hz => hno (by simp [hz]),
      fun hd => nomatch hd⟩

theorem CString.dashed_iff (a : CString) : a.Dashed ↔ ¬(a.at 0 ≠ charByte '-' ∨ a.at 1 = 0#8) := by
  constructor
  · rintro ⟨c, t, h⟩
    obtain ⟨h₀, h₁, hc, -⟩ := a.at_dashed h
    simp [h₀, h₁, hc]
  · intro h
    simp only [CString.at, not_or, not_not] at h
    rcases hbytes : a.bytes with _ | ⟨x, _ | ⟨y, t⟩⟩
    · simp [hbytes] at h
    · simp [hbytes] at h
    · rw [hbytes] at h
      exact ⟨y, t, hbytes.trans (congrArg (· :: y :: t) h.1)⟩

theorem scan_word (o : GenOptions) (w : OptionWord longMax) (rest : List CString) :
    scanOptions longMax o (w.spelling ++ rest) = scanOptions longMax (w.effect o) rest := by
  cases w with
  | verbose =>
    conv_lhs => unfold scanOptions
    rfl
  | format f => cases f <;> rfl
  | idformat f =>
    conv_lhs => unfold scanOptions
    cases f <;> rfl
  | count val n h =>
    have hcount : countArg longMax val.bytes = some n := countArg_iff.mpr h
    simp only [OptionWord.spelling, List.cons_append, List.nil_append, scanOptions, hcount]
    rfl

theorem scan_bad {o : GenOptions} {args : List CString} {e : GenError}
    (h : BadHead longMax args e) : scanOptions longMax o args = .fails e := by
  unfold scanOptions
  cases h with
  | idFormat a val rest h hval =>
    have hdash : a.bytes = charByte '-' :: charByte '-' :: (text "format=" ++ val) := h
    obtain ⟨h₀, h₁, hc, -⟩ := a.at_dashed hdash
    have hnone : parseIdformat val = none := by
      rw [Option.eq_none_iff_forall_ne_some]
      exact fun f hf => hval f (parseIdformat_eq_some.mp hf)
    have htake : a.bytes.take 9 = text "--format=" ∧ a.bytes.drop 9 = val := by
      rw [h]
      exact ⟨rfl, rfl⟩
    simp [h₀, h₁, hc, htake.1, htake.2, hnone]
  | long a rest h hno =>
    obtain ⟨t, ht⟩ := h
    have hdash : a.bytes = charByte '-' :: charByte '-' :: t := ht.symm
    obtain ⟨h₀, h₁, hc, -⟩ := a.at_dashed hdash
    have htake : a.bytes.take 9 ≠ text "--format=" :=
      fun hh => hno (hh ▸ List.take_prefix 9 a.bytes)
    simp [h₀, h₁, hc, htake]
  | cluster a rest h hc =>
    obtain ⟨h₀, h₁, hne, h₂⟩ := a.at_dashed h
    simp [h₀, h₁, hne, h₂, hc]
  | letter a rest h hc =>
    obtain ⟨h₀, h₁, hne, h₂⟩ := a.at_dashed h
    simp only [List.map_cons, List.map_nil, List.mem_cons, List.not_mem_nil, not_or] at hc
    simp [h₀, h₁, hne, h₂, hc]
  | missing a h hc =>
    obtain ⟨h₀, h₁, hne, h₂⟩ := a.at_dashed h
    rcases hc with rfl | rfl <;> simp [h₀, h₁, h₂, charByte]
  | count a val rest h hval =>
    obtain ⟨h₀, h₁, hne, h₂⟩ := a.at_dashed h
    have hnone : countArg longMax val.bytes = none := by
      rw [Option.eq_none_iff_forall_ne_some]
      exact fun n hn => hval n (countArg_iff.mp hn)
    simp [h₀, h₁, h₂, hnone, charByte]
  | format a val rest h hval =>
    obtain ⟨h₀, h₁, hne, h₂⟩ := a.at_dashed h
    have hnone : parseFormat val.bytes = none := by
      rw [Option.eq_none_iff_forall_ne_some]
      exact fun f hf => hval f (parseFormat_eq_some.mp hf)
    simp [h₀, h₁, h₂, hnone, charByte]

theorem scan_ends {o : GenOptions} {args : List CString} {r : ScanResult}
    (h : ScanEnds longMax o args r) : scanOptions longMax o args = r := by
  cases h with
  | all => rfl
  | identifier a rest h =>
    unfold scanOptions
    rw [if_pos (Classical.not_not.mp (mt a.dashed_iff.mpr h))]
  | help a rest h =>
    obtain ⟨h₀, h₁, hne, h₂⟩ := a.at_dashed h
    unfold scanOptions
    simp [h₀, h₁, h₂, charByte]
  | bad h => exact scan_bad h

theorem head_letter {a : CString} {c : Byte} (h : a.bytes = [charByte '-', c])
    (hdash : c ≠ charByte '-') (rest : List CString) :
    (∃ (w : OptionWord longMax) (tail : List CString), a :: rest = w.spelling ++ tail) ∨
      ∀ o, ∃ r, ScanEnds longMax o (a :: rest) r := by
  by_cases hv : c = charByte 'v'
  · exact .inl ⟨.verbose, rest, congrArg (· :: rest) (CString.ext (by rw [h, hv]; rfl))⟩
  by_cases hh : c = charByte 'h'
  · exact .inr fun o => ⟨_, .help a rest (by rw [h, hh])⟩
  by_cases hn : c = charByte 'n'
  · rcases rest with _ | ⟨val, tail⟩
    · exact .inr fun o => ⟨_, .bad (.missing a h (.inl hn))⟩
    · by_cases hval : ∃ n, CountText val.bytes n ∧ 0 < n ∧ n ≤ longMax
      · obtain ⟨n, hn'⟩ := hval
        exact .inl ⟨.count val n hn', tail,
          congrArg (· :: val :: tail) (CString.ext (by rw [h, hn]; rfl))⟩
      · exact .inr fun o => ⟨_, .bad (.count a val tail (by rw [h, hn]) fun n hn' => hval ⟨n, hn'⟩)⟩
  by_cases hf : c = charByte 'f'
  · rcases rest with _ | ⟨val, tail⟩
    · exact .inr fun o => ⟨_, .bad (.missing a h (.inr hf))⟩
    · by_cases hval : ∃ f : OutputFormat, val.bytes = f.name
      · obtain ⟨f, hf'⟩ := hval
        have ha : a = flagWord (charByte 'f') flag_no_nul.2.2.2 := CString.ext (by rw [h, hf]; rfl)
        have hb : val = ⟨f.name, f.name_no_nul⟩ := CString.ext hf'
        exact .inl ⟨.format f, tail, by rw [ha, hb]; rfl⟩
      · exact .inr fun o => ⟨_,
          .bad (.format a val tail (by rw [h, hf]) fun f hf' => hval ⟨f, hf'⟩)⟩
  · exact .inr fun o => ⟨_, .bad (.letter a rest h (by simp [hdash, hv, hh, hn, hf]))⟩

theorem head_dashed {a : CString} {c : Byte} {t : List Byte} (h : a.bytes = charByte '-' :: c :: t)
    (rest : List CString) :
    (∃ (w : OptionWord longMax) (tail : List CString), a :: rest = w.spelling ++ tail) ∨
      ∀ o, ∃ r, ScanEnds longMax o (a :: rest) r := by
  by_cases hdash : c = charByte '-'
  · rw [hdash] at h
    by_cases hformat : text "--format=" <+: a.bytes
    · obtain ⟨val, hval⟩ := hformat
      by_cases hname : ∃ f : IdFormat, val = f.name
      · obtain ⟨f, rfl⟩ := hname
        exact .inl ⟨.idformat f, rest, congrArg (· :: rest) (CString.ext hval.symm)⟩
      · exact .inr fun o => ⟨_, .bad (.idFormat a val rest hval.symm fun f hf => hname ⟨f, hf⟩)⟩
    · exact .inr fun o => ⟨_, .bad (.long a rest ⟨t, h.symm⟩ hformat)⟩
  · rcases t with _ | ⟨d, t⟩
    · exact head_letter h hdash rest
    · exact .inr fun o => ⟨_, .bad (.cluster a rest h hdash)⟩

theorem optionGrammar (longMax : ℕ) :
    WordScan.Grammar (scanOptions longMax) (@OptionWord.spelling longMax) OptionWord.effect
      (ScanEnds longMax) where
  word := scan_word
  ends _ _ _ := scan_ends
  spell_ne_nil w := by cases w <;> simp [OptionWord.spelling]
  head args := by
    rcases args with _ | ⟨a, rest⟩
    · exact .inr fun o => ⟨_, .all⟩
    · by_cases h : a.Dashed
      · obtain ⟨c, t, h⟩ := h
        exact head_dashed h rest
      · exact .inr fun o => ⟨_, .identifier a rest h⟩

/-- Whatever the command line, the option loop takes a row of well-formed options, each setting what
it names over what was set before, and stops at the first word that is none: an identifier, `-h` or
the one that it reports. -/
theorem option_grammar (longMax : ℕ) (o : GenOptions) (args : List CString) (r : ScanResult) :
    scanOptions longMax o args = r ↔ ∃ (ws : List (OptionWord longMax)) (rest : List CString),
      args = ws.flatMap OptionWord.spelling ++ rest ∧
        ScanEnds longMax (ws.foldl (fun o w => w.effect o) o) rest r :=
  (optionGrammar longMax).scan_eq_iff

end Chronoid
