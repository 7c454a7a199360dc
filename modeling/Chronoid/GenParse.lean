import Chronoid.GenMain

/-! Parse mode: which words name an identifier, and what the program does with a row of them. -/

namespace Chronoid

inductive GenId where
  | ksuid (id : Ksuid)
  | uuidv7 (id : Uuidv7)
  deriving DecidableEq

def GenId.idformat : GenId → IdFormat
  | .ksuid _ => .ksuid
  | .uuidv7 _ => .uuidv7

def GenId.text : GenId → List Byte
  | .ksuid id => base62Text id.value
  | .uuidv7 id => uuidv7Text id

def GenId.bytes : GenId → List Byte
  | .ksuid id => id.bytes
  | .uuidv7 id => id.bytes

def IdFormat.rawLen : IdFormat → ℕ
  | .ksuid => 20
  | .uuidv7 => 16

theorem GenId.length_bytes (g : GenId) : g.bytes.length = g.idformat.rawLen := by
  cases g with
  | ksuid id => exact id.length_bytes
  | uuidv7 id => exact id.length_bytes

/-- What is printed about an identifier, whatever the buffers held before. -/
def GenId.printed (time : TimeText) (o : GenOptions) : GenId → List Byte
  | .ksuid id => printOneKsuid time (Vector.replicate 27 0#8) o.format id o.verbose
  | .uuidv7 id => printOneUuidv7 time false (Vector.replicate 36 0#8) o.format id o.verbose

/-- A word names the identifier whose text it is, a UUIDv7 in letters of either case. -/
def Names (word : List Byte) : GenId → Prop
  | .ksuid id => word = base62Text id.value
  | .uuidv7 id => word.map lowerHex = uuidv7Text id

def IdFormat.textLen : IdFormat → ℕ
  | .ksuid => 27
  | .uuidv7 => 36

structure Accepts (o : GenOptions) (a : CString) (g : GenId) : Prop where
  names : Names a.bytes g
  explicit : o.idformatExplicit = true → g.idformat = o.idformat
  payload : ¬(o.format = .payload ∧ g.idformat = .uuidv7)

/-- Why a word is refused; an earlier reason excludes a later one. -/
inductive Refuses (o : GenOptions) (a : CString) : GenError → Prop
  | badLength (h : ∀ f : IdFormat, a.bytes.length ≠ f.textLen) : Refuses o a (.badLength a)
  | mismatch (f : IdFormat) (hlen : a.bytes.length = f.textLen)
      (hexplicit : o.idformatExplicit = true)
      (hf : f ≠ o.idformat) : Refuses o a (.formatMismatch o.idformat a f)
  | payload (hlen : a.bytes.length = 36)
      (hexplicit : o.idformatExplicit = true → .uuidv7 = o.idformat)
      (hf : o.format = .payload) : Refuses o a .payloadUnsupported
  | ksuidValue (hlen : a.bytes.length = 27)
      (hexplicit : o.idformatExplicit = true → .ksuid = o.idformat)
      (h : ∀ g, ¬Names a.bytes g) : Refuses o a (.ksuidParseFailed a .errStrValue)
  | uuidv7Value (hlen : a.bytes.length = 36)
      (hexplicit : o.idformatExplicit = true → .uuidv7 = o.idformat)
      (hf : o.format ≠ .payload)
      (h : ∀ g, ¬Names a.bytes g) : Refuses o a (.uuidv7ParseFailed a .errStrValue)

theorem printOneKsuid_buf (time : TimeText) (buf : Vector Byte 27) (format : OutputFormat)
    (id : Ksuid) (verbose : Bool) : printOneKsuid time buf format id verbose =
      printOneKsuid time (Vector.replicate 27 0#8) format id verbose := by
  simp only [printOneKsuid, printString, printInspect, ksuidString_eq]

theorem printOneUuidv7_buf (time : TimeText) (ssse3 : Bool) (buf : Vector Byte 36)
    (format : OutputFormat) (id : Uuidv7)
    (verbose : Bool) : printOneUuidv7 time ssse3 buf format id verbose =
      printOneUuidv7 time false (Vector.replicate 36 0#8) format id verbose := by
  simp only [printOneUuidv7, printStringUuidv7, printInspectUuidv7, uuidv7String_eq]

theorem length_uuidv7Text (id : Uuidv7) : (uuidv7Text id).length = 36 := by
  obtain ⟨t, ht, -⟩ := hexText_layout id.b
  rw [uuidv7Text, Uuidv7.bytes, ← ht, Vector.length_toList]

theorem Names.length {word : List Byte} {g : GenId} (h : Names word g) :
    word.length = g.idformat.textLen := by
  cases g with
  | ksuid id =>
    rw [show word = base62Text id.value from h, base62Text, List.length_map,
      Positional.length_fixed]
    rfl
  | uuidv7 id =>
    have hh := congrArg List.length (show word.map lowerHex = uuidv7Text id from h)
    rw [List.length_map, length_uuidv7Text] at hh
    exact hh

theorem toList_readBuffer {a : CString} {n : ℕ} (h : a.bytes.length = n) :
    (readBuffer n a.at).toList = a.bytes := by
  refine List.ext_getElem (by simp [h]) fun i hi hi' => ?_
  simp [readBuffer, CString.at, hi']

theorem Ksuid.value_lt_numeral (id : Ksuid) : id.value < 62 ^ 27 := id.value_lt.trans (by norm_num)

/-- The words of 27 characters that parse are the texts of the identifiers they parse to. -/
theorem ksuidParse_names (simd : Simd) (tmp : Vector Byte 20) (out : Ksuid) {a : CString}
    (hlen : a.bytes.length = 27) :
    (∃ id : Ksuid, ksuidParse simd tmp out a.at 27 = (.ok, id) ∧ Names a.bytes (.ksuid id)) ∨
      (ksuidParse simd tmp out a.at 27 = (.errStrValue, out) ∧ ∀ g, ¬Names a.bytes g) := by
  rcases ksuidParse_eq simd tmp out a.at with ⟨hgrammar, id, hparse, hvalue⟩ | ⟨hno, hparse⟩
  · rw [toList_readBuffer hlen] at hgrammar hvalue
    refine .inl ⟨id, hparse, ?_⟩
    rw [Names, hvalue, base62Text_base62Value hlen hgrammar.1]
  · refine .inr ⟨hparse, fun g hg => hno ?_⟩
    rw [toList_readBuffer hlen]
    cases g with
    | ksuid id =>
      have htext : a.bytes = base62Text id.value := hg
      rw [htext, KsuidGrammar, base62Value_base62Text id.value_lt_numeral]
      exact ⟨isBase62_base62Text _, Nat.le_pred_of_lt id.value_lt⟩
    | uuidv7 id =>
      have hh := hg.length
      rw [hlen] at hh
      exact absurd hh (show (27 : ℕ) ≠ 36 by decide)

theorem hexDigit_lowerHex : ∀ c : Byte, (hexDigit (lowerHex c)).isSome = (hexDigit c).isSome ∧
    (lowerHex c = hyphen ↔ c = hyphen) := by
  decide +kernel

theorem grammar_of_lowerHex {t : Vector Byte 36} (h : Uuidv7Grammar (t.map lowerHex)) :
    Uuidv7Grammar t := by
  intro p
  have hget : (t.map lowerHex).get p = lowerHex (t.get p) := by simp [Vector.get]
  have hp := h p
  rwa [hget, (hexDigit_lowerHex _).1, (hexDigit_lowerHex _).2] at hp

theorem uuidv7Parse_names (inner tmp : Vector Byte 16) (out : Uuidv7) {a : CString}
    (hlen : a.bytes.length = 36) :
    (∃ id : Uuidv7, uuidv7Parse inner tmp out a.at 36 = (.ok, id) ∧ Names a.bytes (.uuidv7 id)) ∨
      (uuidv7Parse inner tmp out a.at 36 = (.errStrValue, out) ∧ ∀ g, ¬Names a.bytes g) := by
  have hmap : ((readBuffer 36 a.at).map lowerHex).toList = a.bytes.map lowerHex := by
    rw [Vector.toList_map, toList_readBuffer hlen]
  rcases uuidv7Parse_spec inner tmp out a.at with ⟨-, id, hparse, hlayout⟩ | ⟨hno, hparse⟩
  · obtain ⟨t, ht, hlayout'⟩ := hexText_layout id.b
    refine .inl ⟨id, hparse, ?_⟩
    rw [Names, ← hmap, hlayout.unique hlayout', ht]
    rfl
  · refine .inr ⟨hparse, fun g hg => hno ?_⟩
    cases g with
    | ksuid id =>
      have hh := hg.length
      rw [hlen] at hh
      exact absurd hh (show (36 : ℕ) ≠ 27 by decide)
    | uuidv7 id =>
      obtain ⟨t, ht, hlayout⟩ := hexText_layout id.b
      have htext : a.bytes.map lowerHex = uuidv7Text id := hg
      have heq : (readBuffer 36 a.at).map lowerHex = t := by
        rw [← Vector.toList_inj, hmap, htext, ht]
        rfl
      exact grammar_of_lowerHex (heq ▸ hlayout.canonical.1)

theorem Names.unique {word : List Byte} {g g' : GenId} (h : Names word g) (h' : Names word g') :
    g = g' := by
  cases g with
  | ksuid id =>
    cases g' with
    | ksuid id' =>
      have htext : base62Text id.value = base62Text id'.value :=
        (show word = _ from h).symm.trans h'
      have hvalue := congrArg base62Value htext
      rw [base62Value_base62Text id.value_lt_numeral,
        base62Value_base62Text id'.value_lt_numeral] at hvalue
      rw [Ksuid.value_inj hvalue]
    | uuidv7 id' => exact absurd (h.length.symm.trans h'.length) (show (27 : ℕ) ≠ 36 by decide)
  | uuidv7 id =>
    cases g' with
    | ksuid id' => exact absurd (h.length.symm.trans h'.length) (show (36 : ℕ) ≠ 27 by decide)
    | uuidv7 id' =>
      obtain ⟨t, ht, hlayout⟩ := hexText_layout id.b
      obtain ⟨t', ht', hlayout'⟩ := hexText_layout id'.b
      have htext : uuidv7Text id = uuidv7Text id' :=
        (show word.map lowerHex = _ from h).symm.trans h'
      have heq : t = t' := Vector.toList_inj.mp (ht.trans (htext.trans ht'.symm))
      rw [hlayout.id_unique (heq ▸ hlayout')]

variable {env : GenEnv} {o : GenOptions} {i : ℕ} {a : CString}

theorem parseOne_of_accepts {g : GenId} (h : Accepts o a g) :
    parseOne env o i a = .ok (g.printed env.time o, i + 1) := by
  cases g with
  | ksuid id =>
    have hlen : a.bytes.length = 27 := h.names.length
    have hexplicit : ¬(o.idformatExplicit = true ∧ IdFormat.ksuid ≠ o.idformat) :=
      fun hh => hh.2 (h.explicit hh.1)
    rcases ksuidParse_names env.simd (env.locals i).decoded (env.locals i).ksuid hlen with
      ⟨id', hparse, hnames⟩ | ⟨-, hno⟩
    · obtain rfl : id' = id := by simpa using hnames.unique h.names
      simp [parseOne, hlen, hexplicit, hparse, GenId.printed,
        printOneKsuid_buf env.time (env.locals i).ksuidBuf]
    · exact absurd h.names (hno _)
  | uuidv7 id =>
    have hlen : a.bytes.length = 36 := h.names.length
    have hexplicit : ¬(o.idformatExplicit = true ∧ IdFormat.uuidv7 ≠ o.idformat) :=
      fun hh => hh.2 (h.explicit hh.1)
    have hpayload : o.format ≠ .payload := fun hf => h.payload ⟨hf, rfl⟩
    rcases uuidv7Parse_names (env.locals i).hexInner (env.locals i).hexTmp (env.locals i).uuidv7
        hlen with
      ⟨id', hparse, hnames⟩ | ⟨-, hno⟩
    · obtain rfl : id' = id := by simpa using hnames.unique h.names
      simp [parseOne, hlen, hexplicit, hpayload, hparse, GenId.printed,
        printOneUuidv7_buf env.time env.ssse3 (env.locals i).uuidv7Buf]
    · exact absurd h.names (hno _)

theorem parseOne_of_refuses {e : GenError} (h : Refuses o a e) : parseOne env o i a = .error e := by
  cases h with
  | badLength h =>
    have h27 : a.bytes.length ≠ 27 := h .ksuid
    have h36 : a.bytes.length ≠ 36 := h .uuidv7
    simp [parseOne, h27, h36]
  | mismatch f hlen hexplicit hf =>
    cases f with
    | ksuid =>
      have hlen : a.bytes.length = 27 := hlen
      simp [parseOne, hlen, hexplicit, hf]
    | uuidv7 =>
      have hlen : a.bytes.length = 36 := hlen
      simp [parseOne, hlen, hexplicit, hf]
  | payload hlen hexplicit hf =>
    have hexplicit : ¬(o.idformatExplicit = true ∧ IdFormat.uuidv7 ≠ o.idformat) :=
      fun hh => hh.2 (hexplicit hh.1)
    simp [parseOne, hlen, hexplicit, hf]
  | ksuidValue hlen hexplicit h =>
    have hexplicit : ¬(o.idformatExplicit = true ∧ IdFormat.ksuid ≠ o.idformat) :=
      fun hh => hh.2 (hexplicit hh.1)
    rcases ksuidParse_names env.simd (env.locals i).decoded (env.locals i).ksuid hlen with
      ⟨id, -, hnames⟩ | ⟨hparse, -⟩
    · exact absurd hnames (h _)
    · simp [parseOne, hlen, hexplicit, hparse]
  | uuidv7Value hlen hexplicit hf h =>
    have hexplicit : ¬(o.idformatExplicit = true ∧ IdFormat.uuidv7 ≠ o.idformat) :=
      fun hh => hh.2 (hexplicit hh.1)
    rcases uuidv7Parse_names (env.locals i).hexInner (env.locals i).hexTmp (env.locals i).uuidv7
        hlen with
      ⟨id, -, hnames⟩ | ⟨hparse, -⟩
    · exact absurd hnames (h _)
    · simp [parseOne, hlen, hexplicit, hf, hparse]

theorem accepts_or_refuses (o : GenOptions) (a : CString) :
    (∃ g, Accepts o a g) ∨ ∃ e, Refuses o a e := by
  by_cases hlen : ∃ f : IdFormat, a.bytes.length = f.textLen
  · obtain ⟨f, hlen⟩ := hlen
    by_cases hexplicit : o.idformatExplicit = true → f = o.idformat
    · cases f with
      | ksuid =>
        rcases ksuidParse_names .scalar (Vector.replicate 20 0#8) ⟨Vector.replicate 20 0#8⟩
            hlen with
          ⟨id, -, hnames⟩ | ⟨-, hno⟩
        · exact .inl ⟨.ksuid id, hnames, hexplicit, fun h => nomatch h.2⟩
        · exact .inr ⟨_, .ksuidValue hlen hexplicit hno⟩
      | uuidv7 =>
        by_cases hpayload : o.format = .payload
        · exact .inr ⟨_, .payload hlen hexplicit hpayload⟩
        · rcases uuidv7Parse_names (Vector.replicate 16 0#8) (Vector.replicate 16 0#8)
              ⟨Vector.replicate 16 0#8⟩ hlen with
            ⟨id, -, hnames⟩ | ⟨-, hno⟩
          · exact .inl ⟨.uuidv7 id, hnames, hexplicit, fun h => hpayload h.1⟩
          · exact .inr ⟨_, .uuidv7Value hlen hexplicit hpayload hno⟩
    · rw [Classical.not_imp] at hexplicit
      exact .inr ⟨_, .mismatch f hlen hexplicit.1 hexplicit.2⟩
  · exact .inr ⟨_, .badLength fun f hf => hlen ⟨f, hf⟩⟩

theorem parseOne_judges (env : GenEnv) (o : GenOptions) :
    EmitLoop.Judges (parseOne env o) (fun _ _ => True) (Accepts o) (Refuses o)
      (GenId.printed env.time o) where
  accepted i _ _ _ _ hg := ⟨i + 1, parseOne_of_accepts hg, trivial⟩
  refused _ _ _ _ _ he := parseOne_of_refuses he
  total := accepts_or_refuses o

/-- Parse mode prints the identifiers its words name, in order and whatever was on the stack, up to
the first word it refuses; it returns 0 if there is none, and otherwise 1 with that word's error. -/
theorem parse_mode (env : GenEnv) (o : GenOptions) (args : List CString) :
    (∀ out, parseArgs env o args = ⟨0, out, none⟩ ↔
      ∃ ids, List.Forall₂ (Accepts o) args ids ∧
        out = (ids.map (GenId.printed env.time o)).flatten) ∧
    (∀ out e, parseArgs env o args = ⟨1, out, some e⟩ ↔ ∃ pre a post ids, args = pre ++ a :: post ∧
      List.Forall₂ (Accepts o) pre ids ∧ Refuses o a e ∧
        out = (ids.map (GenId.printed env.time o)).flatten) ∧
    ((parseArgs env o args).exit = 0 ↔ ∀ a ∈ args, ∃ g, Accepts o a g) := by
  have hjudges := parseOne_judges env o
  exact ⟨fun out => ofLoop_eq_none.trans (hjudges.run_eq_none trivial),
    fun out e => ofLoop_eq_some.trans (hjudges.run_eq_some trivial),
    (ofLoop_exit (by decide)).trans (hjudges.run_through trivial)⟩

end Chronoid
