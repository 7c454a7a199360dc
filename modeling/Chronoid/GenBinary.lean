import Chronoid.GenListing

/-! The projections of a listing that do not show an identifier as text, read back through the
library. -/

namespace Chronoid

open Records (closed piece)

def ksuidFromBytes (out : Ksuid) (b : ℕ → Byte) (n : ℕ) : KsuidErr × Ksuid :=
  if n ≠ 20 then (.errSize, out) else (.ok, ⟨readBuffer 20 b⟩)

def uuidv7FromBytes (out : Uuidv7) (b : ℕ → Byte) (n : ℕ) : Uuidv7Err × Uuidv7 :=
  if n ≠ 16 then (.errSize, out) else (.ok, ⟨readBuffer 16 b⟩)

/-- The bytes are taken for the identifier, and every other number of bytes is refused. -/
def GenId.IsReadFrom (bs : List Byte) : GenId → Prop
  | .ksuid id => ∀ out n, ksuidFromBytes out (bs.getD · 0#8) n =
      if n = bs.length then (.ok, id) else (.errSize, out)
  | .uuidv7 id => ∀ out n, uuidv7FromBytes out (bs.getD · 0#8) n =
      if n = bs.length then (.ok, id) else (.errSize, out)

theorem readBuffer_toList {n : ℕ} (v : Vector Byte n) : readBuffer n (v.toList.getD · 0#8) = v := by
  refine Vector.toList_inj.mp (List.ext_getElem (by simp) fun i hi hi' => ?_)
  simp [readBuffer, List.getD_eq_getElem?_getD]

theorem GenId.isReadFrom_bytes (g : GenId) : g.IsReadFrom g.bytes := by
  cases g with
  | ksuid id =>
    intro out n
    rw [GenId.bytes, id.length_bytes, ksuidFromBytes, Ksuid.bytes, readBuffer_toList, ite_not]
  | uuidv7 id =>
    intro out n
    rw [GenId.bytes, id.length_bytes, uuidv7FromBytes, Uuidv7.bytes, readBuffer_toList, ite_not]

theorem printed_raw {time : TimeText} {o : GenOptions} (hformat : o.format = .raw)
    (hverbose : o.verbose = false) (g : GenId) : g.printed time o = g.bytes := by
  cases g <;> simp [GenId.printed, printOneKsuid, printOneUuidv7, printRaw, printRawUuidv7, hformat,
    hverbose, GenId.bytes]

theorem strtol_decimal {longMax n : ℕ} (h : n ≤ longMax) :
    strtol longMax (decimal n) = ⟨n, false, []⟩ := by
  obtain ⟨hdecimal, hvalue⟩ := decimal_text n
  have hne : decimal n ≠ [] := by
    intro hnil
    rw [decimal] at hnil
    split_ifs at hnil with hn
    exact hn (Positional.numeral_eq_nil.mp (List.map_eq_nil_iff.mp hnil))
  have hblanks : ∀ c ∈ ([] : List Byte), isSpace c = true := by simp
  have hread := strtol_digits longMax hblanks (.inl (Eq.refl ([] : List Byte))) hdecimal hne
  rwa [hvalue, if_neg (not_lt.mpr h)] at hread

/-- An identifier is made again of its two fields. -/
theorem fromParts_fields (out id : Ksuid) :
    ksuidFromParts out ((ksuidTimestamp id).setWidth 64 + ksuidEpochSeconds) (ksuidPayload id) =
    ⟨.ok, id, false⟩ := by
  have hlt := (ksuidTimestamp id).isLt
  have hin : KsuidTimeInRange (ksuidTimeUnix id).toInt := by
    rw [toInt_ksuidTimeUnix, KsuidTimeInRange]
    omega
  obtain ⟨id', hparts, htime, hpayload⟩ := fromParts_made out (ksuidPayload id) hin
  obtain rfl := Ksuid.ext_time htime hpayload
  exact hparts

section Projections

variable {env env' : GenEnv} {argv0 argv0' : List Byte} {o o' : GenOptions}
    {args args' rest : List CString}

/-- What is printed raw is cut by its length alone, as long as all identifiers are of one format. -/
theorem raw_listing (hscan : scanOptions env.longMax .default args = .ready o rest)
    (hformat : o.format = .raw) (hverbose : o.verbose = false)
    (hexit : (genMain env argv0 args).exit = 0) :
    ∃ ids : List GenId, Yields env o rest ids ∧ ∀ f, (∀ g ∈ ids, g.idformat = f) →
      (genMain env argv0 args).out.length = f.rawLen * ids.length ∧
      ∀ i (g : GenId), ids[i]? = some g →
        g.IsReadFrom (piece f.rawLen i (genMain env argv0 args).out) := by
  obtain ⟨ids, hyields, hrun⟩ := genMain_yields hscan hexit
  have hout : (genMain env argv0 args).out = (ids.map GenId.bytes).flatten := by
    rw [hrun]
    exact congrArg List.flatten (List.map_congr_left fun g _ => printed_raw hformat hverbose g)
  refine ⟨ids, hyields, fun f hf => ?_⟩
  have hlen : ∀ v ∈ ids.map GenId.bytes, v.length = f.rawLen := by
    intro v hv
    obtain ⟨g, hg, rfl⟩ := List.mem_map.mp hv
    rw [g.length_bytes, hf g hg]
  refine ⟨by rw [hout, Records.length_flatten hlen, List.length_map], fun i g hg => ?_⟩
  rw [hout, Records.piece_flatten hlen (by rw [List.getElem?_map, hg]; rfl)]
  exact g.isReadFrom_bytes

/-- Parse mode prints payloads only where every word names a KSUID. -/
theorem payload_words {ids : List GenId} (h : List.Forall₂ (Accepts o) rest ids)
    (hformat : o.format = .payload) : ∃ ks : List Ksuid, ids = ks.map GenId.ksuid := by
  induction h with
  | nil => exact ⟨[], rfl⟩
  | @cons a g rest ids hg _ ih =>
    obtain ⟨ks, rfl⟩ := ih
    cases g with
    | ksuid k => exact ⟨k :: ks, rfl⟩
    | uuidv7 u => exact absurd ⟨hformat, rfl⟩ hg.payload

theorem accepts_unique {ids ids' : List GenId} (h : List.Forall₂ (Accepts o) rest ids)
    (h' : List.Forall₂ (Accepts o') rest ids') : ids = ids' := by
  induction h generalizing ids' with
  | nil => exact (List.forall₂_nil_left_iff.mp h').symm
  | cons hg _ ih =>
    obtain ⟨g', ids', hg', hids', rfl⟩ := List.forall₂_cons_left_iff.mp h'
    rw [hg.names.unique hg'.names, ih hids']

theorem printed_timestamps {time : TimeText} (hformat : o.format = .timestamp)
    (hverbose : o.verbose = false) (ks : List Ksuid) :
    ((ks.map GenId.ksuid).map (GenId.printed time o)).flatten =
      closed newline (ks.map fun k => decimal (ksuidTimestamp k).toNat) := by
  rw [closed, List.flatMap_map, List.map_map, ← List.flatMap_def]
  refine List.flatMap_congr fun k _ => ?_
  simp [GenId.printed, printOneKsuid, printTimestamp, hformat, hverbose]

theorem printed_payloads {time : TimeText} (hformat : o.format = .payload)
    (hverbose : o.verbose = false) (ks : List Ksuid) :
    ((ks.map GenId.ksuid).map (GenId.printed time o)).flatten =
      (ks.map fun k => (ksuidPayload k).toList).flatten := by
  rw [List.map_map]
  refine congrArg List.flatten (List.map_congr_left fun k _ => ?_)
  simp [GenId.printed, printOneKsuid, printPayload, hformat, hverbose]

theorem decimal_newline (n : ℕ) : newline ∉ decimal n := by
  intro h
  have hh := (decimal_text n).1 newline h
  revert hh
  decide

theorem timestamps_and_payloads (hscan : scanOptions env.longMax .default args = .ready o rest)
    (hscan' : scanOptions env'.longMax .default args' = .ready o' rest) (hrest : rest ≠ [])
    (hformat : o.format = .timestamp) (hformat' : o'.format = .payload)
    (hverbose : o.verbose = false) (hverbose' : o'.verbose = false)
    (hexit : (genMain env argv0 args).exit = 0) (hexit' : (genMain env' argv0' args').exit = 0) :
    ∃ ks lines, List.Forall₂ (fun a k => Names a.bytes (.ksuid k)) rest ks ∧
      lines.length = ks.length ∧ (∀ l ∈ lines, newline ∉ l) ∧
      (genMain env argv0 args).out = closed newline lines ∧
      (genMain env' argv0' args').out.length = 16 * ks.length ∧
      ∀ i k line, ks[i]? = some k → lines[i]? = some line → ∀ longMax out, 2 ^ 32 ≤ longMax + 1 →
        ksuidFromParts out (BitVec.ofInt 64 (strtol longMax line).value + ksuidEpochSeconds)
          (readBuffer 16 ((piece 16 i (genMain env' argv0' args').out).getD · 0#8)) =
            ⟨.ok, k, false⟩ := by
  obtain ⟨ids, hyields, hrun⟩ := genMain_yields hscan hexit
  obtain ⟨ids', hyields', hrun'⟩ := genMain_yields hscan' hexit'
  rw [Yields, if_neg hrest] at hyields hyields'
  obtain ⟨ks, rfl⟩ := payload_words hyields' hformat'
  obtain rfl := accepts_unique hyields hyields'
  rw [hrun, hrun', printed_timestamps hformat hverbose, printed_payloads hformat' hverbose']
  have hlen : ∀ v ∈ ks.map fun k => (ksuidPayload k).toList, v.length = 16 := by simp
  refine ⟨ks, _, ?_, List.length_map _, by simpa using fun k _ => decimal_newline _, rfl,
    by rw [Records.length_flatten hlen, List.length_map],
    fun i k line hk hline longMax out hlong => ?_⟩
  · exact (List.forall₂_map_right_iff.mp hyields).imp fun _ _ h => h.names
  · rw [List.getElem?_map, hk, Option.map_some, Option.some_inj] at hline
    subst hline
    have hlt := (ksuidTimestamp k).isLt
    rw [Records.piece_flatten hlen (by rw [List.getElem?_map, hk]; rfl), readBuffer_toList,
      strtol_decimal (by omega), BitVec.ofInt_natCast, BitVec.ofNat_toNat]
    exact fromParts_fields out k

end Projections

/-- What the program prints of identifiers in other projections than text tells them as well. The
raw bytes of identifiers of one format, cut by their length, are taken back for each. The timestamps
and the payloads that two runs on any machines print of the same words, a line and sixteen bytes
each, make each KSUID again. -/
theorem projections_read_back :
    (∀ (env : GenEnv) (argv0 : List Byte) (args rest : List CString) (o : GenOptions),
      scanOptions env.longMax .default args = .ready o rest → o.format = .raw → o.verbose = false →
      (genMain env argv0 args).exit = 0 →
      ∃ ids : List GenId, Yields env o rest ids ∧ ∀ f, (∀ g ∈ ids, g.idformat = f) →
        (genMain env argv0 args).out.length = f.rawLen * ids.length ∧
        ∀ i (g : GenId), ids[i]? = some g →
          g.IsReadFrom (piece f.rawLen i (genMain env argv0 args).out)) ∧
    ∀ (env env' : GenEnv) (argv0 argv0' : List Byte) (args args' rest : List CString)
      (o o' : GenOptions), scanOptions env.longMax .default args = .ready o rest →
      scanOptions env'.longMax .default args' = .ready o' rest → rest ≠ [] →
      o.format = .timestamp → o'.format = .payload → o.verbose = false → o'.verbose = false →
      (genMain env argv0 args).exit = 0 → (genMain env' argv0' args').exit = 0 →
      ∃ ks lines, List.Forall₂ (fun a k => Names a.bytes (.ksuid k)) rest ks ∧
        lines.length = ks.length ∧ (∀ l ∈ lines, newline ∉ l) ∧
        (genMain env argv0 args).out = closed newline lines ∧
        (genMain env' argv0' args').out.length = 16 * ks.length ∧
        ∀ i k line, ks[i]? = some k → lines[i]? = some line → ∀ longMax out, 2 ^ 32 ≤ longMax + 1 →
          ksuidFromParts out (BitVec.ofInt 64 (strtol longMax line).value + ksuidEpochSeconds)
            (readBuffer 16 ((piece 16 i (genMain env' argv0' args').out).getD · 0#8)) =
              ⟨.ok, k, false⟩ :=
  ⟨fun _ _ _ _ _ hscan hformat hverbose hexit => raw_listing hscan hformat hverbose hexit,
    fun _ _ _ _ _ _ _ _ _ hscan hscan' hrest hformat hformat' hverbose hverbose' hexit hexit' =>
      timestamps_and_payloads hscan hscan' hrest hformat hformat' hverbose hverbose' hexit hexit'⟩

/-- The first and the last KSUID of all. -/
def endWords : List CString :=
  [⟨text "000000000000000000000000000", by decide⟩, ⟨text "aWgEPTl1tmebfsQzFP4bxwgy80V", by decide⟩]

theorem projections_read_back_plain :
    (∃ ids, Yields plainEnv { GenOptions.default with format := .raw, count := 3 } [] ids ∧
      ids.length = 3 ∧ (genMain plainEnv [] (formatArgs .raw ++ threeArgs)).out.length = 60 ∧
      ∀ i (g : GenId), ids[i]? = some g →
        g.IsReadFrom (piece 20 i (genMain plainEnv [] (formatArgs .raw ++ threeArgs)).out)) ∧
    ∃ ks lines, List.Forall₂ (fun a k => Names a.bytes (.ksuid k)) endWords ks ∧ lines.length = 2 ∧
      (genMain plainEnv [] (formatArgs .timestamp ++ endWords)).out = closed newline lines ∧
      (genMain plainEnv [] (formatArgs .payload ++ endWords)).out.length = 32 ∧
      ∀ i k line, ks[i]? = some k → lines[i]? = some line → ∀ out,
        ksuidFromParts out (BitVec.ofInt 64 (strtol (2 ^ 63 - 1) line).value + ksuidEpochSeconds)
          (readBuffer 16
            ((piece 16 i (genMain plainEnv [] (formatArgs .payload ++ endWords)).out).getD · 0#8)) =
              ⟨.ok, k, false⟩ := by
  obtain ⟨hraw, hparts⟩ := projections_read_back
  refine ⟨?_, ?_⟩
  · have hscan : scanOptions plainEnv.longMax .default (formatArgs .raw ++ threeArgs) =
        .ready { GenOptions.default with format := .raw, count := 3 } [] := by
      decide +kernel
    obtain ⟨ids, hyields, hread⟩ := hraw plainEnv [] _ _ _ hscan rfl rfl (by decide +kernel)
    have hlen : ids.length = 3 := hyields.length_eq.symm
    have hformat : ∀ g ∈ ids, g.idformat = .ksuid := by
      intro g hg
      obtain ⟨i, hi, rfl⟩ := List.mem_iff_getElem.mp hg
      exact ((List.forall₂_iff_get.mp hyields).2 i (by simp [hyields.length_eq, hi]) hi).idformat
    obtain ⟨hout, hpieces⟩ := hread .ksuid hformat
    rw [hlen] at hout
    exact ⟨ids, hyields, hlen, hout, hpieces⟩
  · have hscan : scanOptions plainEnv.longMax .default (formatArgs .timestamp ++ endWords) =
        .ready { GenOptions.default with format := .timestamp } endWords := by
      decide +kernel
    have hscan' : scanOptions plainEnv.longMax .default (formatArgs .payload ++ endWords) =
        .ready { GenOptions.default with format := .payload } endWords := by
      decide +kernel
    obtain ⟨ks, lines, hnames, hlines, -, hout, hlen, hread⟩ := hparts plainEnv plainEnv [] []
      _ _ _ _ _ hscan hscan' (by decide) rfl rfl rfl rfl (by decide +kernel) (by decide +kernel)
    have htwo : ks.length = 2 := hnames.length_eq.symm
    rw [htwo] at hlines hlen
    exact ⟨ks, lines, hnames, hlines, hout, hlen, fun i k line hk hline out =>
      hread i k line hk hline _ out (by decide)⟩

end Chronoid
