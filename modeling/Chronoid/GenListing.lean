import Chronoid.GenGenerate
import Chronoid.Library.Records

/-! A listing that the program printed, given back to it on the command line. -/

namespace Chronoid

open Records (closed)

/-- The identifiers of a run that gets through: those its passes make, or those its words name. -/
def Yields (env : GenEnv) (o : GenOptions) (rest : List CString) (ids : List GenId) : Prop :=
  if rest = [] then List.Forall₂ (fun i => Makes env i o.idformat) (List.range o.count) ids
  else List.Forall₂ (Accepts o) rest ids

theorem effect_count_pos {longMax : ℕ} {o : GenOptions} (ho : 0 < o.count)
    (ws : List (OptionWord longMax)) : 0 < (ws.foldl (fun o w => w.effect o) o).count := by
  induction ws generalizing o with
  | nil => exact ho
  | cons w ws ih =>
    refine ih ?_
    cases w with
    | count val n h => exact h.2.1
    | _ => exact ho

theorem scan_count_pos {longMax : ℕ} {o o' : GenOptions} {args rest : List CString}
    (h : scanOptions longMax o args = .ready o' rest) (ho : 0 < o.count) : 0 < o'.count := by
  obtain ⟨ws, tail, -, hends⟩ := (optionGrammar longMax).scan_eq_iff.mp h
  have hcount := effect_count_pos ho ws
  cases hends with
  | all => exact hcount
  | identifier => exact hcount

theorem scan_append {longMax : ℕ} {o o' : GenOptions} {args : List CString}
    (h : scanOptions longMax o args = .ready o' []) {a : CString} (ha : ¬a.Dashed)
    (rest : List CString) : scanOptions longMax o (args ++ a :: rest) = .ready o' (a :: rest) := by
  obtain ⟨ws, tail, rfl, hends⟩ := (optionGrammar longMax).scan_eq_iff.mp h
  cases hends with
  | all =>
    refine (optionGrammar longMax).scan_eq_iff.mpr ⟨ws, a :: rest, ?_, .identifier a rest ha⟩
    rw [List.append_nil]

theorem GenId.text_names (g : GenId) : Names g.text g := by
  cases g with
  | ksuid id => exact rfl
  | uuidv7 id =>
    obtain ⟨t, ht, hlayout⟩ := hexText_layout id.b
    have hlower := congrArg Vector.toList hlayout.canonical.2
    rw [Vector.toList_map, ht] at hlower
    exact hlower

theorem GenId.text_head (g : GenId) : ∃ c t, g.text = c :: t ∧ c ≠ charByte '-' := by
  cases g with
  | ksuid id =>
    have hlen : (base62Text id.value).length = 27 := (GenId.ksuid id).text_names.length
    obtain ⟨c, t, htext⟩ := List.exists_cons_of_length_pos (hlen ▸ (by decide : 0 < 27))
    exact ⟨c, t, htext, (base62Text_printable (htext ▸ List.mem_cons_self)).2.2⟩
  | uuidv7 id =>
    obtain ⟨t, ht, hlayout⟩ := hexText_layout id.b
    have hfirst : t[0] = hexLower (id.b[0].toNat / 16) := hlayout.high 0
    have hlist : t.toList = t[0] :: t.toList.tail := by
      rw [← List.cons_head_tail (show t.toList ≠ [] by simp)]
      simp [List.head_eq_getElem]
    refine ⟨t[0], t.toList.tail, ht.symm.trans hlist, ?_⟩
    rw [hfirst]
    exact (hexLower_ne_nul _ (by omega)).2.2

theorem GenId.text_newline (g : GenId) : newline ∉ g.text := by
  cases g with
  | ksuid id => exact fun h => (base62Text_printable h).2.1 rfl
  | uuidv7 id => exact fun h => (uuidv7Text_printable h).2 rfl

theorem printed_string (time : TimeText) {o : GenOptions} (hformat : o.format = .string)
    (hverbose : o.verbose = false) (ids : List GenId) :
    (ids.map (GenId.printed time o)).flatten = closed newline (ids.map GenId.text) := by
  rw [closed, List.flatMap_map, ← List.flatMap_def]
  refine List.flatMap_congr fun g _ => ?_
  cases g with
  | ksuid id =>
    simp [GenId.printed, printOneKsuid, printString, hformat, hverbose, ksuidString_eq, GenId.text]
  | uuidv7 id =>
    simp [GenId.printed, printOneUuidv7, printStringUuidv7, hformat, hverbose, uuidv7String_eq,
      GenId.text]

variable {env env' : GenEnv} {argv0 argv0' : List Byte} {o o' : GenOptions}
    {args args' rest : List CString}

theorem genMain_yields (hscan : scanOptions env.longMax .default args = .ready o rest)
    (hexit : (genMain env argv0 args).exit = 0) : ∃ ids, Yields env o rest ids ∧
      genMain env argv0 args = ⟨0, (ids.map (GenId.printed env.time o)).flatten, none⟩ := by
  simp only [genMain, hscan] at hexit ⊢
  split_ifs at hexit ⊢ with hpayload hrest
  · obtain ⟨ids, hids, hrun⟩ := generate_yields hexit
    exact ⟨ids, by rwa [Yields, if_pos hrest], hrun⟩
  · have hjudges := parseOne_judges env o
    have hnone := (ofLoop_exit (by decide)).mp hexit
    obtain ⟨ids, hids, hout⟩ := (hjudges.run_eq_none trivial).mp (Prod.ext rfl hnone)
    exact ⟨ids, by rwa [Yields, if_neg hrest],
      ofLoop_eq_none.mpr (hjudges.run_accepted trivial hids)⟩

theorem Yields.ne_nil {ids : List GenId} (h : Yields env o rest ids) (ho : 0 < o.count) :
    ids ≠ [] := by
  rintro rfl
  rw [Yields] at h
  split_ifs at h with hrest
  · have hlen := h.length_eq
    rw [List.length_range, List.length_nil] at hlen
    omega
  · exact hrest (List.forall₂_nil_right_iff.mp h)

/-- The words of a listing name the identifiers it lists. -/
theorem listing_names {ids : List GenId} {ws : List CString} (hws : ∀ w ∈ ws, newline ∉ w.bytes)
    (h : closed newline (ws.map CString.bytes) = closed newline (ids.map GenId.text)) :
    ws.map CString.bytes = ids.map GenId.text := by
  refine Records.closed_inj ?_ ?_ h
  · simpa using hws
  · simpa using fun g _ => g.text_newline

theorem listing_accepts {ids : List GenId} {ws : List CString}
    (hws : ws.map CString.bytes = ids.map GenId.text)
    (hids : ∀ g ∈ ids, (o.idformatExplicit = true → g.idformat = o.idformat) ∧
      ¬(o.format = .payload ∧ g.idformat = .uuidv7)) : List.Forall₂ (Accepts o) ws ids := by
  induction ids generalizing ws with
  | nil =>
    obtain rfl := List.map_eq_nil_iff.mp hws
    exact .nil
  | cons g ids ih =>
    obtain ⟨w, ws, rfl, hw, hws⟩ := List.map_eq_cons_iff.mp hws
    obtain ⟨hexplicit, hpayload⟩ := hids g List.mem_cons_self
    have hnames : Names w.bytes g := hw ▸ g.text_names
    exact .cons ⟨hnames, hexplicit, hpayload⟩
      (ih hws fun g hg => hids g (List.mem_cons_of_mem _ hg))

/-- Whoever cuts a listing at its line ends and gives the lines to the program, on any machine and
with any options in front, is told about just the identifiers of the first run; without options that
is the same listing. -/
theorem listing_reads_back (env env' : GenEnv) (argv0 argv0' : List Byte)
    {args rest : List CString} {o : GenOptions}
    (hscan : scanOptions env.longMax .default args = .ready o rest) (hformat : o.format = .string)
    (hverbose : o.verbose = false) (hexit : (genMain env argv0 args).exit = 0) :
    ∃ ids, Yields env o rest ids ∧
      (genMain env argv0 args).out = closed newline (ids.map GenId.text) ∧
      ∀ ws : List CString, (∀ w ∈ ws, newline ∉ w.bytes) →
        (genMain env argv0 args).out = closed newline (ws.map CString.bytes) →
        genMain env' argv0' ws = genMain env argv0 args ∧
          ∀ args' o', scanOptions env'.longMax .default args' = .ready o' [] →
            (∀ g ∈ ids, (o'.idformatExplicit = true → g.idformat = o'.idformat) ∧
              ¬(o'.format = .payload ∧ g.idformat = .uuidv7)) →
            genMain env' argv0' (args' ++ ws) =
              ⟨0, (ids.map (GenId.printed env'.time o')).flatten, none⟩ := by
  obtain ⟨ids, hyields, hrun⟩ := genMain_yields hscan hexit
  have hne := hyields.ne_nil (scan_count_pos hscan (by decide))
  have hout := printed_string env.time hformat hverbose ids
  refine ⟨ids, hyields, by rw [hrun, hout], fun ws hws hcut => ?_⟩
  rw [hrun, hout] at hcut
  have htexts := listing_names hws hcut.symm
  obtain ⟨g, ids, rfl⟩ := List.exists_cons_of_ne_nil hne
  obtain ⟨w, ws, rfl, hw, -⟩ := List.map_eq_cons_iff.mp htexts
  have hhead : ¬w.Dashed := by
    rintro ⟨c, t, hdash⟩
    obtain ⟨c', t', htext, hc⟩ := g.text_head
    exact hc (List.head_eq_of_cons_eq (htext.symm.trans (hw.symm.trans hdash)))
  have hread (args' : List CString) (o' : GenOptions)
      (hscan' : scanOptions env'.longMax .default args' = .ready o' [])
      (hids : ∀ g' ∈ g :: ids, (o'.idformatExplicit = true → g'.idformat = o'.idformat) ∧
        ¬(o'.format = .payload ∧ g'.idformat = .uuidv7)) :
      genMain env' argv0' (args' ++ w :: ws) =
        ⟨0, ((g :: ids).map (GenId.printed env'.time o')).flatten, none⟩ := by
    simp only [genMain, scan_append hscan' hhead, reduceCtorEq, false_and, if_false]
    exact ofLoop_eq_none.mpr ((parseOne_judges env' o').run_accepted trivial
      (listing_accepts htexts hids))
  refine ⟨?_, hread⟩
  have hplain := hread [] .default rfl (by simp [GenOptions.default])
  rw [hrun, hout, ← printed_string env'.time (Eq.refl GenOptions.default.format) rfl]
  exact hplain

/-- A machine at a fixed time whose random source only gives zeros. -/
def plainEnv : GenEnv where
  longMax := 2 ^ 63 - 1
  simd := .scalar
  ssse3 := false
  time := ⟨fun _ => none, fun _ => none⟩
  src := fun _ => ⟨0, fun _ => 0#8⟩
  clock := fun _ => some 1500000000#64
  nowMs := fun _ => 1500000000000
  locals := fun _ => ⟨⟨Vector.replicate 20 0#8⟩, ⟨Vector.replicate 16 0#8⟩,
    Vector.replicate 27 0#8, Vector.replicate 36 0#8, Vector.replicate 20 0#8,
    Vector.replicate 16 0#8, Vector.replicate 16 0#8⟩

def threeArgs : List CString := [⟨text "-n", by decide⟩, ⟨text "3", by decide⟩]

def formatArgs (f : OutputFormat) : List CString := OptionWord.spelling (.format f : OptionWord 0)

/-- The lines that this machine prints for `-n 3`. -/
def threeLines : List CString := List.replicate 3 ⟨text "0qjBBlHOl4satwMcsRvbUPVN17o", by decide⟩

theorem listing_reads_back_plain :
    ∃ ids, Yields plainEnv { GenOptions.default with count := 3 } [] ids ∧ ids.length = 3 ∧
      (genMain plainEnv [] threeArgs).out = closed newline (ids.map GenId.text) ∧
      genMain plainEnv [] threeLines = genMain plainEnv [] threeArgs ∧
      genMain plainEnv [] (formatArgs .raw ++ threeLines) = ⟨0,
        (ids.map (GenId.printed plainEnv.time { GenOptions.default with format := .raw })).flatten,
        none⟩ := by
  have hscan : scanOptions plainEnv.longMax .default threeArgs =
      .ready { GenOptions.default with count := 3 } [] := by
    decide +kernel
  have hscan' : scanOptions plainEnv.longMax .default (formatArgs .raw) =
      .ready { GenOptions.default with format := .raw } [] := by
    decide +kernel
  obtain ⟨ids, hyields, hout, hread⟩ :=
    listing_reads_back plainEnv plainEnv [] [] hscan rfl rfl (by decide +kernel)
  obtain ⟨hagain, hraw⟩ := hread threeLines (by decide +kernel) (by decide +kernel)
  have hlen : ids.length = 3 := hyields.length_eq.symm
  have hopen : GenOptions.default.idformatExplicit = false := rfl
  exact ⟨ids, hyields, hlen, hout, hagain, hraw (formatArgs .raw) _ hscan' (by simp [hopen])⟩

end Chronoid
