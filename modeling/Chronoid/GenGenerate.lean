import Chronoid.GenParse

/-! Generation mode: which identifiers the program makes and what stops it. Each pass reads its
clock once and draws once. -/

namespace Chronoid

local instance neZeroTen : NeZero 10 := ⟨by decide⟩

def randA12bit (rnd : Vector Byte 10) : Word16 :=
  (rnd.get 0).setWidth 16 <<< 8 ||| (rnd.get 1).setWidth 16

/-- Pass `i` makes the identifier of its clock and its random bytes. -/
inductive Makes (env : GenEnv) (i : ℕ) : IdFormat → GenId → Prop
  | ksuid {t : Word64} {id : Ksuid} (hclock : env.clock i = some t) (ht : KsuidTimeInRange t.toInt)
      (hret : (env.src i).ret = 0) (htime : ksuidTimeUnix id = t)
      (hpayload : ksuidPayload id = (env.src i).buf 16) :
      Makes env i .ksuid (.ksuid id)
  | uuidv7 {id : Uuidv7} (hms : 0 ≤ env.nowMs i ∧ env.nowMs i ≤ uuidv7MaxUnixMs)
      (hret : (env.src i).ret = 0)
      (hid : ∀ out, uuidv7FromParts out (env.nowMs i) (randA12bit ((env.src i).buf 10))
        (Vector.ofFn fun j : Fin 8 => ((env.src i).buf 10).get (j.natAdd 2)) = (.ok, id)) :
      Makes env i .uuidv7 (.uuidv7 id)

inductive MakeFails (env : GenEnv) (i : ℕ) : IdFormat → GenError → Prop
  | ksuidTime (h : ∀ t, env.clock i = some t → ¬KsuidTimeInRange t.toInt) :
      MakeFails env i .ksuid (.ksuidNewFailed .errTimeRange)
  | ksuidRng {t : Word64} (hclock : env.clock i = some t) (ht : KsuidTimeInRange t.toInt)
      (hret : (env.src i).ret ≠ 0) : MakeFails env i .ksuid (.ksuidNewFailed .errRng)
  | uuidv7Time (h : ¬(0 ≤ env.nowMs i ∧ env.nowMs i ≤ uuidv7MaxUnixMs)) :
      MakeFails env i .uuidv7 (.uuidv7NewFailed .errTimeRange)
  | uuidv7Rng (hms : 0 ≤ env.nowMs i ∧ env.nowMs i ≤ uuidv7MaxUnixMs) (hret : (env.src i).ret ≠ 0) :
      MakeFails env i .uuidv7 (.uuidv7NewFailed .errRng)

theorem Makes.idformat {env : GenEnv} {i : ℕ} {f : IdFormat} {g : GenId} (h : Makes env i f g) :
    g.idformat = f := by
  cases h <;> rfl

theorem newWithTime_eq_fromParts (src : RandomSource) (k : ℕ) (out : Ksuid) {t : Word64}
    (ht : KsuidTimeInRange t.toInt) (hret : (src k).ret = 0) :
    ksuidNewWithTime src k out t = ⟨ksuidFromParts out t ((src k).buf 16), k + 1⟩ := by
  have hin := mt (corrected_out_iff t).mp (not_not.mpr ht)
  simp only [ksuidNewWithTime, if_neg hin, hret, ne_eq, not_true_eq_false, if_false, ksuidFromParts]

theorem makes_or_fails (env : GenEnv) (f : IdFormat) (i : ℕ) :
    (∃ g, Makes env i f g) ∨ ∃ e, MakeFails env i f e := by
  cases f with
  | ksuid =>
    by_cases hclock : ∃ t, env.clock i = some t ∧ KsuidTimeInRange t.toInt
    · obtain ⟨t, hclock, ht⟩ := hclock
      by_cases hret : (env.src i).ret = 0
      · obtain ⟨id, -, htime, hpayload⟩ :=
          fromParts_made ⟨Vector.replicate 20 0#8⟩ ((env.src i).buf 16) ht
        exact .inl ⟨_, .ksuid hclock ht hret htime hpayload⟩
      · exact .inr ⟨_, .ksuidRng hclock ht hret⟩
    · exact .inr ⟨_, .ksuidTime fun t ht hin => hclock ⟨t, ht, hin⟩⟩
  | uuidv7 =>
    by_cases hms : 0 ≤ env.nowMs i ∧ env.nowMs i ≤ uuidv7MaxUnixMs
    · by_cases hret : (env.src i).ret = 0
      · exact .inl ⟨_, .uuidv7 hms hret fun out =>
          parts_ok hms.1 hms.2 out ⟨Vector.replicate 16 0#8⟩ _ _⟩
      · exact .inr ⟨_, .uuidv7Rng hms hret⟩
    · exact .inr ⟨_, .uuidv7Time hms⟩

theorem Ksuid.ext_time {a b : Ksuid} (htime : ksuidTimeUnix a = ksuidTimeUnix b)
    (hpayload : ksuidPayload a = ksuidPayload b) : a = b := by
  have hh := congrArg BitVec.toInt htime
  rw [toInt_ksuidTimeUnix, toInt_ksuidTimeUnix] at hh
  exact Ksuid.ext_parts (BitVec.eq_of_toNat_eq (by omega)) hpayload

theorem uuidv7New_made (src : RandomSource) (k : ℕ) {now : Int}
    (hms : 0 ≤ now ∧ now ≤ uuidv7MaxUnixMs) (hret : (src k).ret = 0) (out : Uuidv7) :
    uuidv7New src k now out =
      let r := uuidv7FromParts out now (randA12bit ((src k).buf 10))
        (Vector.ofFn fun j : Fin 8 => ((src k).buf 10).get (j.natAdd 2))
      ⟨r.1, r.2, k + 1⟩ := by
  have hin : ¬(now < 0 ∨ now > uuidv7MaxUnixMs) := by omega
  simp only [uuidv7New, uuidv7NewWithTime, if_neg hin, hret, ne_eq, not_true_eq_false, if_false]
  rfl

variable {env : GenEnv} {o : GenOptions} {i : ℕ}

theorem generateOne_of_makes {g : GenId} (h : Makes env i o.idformat g) :
    generateOne env o i i = .ok (g.printed env.time o, i + 1) := by
  obtain ⟨f, hf⟩ : ∃ f, o.idformat = f := ⟨_, rfl⟩
  rw [hf] at h
  cases h with
  | @ksuid t id hclock ht hret htime hpayload =>
    obtain ⟨id', hparts, htime', hpayload'⟩ :=
      fromParts_made (env.locals i).ksuid ((env.src i).buf 16) ht
    obtain rfl : id' = id :=
      Ksuid.ext_time (htime'.trans htime.symm) (hpayload'.trans hpayload.symm)
    simp [generateOne, hf, ksuidNew, hclock, newWithTime_eq_fromParts _ _ _ ht hret, hparts,
      GenId.printed, printOneKsuid_buf env.time (env.locals i).ksuidBuf]
  | uuidv7 hms hret hid =>
    simp [generateOne, hf, uuidv7New_made env.src i hms hret, hid, GenId.printed,
      printOneUuidv7_buf env.time env.ssse3 (env.locals i).uuidv7Buf]

theorem generateOne_of_fails {e : GenError} (h : MakeFails env i o.idformat e) :
    generateOne env o i i = .error e := by
  obtain ⟨f, hf⟩ : ∃ f, o.idformat = f := ⟨_, rfl⟩
  rw [hf] at h
  cases h with
  | ksuidTime h =>
    have herr : (ksuidNew env.src i (env.clock i) (env.locals i).ksuid).err = .errTimeRange := by
      cases hclock : env.clock i with
      | none => rfl
      | some t => exact ((newWithTime_step env.src i _ t).undrawn (h t hclock)).1
    simp [generateOne, hf, herr]
  | ksuidRng hclock ht hret =>
    have hin := mt (corrected_out_iff _).mp (not_not.mpr ht)
    have herr : (ksuidNew env.src i (env.clock i) (env.locals i).ksuid).err = .errRng := by
      simp only [hclock, ksuidNew, ksuidNewWithTime, if_neg hin, if_pos hret]
    simp [generateOne, hf, herr]
  | uuidv7Time h =>
    have herr :=
      ((uuidv7New_step env.src i (env.locals i).uuidv7 (env.nowMs i)).undrawn (by omega)).1
    simp [generateOne, hf, herr]
  | uuidv7Rng hms hret =>
    have hin : ¬(env.nowMs i < 0 ∨ env.nowMs i > uuidv7MaxUnixMs) := by omega
    simp [generateOne, hf, uuidv7New, uuidv7NewWithTime, if_neg hin, hret]

theorem generateOne_judges (env : GenEnv) (o : GenOptions) :
    EmitLoop.Judges (generateOne env o) (fun k is => is = List.range' k is.length)
      (fun i => Makes env i o.idformat) (fun i => MakeFails env i o.idformat)
        (GenId.printed env.time o) where
  accepted k i is g hk hg := by
    rw [List.length_cons, List.range'_succ, List.cons.injEq] at hk
    obtain ⟨rfl, his⟩ := hk
    exact ⟨i + 1, generateOne_of_makes hg, his⟩
  refused k i is e hk he := by
    rw [List.length_cons, List.range'_succ, List.cons.injEq] at hk
    obtain ⟨rfl, -⟩ := hk
    exact generateOne_of_fails he
  total := makes_or_fails env o.idformat

theorem range_split {m n : ℕ} {pre : List ℕ} :
    (∃ post, List.range m = pre ++ n :: post) ↔ n < m ∧ pre = List.range n := by
  simp only [List.range_eq_range']
  constructor
  · rintro ⟨post, h⟩
    obtain ⟨k, hk, rfl, hpost⟩ := List.range'_eq_append_iff.mp h
    obtain ⟨rfl, hlt, -⟩ := List.range'_eq_cons_iff.mp hpost.symm
    refine ⟨by omega, ?_⟩
    rw [Nat.zero_add, Nat.mul_one]
  · rintro ⟨hn, rfl⟩
    have happend : List.range' 0 n ++ List.range' (0 + n) (m - n) = List.range' 0 (n + (m - n)) :=
      List.range'_append_1
    rw [Nat.zero_add, Nat.add_sub_cancel' hn.le, show m - n = m - (n + 1) + 1 by omega,
      List.range'_succ] at happend
    exact ⟨_, happend.symm⟩

theorem generate_through (env : GenEnv) (o : GenOptions) :
    (∀ out, generate env o = ⟨0, out, none⟩ ↔
      ∃ ids, List.Forall₂ (fun i => Makes env i o.idformat) (List.range o.count) ids ∧
        out = (ids.map (GenId.printed env.time o)).flatten) ∧
    ((generate env o).exit = 0 ↔ ∀ i < o.count, ∃ g, Makes env i o.idformat g) := by
  have hjudges := generateOne_judges env o
  have hstart : List.range o.count = List.range' 0 (List.range o.count).length := by
    rw [List.length_range, List.range_eq_range']
  refine ⟨fun out => ofLoop_eq_none.trans (hjudges.run_eq_none hstart), ?_⟩
  refine ((ofLoop_exit (by decide)).trans (hjudges.run_through hstart)).trans ?_
  simp only [List.mem_range]

theorem generate_yields (hexit : (generate env o).exit = 0) :
    ∃ ids, List.Forall₂ (fun i => Makes env i o.idformat) (List.range o.count) ids ∧
      generate env o = ⟨0, (ids.map (GenId.printed env.time o)).flatten, none⟩ := by
  have hnone : (generate env o).err = none := (ofLoop_exit (by decide)).mp hexit
  have hrun : generate env o = ⟨0, (generate env o).out, none⟩ := by rw [← hexit, ← hnone]
  obtain ⟨ids, hids, hout⟩ := ((generate_through env o).1 _).mp hrun
  exact ⟨ids, hids, hout ▸ hrun⟩

/-- Generation mode prints as many identifiers as it was asked for, each of the clock and the random
bytes of its pass, and returns 0; or it stops with status 2 at the first clock out of range and the
first draw that fails, with the identifiers before it printed. -/
theorem generation_mode (env : GenEnv) (o : GenOptions) :
    (∀ out, generate env o = ⟨0, out, none⟩ ↔
      ∃ ids, List.Forall₂ (fun i => Makes env i o.idformat) (List.range o.count) ids ∧
        out = (ids.map (GenId.printed env.time o)).flatten) ∧
    (∀ out e, generate env o = ⟨2, out, some e⟩ ↔
      ∃ n ids, n < o.count ∧ List.Forall₂ (fun i => Makes env i o.idformat) (List.range n) ids ∧
        MakeFails env n o.idformat e ∧ out = (ids.map (GenId.printed env.time o)).flatten) ∧
    ((generate env o).exit = 0 ↔ ∀ i < o.count, ∃ g, Makes env i o.idformat g) := by
  obtain ⟨hzero, hexit⟩ := generate_through env o
  refine ⟨hzero, fun out e => ?_, hexit⟩
  have hstart : List.range o.count = List.range' 0 (List.range o.count).length := by
    rw [List.length_range, List.range_eq_range']
  refine (ofLoop_eq_some.trans ((generateOne_judges env o).run_eq_some hstart)).trans ?_
  constructor
  · rintro ⟨pre, n, post, ids, hsplit, hids, he, rfl⟩
    obtain ⟨hn, rfl⟩ := range_split.mp ⟨post, hsplit⟩
    exact ⟨n, ids, hn, hids, he, rfl⟩
  · rintro ⟨n, ids, hn, hids, he, rfl⟩
    obtain ⟨post, hsplit⟩ := range_split.mpr ⟨hn, rfl⟩
    exact ⟨List.range n, n, post, ids, hsplit, hids, he, rfl⟩

end Chronoid
