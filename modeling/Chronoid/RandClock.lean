import Chronoid.RandRuns

/-! What the reseed test makes of a clock that cannot be read, and of readings too far apart. It
compares the sentinel -1 with the time of the last seeding, which comes from the same clock. -/

namespace Chronoid

/-- A call that finds the clock unreadable delivers keystream of a seed of its own, from its
first byte on, or nothing. -/
def ClockFailureReseeds (hook : Option ExitHook) (t : Thread) : Prop :=
  ∀ c : DrawCall, c.now = -1 → tlsRngShouldReseed t.rng c = true ∧
    (((randomBytes hook t c).ret ≠ 0 ∧ (randomBytes hook t c).out = []) ∨
      ∃ kn, c.entropy = some kn ∧
        (randomBytes hook t c).out = chacha.segment (seedState kn) 0 c.len)

/-- A draw that seeds reads a clock from which the sentinel is far enough, or uses its seed
up at once. -/
def SeedTimeSafe (t : Thread) : RngOp → Prop
  | .draw c => (seedingOf t c).isSome → c.seedNow < -3600 ∨ -1 < c.seedNow ∨ 2 ^ 20 ≤ c.len
  | .forceReseed => True
  | .wipe => True

instance (t : Thread) : (op : RngOp) → Decidable (SeedTimeSafe t op)
  | .draw _ => inferInstanceAs (Decidable (_ → _))
  | .forceReseed => inferInstanceAs (Decidable True)
  | .wipe => inferInstanceAs (Decidable True)

def SeedTimeFar (t : Thread) : Prop :=
  t.rng.seeded = true → t.rng.bytesEmitted.toNat < 2 ^ 20 →
    t.rng.seedTime < -3600 ∨ -1 < t.rng.seedTime

variable {hook : Option ExitHook} {t : Thread}

theorem SeedTimeFar.shouldReseed (h : SeedTimeFar t) {c : DrawCall} (hc : c.now = -1) :
    tlsRngShouldReseed t.rng c = true := by
  by_contra hs
  obtain ⟨hseeded, hbytes, -, hlow, hhigh⟩ :=
    tlsRngShouldReseed_eq_false.mp (Bool.not_eq_true _ ▸ hs)
  have hfar := h hseeded hbytes
  omega

theorem SeedTimeFar.clockFailureReseeds (h : SeedTimeFar t) : ClockFailureReseeds hook t := by
  intro c hc
  have hs := h.shouldReseed hc
  refine ⟨hs, ?_⟩
  by_cases hok : (randomBytes hook t c).ret = 0
  · obtain ⟨kn, hkn, hout, -⟩ := reseeds_step hok hs
    exact .inr ⟨kn, hkn, hout⟩
  · exact .inl ⟨hok, (failed_step hok).2.1⟩

theorem seeded_draw (hook : Option ExitHook) {c : DrawCall} (h : (seedingOf t c).isSome) :
    (randomBytes hook t c).thread.rng.seeded = true ∧
      (randomBytes hook t c).thread.rng.bytesEmitted.toNat = c.len ∧
      (randomBytes hook t c).thread.rng.seedTime = c.seedNow ∧
      (randomBytes hook t c).thread.rng.seedPid = c.pid := by
  obtain ⟨kn, hkn⟩ := Option.isSome_iff_exists.mp h
  obtain ⟨hok, hs, -⟩ := randomBytes_of_seeds hook hkn
  obtain ⟨_, -, -, hstream, -, b, hinfo⟩ := reseeds_step hok hs
  simp only [TlsRng.seedInfo, Prod.mk.injEq] at hinfo
  have hlen := c.len_lt
  exact ⟨hinfo.2.2.1, hstream.toNat_bytesEmitted (by omega), hinfo.1, hinfo.2.1⟩

theorem SeedTimeFar.draw (h : SeedTimeFar t) {c : DrawCall} (hsafe : SeedTimeSafe t (.draw c)) :
    SeedTimeFar (randomBytes hook t c).thread := by
  by_cases hseeds : (seedingOf t c).isSome
  · obtain ⟨-, hbytes, htime, -⟩ := seeded_draw hook hseeds
    intro _ hlow
    have hsafe' := hsafe hseeds
    rw [htime]
    omega
  · have hstep := randomBytes_step hook t c
    generalize randomBytes hook t c = r at hstep ⊢
    cases hstep with
    | inDestructor | noEntropy => exact h
    | reseeds kn hd hs he => simp [seedingOf_eq_some.mpr ⟨hd, hs, he⟩] at hseeds
    | streams hd hs =>
      -- it went through the reseed test, and the copy loop leaves the seed time alone
      obtain ⟨hseeded, hbytes, -⟩ := tlsRngShouldReseed_eq_false.mp hs
      have htime : (fill t.rng c.len).rng.seedTime = t.rng.seedTime :=
        congrArg Prod.fst (fill_seedInfo t.rng c.len)
      intro _ _
      rw [htime]
      exact h hseeded hbytes

theorem SeedTimeFar.step {op : RngOp} (h : SeedTimeFar t) (hsafe : SeedTimeSafe t op) :
    SeedTimeFar (rngStep hook t op).1 := by
  cases op with
  | draw c => exact h.draw hsafe
  | forceReseed | wipe => exact fun hs => (by cases hs)

/-- The next call of the same process need only come before the seed is used up. -/
theorem not_clockFailureReseeds {op : RngOp} (hsafe : ¬SeedTimeSafe t op) :
    ¬ClockFailureReseeds hook (rngStep hook t op).1 := by
  cases op with
  | forceReseed | wipe => exact absurd trivial hsafe
  | draw c =>
    simp only [SeedTimeSafe, Classical.not_imp] at hsafe
    obtain ⟨hseeds, hfar⟩ := hsafe
    obtain ⟨hseeded, hbytes, htime, hpid⟩ := seeded_draw hook hseeds
    let d : DrawCall := { c with now := -1 }
    have hnow : d.now = -1 := rfl
    have hnot : tlsRngShouldReseed (randomBytes hook t c).thread.rng d = false := by
      rw [tlsRngShouldReseed_eq_false, hbytes, htime, hpid]
      exact ⟨hseeded, by omega, rfl, by omega, by omega⟩
    intro hreseeds
    have hyes := (hreseeds d hnow).1
    rw [rngStep, hnot] at hyes
    cases hyes

/-- An unreadable clock forces a reseed in every state of a run exactly when no draw of it
took its seed while the clock stood within an hour below zero, where the sentinel itself
stands, and left some of that seed over. -/
theorem clock_failure_reseeds_iff (hook : Option ExitHook) (ops : List RngOp) :
    (∀ pre, pre <+: ops → ClockFailureReseeds hook (after hook pre)) ↔
      Machine.Along (rngStep hook) SeedTimeSafe freshThread ops :=
  Machine.throughout_iff_along (I := SeedTimeFar) (fun _ _ => SeedTimeFar.step)
    (fun _ h => h.clockFailureReseeds) (fun _ _ _ => not_clockFailureReseeds)
    (fun h => by cases h) ops

/-- The clock fails during the first draw and is still failing at the second. -/
theorem clock_failure_streams_on :
    let c : DrawCall := { byteCall 1 with now := -1, seedNow := -1 }
    let t := after none [.draw c]
    tlsRngShouldReseed t.rng c = false ∧ (randomBytes none t c).ret = 0 ∧
      (randomBytes none t c).out.length = 1 := by
  decide +kernel

/-- The subtraction of the test stays in the range of a signed word while the clock reads less than
`2 ^ 63` beyond what it read at every seeding, as two signed words do when that is not negative. -/
theorem tlsRngReseedOverflow_after (hook : Option ExitHook) {ops : List RngOp} {c : DrawCall}
    (h : ∀ d, .draw d ∈ ops → c.now < d.seedNow + 2 ^ 63) :
    tlsRngReseedOverflow (after hook ops).rng c = false := by
  rw [Bool.eq_false_iff]
  intro hover
  obtain ⟨hseeded, -, -, hfar⟩ := tlsRngReseedOverflow_eq_true.mp hover
  obtain ⟨pre, c₀, mid, kn, hseed, htime, -⟩ := (provenance hook ops).seeded hseeded
  have hmem : RngOp.draw c₀ ∈ ops := by
    rw [hseed.split]
    exact List.mem_append_right pre (List.mem_cons_self ..)
  have hnear := h c₀ hmem
  omega

/-- The clock fails during the first draw and stands at the end of its range at the second. -/
example : tlsRngReseedOverflow (after none [.draw { byteCall 1 with seedNow := -1 }]).rng
    { byteCall 1 with now := 2 ^ 63 - 1 } = true := by
  decide +kernel

end Chronoid
