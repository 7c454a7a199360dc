import Chronoid.RandOsFill

/-! The chain of sources: a fill that one of them completes, or a failure of them all. -/

namespace Chronoid

variable {src : Source} {n : ℕ} {r : OsRun}

/-- What a chain of sources makes of its calls, whichever of them it gets to. -/
structure OsFilled (srcs : List Source) (n : ℕ) (r : OsRun) : Prop where
  ret : r.ret = 0 ∨ r.ret = -1
  source : ∀ c ∈ r.calls, c.source ∈ srcs
  inside : ∀ p ∈ pieces r.calls, p.1 + p.2 ≤ n
  filled : r.ret = 0 → ∃ src ∈ srcs, ∃ before mine, r.calls = before ++ mine ∧
    (∀ c ∈ before, c.source ≠ src) ∧ (∀ c ∈ mine, c.source = src) ∧ Tiles n 0 (pieces mine)
  failed : r.ret = -1 ↔ ∀ src ∈ srcs, ∃ c ∈ r.calls, c.source = src ∧ c.Fails
  emptyRead : ∀ fd off len, .read fd off len (.count 0) ∈ r.calls → r.ret = -1
  retries : RetriesInterrupted r.calls
  closes : ClosesOnce r.calls

theorem SysCall.no_descriptor {c : SysCall} (h : c.source ≠ .urandom) :
    c.opened = none ∧ c.closed = none := by
  cases c with
  | getrandom => exact ⟨rfl, rfl⟩
  | getentropy => exact ⟨rfl, rfl⟩
  | openUrandom => exact absurd rfl h
  | read => exact absurd rfl h
  | close => exact absurd rfl h

theorem ClosesOnce.append {before calls : List SysCall} (h : ClosesOnce calls)
    (hbefore : ∀ c ∈ before, c.source ≠ .urandom) : ClosesOnce (before ++ calls) := by
  have hopened : before.filterMap SysCall.opened = [] :=
    List.filterMap_eq_nil_iff.mpr fun c hc => (SysCall.no_descriptor (hbefore c hc)).1
  have hclosed : before.filterMap SysCall.closed = [] :=
    List.filterMap_eq_nil_iff.mpr fun c hc => (SysCall.no_descriptor (hbefore c hc)).2
  rcases h with ⟨ho, hc⟩ | ⟨fd, mine, rfl, ho, hc, hreads⟩
  · exact .inl ⟨by rw [List.filterMap_append, hopened, ho]; rfl,
      by rw [List.filterMap_append, hclosed, hc]; rfl⟩
  · refine .inr ⟨fd, before ++ mine, by rw [List.append_assoc], ?_, ?_,
      fun fd' off len a hmem => ?_⟩
    · rw [List.filterMap_append, hopened, ho, List.nil_append]
    · rw [List.filterMap_append, hclosed, hc, List.nil_append]
    · rcases List.mem_append.mp hmem with hmem | hmem
      · exact absurd rfl (hbefore _ hmem)
      · exact hreads fd' off len a hmem

theorem closesOnce_of_source {calls : List SysCall} (h : ∀ c ∈ calls, c.source ≠ .urandom) :
    ClosesOnce calls := by
  have hnil : ClosesOnce [] := .inl ⟨rfl, rfl⟩
  simpa using hnil.append h

theorem SourceRun.osFilled (h : SourceRun src n 0 r) (hcloses : ClosesOnce r.calls) :
    OsFilled [src] n r := by
  constructor
  · exact h.ret
  · intro c hc
    rw [h.source c hc]
    exact List.mem_singleton_self src
  · exact h.inside
  · intro hret
    exact ⟨src, List.mem_singleton_self src, [], r.calls, rfl, by simp, h.source, h.tiles hret⟩
  · rw [h.failed]
    constructor
    · rintro ⟨c, hc, hfails⟩ s hs
      rw [List.mem_singleton.mp hs]
      exact ⟨c, hc, h.source c hc, hfails⟩
    · intro hall
      obtain ⟨c, hc, _, hfails⟩ := hall src (List.mem_singleton_self src)
      exact ⟨c, hc, hfails⟩
  · intro fd off len hmem
    exact h.failed.mpr ⟨_, hmem, trivial⟩
  · exact h.retries
  · exact hcloses

theorem SourceRun.osFilled_cons {srcs : List Source} (h : SourceRun src n 0 r) (hret : r.ret = 0)
    (hurandom : src ≠ .urandom) : OsFilled (src :: srcs) n r := by
  have hclosesOnce : ClosesOnce r.calls := closesOnce_of_source fun c hc => by rwa [h.source c hc]
  have hone := h.osFilled hclosesOnce
  constructor
  · exact hone.ret
  · intro c hc
    rw [h.source c hc]
    exact List.mem_cons_self
  · exact hone.inside
  · intro _
    exact ⟨src, List.mem_cons_self, [], r.calls, rfl, by simp, h.source, h.tiles hret⟩
  · constructor
    · intro hfail
      rw [hret] at hfail
      cases hfail
    · intro hall
      obtain ⟨c, hc, _, hfails⟩ := hall src List.mem_cons_self
      exact h.failed.mpr ⟨c, hc, hfails⟩
  · exact hone.emptyRead
  · exact hone.retries
  · exact hclosesOnce

theorem OsFilled.cons {srcs : List Source} {first : OsRun} (h : OsFilled srcs n r)
    (hfirst : SourceRun src n 0 first)
    (hret : first.ret = -1) (hsrc : src ∉ srcs) (hurandom : src ≠ .urandom) :
    OsFilled (src :: srcs) n ⟨r.ret, first.calls ++ r.calls⟩ := by
  constructor
  · exact h.ret
  · intro c hc
    rcases List.mem_append.mp hc with hc | hc
    · rw [hfirst.source c hc]
      exact List.mem_cons_self
    · exact List.mem_cons_of_mem _ (h.source c hc)
  · intro p hp
    rw [pieces_append, List.mem_append] at hp
    rcases hp with hp | hp
    · exact hfirst.inside p hp
    · exact h.inside p hp
  · intro hzero
    obtain ⟨s, hs, before, mine, hcalls, hbefore, hmine, htiles⟩ := h.filled hzero
    refine ⟨s, List.mem_cons_of_mem _ hs, first.calls ++ before, mine, ?_, fun c hc => ?_,
      hmine, htiles⟩
    · simp only [hcalls, List.append_assoc]
    · rcases List.mem_append.mp hc with hc | hc
      · rw [hfirst.source c hc]
        rintro rfl
        exact hsrc hs
      · exact hbefore c hc
  · rw [h.failed]
    constructor
    · intro hall s hs
      rcases List.mem_cons.mp hs with rfl | hs
      · obtain ⟨c, hc, hfails⟩ := hfirst.failed.mp hret
        exact ⟨c, List.mem_append_left _ hc, hfirst.source c hc, hfails⟩
      · obtain ⟨c, hc, hcs⟩ := hall s hs
        exact ⟨c, List.mem_append_right _ hc, hcs⟩
    · intro hall s hs
      obtain ⟨c, hc, rfl, hfails⟩ := hall s (List.mem_cons_of_mem _ hs)
      rcases List.mem_append.mp hc with hc | hc
      · rw [hfirst.source c hc] at hs
        exact absurd hs hsrc
      · exact ⟨c, hc, rfl, hfails⟩
  · intro fd off len hmem
    rcases List.mem_append.mp hmem with hmem | hmem
    · exact absurd (hfirst.source _ hmem).symm hurandom
    · exact h.emptyRead fd off len hmem
  · exact hfirst.retries.append h.retries
  · apply h.closes.append
    intro c hc
    rwa [hfirst.source c hc]

theorem OsFilled.tryFirst {srcs : List Source} {first next : Option OsRun}
    (hfirst : ∀ r, first = some r → SourceRun src n 0 r)
    (hnext : ∀ r, next = some r → OsFilled srcs n r)
    (hsrc : src ∉ srcs) (hurandom : src ≠ .urandom) (h : tryFirst first next = some r) :
    OsFilled (src :: srcs) n r := by
  obtain ⟨f, hf, h⟩ := Option.bind_eq_some_iff.mp h
  have hrun := hfirst f hf
  rcases hrun.ret with hret | hret
  · rw [if_pos hret] at h
    cases h
    exact hrun.osFilled_cons hret hurandom
  · rw [if_neg (by simp [hret])] at h
    obtain ⟨r, hr, rfl⟩ := Option.map_eq_some_iff.mp h
    exact (hnext r hr).cons hrun hret hsrc hurandom

theorem osRandomBytes_osFilled {b : OsBuild} {s : OsScript} (hn : 0 < n)
    (h : osRandomBytes b n s = some r) : OsFilled b.sources n r := by
  have hgetrandom : ∀ r, randomViaGetrandom n 0 s.getrandom = some r → SourceRun .getrandom n 0 r :=
    fun r hr => (randomViaGetrandom_fills hr).sourceRun (fillCall_getrandom n) n.zero_le
  have hgetentropy : ∀ r, randomViaGetentropy n 0 s.getentropy = some r →
      SourceRun .getentropy n 0 r :=
    fun r hr => (randomViaGetentropy_fills hr).sourceRun (fillCall_getentropy n) n.zero_le
  have hurandom : ∀ r, randomViaUrandom n s = some r → OsFilled [.urandom] n r := by
    intro r hr
    obtain ⟨hrun, hcloses⟩ := randomViaUrandom_spec hr
    exact hrun.osFilled hcloses
  obtain ⟨haveGetrandom, haveGetentropy⟩ := b
  simp only [osRandomBytes, if_neg hn.ne'] at h
  cases haveGetrandom <;> cases haveGetentropy
  · exact hurandom r h
  · exact OsFilled.tryFirst hgetentropy hurandom (by simp) (by simp) h
  · exact OsFilled.tryFirst hgetrandom hurandom (by simp) (by simp) h
  · apply OsFilled.tryFirst hgetrandom _ (by simp) (by simp) h
    exact fun r hr => OsFilled.tryFirst hgetentropy hurandom (by simp) (by simp) hr

/-- A call that returns 0 had all its bytes from the one source it ended with, laid end to end over
whatever an earlier source left; it returns -1 just when every source failed. -/
theorem osRandomBytes_complete (b : OsBuild) (n : ℕ) (s : OsScript) {r : OsRun}
    (h : osRandomBytes b n s = some r) :
    (r.ret = 0 → ∃ src ∈ b.sources, ∃ before mine, r.calls = before ++ mine ∧
      (∀ c ∈ before, c.source ≠ src) ∧ (∀ c ∈ mine, c.source = src) ∧ Tiles n 0 (pieces mine)) ∧
    (∀ p ∈ pieces r.calls, p.1 + p.2 ≤ n) ∧
    (r.ret = 0 ∨ r.ret = -1) ∧
    (r.ret = -1 ↔ 0 < n ∧ ∀ src ∈ b.sources, ∃ c ∈ r.calls, c.source = src ∧ c.Fails) ∧
    (∀ fd off len, .read fd off len (.count 0) ∈ r.calls → r.ret = -1) ∧
    RetriesInterrupted r.calls ∧ ClosesOnce r.calls := by
  by_cases hn : 0 < n
  · have hfilled := osRandomBytes_osFilled hn h
    refine ⟨hfilled.filled, hfilled.inside, hfilled.ret, ?_, hfilled.emptyRead, hfilled.retries,
      hfilled.closes⟩
    rw [hfilled.failed]
    exact (and_iff_right hn).symm
  · obtain rfl : n = 0 := by omega
    cases h
    have hmem : Source.urandom ∈ b.sources := by simp [OsBuild.sources]
    refine ⟨fun _ => ⟨.urandom, hmem, [], [], rfl, by simp, by simp, rfl⟩, by simp [pieces],
      .inl rfl, by simp, by simp, retriesInterrupted_nil, .inl ⟨rfl, rfl⟩⟩

def IoReply.error (e : Errno) : IoReply := ⟨fun _ => .error e, fun _ => trivial⟩

def IoReply.upTo (k : ℕ) : IoReply :=
  ⟨fun want => .count (min k want), fun want => Nat.min_le_right k want⟩

/-- The first source gives up after a byte, the second at once, and the third is interrupted. -/
def twoFallbacks : OsScript where
  getrandom := [.error .eintr, .upTo 1, .error (.other 38)]
  getentropy := [some (.other 38)]
  openUrandom := [.error .eintr, .ok 5]
  read := [.upTo 2, .error .eintr, .upTo 256]

theorem osRandomBytes_complete_twoFallbacks :
    ∃ r, osRandomBytes ⟨true, true⟩ 3 twoFallbacks = some r ∧
      pieces r.calls = [(0, 1), (0, 2), (2, 1)] ∧
      (∃ src ∈ OsBuild.sources ⟨true, true⟩, ∃ before mine, r.calls = before ++ mine ∧
        (∀ c ∈ before, c.source ≠ src) ∧ (∀ c ∈ mine, c.source = src) ∧ Tiles 3 0 (pieces mine)) ∧
      RetriesInterrupted r.calls ∧ ClosesOnce r.calls := by
  have hrun : osRandomBytes ⟨true, true⟩ 3 twoFallbacks = some _ := rfl
  obtain ⟨hfilled, -, -, -, -, hretries, hcloses⟩ :=
    osRandomBytes_complete ⟨true, true⟩ 3 twoFallbacks hrun
  exact ⟨_, hrun, rfl, hfilled rfl, hretries, hcloses⟩

end Chronoid
