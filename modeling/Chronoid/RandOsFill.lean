import Chronoid.RandOs

/-! One source of entropy: the loop that asks it until the buffer is full, and what the calls it
makes have written when it stops. -/

namespace Chronoid

/-- The passes of a fill loop, whatever it calls: `call off a` is the call made with the offset at
`off`, and `stops` the answers that end the loop early. -/
inductive Fills (call : ℕ → IoAnswer → SysCall) (stops : IoAnswer → Prop) (n : ℕ) : ℕ → OsRun → Prop
  | done {off : ℕ} (h : n ≤ off) : Fills call stops n off ⟨0, []⟩
  | stopped {off : ℕ} {a : IoAnswer} (h : off < n) (hs : stops a) :
      Fills call stops n off ⟨-1, [call off a]⟩
  | interrupted {off : ℕ} {r : OsRun} (h : off < n) (hs : ¬stops (.error .eintr))
      (hr : Fills call stops n off r) :
      Fills call stops n off (r.prepend (call off (.error .eintr)))
  | wrote {off k : ℕ} {r : OsRun} (h : off < n) (hk : off + k ≤ n) (hs : ¬stops (.count k))
      (hr : Fills call stops n (off + k) r) :
      Fills call stops n off (r.prepend (call off (.count k)))

structure FillCall (src : Source) (call : ℕ → IoAnswer → SysCall) (stops : IoAnswer → Prop) :
    Prop where
  source : ∀ off a, (call off a).source = src
  piece : ∀ off a p, (call off a).piece = some p → p.1 = off ∧ a = .count p.2
  piece_count : ∀ off k, (call off (.count k)).piece = some (off, k)
  stops_count : ∀ k, stops (.count k) → k = 0
  fails : ∀ off a, (call off a).Fails ↔ stops a
  interrupted : ∀ off a, (call off a).Interrupted → a = .error .eintr ∧ ¬stops a
  retries : ∀ off b, (call off (.error .eintr)).Interrupted →
    (call off (.error .eintr)).Retries (call off b)

structure SourceRun (src : Source) (n off : ℕ) (r : OsRun) : Prop where
  ret : r.ret = 0 ∨ r.ret = -1
  source : ∀ c ∈ r.calls, c.source = src
  inside : ∀ p ∈ pieces r.calls, p.1 + p.2 ≤ n
  tiles : r.ret = 0 → Tiles n off (pieces r.calls)
  failed : r.ret = -1 ↔ ∃ c ∈ r.calls, c.Fails
  retries : RetriesInterrupted r.calls

variable {src : Source} {call : ℕ → IoAnswer → SysCall} {stops : IoAnswer → Prop} {n off : ℕ}
    {r : OsRun}

theorem Fills.head (h : Fills call stops n off r) (hoff : off < n) :
    ∃ a rest, r.calls = call off a :: rest := by
  cases h with
  | done h => omega
  | stopped => exact ⟨_, _, rfl⟩
  | interrupted => exact ⟨_, _, rfl⟩
  | wrote => exact ⟨_, _, rfl⟩

theorem SourceRun.prepend {off' : ℕ} {c : SysCall} (h : SourceRun src n off' r)
    (hsource : c.source = src) (hfails : ¬c.Fails) (hinside : ∀ p, c.piece = some p → p.1 + p.2 ≤ n)
    (htiles : Tiles n off' (pieces r.calls) → Tiles n off (pieces (c :: r.calls)))
    (hretry : c.Interrupted → ∃ d zs, r.calls = d :: zs ∧ c.Retries d) :
    SourceRun src n off (r.prepend c) := by
  constructor
  · exact h.ret
  · intro d hd
    rcases List.mem_cons.mp hd with rfl | hd
    · exact hsource
    · exact h.source d hd
  · intro p hp
    rw [OsRun.prepend, pieces_cons, List.mem_append, Option.mem_toList] at hp
    rcases hp with hp | hp
    · exact hinside p hp
    · exact h.inside p hp
  · exact fun hret => htiles (h.tiles hret)
  · have hfailed : r.ret = -1 ↔ ∃ d ∈ r.calls, d.Fails := h.failed
    simp only [OsRun.prepend, hfailed, List.mem_cons, exists_eq_or_imp, hfails, false_or]
  · exact h.retries.cons hretry

theorem Fills.sourceRun (hcall : FillCall src call stops) (h : Fills call stops n off r)
    (hoff : off ≤ n) : SourceRun src n off r := by
  induction h with
  | done h =>
    refine ⟨.inl rfl, by simp, by simp [pieces], fun _ => ?_, by simp, retriesInterrupted_nil⟩
    exact Nat.le_antisymm hoff h
  | @stopped off a h hs =>
    constructor
    · exact .inr rfl
    · simp [hcall.source]
    · intro p hp
      rw [pieces_cons, List.mem_append, Option.mem_toList] at hp
      rcases hp with hp | hp
      · obtain ⟨hoff', rfl⟩ := hcall.piece off a p hp
        have hz := hcall.stops_count p.2 hs
        omega
      · simp [pieces] at hp
    · intro hret
      cases hret
    · simp [hcall.fails, hs]
    · exact retriesInterrupted_nil.cons fun hint => absurd hs (hcall.interrupted off a hint).2
  | @interrupted off r h hs hr ih =>
    have hnone : (call off (.error .eintr)).piece = none := by
      cases hp : (call off (.error .eintr)).piece with
      | none => rfl
      | some p => cases (hcall.piece _ _ p hp).2
    apply (ih hoff).prepend (hcall.source ..) (mt (hcall.fails ..).mp hs)
    · simp [hnone]
    · intro htiles
      rwa [pieces_cons, hnone]
    · intro hint
      obtain ⟨a, rest, hhead⟩ := hr.head h
      exact ⟨_, rest, hhead, hcall.retries off a hint⟩
  | @wrote off k r h hk hs hr ih =>
    apply (ih hk).prepend (hcall.source ..) (mt (hcall.fails ..).mp hs)
    · intro p hp
      rw [hcall.piece_count] at hp
      cases hp
      exact hk
    · intro htiles
      rw [pieces_cons, hcall.piece_count]
      exact ⟨rfl, htiles⟩
    · intro hint
      cases (hcall.interrupted _ _ hint).1

theorem fillCall_getrandom (n : ℕ) :
    FillCall .getrandom (fun off a => .getrandom off (n - off) a) fun a =>
      ∃ code, a = .error (.other code) := by
  constructor
  · exact fun _ _ => rfl
  · rintro off (e | k) p hp
    · cases hp
    · cases hp
      exact ⟨rfl, rfl⟩
  · exact fun _ _ => rfl
  · rintro k ⟨code, h⟩
    cases h
  · rintro off ((_ | code) | k) <;> simp [SysCall.Fails]
  · rintro off ((_ | code) | k) h
    · exact ⟨rfl, by simp⟩
    · cases h
    · cases h
  · exact fun _ _ _ => ⟨rfl, rfl⟩

theorem randomViaGetrandom_fills {script : List IoReply}
    (h : randomViaGetrandom n off script = some r) :
    Fills (fun off a => .getrandom off (n - off) a) (fun a => ∃ code, a = .error (.other code)) n
      off r := by
  induction script generalizing off r with
  | nil =>
    simp only [randomViaGetrandom] at h
    by_cases hlt : off < n
    · simp [hlt] at h
    · rw [if_neg hlt] at h
      cases h
      exact .done (by omega)
  | cons reply script ih =>
    have hfits := reply.fits (n - off)
    simp only [randomViaGetrandom] at h
    by_cases hlt : off < n
    · rw [if_pos hlt] at h
      generalize reply.answer (n - off) = a at h hfits
      match a, h, hfits with
      | .error .eintr, h, _ =>
        obtain ⟨r, hr, rfl⟩ := Option.map_eq_some_iff.mp h
        exact .interrupted hlt (by simp) (ih hr)
      | .error (.other code), h, _ =>
        cases h
        exact .stopped hlt ⟨code, rfl⟩
      | .count k, h, hfits =>
        obtain ⟨r, hr, rfl⟩ := Option.map_eq_some_iff.mp h
        have hk : k ≤ n - off := hfits
        exact .wrote hlt (by omega) (by simp) (ih hr)
    · rw [if_neg hlt] at h
      cases h
      exact .done (by omega)

def entropyCall (n off : ℕ) : IoAnswer → SysCall
  | .count k => .getentropy off k none
  | .error e => .getentropy off (if n - off > 256 then 256 else n - off) (some e)

theorem fillCall_getentropy (n : ℕ) :
    FillCall .getentropy (entropyCall n) fun a => ∃ e, a = .error e := by
  constructor
  · rintro off (e | k) <;> rfl
  · rintro off (e | k) p hp
    · cases hp
    · cases hp
      exact ⟨rfl, rfl⟩
  · exact fun _ _ => rfl
  · rintro k ⟨e, h⟩
    cases h
  · rintro off (e | k) <;> simp [entropyCall, SysCall.Fails]
  · rintro off (e | k) h <;> cases h
  · intro off b h
    cases h

theorem randomViaGetentropy_fills {script : List (Option Errno)}
    (h : randomViaGetentropy n off script = some r) :
    Fills (entropyCall n) (fun a => ∃ e, a = .error e) n off r := by
  induction script generalizing off r with
  | nil =>
    simp only [randomViaGetentropy] at h
    by_cases hlt : off < n
    · simp [hlt] at h
    · rw [if_neg hlt] at h
      cases h
      exact .done (by omega)
  | cons a script ih =>
    simp only [randomViaGetentropy] at h
    by_cases hlt : off < n
    · rw [if_pos hlt] at h
      cases a with
      | some e =>
        cases h
        exact @Fills.stopped (entropyCall n) _ n off (.error e) hlt ⟨e, rfl⟩
      | none =>
        obtain ⟨r, hr, rfl⟩ := Option.map_eq_some_iff.mp h
        refine @Fills.wrote (entropyCall n) _ n off _ _ hlt ?_ (by simp) (ih hr)
        split_ifs <;> omega
    · rw [if_neg hlt] at h
      cases h
      exact .done (by omega)

/-- The answers that end the loop over `/dev/urandom`; a count of zero is one. -/
def ReadStops (a : IoAnswer) : Prop := (∃ code, a = .error (.other code)) ∨ a = .count 0

theorem fillCall_read (fd n : ℕ) :
    FillCall .urandom (fun off a => .read fd off (n - off) a) ReadStops := by
  constructor
  · exact fun _ _ => rfl
  · rintro off (e | k) p hp
    · cases hp
    · cases hp
      exact ⟨rfl, rfl⟩
  · exact fun _ _ => rfl
  · rintro k (⟨code, h⟩ | h) <;> cases h
    rfl
  · rintro off ((_ | code) | _ | k) <;> simp [SysCall.Fails, ReadStops]
  · rintro off ((_ | code) | k) h
    · exact ⟨rfl, by simp [ReadStops]⟩
    · cases h
    · cases h
  · exact fun _ _ _ => ⟨rfl, rfl, rfl⟩

theorem readUrandom_fills {fd : ℕ} {script : List IoReply}
    (h : readUrandom fd n off script = some r) :
    Fills (fun off a => .read fd off (n - off) a) ReadStops n off r := by
  induction script generalizing off r with
  | nil =>
    simp only [readUrandom] at h
    by_cases hlt : off < n
    · simp [hlt] at h
    · rw [if_neg hlt] at h
      cases h
      exact .done (by omega)
  | cons reply script ih =>
    have hfits := reply.fits (n - off)
    simp only [readUrandom] at h
    by_cases hlt : off < n
    · rw [if_pos hlt] at h
      generalize reply.answer (n - off) = a at h hfits
      match a, h, hfits with
      | .error .eintr, h, _ =>
        obtain ⟨r, hr, rfl⟩ := Option.map_eq_some_iff.mp h
        exact .interrupted hlt (by simp [ReadStops]) (ih hr)
      | .error (.other code), h, _ =>
        cases h
        exact .stopped hlt (.inl ⟨code, rfl⟩)
      | .count k, h, hfits =>
        have hk : k ≤ n - off := hfits
        by_cases hz : k = 0
        · subst hz
          cases h
          exact .stopped hlt (.inr rfl)
        · simp only [if_neg hz] at h
          obtain ⟨r, hr, rfl⟩ := Option.map_eq_some_iff.mp h
          exact .wrote hlt (by omega) (by simp [ReadStops, hz]) (ih hr)
    · rw [if_neg hlt] at h
      cases h
      exact .done (by omega)

inductive Opens : Option ℕ × List SysCall → Prop
  | failed (code : ℕ) : Opens (none, [.openUrandom (.error (.other code))])
  | opened (fd : ℕ) : Opens (some fd, [.openUrandom (.ok fd)])
  | interrupted {o : Option ℕ × List SysCall} (h : Opens o) :
      Opens (o.1, .openUrandom (.error .eintr) :: o.2)

theorem openUrandom_opens {script : List (Except Errno ℕ)} {o : Option ℕ × List SysCall}
    (h : openUrandom script = some o) : Opens o := by
  induction script generalizing o with
  | nil => cases h
  | cons a script ih =>
    match a, h with
    | .error .eintr, h =>
      obtain ⟨o, ho, rfl⟩ := Option.map_eq_some_iff.mp h
      exact .interrupted (ih ho)
    | .error (.other code), h =>
      cases h
      exact .failed code
    | .ok fd, h =>
      cases h
      exact .opened fd

section Opens

variable {o : Option ℕ × List SysCall}

theorem Opens.calls (h : Opens o) : ∀ c ∈ o.2, ∃ a, c = .openUrandom a := by
  induction h with
  | failed => simp
  | opened => simp
  | interrupted _ ih =>
    intro c hc
    rcases List.mem_cons.mp hc with rfl | hc
    · exact ⟨_, rfl⟩
    · exact ih c hc

theorem Opens.descriptors (h : Opens o) : o.2.filterMap SysCall.opened = o.1.toList := by
  induction h with
  | failed => rfl
  | opened => rfl
  | interrupted _ ih => exact ih

theorem Opens.fails_iff (h : Opens o) : (∃ c ∈ o.2, c.Fails) ↔ o.1 = none := by
  induction h with
  | failed => simp [SysCall.Fails]
  | opened => simp [SysCall.Fails]
  | interrupted _ ih =>
    rw [← ih]
    simp [SysCall.Fails]

theorem Opens.retries (h : Opens o) : RetriesInterrupted o.2 := by
  induction h with
  | failed => exact retriesInterrupted_nil.cons fun hint => hint.elim
  | opened => exact retriesInterrupted_nil.cons fun hint => hint.elim
  | interrupted h ih =>
    apply ih.cons
    intro _
    cases h with
    | failed => exact ⟨_, _, rfl, trivial⟩
    | opened => exact ⟨_, _, rfl, trivial⟩
    | interrupted => exact ⟨_, _, rfl, trivial⟩

end Opens

theorem Fills.calls (h : Fills call stops n off r) : ∀ c ∈ r.calls, ∃ off a, c = call off a := by
  induction h with
  | done => simp
  | stopped => simp
  | interrupted _ _ _ ih =>
    intro c hc
    rcases List.mem_cons.mp hc with rfl | hc
    · exact ⟨_, _, rfl⟩
    · exact ih c hc
  | wrote _ _ _ _ ih =>
    intro c hc
    rcases List.mem_cons.mp hc with rfl | hc
    · exact ⟨_, _, rfl⟩
    · exact ih c hc

theorem SourceRun.around {before after : List SysCall} (h : SourceRun src n off r)
    (hquiet : ∀ c ∈ before ++ after, c.source = src ∧ c.piece = none ∧ ¬c.Fails)
    (hbefore : RetriesInterrupted before) (hafter : RetriesInterrupted after) :
    SourceRun src n off ⟨r.ret, before ++ r.calls ++ after⟩ := by
  have hb : pieces before = [] :=
    pieces_eq_nil fun c hc => (hquiet c (List.mem_append_left _ hc)).2.1
  have ha : pieces after = [] :=
    pieces_eq_nil fun c hc => (hquiet c (List.mem_append_right _ hc)).2.1
  have hpieces : pieces (before ++ r.calls ++ after) = pieces r.calls := by
    rw [pieces_append, pieces_append, hb, ha, List.nil_append, List.append_nil]
  constructor
  · exact h.ret
  · intro c hc
    rcases List.mem_append.mp hc with hc | hc
    · rcases List.mem_append.mp hc with hc | hc
      · exact (hquiet c (List.mem_append_left _ hc)).1
      · exact h.source c hc
    · exact (hquiet c (List.mem_append_right _ hc)).1
  · rw [hpieces]
    exact h.inside
  · rw [hpieces]
    exact h.tiles
  · rw [h.failed]
    constructor
    · rintro ⟨c, hc, hfails⟩
      exact ⟨c, by simp [hc], hfails⟩
    · rintro ⟨c, hc, hfails⟩
      rcases List.mem_append.mp hc with hc | hc
      · rcases List.mem_append.mp hc with hc | hc
        · exact absurd hfails (hquiet c (List.mem_append_left _ hc)).2.2
        · exact ⟨c, hc, hfails⟩
      · exact absurd hfails (hquiet c (List.mem_append_right _ hc)).2.2
  · exact (hbefore.append h.retries).append hafter

theorem randomViaUrandom_spec {s : OsScript} (h : randomViaUrandom n s = some r) :
    SourceRun .urandom n 0 r ∧ ClosesOnce r.calls := by
  obtain ⟨⟨fd, opens⟩, ho, hr⟩ := Option.bind_eq_some_iff.mp h
  have hopens := openUrandom_opens ho
  have hclosed : opens.filterMap SysCall.closed = [] := by
    apply List.filterMap_eq_nil_iff.mpr
    intro c hc
    obtain ⟨a, rfl⟩ := hopens.calls c hc
    rfl
  have hquiet : ∀ c ∈ opens, c.source = .urandom ∧ c.piece = none := by
    intro c hc
    obtain ⟨a, rfl⟩ := hopens.calls c hc
    exact ⟨rfl, rfl⟩
  cases fd with
  | none =>
    cases hr
    have hpieces : pieces opens = [] := pieces_eq_nil fun c hc => (hquiet c hc).2
    have hfails : ∃ c ∈ opens, c.Fails := hopens.fails_iff.mpr rfl
    refine ⟨⟨.inr rfl, fun c hc => (hquiet c hc).1, ?_, nofun, iff_of_true rfl hfails,
      hopens.retries⟩, ?_⟩
    · simp [hpieces]
    · exact .inl ⟨hopens.descriptors, hclosed⟩
  | some fd =>
    obtain ⟨reads, hreads, rfl⟩ := Option.map_eq_some_iff.mp hr
    have hfills := readUrandom_fills hreads
    have hnofail : ¬∃ c ∈ opens, c.Fails := fun hfails => nomatch hopens.fails_iff.mp hfails
    constructor
    · apply (hfills.sourceRun (fillCall_read fd n) n.zero_le).around _ hopens.retries
      · exact retriesInterrupted_nil.cons fun hint => hint.elim
      · intro c hc
        rcases List.mem_append.mp hc with hc | hc
        · exact ⟨(hquiet c hc).1, (hquiet c hc).2, fun hfails => hnofail ⟨c, hc, hfails⟩⟩
        · rw [List.mem_singleton.mp hc]
          exact ⟨rfl, rfl, id⟩
    · have hnone : ∀ c ∈ reads.calls, c.opened = none ∧ c.closed = none := by
        intro c hc
        obtain ⟨off, a, rfl⟩ := hfills.calls c hc
        exact ⟨rfl, rfl⟩
      refine .inr ⟨fd, opens ++ reads.calls, rfl, ?_, ?_, ?_⟩
      · rw [List.filterMap_append, hopens.descriptors,
          List.filterMap_eq_nil_iff.mpr fun c hc => (hnone c hc).1]
        rfl
      · rw [List.filterMap_append, hclosed,
          List.filterMap_eq_nil_iff.mpr fun c hc => (hnone c hc).2]
        rfl
      · intro fd' off len a hmem
        rcases List.mem_append.mp hmem with hc | hc
        · obtain ⟨b, hb⟩ := hopens.calls _ hc
          cases hb
        · obtain ⟨off, b, hb⟩ := hfills.calls _ hc
          cases hb
          rfl

end Chronoid
