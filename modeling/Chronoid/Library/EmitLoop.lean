import Mathlib.Data.List.Forall2

/-! A loop over items that writes what each of them gives, until one of them fails. -/

namespace EmitLoop

variable {σ α β γ ε : Type*}

def run (step : σ → α → Except ε (List β × σ)) : σ → List α → List β × Option ε
  | _, [] => ([], none)
  | s, a :: as =>
    match step s a with
    | .error e => ([], some e)
    | .ok r => (r.1 ++ (run step r.2 as).1, (run step r.2 as).2)

/-- Every item is accepted as something, of which `out` is written, or is refused; `I` ties the
state to the items still to come. -/
structure Judges (step : σ → α → Except ε (List β × σ)) (I : σ → List α → Prop)
    (accepts : α → γ → Prop) (refuses : α → ε → Prop) (out : γ → List β) : Prop where
  accepted : ∀ s a as g, I s (a :: as) → accepts a g → ∃ s', step s a = .ok (out g, s') ∧ I s' as
  refused : ∀ s a as e, I s (a :: as) → refuses a e → step s a = .error e
  total : ∀ a, (∃ g, accepts a g) ∨ ∃ e, refuses a e

variable {step : σ → α → Except ε (List β × σ)} {I : σ → List α → Prop} {accepts : α → γ → Prop}
  {refuses : α → ε → Prop} {out : γ → List β} {s : σ} {as : List α}

theorem Judges.run_accepted (h : Judges step I accepts refuses out) (hs : I s as) {gs : List γ}
    (hgs : List.Forall₂ accepts as gs) : run step s as = ((gs.map out).flatten, none) := by
  induction hgs generalizing s with
  | nil => rfl
  | cons hg _ ih =>
    obtain ⟨s', hstep, hs'⟩ := h.accepted _ _ _ _ hs hg
    simp only [run, hstep, ih hs', List.map_cons, List.flatten_cons]

theorem Judges.run_refused (h : Judges step I accepts refuses out) {pre post : List α} {a : α}
    {gs : List γ} {e : ε}
    (hs : I s (pre ++ a :: post)) (hgs : List.Forall₂ accepts pre gs) (he : refuses a e) :
    run step s (pre ++ a :: post) = ((gs.map out).flatten, some e) := by
  induction hgs generalizing s with
  | nil => simp only [List.nil_append, run, h.refused _ _ _ _ hs he, List.map_nil, List.flatten_nil]
  | cons hg _ ih =>
    obtain ⟨s', hstep, hs'⟩ := h.accepted _ _ _ _ hs hg
    simp only [List.cons_append, run, hstep, ih hs', List.map_cons, List.flatten_cons]

/-- All items are accepted, or all up to the first that is refused. -/
theorem Judges.divides (h : Judges step I accepts refuses out) (as : List α) :
    (∃ gs, List.Forall₂ accepts as gs) ∨
      ∃ pre a post gs e, as = pre ++ a :: post ∧ List.Forall₂ accepts pre gs ∧ refuses a e := by
  induction as with
  | nil => exact .inl ⟨[], .nil⟩
  | cons a as ih =>
    rcases h.total a with ⟨g, hg⟩ | ⟨e, he⟩
    · rcases ih with ⟨gs, hgs⟩ | ⟨pre, b, post, gs, e, rfl, hgs, he⟩
      · exact .inl ⟨g :: gs, .cons hg hgs⟩
      · exact .inr ⟨a :: pre, b, post, g :: gs, e, rfl, .cons hg hgs, he⟩
    · exact .inr ⟨[], a, as, [], e, rfl, .nil, he⟩

theorem Judges.run_eq_none (h : Judges step I accepts refuses out) (hs : I s as)
    {written : List β} : run step s as = (written, none) ↔
      ∃ gs, List.Forall₂ accepts as gs ∧ written = (gs.map out).flatten := by
  constructor
  · intro hrun
    rcases h.divides as with ⟨gs, hgs⟩ | ⟨pre, a, post, gs, e, rfl, hgs, he⟩
    · exact ⟨gs, hgs, (Prod.mk.inj (hrun.symm.trans (h.run_accepted hs hgs))).1⟩
    · exact nomatch (Prod.mk.inj (hrun.symm.trans (h.run_refused hs hgs he))).2
  · rintro ⟨gs, hgs, rfl⟩
    exact h.run_accepted hs hgs

theorem Judges.run_eq_some (h : Judges step I accepts refuses out) (hs : I s as) {written : List β}
    {e : ε} : run step s as = (written, some e) ↔ ∃ pre a post gs, as = pre ++ a :: post ∧
      List.Forall₂ accepts pre gs ∧ refuses a e ∧ written = (gs.map out).flatten := by
  constructor
  · intro hrun
    rcases h.divides as with ⟨gs, hgs⟩ | ⟨pre, a, post, gs, e', rfl, hgs, he⟩
    · exact nomatch (Prod.mk.inj (hrun.symm.trans (h.run_accepted hs hgs))).2
    · obtain ⟨hwritten, he'⟩ := Prod.mk.inj (hrun.symm.trans (h.run_refused hs hgs he))
      obtain rfl := Option.some_inj.mp he'
      exact ⟨pre, a, post, gs, rfl, hgs, he, hwritten⟩
  · rintro ⟨pre, a, post, gs, rfl, hgs, he, rfl⟩
    exact h.run_refused hs hgs he

theorem forall₂_iff_forall_mem {r : α → γ → Prop} :
    (∃ gs, List.Forall₂ r as gs) ↔ ∀ a ∈ as, ∃ g, r a g := by
  induction as with
  | nil => simp
  | cons a as ih =>
    rw [List.forall_mem_cons, ← ih]
    constructor
    · rintro ⟨_, _ | ⟨hg, hgs⟩⟩
      exact ⟨⟨_, hg⟩, _, hgs⟩
    · rintro ⟨⟨g, hg⟩, gs, hgs⟩
      exact ⟨g :: gs, .cons hg hgs⟩

/-- The loop gets through just when every item is accepted. -/
theorem Judges.run_through (h : Judges step I accepts refuses out) (hs : I s as) :
    (run step s as).2 = none ↔ ∀ a ∈ as, ∃ g, accepts a g := by
  rw [← forall₂_iff_forall_mem]
  constructor
  · intro hrun
    obtain ⟨gs, hgs, -⟩ := (h.run_eq_none hs).mp (Prod.ext rfl hrun)
    exact ⟨gs, hgs⟩
  · rintro ⟨gs, hgs⟩
    rw [h.run_accepted hs hgs]

end EmitLoop
