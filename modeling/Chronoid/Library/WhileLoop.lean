import Mathlib.Data.List.Basic

/-! A loop with a guard, whose body may leave it before the guard fails. -/

namespace WhileLoop

variable {σ ε : Type*}

/-- A finished run, with the states in which the body was entered. -/
inductive Runs (guard : σ → Prop) (body : σ → Except ε σ) : σ → List σ → Except ε σ → Prop
  | exits {s : σ} (h : ¬guard s) : Runs guard body s [] (.ok s)
  | breaks {s : σ} {e : ε} (h : guard s) (hb : body s = .error e) : Runs guard body s [s] (.error e)
  | passes {s t : σ} {ss : List σ} {r : Except ε σ} (h : guard s) (hb : body s = .ok t)
      (hr : Runs guard body t ss r) : Runs guard body s (s :: ss) r

/-- `I k` holds where at most `k` passes are left. -/
def Counts (guard : σ → Prop) (body : σ → Except ε σ) (I : ℕ → σ → Prop) : Prop :=
  ∀ k s, I k s → guard s → ∃ j, k = j + 1 ∧ ∀ t, body s = .ok t → I j t

variable {guard : σ → Prop} {body : σ → Except ε σ} {I : ℕ → σ → Prop}

theorem Counts.exists_runs (hI : Counts guard body I) {k : ℕ} {s : σ} (hs : I k s) :
    ∃ ss r, Runs guard body s ss r := by
  induction k generalizing s with
  | zero =>
    refine ⟨[], .ok s, .exits fun hg => ?_⟩
    obtain ⟨j, hj, -⟩ := hI 0 s hs hg
    omega
  | succ k ih =>
    by_cases hg : guard s
    · obtain ⟨j, hj, hnext⟩ := hI (k + 1) s hs hg
      obtain rfl := Nat.succ.inj hj
      cases hb : body s with
      | error e => exact ⟨[s], .error e, .breaks hg hb⟩
      | ok t =>
        obtain ⟨ss, r, hr⟩ := ih (hnext t hb)
        exact ⟨s :: ss, r, .passes hg hb hr⟩
    · exact ⟨[], .ok s, .exits hg⟩

theorem Runs.length_le {s : σ} {ss : List σ} {r : Except ε σ} (h : Runs guard body s ss r)
    (hI : Counts guard body I) {k : ℕ} (hs : I k s) : ss.length ≤ k := by
  induction h generalizing k with
  | exits => exact Nat.zero_le k
  | breaks hg =>
    obtain ⟨j, rfl, -⟩ := hI k _ hs hg
    exact Nat.succ_le_succ (Nat.zero_le j)
  | passes hg hb _ ih =>
    obtain ⟨j, rfl, hnext⟩ := hI k _ hs hg
    exact Nat.succ_le_succ (ih (hnext _ hb))

theorem Runs.entered {s : σ} {ss : List σ} {r : Except ε σ} (h : Runs guard body s ss r)
    (hI : Counts guard body I) {k : ℕ} (hs : I k s) : ∀ t ∈ ss, ∃ j, I (j + 1) t := by
  induction h generalizing k with
  | exits => simp
  | breaks hg =>
    obtain ⟨j, rfl, -⟩ := hI k _ hs hg
    intro t ht
    rw [List.mem_singleton.mp ht]
    exact ⟨j, hs⟩
  | passes hg hb _ ih =>
    obtain ⟨j, rfl, hnext⟩ := hI k _ hs hg
    intro t ht
    rcases List.mem_cons.mp ht with rfl | ht
    · exact ⟨j, hs⟩
    · exact ih (hnext _ hb) t ht

end WhileLoop
