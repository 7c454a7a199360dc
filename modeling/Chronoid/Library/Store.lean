import Mathlib.Data.Set.Lattice
import Mathlib.Logic.Function.Basic
import Mathlib.Order.Interval.Set.LinearOrder
import Mathlib.Tactic.Ring

/-! A memory written through a pointer. A program that writes the addresses of a
set, each with the value a specification gives there, is determined by the two:
in what order and how often it stores does not matter. -/

namespace Store

variable {β : Type*}

/-- Between `m₀` and `m` exactly the addresses of `S` were written, each with its
value in `spec`. -/
def Wrote (spec : ℕ → β) (S : Set ℕ) (m₀ m : ℕ → β) : Prop :=
  ∀ p, (p ∈ S → m p = spec p) ∧ (p ∉ S → m p = m₀ p)

variable {spec m₀ m m₁ m₂ : ℕ → β} {S T : Set ℕ}

theorem Wrote.refl (spec m : ℕ → β) : Wrote spec ∅ m m := fun p => by simp

theorem Wrote.trans (h : Wrote spec S m₀ m₁) (h' : Wrote spec T m₁ m₂) :
    Wrote spec (S ∪ T) m₀ m₂ := by
  intro p
  by_cases ht : p ∈ T
  · simp [ht, (h' p).1 ht]
  · rw [(h' p).2 ht]
    simpa [ht] using h p

theorem Wrote.of_eq (h : Wrote spec S m₀ m) (he : S = T) : Wrote spec T m₀ m := he ▸ h

theorem Wrote.unique (h : Wrote spec S m₀ m₁) (h' : Wrote spec S m₀ m₂) : m₁ = m₂ := by
  funext p
  by_cases hp : p ∈ S
  · rw [(h p).1 hp, (h' p).1 hp]
  · rw [(h p).2 hp, (h' p).2 hp]

theorem Wrote.update (m : ℕ → β) {a : ℕ} {x : β} (h : spec a = x) :
    Wrote spec {a} m (Function.update m a x) := by
  intro p
  by_cases hp : p = a
  · subst p
    simp [h]
  · simp [hp]

/-- Store the items of a list at consecutive addresses. -/
def writeList (m : ℕ → β) (a : ℕ) : List β → ℕ → β
  | [] => m
  | x :: xs => writeList (Function.update m a x) (a + 1) xs

theorem Wrote.writeList (m : ℕ → β) {a : ℕ} {xs : List β}
    (h : ∀ i (hi : i < xs.length), spec (a + i) = xs[i]) :
    Wrote spec (Set.Ico a (a + xs.length)) m (writeList m a xs) := by
  induction xs generalizing m a with
  | nil => exact (Wrote.refl spec m).of_eq (by simp)
  | cons x xs ih =>
    have h₀ : spec a = x := h 0 (by simp)
    have hrest : ∀ i (hi : i < xs.length), spec (a + 1 + i) = xs[i] := by
      intro i hi
      have hh := h (i + 1) (by simpa using hi)
      rw [Nat.add_assoc, Nat.add_comm 1 i]
      exact hh
    refine ((Wrote.update m h₀).trans (ih _ hrest)).of_eq ?_
    ext p
    simp only [Set.singleton_union, Set.mem_insert_iff, Set.mem_Ico, List.length_cons]
    omega

/-- A loop over indices whose passes each write their own addresses. -/
theorem Wrote.foldlM {ι : Type*} {f : (ℕ → β) → ι → Option (ℕ → β)} {R : ι → Set ℕ} {is : List ι}
    (h : ∀ i ∈ is, ∀ m, ∃ m', f m i = some m' ∧ Wrote spec (R i) m m') (m : ℕ → β) :
    ∃ m', is.foldlM f m = some m' ∧ Wrote spec (⋃ i ∈ is, R i) m m' := by
  induction is generalizing m with
  | nil => exact ⟨m, rfl, (Wrote.refl spec m).of_eq (by simp)⟩
  | cons i is ih =>
    obtain ⟨m₁, h₁, hw₁⟩ := h i (by simp) m
    obtain ⟨m₂, h₂, hw₂⟩ := ih (fun j hj => h j (List.mem_cons_of_mem _ hj)) m₁
    refine ⟨m₂, ?_, (hw₁.trans hw₂).of_eq ?_⟩
    · rw [List.foldlM_cons, h₁]
      exact h₂
    · ext p
      simp

/-- A loop over consecutive blocks of `w` cells, one a pass. -/
theorem Wrote.foldlM_range {f : (ℕ → β) → ℕ → Option (ℕ → β)} {a w n : ℕ}
    (h : ∀ i < n, ∀ m, ∃ m', f m i = some m' ∧
      Wrote spec (Set.Ico (a + i * w) (a + (i + 1) * w)) m m') (m : ℕ → β) :
    ∃ m', (List.range n).foldlM f m = some m' ∧ Wrote spec (Set.Ico a (a + n * w)) m m' := by
  induction n with
  | zero => exact ⟨m, rfl, (Wrote.refl spec m).of_eq (by simp)⟩
  | succ n ih =>
    obtain ⟨m₁, h₁, hw₁⟩ := ih fun i hi => h i (Nat.lt_succ_of_lt hi)
    obtain ⟨m₂, h₂, hw₂⟩ := h n (Nat.lt_succ_self n) m₁
    refine ⟨m₂, ?_, (hw₁.trans hw₂).of_eq ?_⟩
    · simp [List.range_succ, List.foldlM_append, h₁, h₂]
    · exact Set.Ico_union_Ico_eq_Ico (Nat.le_add_right _ _)
        (Nat.add_le_add_left (Nat.mul_le_mul_right _ (Nat.le_succ n)) _)

/-- The first `n` blocks of `w` cells from `a` hold the entries of a table. -/
def Laid (spec : ℕ → β) (a w n : ℕ) (table : ℕ → ℕ → β) : Prop :=
  ∀ i < n, ∀ c < w, spec (a + (i * w + c)) = table i c

def layOut (a w : ℕ) (table : ℕ → ℕ → β) : ℕ → β := fun p => table ((p - a) / w) ((p - a) % w)

theorem laid_layOut {w : ℕ} (a n : ℕ) (table : ℕ → ℕ → β) :
    Laid (layOut a w table) a w n table := by
  intro i _ c hc
  rw [layOut, Nat.add_sub_cancel_left, Nat.add_comm, Nat.add_mul_div_right _ _ (by omega),
    Nat.div_eq_of_lt hc, Nat.zero_add, Nat.add_mul_mod_self_right, Nat.mod_eq_of_lt hc]

theorem Laid.drop {a w n : ℕ} {table : ℕ → ℕ → β} (h : Laid spec a w n table) (k : ℕ) :
    Laid spec (a + k * w) w (n - k) fun i => table (k + i) := by
  intro i hi c hc
  rw [show a + k * w + (i * w + c) = a + ((k + i) * w + c) by ring]
  exact h (k + i) (by omega) c hc

end Store
