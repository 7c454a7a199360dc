import Mathlib.Data.List.Basic
import Mathlib.Data.List.Range

/-! Answers on an endless tape, of which a computation that halts needs a prefix only. -/

namespace Tape

variable {α β γ : Type*}

def upTo (t : ℕ → α) (m : ℕ) : List α := (List.range m).map t

theorem upTo_succ (t : ℕ → α) (m : ℕ) : upTo t (m + 1) = upTo t m ++ [t m] := by
  rw [upTo, upTo, List.range_succ, List.map_append, List.map_singleton]

@[simp] theorem length_upTo (t : ℕ → α) (m : ℕ) : (upTo t m).length = m := by
  rw [upTo, List.length_map, List.length_range]

theorem upTo_append (t : ℕ → α) {n m : ℕ} (h : n ≤ m) : ∃ more, upTo t m = upTo t n ++ more := by
  induction m, h using Nat.le_induction with
  | base => exact ⟨[], (List.append_nil _).symm⟩
  | succ m _ ih =>
    obtain ⟨more, hmore⟩ := ih
    exact ⟨more ++ [t m], by rw [upTo_succ, hmore, List.append_assoc]⟩

/-- What comes up again and again comes up any number of times in some prefix. -/
theorem exists_sublist {t : ℕ → α} {P : α → Prop} (h : ∀ m, ∃ k, m ≤ k ∧ P (t k)) (n : ℕ) :
    ∃ m xs, List.Sublist xs (upTo t m) ∧ xs.length = n ∧ ∀ x ∈ xs, P x := by
  induction n with
  | zero => exact ⟨0, [], List.nil_sublist _, rfl, by simp⟩
  | succ n ih =>
    obtain ⟨m, xs, hsub, hlen, hP⟩ := ih
    obtain ⟨k, hk, ht⟩ := h m
    obtain ⟨more, hmore⟩ := upTo_append t hk
    refine ⟨k + 1, xs ++ [t k], ?_, by simp [hlen], ?_⟩
    · rw [upTo_succ, hmore]
      exact (hsub.trans (List.sublist_append_left _ _)).append (List.Sublist.refl _)
    · intro x hx
      rcases List.mem_append.mp hx with hx | hx
      · exact hP x hx
      · rwa [List.mem_singleton.mp hx]

/-- From some length on, every prefix gives the same result. -/
def Settles (f : ℕ → Option β) : Prop := ∃ m r, ∀ n, m ≤ n → f n = some r

/-- A computation that reads no further once it has its result. -/
theorem settles_of_prefix {f : List α → Option β} {t : ℕ → α} {m : ℕ} {r : β}
    (h : f (upTo t m) = some r) (happend : ∀ xs ys r, f xs = some r → f (xs ++ ys) = some r) :
    Settles fun n => f (upTo t n) := by
  refine ⟨m, r, fun n hn => ?_⟩
  obtain ⟨more, hmore⟩ := upTo_append t hn
  simp only [hmore]
  exact happend _ more r h

theorem Settles.bind {f : ℕ → Option β} {g : ℕ → β → Option γ} (hf : Settles f)
    (hg : ∀ r, Settles (g · r)) : Settles fun n => (f n).bind (g n) := by
  obtain ⟨m, r, hr⟩ := hf
  obtain ⟨m', r', hr'⟩ := hg r
  refine ⟨max m m', r', fun n hn => ?_⟩
  have hm := hr n (le_trans (le_max_left m m') hn)
  have hm' := hr' n (le_trans (le_max_right m m') hn)
  simp only [hm, Option.bind_some, hm']

theorem Settles.map {f : ℕ → Option β} (hf : Settles f) (g : β → γ) :
    Settles fun n => (f n).map g := by
  obtain ⟨m, r, hr⟩ := hf
  exact ⟨m, g r, fun n hn => by simp only [hr n hn, Option.map_some]⟩

theorem settles_some (r : β) : Settles fun _ => some r := ⟨0, r, fun _ _ => rfl⟩

end Tape
