import Mathlib.Data.List.Basic
import Mathlib.Order.Nat
import Mathlib.Tactic.Common

/-! An atomic object that many threads store to and load from. Its stores stand in one order, and a
thread never goes back in that order; a load promises no more than that. -/

namespace Coherent

/-- The stores so far, each with its place in the order, and the place that each thread has come
to. -/
structure Cell (ι α : Type*) where
  stored : List (ℕ × α)
  seen : ι → ℕ

variable {ι α : Type*}

def Cell.new (a : α) : Cell ι α := ⟨[(0, a)], fun _ => 0⟩

structure Cell.CanLoad (c : Cell ι α) (i : ι) (p : ℕ) (a : α) : Prop where
  stored : (p, a) ∈ c.stored
  seen : c.seen i ≤ p

structure Cell.CanStore (c : Cell ι α) (i : ι) (p : ℕ) : Prop where
  fresh : ∀ a, (p, a) ∉ c.stored
  seen : c.seen i < p

/-- Every thread has come to a store; the places after the first hold values that `P` allows. -/
structure Cell.Sound (P : α → Prop) (c : Cell ι α) : Prop where
  seen : ∀ i, ∃ a, (c.seen i, a) ∈ c.stored
  allowed : ∀ p a, (p, a) ∈ c.stored → 0 < p → P a

variable {P Q : α → Prop} {c : Cell ι α} {i : ι} {p : ℕ} {a : α}

theorem sound_new : (Cell.new a : Cell ι α).Sound P where
  seen _ := ⟨a, List.mem_singleton_self _⟩
  allowed p b hb hp := by
    obtain ⟨rfl, -⟩ := Prod.mk.inj (List.mem_singleton.mp hb)
    exact absurd hp (lt_irrefl 0)

theorem Cell.Sound.imp (h : c.Sound P) (himp : ∀ a, P a → Q a) : c.Sound Q :=
  ⟨h.seen, fun p a ha hp => himp a (h.allowed p a ha hp)⟩

/-- A thread that has seen any store but the first loads an allowed value. -/
theorem Cell.CanLoad.allowed (h : c.CanLoad i p a) (hc : c.Sound P) (hseen : 0 < c.seen i) : P a :=
  hc.allowed p a h.stored (hseen.trans_le h.seen)

theorem Cell.Sound.exists_canLoad (h : c.Sound P) (i : ι) : ∃ p a, c.CanLoad i p a :=
  have ⟨a, ha⟩ := h.seen i
  ⟨c.seen i, a, ha, le_rfl⟩

theorem exists_canStore (c : Cell ι α) (i : ι) : ∃ p, c.CanStore i p := by
  obtain ⟨n, hn⟩ : ∃ n, ∀ q b, (q, b) ∈ c.stored → q < n := by
    induction c.stored with
    | nil => exact ⟨0, by simp⟩
    | cons qb stored ih =>
      obtain ⟨n, hn⟩ := ih
      refine ⟨max n (qb.1 + 1), fun q b hb => ?_⟩
      rcases List.mem_cons.mp hb with rfl | hb
      · omega
      · have hq := hn q b hb
        omega
  refine ⟨max n (c.seen i + 1), fun b hb => ?_, by omega⟩
  have hmax := hn _ b hb
  omega

variable [DecidableEq ι]

def Cell.load (c : Cell ι α) (i : ι) (p : ℕ) : Cell ι α :=
  { c with seen := Function.update c.seen i p }

def Cell.store (c : Cell ι α) (i : ι) (p : ℕ) (a : α) : Cell ι α :=
  ⟨(p, a) :: c.stored, Function.update c.seen i p⟩

@[simp] theorem Cell.load_stored : (c.load i p).stored = c.stored := rfl

@[simp] theorem Cell.load_seen : (c.load i p).seen = Function.update c.seen i p := rfl

@[simp] theorem Cell.store_seen : (c.store i p a).seen = Function.update c.seen i p := rfl

theorem Cell.Sound.load (h : c.Sound P) (hload : c.CanLoad i p a) : (c.load i p).Sound P where
  seen j := by
    rcases eq_or_ne j i with rfl | hj
    · exact ⟨a, by simpa using hload.stored⟩
    · simpa [Function.update_of_ne hj] using h.seen j
  allowed := h.allowed

theorem Cell.Sound.store (h : c.Sound P) (ha : P a) : (c.store i p a).Sound P where
  seen j := by
    rcases eq_or_ne j i with rfl | hj
    · exact ⟨a, by simp [Cell.store]⟩
    · obtain ⟨b, hb⟩ := h.seen j
      exact ⟨b, by simp [Cell.store, Function.update_of_ne hj, hb]⟩
  allowed q b hb hq := by
    rcases List.mem_cons.mp hb with hnew | hold
    · obtain ⟨-, rfl⟩ := Prod.mk.inj hnew
      exact ha
    · exact h.allowed q b hold hq

end Coherent
