import Mathlib.Data.List.ReduceOption
import Mathlib.Order.Basic
import Mathlib.Tactic.Basic

/-! Runs of a deterministic machine that reads one input and gives one output a
step. -/

namespace Machine

variable {σ ι ο : Type*} (step : σ → ι → σ × ο)

def run : σ → List ι → σ × List ο
  | s, [] => (s, [])
  | s, i :: is =>
    let r := step s i
    let rest := run r.1 is
    (rest.1, r.2 :: rest.2)

@[simp] theorem run_nil (s : σ) : run step s [] = (s, []) := rfl

theorem run_append (s : σ) (is js : List ι) :
    run step s (is ++ js) =
      ((run step (run step s is).1 js).1,
        (run step s is).2 ++ (run step (run step s is).1 js).2) := by
  induction is generalizing s with
  | nil => rfl
  | cons i is ih => simp [run, ih]

theorem run_concat (s : σ) (is : List ι) (i : ι) :
    run step s (is ++ [i]) =
      ((step (run step s is).1 i).1, (run step s is).2 ++ [(step (run step s is).1 i).2]) := by
  rw [run_append]
  rfl

variable {step}

theorem run_invariant {I : σ → Prop} (hstep : ∀ s i, I s → I (step s i).1) {s : σ} (hs : I s)
    (is : List ι) : I (run step s is).1 := by
  induction is generalizing s with
  | nil => exact hs
  | cons i is ih => exact ih (hstep s i hs)

/-- Every input of the run meets `P` at the state it finds. -/
def Along (step : σ → ι → σ × ο) (P : σ → ι → Prop) : σ → List ι → Prop
  | _, [] => True
  | s, i :: is => P s i ∧ Along step P (step s i).1 is

instance Along.decidable {P : σ → ι → Prop} [∀ s i, Decidable (P s i)] :
    (s : σ) → (is : List ι) → Decidable (Along step P s is)
  | _, [] => inferInstanceAs (Decidable True)
  | s, i :: is =>
    have : Decidable (Along step P (step s i).1 is) := Along.decidable (step s i).1 is
    inferInstanceAs (Decidable (P s i ∧ Along step P (step s i).1 is))

theorem Along.invariant {P : σ → ι → Prop} {I : σ → Prop}
    (hstep : ∀ s i, I s → P s i → I (step s i).1) {s : σ} (hs : I s) {is : List ι}
    (h : Along step P s is) : I (run step s is).1 := by
  induction is generalizing s with
  | nil => exact hs
  | cons i is ih => exact ih (hstep s i hs h.1) h.2

/-- An invariant kept by the inputs that meet `P` makes a further `Q` of every step hold
along the run. -/
theorem Along.strengthen {P Q : σ → ι → Prop} {I : σ → Prop}
    (hstep : ∀ s i, I s → P s i → I (step s i).1) (hQ : ∀ s i, I s → P s i → Q s i)
    {s : σ} (hs : I s) {is : List ι} (h : Along step P s is) : Along step Q s is := by
  induction is generalizing s with
  | nil => trivial
  | cons i is ih => exact ⟨hQ s i hs h.1, ih (hstep s i hs h.1) h.2⟩

/-- Where the inputs that meet `P` keep an invariant that implies `G`, and the others break
`G` at once, `P` along the run is exactly what `G` throughout it takes. -/
theorem throughout_iff_along {P : σ → ι → Prop} {I G : σ → Prop}
    (hstep : ∀ s i, I s → P s i → I (step s i).1) (hG : ∀ s, I s → G s)
    (hbreak : ∀ s i, I s → ¬P s i → ¬G (step s i).1) {s : σ} (hs : I s) (is : List ι) :
    (∀ pre, pre <+: is → G (run step s pre).1) ↔ Along step P s is := by
  induction is generalizing s with
  | nil => exact ⟨fun _ => trivial, fun _ pre hpre => List.prefix_nil.mp hpre ▸ hG s hs⟩
  | cons i is ih =>
    constructor
    · intro h
      have hi : P s i := by
        by_contra hi
        exact hbreak s i hs hi (h [i] (by simp))
      refine ⟨hi, (ih (hstep s i hs hi)).mp fun pre hpre => ?_⟩
      exact h (i :: pre) (List.cons_prefix_cons.mpr ⟨rfl, hpre⟩)
    · rintro ⟨hi, h⟩ pre hpre
      cases pre with
      | nil => exact hG s hs
      | cons j pre =>
        obtain ⟨rfl, htail⟩ := List.cons_prefix_cons.mp hpre
        exact (ih (hstep s j hs hi)).mpr h pre htail

/-- A run of one machine seen as a run of another, step by step. -/
theorem run_map {σ' ο' : Type*} {step' : σ' → ι → σ' × ο'} {f : σ → σ'} {g : ο → ο'}
    (h : ∀ s i, step' (f s) i = (f (step s i).1, g (step s i).2)) (s : σ) (is : List ι) :
    run step' (f s) is = (f (run step s is).1, (run step s is).2.map g) := by
  induction is generalizing s with
  | nil => rfl
  | cons i is ih => simp only [run, h, ih, List.map_cons]

/-- Two runs on inputs related one by one stay related when every pair of steps keeps them so. -/
theorem run_related {σ' ι' ο' : Type*} {step' : σ' → ι' → σ' × ο'} {R : σ → σ' → Prop}
    {Q : ι → ι' → Prop} (h : ∀ s s' i i', R s s' → Q i i' → R (step s i).1 (step' s' i').1)
    {s : σ} {s' : σ'} (hs : R s s') {is : List ι} {is' : List ι'} (hi : List.Forall₂ Q is is') :
    R (run step s is).1 (run step' s' is').1 := by
  induction hi generalizing s s' with
  | nil => exact hs
  | cons hq _ ih => exact ih (h _ _ _ _ hs hq)

section Emitted

variable {α : Type*} {step : σ → ι → σ × Option α}

/-- What a machine that emits on some steps only has emitted. -/
def emitted (step : σ → ι → σ × Option α) (s : σ) (is : List ι) : List α :=
  (run step s is).2.reduceOption

@[simp] theorem emitted_nil (s : σ) : emitted step s [] = [] := rfl

theorem emitted_cons (s : σ) (i : ι) (is : List ι) :
    emitted step s (i :: is) = (step s i).2.toList ++ emitted step (step s i).1 is := by
  cases h : (step s i).2 with
  | none => simp [emitted, run, h, List.reduceOption_cons_of_none]
  | some a => simp [emitted, run, h, List.reduceOption_cons_of_some]

theorem emitted_append (s : σ) (is js : List ι) :
    emitted step s (is ++ js) = emitted step s is ++ emitted step (run step s is).1 js := by
  rw [emitted, run_append, List.reduceOption_append]
  rfl

theorem emitted_concat (s : σ) (is : List ι) (i : ι) :
    emitted step s (is ++ [i]) = emitted step s is ++ (step (run step s is).1 i).2.toList := by
  rw [emitted_append, emitted_cons, emitted_nil, List.append_nil]

theorem emitted_map {σ' β : Type*} {step' : σ' → ι → σ' × Option β} {f : σ → σ'} {g : α → β}
    (h : ∀ s i, step' (f s) i = (f (step s i).1, (step s i).2.map g)) (s : σ) (is : List ι) :
    emitted step' (f s) is = (emitted step s is).map g := by
  rw [emitted, run_map h, List.reduceOption_map, emitted]

/-- The step that made the emission at an index divides the run, and its emissions, there. -/
theorem emitted_split {s : σ} {is : List ι} {n : ℕ} {a : α} (h : (emitted step s is)[n]? = some a) :
    ∃ pre i post, is = pre ++ i :: post ∧ (step (run step s pre).1 i).2 = some a ∧
      (emitted step s pre).length = n ∧ emitted step s is =
        emitted step s pre ++ a :: emitted step (step (run step s pre).1 i).1 post := by
  induction is generalizing s n with
  | nil => simp at h
  | cons i is ih =>
    have hcons : emitted step s (i :: is) = (step s i).2.toList ++ emitted step (step s i).1 is :=
      emitted_cons s i is
    cases ho : (step s i).2 with
    | none =>
      simp only [ho, Option.toList_none, List.nil_append] at hcons
      rw [hcons] at h
      obtain ⟨pre, j, post, rfl, hj, hlen, hsplit⟩ := ih h
      refine ⟨i :: pre, j, post, rfl, hj, ?_, ?_⟩
      · rw [emitted_cons, ho]
        exact hlen
      · rw [hcons, hsplit, emitted_cons, ho]
        rfl
    | some b =>
      simp only [ho, Option.toList_some, List.singleton_append] at hcons
      rw [hcons] at h
      cases n with
      | zero =>
        obtain rfl : b = a := by simpa using h
        exact ⟨[], i, is, rfl, ho, rfl, hcons⟩
      | succ n =>
        obtain ⟨pre, j, post, rfl, hj, hlen, hsplit⟩ := ih (by simpa using h)
        refine ⟨i :: pre, j, post, rfl, hj, ?_, ?_⟩
        · rw [emitted_cons, ho]
          simpa using hlen
        · rw [hcons, hsplit, emitted_cons, ho]
          rfl

theorem emitted_forall {I : σ → Prop} {P : α → Prop}
    (hstep : ∀ s i, I s → I (step s i).1 ∧ ∀ a, (step s i).2 = some a → P a)
    {s : σ} (hs : I s) (is : List ι) : ∀ a ∈ emitted step s is, P a := by
  intro a ha
  obtain ⟨n, hn⟩ := List.getElem?_of_mem ha
  obtain ⟨pre, i, post, -, ho, -⟩ := emitted_split hn
  exact (hstep _ i (run_invariant (fun s i hs => (hstep s i hs).1) hs pre)).2 a ho

/-- What is emitted stays at or below the mark the run ends with. -/
theorem emitted_le {κ : Type*} [Preorder κ] {I : σ → Prop} (mark : σ → κ) {key : α → κ}
    (hstep : ∀ s i, I s → I (step s i).1 ∧ mark s ≤ mark (step s i).1 ∧
      ∀ a, (step s i).2 = some a → key a ≤ mark (step s i).1)
    {s : σ} (hs : I s) (is : List ι) :
    mark s ≤ mark (run step s is).1 ∧ ∀ a ∈ emitted step s is, key a ≤ mark (run step s is).1 := by
  induction is generalizing s with
  | nil => simp
  | cons i is ih =>
    obtain ⟨hi, hmark, hout⟩ := hstep s i hs
    obtain ⟨hle, hrest⟩ := ih hi
    refine ⟨hmark.trans hle, fun a ha => ?_⟩
    rw [emitted_cons, List.mem_append] at ha
    rcases ha with ha | ha
    · exact (hout a (Option.mem_toList.mp ha)).trans hle
    · exact hrest a ha

end Emitted

section Enumeration

variable {α : Type*} {step : σ → ι → σ × Option α} {I : σ → Prop} {pos : σ → ℕ} {asks : ι → Bool}
  {table : ℕ → α} {n : ℕ}

/-- The machine emits the entries of a table in order, one at every input that asks for one,
until `n` of them are out. -/
structure Enumerates (step : σ → ι → σ × Option α) (I : σ → Prop) (pos : σ → ℕ) (asks : ι → Bool)
    (table : ℕ → α) (n : ℕ) : Prop where
  keeps : ∀ s i, I s → I (step s i).1
  emits : ∀ s i, I s → asks i → pos s < n →
    (step s i).2 = some (table (pos s)) ∧ pos (step s i).1 = pos s + 1
  silent : ∀ s i, I s → ¬(asks i ∧ pos s < n) → (step s i).2 = none ∧ pos (step s i).1 = pos s

theorem Enumerates.pos_run (h : Enumerates step I pos asks table n) {s : σ} (hs : I s)
    (hn : pos s ≤ n) (is : List ι) : pos (run step s is).1 = min (pos s + is.countP asks) n := by
  induction is generalizing s with
  | nil => exact (Nat.min_eq_left hn).symm
  | cons i is ih =>
    have hrun (hle : pos (step s i).1 ≤ n) :
        pos (run step s (i :: is)).1 = min (pos (step s i).1 + is.countP asks) n :=
          ih (h.keeps s i hs) hle
    by_cases ha : asks i = true
    · rw [List.countP_cons_of_pos ha]
      by_cases hlt : pos s < n
      · have hpos := (h.emits s i hs ha hlt).2
        rw [hrun (by omega)]
        omega
      · have hpos := (h.silent s i hs fun hask => hlt hask.2).2
        rw [hrun (by omega)]
        omega
    · have hpos := (h.silent s i hs fun hask => ha hask.1).2
      rw [List.countP_cons_of_neg ha, hrun (by omega)]
      omega

theorem Enumerates.emitted_eq (h : Enumerates step I pos asks table n) {s : σ} (hs : I s)
    (hn : pos s ≤ n) (is : List ι) :
    emitted step s is = (List.range' (pos s) (pos (run step s is).1 - pos s)).map table := by
  induction is generalizing s with
  | nil => simp
  | cons i is ih =>
    have hi := h.keeps s i hs
    rw [emitted_cons, run]
    by_cases hask : asks i = true ∧ pos s < n
    · obtain ⟨hout, hpos⟩ := h.emits s i hs hask.1 hask.2
      have hle : pos s + 1 ≤ pos (run step (step s i).1 is).1 := by
        rw [h.pos_run hi (by omega)]
        omega
      rw [ih hi (by omega), hout, hpos, show pos (run step (step s i).1 is).1 - pos s =
        pos (run step (step s i).1 is).1 - (pos s + 1) + 1 by omega, List.range'_succ]
      rfl
    · obtain ⟨hout, hpos⟩ := h.silent s i hs hask
      rw [ih hi (by omega), hout, hpos]
      rfl

end Enumeration

/-- A machine that emits on some steps only. When each emission is above the mark
left by the state before it, and the mark never drops below an emission, a whole
run emits in increasing order. -/
theorem emitted_pairwise_lt {κ α : Type*} [Preorder κ] {step : σ → ι → σ × Option α}
    {I : σ → Prop} (mark : σ → κ) {key : α → κ}
    (hstep : ∀ s i, I s → I (step s i).1 ∧ mark s ≤ mark (step s i).1 ∧
      ∀ a, (step s i).2 = some a → mark s < key a ∧ key a ≤ mark (step s i).1)
    {s : σ} (hs : I s) (is : List ι) :
    (∀ a ∈ (run step s is).2.reduceOption, mark s < key a) ∧
      (run step s is).2.reduceOption.Pairwise (fun a b => key a < key b) := by
  induction is generalizing s with
  | nil => simp
  | cons i is ih =>
    obtain ⟨hi, hmark, hout⟩ := hstep s i hs
    obtain ⟨hlow, hpair⟩ := ih hi
    cases ho : (step s i).2 with
    | none =>
      simp only [run, ho, List.reduceOption_cons_of_none]
      exact ⟨fun a ha => hmark.trans_lt (hlow a ha), hpair⟩
    | some a =>
      obtain ⟨ha, hle⟩ := hout a ho
      simp only [run, ho, List.reduceOption_cons_of_some, List.mem_cons, List.pairwise_cons]
      refine ⟨?_, fun b hb => hle.trans_lt (hlow b hb), hpair⟩
      rintro b (rfl | hb)
      · exact ha
      · exact hmark.trans_lt (hlow b hb)

end Machine
