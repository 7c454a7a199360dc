import Mathlib.Data.List.Range
import Mathlib.Logic.Function.Iterate
import Mathlib.Tactic.Ring

/-! Reading a stream that is produced in blocks. A reader holds the part of the
last block it has not handed out yet; whatever the sizes of the pieces it is
asked for, together they are a prefix of the stream. -/

namespace BlockStream

/-- A state machine that produces one block of `size` items from each state. -/
structure Generator (σ β : Type*) where
  block : σ → List β
  advance : σ → σ
  size : ℕ
  size_pos : 0 < size
  length_block : ∀ s, (block s).length = size

variable {σ β : Type*} (g : Generator σ β)

def Generator.item (s : σ) (i : ℕ) : β :=
  (g.block (g.advance^[i / g.size] s)).get
    ⟨i % g.size, (Nat.mod_lt i g.size_pos).trans_eq (g.length_block _).symm⟩

/-- The `n` items of the stream from position `p` on. -/
def Generator.segment (s : σ) (p n : ℕ) : List β := (List.range' p n).map (g.item s)

@[simp] theorem length_segment (s : σ) (p n : ℕ) : (g.segment s p n).length = n := by
  simp [Generator.segment]

@[simp] theorem segment_zero (s : σ) (p : ℕ) : g.segment s p 0 = [] := rfl

theorem segment_append (s : σ) (p m n : ℕ) :
    g.segment s p m ++ g.segment s (p + m) n = g.segment s p (m + n) := by
  rw [Generator.segment, Generator.segment, ← List.map_append, List.range'_append_1,
    Generator.segment]

theorem getElem_segment (s : σ) (p n : ℕ) {i : ℕ} (h : i < (g.segment s p n).length) :
    (g.segment s p n)[i] = g.item s (p + i) := by
  simp [Generator.segment]

theorem segment_block (s : σ) (k : ℕ) :
    g.segment s (k * g.size) g.size = g.block (g.advance^[k] s) := by
  refine List.ext_getElem (by rw [length_segment, g.length_block]) fun i hi hi' => ?_
  rw [g.length_block] at hi'
  have hd : (k * g.size + i) / g.size = k := by
    rw [Nat.add_comm, Nat.add_mul_div_right _ _ g.size_pos, Nat.div_eq_of_lt hi', Nat.zero_add]
  have hm : (k * g.size + i) % g.size = i := by
    rw [Nat.add_comm, Nat.add_mul_mod_self_right, Nat.mod_eq_of_lt hi']
  rw [getElem_segment]
  simp only [Generator.item, List.get_eq_getElem, hd, hm]

/-- The items of the first `k` blocks. -/
def Generator.blocks (s : σ) (k : ℕ) : List β :=
  (List.range k).flatMap fun j => g.block (g.advance^[j] s)

/-- The last of `k` blocks, if there is one. -/
def Generator.lastBlock (s : σ) : ℕ → List β
  | 0 => []
  | k + 1 => g.block (g.advance^[k] s)

theorem blocks_eq_segment (s : σ) (k : ℕ) : g.blocks s k = g.segment s 0 (k * g.size) := by
  induction k with
  | zero => simp [Generator.blocks]
  | succ k ih =>
    have hsplit := segment_append g s 0 (k * g.size) g.size
    rw [Nat.zero_add, segment_block, ← ih] at hsplit
    rw [Nat.succ_mul, ← hsplit, Generator.blocks, List.range_succ, List.flatMap_append]
    simp [Generator.blocks]

/-- `p` items of the stream from `s₀` were handed out, `unread` is what is left of
the last block and `s` is the state that produces the next one. -/
structure Reading (s₀ : σ) (p : ℕ) (unread : List β) (s : σ) : Prop where
  unread_eq : unread = g.segment s₀ p unread.length
  length_le : unread.length ≤ g.size
  blocks : ∃ k, s = g.advance^[k] s₀ ∧ p + unread.length = k * g.size

variable {g} {s₀ s : σ} {p : ℕ} {unread : List β}

theorem Reading.start (s₀ : σ) : Reading g s₀ 0 [] s₀ := ⟨by simp, by simp, 0, rfl, by simp⟩

theorem Reading.refill (h : Reading g s₀ p [] s) : Reading g s₀ p (g.block s) (g.advance s) := by
  obtain ⟨k, hs, hk⟩ := h.blocks
  have hp : p = k * g.size := by simpa using hk
  refine ⟨?_, (g.length_block s).le, k + 1, ?_, ?_⟩
  · rw [g.length_block, hp, segment_block, hs]
  · rw [hs, Function.iterate_succ_apply']
  · rw [g.length_block, hp]
    ring

theorem Reading.take (h : Reading g s₀ p unread s) {c : ℕ} (hc : c ≤ unread.length) :
    unread.take c = g.segment s₀ p c := by
  have hsplit := segment_append g s₀ p c (unread.length - c)
  rw [Nat.add_sub_cancel' hc, ← h.unread_eq] at hsplit
  rw [← hsplit, List.take_left' (length_segment g s₀ p c)]

theorem Reading.drop (h : Reading g s₀ p unread s) {c : ℕ} (hc : c ≤ unread.length) :
    Reading g s₀ (p + c) (unread.drop c) s := by
  have hsplit := segment_append g s₀ p c (unread.length - c)
  rw [Nat.add_sub_cancel' hc, ← h.unread_eq] at hsplit
  obtain ⟨k, hs, hk⟩ := h.blocks
  have hle := h.length_le
  refine ⟨?_, by rw [List.length_drop]; omega, k, hs, by rw [List.length_drop]; omega⟩
  rw [List.length_drop]
  conv_lhs => rw [← hsplit]
  rw [List.drop_left' (length_segment g s₀ p c)]

/-- What is left over completes the blocks made so far, and is the end of the last of them. -/
theorem Reading.leftover (h : Reading g s₀ p unread s) :
    ∃ k, s = g.advance^[k] s₀ ∧ g.segment s₀ 0 p ++ unread = g.blocks s₀ k ∧
      unread = (g.lastBlock s₀ k).drop (g.size - unread.length) := by
  obtain ⟨k, hs, hk⟩ := h.blocks
  have hle := h.length_le
  have hjoin := segment_append g s₀ 0 p unread.length
  rw [Nat.zero_add, ← h.unread_eq, hk, ← blocks_eq_segment] at hjoin
  refine ⟨k, hs, hjoin, ?_⟩
  cases k with
  | zero =>
    have hz : unread.length = 0 := by omega
    rw [List.length_eq_zero_iff.mp hz, Generator.lastBlock, List.drop_nil]
  | succ k =>
    have hp : p = k * g.size + (g.size - unread.length) := by
      rw [Nat.succ_mul] at hk
      omega
    have hsplit := segment_append g s₀ (k * g.size) (g.size - unread.length) unread.length
    rw [Nat.sub_add_cancel hle, segment_block, ← hp, ← h.unread_eq] at hsplit
    rw [Generator.lastBlock, ← hsplit, List.drop_left' (length_segment g _ _ _)]

end BlockStream
