import Mathlib.Data.List.Basic

/-! Records written one after the other, each closed by a mark. -/

namespace Records

variable {α : Type*} {mark : α}

def closed (mark : α) (ws : List (List α)) : List α := ws.flatMap (· ++ [mark])

theorem closed_cons (w : List α) (ws : List (List α)) :
    closed mark (w :: ws) = w ++ mark :: closed mark ws := by
  simp [closed]

theorem closed_ne_nil {w : List α} {ws : List (List α)} : closed mark (w :: ws) ≠ [] := by
  simp [closed_cons]

theorem append_mark_inj {w v x y : List α} (hw : mark ∉ w) (hv : mark ∉ v)
    (h : w ++ mark :: x = v ++ mark :: y) : w = v ∧ x = y := by
  rcases List.append_eq_append_iff.mp h with ⟨t, rfl, ht⟩ | ⟨t, rfl, ht⟩ <;>
    rcases t with _ | ⟨c, t⟩
  · exact ⟨(List.append_nil w).symm, List.tail_eq_of_cons_eq ht⟩
  · exact absurd (by simp [List.head_eq_of_cons_eq ht]) hv
  · exact ⟨List.append_nil v, (List.tail_eq_of_cons_eq ht).symm⟩
  · exact absurd (by simp [List.head_eq_of_cons_eq ht]) hw

/-- Where the mark is in none of them, the records can be told from what is written. -/
theorem closed_inj {ws vs : List (List α)} (hws : ∀ w ∈ ws, mark ∉ w) (hvs : ∀ v ∈ vs, mark ∉ v)
    (h : closed mark ws = closed mark vs) : ws = vs := by
  induction ws generalizing vs with
  | nil =>
    cases vs with
    | nil => rfl
    | cons v vs => exact absurd h.symm closed_ne_nil
  | cons w ws ih =>
    cases vs with
    | nil => exact absurd h closed_ne_nil
    | cons v vs =>
      rw [closed_cons, closed_cons] at h
      obtain ⟨rfl, hrest⟩ := append_mark_inj (hws w (by simp)) (hvs v (by simp)) h
      rw [ih (fun u hu => hws u (by simp [hu])) (fun u hu => hvs u (by simp [hu])) hrest]

/-- Piece number `i` of a list that is cut into pieces of `w`. -/
def piece (w i : ℕ) (xs : List α) : List α := (xs.drop (w * i)).take w

/-- Records of one length are told by their place alone, whatever they hold. -/
theorem piece_flatten {w i : ℕ} {ws : List (List α)} {x : List α} (h : ∀ v ∈ ws, v.length = w)
    (hi : ws[i]? = some x) : piece w i ws.flatten = x := by
  induction ws generalizing i with
  | nil => cases hi
  | cons v ws ih =>
    have hv := h v List.mem_cons_self
    cases i with
    | zero =>
      obtain rfl : v = x := by simpa using hi
      rw [piece, Nat.mul_zero, List.drop_zero, List.flatten_cons, List.take_left' hv]
    | succ i =>
      rw [List.getElem?_cons_succ] at hi
      rw [← ih (fun u hu => h u (List.mem_cons_of_mem v hu)) hi, piece, piece, List.flatten_cons,
        Nat.mul_succ, Nat.add_comm, ← List.drop_drop, List.drop_left' hv]

theorem length_flatten {w : ℕ} {ws : List (List α)} (h : ∀ v ∈ ws, v.length = w) :
    ws.flatten.length = w * ws.length := by
  induction ws with
  | nil => rfl
  | cons v ws ih =>
    rw [List.flatten_cons, List.length_append, h v List.mem_cons_self,
      ih fun u hu => h u (List.mem_cons_of_mem v hu), List.length_cons, Nat.mul_succ, Nat.add_comm]

end Records
