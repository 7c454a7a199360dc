import Mathlib.Data.List.Basic

/-! Reading words off the front of a list of tokens, until something stands there that is no
word. -/

namespace WordScan

variable {τ ω σ ρ : Type*} {scan : σ → List τ → ρ} {spell : ω → List τ} {effect : ω → σ → σ}
  {Ends : σ → List τ → ρ → Prop}

/-- `scan` takes the words one by one, each changing the state, and `Ends` is what it makes of the
rest in the state it has come to. -/
structure Grammar (scan : σ → List τ → ρ) (spell : ω → List τ) (effect : ω → σ → σ)
    (Ends : σ → List τ → ρ → Prop) : Prop where
  word : ∀ s w ts, scan s (spell w ++ ts) = scan (effect w s) ts
  ends : ∀ s ts r, Ends s ts r → scan s ts = r
  spell_ne_nil : ∀ w, spell w ≠ []
  head : ∀ ts, (∃ w rest, ts = spell w ++ rest) ∨ ∀ s, ∃ r, Ends s ts r

theorem Grammar.words (h : Grammar scan spell effect Ends) (s : σ) (ws : List ω) (ts : List τ) :
    scan s (ws.flatMap spell ++ ts) = scan (ws.foldl (fun s w => effect w s) s) ts := by
  induction ws generalizing s with
  | nil => rfl
  | cons w ws ih => rw [List.flatMap_cons, List.append_assoc, h.word, ih, List.foldl_cons]

theorem Grammar.divides (h : Grammar scan spell effect Ends) (s : σ) (ts : List τ) :
    ∃ (ws : List ω) (rest : List τ) (r : ρ), ts = ws.flatMap spell ++ rest ∧
      Ends (ws.foldl (fun s w => effect w s) s) rest r := by
  induction hn : ts.length using Nat.strongRecOn generalizing s ts with
  | ind n ih =>
    rcases h.head ts with ⟨w, tail, rfl⟩ | hends
    · have hlt : tail.length < n := by
        have hpos := List.length_pos_of_ne_nil (h.spell_ne_nil w)
        rw [List.length_append] at hn
        omega
      obtain ⟨ws, rest, r, hsplit, hr⟩ := ih _ hlt (effect w s) tail rfl
      exact ⟨w :: ws, rest, r, by rw [hsplit, List.flatMap_cons, List.append_assoc], hr⟩
    · obtain ⟨r, hr⟩ := hends s
      exact ⟨[], ts, r, rfl, hr⟩

/-- A scan comes to `r` just on words followed by something that ends it with `r`. -/
theorem Grammar.scan_eq_iff (h : Grammar scan spell effect Ends) {s : σ} {ts : List τ} {r : ρ} :
    scan s ts = r ↔
      ∃ (ws : List ω) (rest : List τ), ts = ws.flatMap spell ++ rest ∧
        Ends (ws.foldl (fun s w => effect w s) s) rest r := by
  constructor
  · rintro rfl
    obtain ⟨ws, rest, r, rfl, hr⟩ := h.divides s ts
    rw [h.words, h.ends _ _ _ hr]
    exact ⟨ws, rest, rfl, hr⟩
  · rintro ⟨ws, rest, rfl, hr⟩
    rw [h.words, h.ends _ _ _ hr]

end WordScan
