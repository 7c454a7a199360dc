import Mathlib.Data.Nat.Digits.Lemmas

/-! Most-significant-first positional numerals: the number a digit list denotes,
its order, and schoolbook division by a small divisor, with the leading zeros of
the quotient kept or suppressed. -/

namespace Positional

/-- The number denoted by a most-significant-first digit list. -/
def value (b : ℕ) (ds : List ℕ) : ℕ := Nat.ofDigits b ds.reverse

@[simp] theorem value_nil (b : ℕ) : value b [] = 0 := rfl

theorem value_append (b : ℕ) (xs ys : List ℕ) :
    value b (xs ++ ys) = value b xs * b ^ ys.length + value b ys := by
  rw [value, List.reverse_append, Nat.ofDigits_append, List.length_reverse, value, value]
  ring

theorem value_cons (b d : ℕ) (ds : List ℕ) :
    value b (d :: ds) = d * b ^ ds.length + value b ds := by
  rw [← List.singleton_append, value_append]
  simp [value]

theorem value_concat (b : ℕ) (ds : List ℕ) (d : ℕ) :
    value b (ds ++ [d]) = value b ds * b + d := by
  rw [value_append]
  simp [value]

theorem value_lt {b : ℕ} (hb : 1 < b) {ds : List ℕ} (h : ∀ d ∈ ds, d < b) :
    value b ds < b ^ ds.length := by
  have hh := Nat.ofDigits_lt_base_pow_length (l := ds.reverse) hb
    (fun x hx => h x (List.mem_reverse.mp hx))
  rwa [List.length_reverse] at hh

theorem value_inj {b : ℕ} (hb : 1 < b) {xs ys : List ℕ} (hlen : xs.length = ys.length)
    (hx : ∀ d ∈ xs, d < b) (hy : ∀ d ∈ ys, d < b) (h : value b xs = value b ys) : xs = ys := by
  have hh : xs.reverse = ys.reverse := Nat.ofDigits_inj_of_len_eq hb (by simpa using hlen)
    (fun d hd => hx d (List.mem_reverse.mp hd)) (fun d hd => hy d (List.mem_reverse.mp hd)) h
  exact List.reverse_injective hh

theorem compare_add_left (a x y : ℕ) : compare (a + x) (a + y) = compare x y := by
  rcases Nat.lt_trichotomy x y with h | h | h
  · rw [Nat.compare_eq_lt.mpr h, Nat.compare_eq_lt.mpr (by omega)]
  · rw [h]
    simp
  · rw [Nat.compare_eq_gt.mpr h, Nat.compare_eq_gt.mpr (by omega)]

theorem leading_digit_lt {m x y u v : ℕ} (hu : u < m) (h : x < y) : x * m + u < y * m + v := by
  have hh := Nat.mul_le_mul_right m h
  rw [Nat.succ_mul] at hh
  omega

theorem compare_mul_add {m x y u v : ℕ} (hu : u < m) (hv : v < m) :
    compare (x * m + u) (y * m + v) = (compare x y).then (compare u v) := by
  rcases Nat.lt_trichotomy x y with h | rfl | h
  · rw [Nat.compare_eq_lt.mpr h, Nat.compare_eq_lt.mpr (leading_digit_lt hu h)]
    rfl
  · rw [compare_add_left, Nat.compare_eq_eq.mpr rfl]
    rfl
  · rw [Nat.compare_eq_gt.mpr h, Nat.compare_eq_gt.mpr (leading_digit_lt hv h)]
    rfl

/-- Numerals of one length are ordered as the numbers they denote. -/
theorem compareLex_eq_compare_value {b : ℕ} (hb : 1 < b) {xs ys : List ℕ}
    (hlen : xs.length = ys.length) (hx : ∀ d ∈ xs, d < b) (hy : ∀ d ∈ ys, d < b) :
    List.compareLex compare xs ys = compare (value b xs) (value b ys) := by
  induction xs generalizing ys with
  | nil =>
    cases ys with
    | nil => rfl
    | cons y ys => simp at hlen
  | cons x xs ih =>
    cases ys with
    | nil => simp at hlen
    | cons y ys =>
      have hl : xs.length = ys.length := by simpa using hlen
      have hx' : ∀ d ∈ xs, d < b := fun d hd => hx d (List.mem_cons_of_mem _ hd)
      have hy' : ∀ d ∈ ys, d < b := fun d hd => hy d (List.mem_cons_of_mem _ hd)
      have hvx := value_lt hb hx'
      rw [hl] at hvx
      rw [List.compareLex_cons_cons, ih hl hx' hy', value_cons, value_cons, hl]
      rcases Nat.lt_trichotomy x y with h | h | h
      · rw [Nat.compare_eq_lt.mpr h, Nat.compare_eq_lt.mpr (leading_digit_lt hvx h)]
        rfl
      · rw [h, compare_add_left, Nat.compare_eq_eq.mpr rfl]
        rfl
      · rw [Nat.compare_eq_gt.mpr h, Nat.compare_eq_gt.mpr (leading_digit_lt (value_lt hb hy') h)]
        rfl

/-- The numeral of `v` without leading zeros. -/
def numeral (b v : ℕ) : List ℕ := (Nat.digits b v).reverse

@[simp] theorem numeral_zero (b : ℕ) : numeral b 0 = [] := by simp [numeral]

theorem value_numeral (b v : ℕ) : value b (numeral b v) = v := by
  rw [value, numeral, List.reverse_reverse, Nat.ofDigits_digits]

theorem numeral_lt {b : ℕ} (hb : 1 < b) {v d : ℕ} (h : d ∈ numeral b v) : d < b :=
  Nat.digits_lt_base hb (List.mem_reverse.mp h)

theorem numeral_eq_nil {b v : ℕ} : numeral b v = [] ↔ v = 0 := by
  simp [numeral, Nat.digits_eq_nil_iff_eq_zero]

theorem numeral_concat {b : ℕ} (hb : 1 < b) (v : ℕ) {d : ℕ} (hd : d < b) (h : v ≠ 0 ∨ d ≠ 0) :
    numeral b (v * b + d) = numeral b v ++ [d] := by
  rw [show v * b + d = d + b * v by ring, numeral, Nat.digits_add b hb d v hd h.symm]
  simp [numeral]

/-- The numeral of `v` on `k` digits. -/
def fixed (b k v : ℕ) : List ℕ := (List.range k).map fun i => v / b ^ (k - 1 - i) % b

@[simp] theorem length_fixed (b k v : ℕ) : (fixed b k v).length = k := by simp [fixed]

theorem getElem_fixed {b k v i : ℕ} (h : i < (fixed b k v).length) :
    (fixed b k v)[i] = v / b ^ (k - 1 - i) % b := by
  simp [fixed]

theorem fixed_lt {b : ℕ} (hb : 0 < b) {k v d : ℕ} (h : d ∈ fixed b k v) : d < b := by
  obtain ⟨i, _, rfl⟩ := List.mem_map.mp h
  exact Nat.mod_lt _ hb

theorem fixed_succ (b k v : ℕ) : fixed b (k + 1) v = fixed b k (v / b) ++ [v % b] := by
  rw [fixed, List.range_succ, List.map_append, fixed]
  simp only [List.map_cons, List.map_nil]
  congr 1
  · apply List.map_congr_left
    intro i hi
    have hi := List.mem_range.mp hi
    rw [Nat.div_div_eq_div_mul, ← pow_succ', show k - 1 - i + 1 = k + 1 - 1 - i by omega]
  · simp

theorem value_fixed (b k v : ℕ) : value b (fixed b k v) = v % b ^ k := by
  induction k generalizing v with
  | zero => simp [fixed, Nat.mod_one]
  | succ k ih =>
    rw [fixed_succ, value_concat, ih, pow_succ', Nat.mod_mul]
    ring

theorem fixed_value {b : ℕ} (hb : 1 < b) {ds : List ℕ} (h : ∀ d ∈ ds, d < b) :
    fixed b ds.length (value b ds) = ds := by
  refine value_inj hb (by simp) (fun d hd => fixed_lt (by omega) hd) h ?_
  rw [value_fixed, Nat.mod_eq_of_lt (value_lt hb h)]

/-! The running remainder of a division joins the next digit before it is
divided: the three facts every division loop below rests on. -/

theorem joined_lt {b d r x : ℕ} (hr : r < d) (hx : x < b) : x + r * b < d * b := by
  have := Nat.mul_le_mul_right b hr
  rw [Nat.succ_mul] at this
  omega

theorem joined_div {b d : ℕ} (hd : 0 < d) (v x : ℕ) :
    (v * b + x) / d = v / d * b + (x + v % d * b) / d := by
  have h : v * b + x = (x + v % d * b) + d * (v / d * b) := by
    conv_lhs => rw [← Nat.div_add_mod v d]
    ring
  rw [h, Nat.add_mul_div_left _ _ hd, Nat.add_comm]

theorem joined_mod (b d v x : ℕ) : (v * b + x) % d = (x + v % d * b) % d := by
  rw [Nat.add_comm]
  exact ((Nat.mod_modEq v d).symm.mul_right b).add_left x

/-- One digit of schoolbook division by `d`. The accumulator is the quotient so
far, without leading zeros, and the running remainder. -/
def divStep (b d : ℕ) (acc : List ℕ × ℕ) (x : ℕ) : List ℕ × ℕ :=
  let v := x + acc.2 * b
  (if acc.1.length ≠ 0 ∨ v / d ≠ 0 then acc.1 ++ [v / d] else acc.1, v % d)

theorem divStep_numeral {b d x : ℕ} (hb : 1 < b) (hd : 0 < d) (hx : x < b) (v : ℕ) :
    divStep b d (numeral b (v / d), v % d) x =
      (numeral b ((v * b + x) / d), (v * b + x) % d) := by
  have hlt : (x + v % d * b) / d < b :=
    Nat.div_lt_of_lt_mul (joined_lt (Nat.mod_lt v hd) hx)
  simp only [divStep, joined_mod b d v x, joined_div hd v x, Prod.mk.injEq, and_true]
  by_cases h : v / d ≠ 0 ∨ (x + v % d * b) / d ≠ 0
  · rw [if_pos, numeral_concat hb _ hlt h]
    simpa [List.length_eq_zero_iff, numeral_eq_nil] using h
  · push Not at h
    simp [h.1, h.2]

theorem foldl_divStep {b d : ℕ} (hb : 1 < b) (hd : 0 < d) {ds : List ℕ} (h : ∀ x ∈ ds, x < b) :
    ds.foldl (divStep b d) ([], 0) = (numeral b (value b ds / d), value b ds % d) := by
  induction ds using List.reverseRecOn with
  | nil => simp
  | append_singleton ds x ih =>
    rw [List.foldl_append, ih (fun y hy => h y (List.mem_append_left _ hy)), value_concat]
    exact divStep_numeral hb hd (h x (by simp)) _

def fixedDivStep (b d : ℕ) (acc : List ℕ × ℕ) (x : ℕ) : List ℕ × ℕ :=
  let v := x + acc.2 * b
  (acc.1 ++ [v / d], v % d)

theorem foldl_fixedDivStep {b d : ℕ} (hb : 1 < b) (hd : 0 < d) {ds : List ℕ} (h : ∀ x ∈ ds, x < b) :
    ds.foldl (fixedDivStep b d) ([], 0) =
      (fixed b ds.length (value b ds / d), value b ds % d) := by
  induction ds using List.reverseRecOn with
  | nil => simp [fixed]
  | append_singleton ds x ih =>
    have hx : x < b := h x (by simp)
    have hlt := Nat.div_lt_of_lt_mul (joined_lt (Nat.mod_lt (value b ds) hd) hx)
    have hdiv : (value b ds / d * b + (x + value b ds % d * b) / d) / b = value b ds / d := by
      rw [Nat.add_comm, Nat.add_mul_div_right _ _ (by omega), Nat.div_eq_of_lt hlt, Nat.zero_add]
    have hmod : (value b ds / d * b + (x + value b ds % d * b) / d) % b =
        (x + value b ds % d * b) / d := by
      rw [Nat.add_comm, Nat.add_mul_mod_self_right, Nat.mod_eq_of_lt hlt]
    rw [List.foldl_append, ih (fun y hy => h y (List.mem_append_left _ hy)), value_concat]
    simp only [List.foldl_cons, List.foldl_nil, fixedDivStep, List.length_append,
      List.length_singleton, fixed_succ, joined_div hd, joined_mod b d, hdiv, hmod]

end Positional
