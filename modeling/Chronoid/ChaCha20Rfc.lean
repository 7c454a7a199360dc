import Chronoid.ChaCha20
import Mathlib.Data.Fin.VecNotation
import Mathlib.Data.List.OfFn
import Mathlib.Logic.Function.Iterate
import Mathlib.Tactic.FinCases

/-! The block function of RFC 8439 on its matrix of words, and the block counter as one
number of 64 bits. -/

namespace Chronoid

namespace Rfc8439

abbrev Matrix := Vector (Vector Word32 4) 4

def ofWords (f : Fin 4 → Fin 4 → Word32) : Matrix := Vector.ofFn fun i => Vector.ofFn (f i)

def word (m : Matrix) (i j : Fin 4) : Word32 := (m.get i).get j

@[simp] theorem word_ofWords (f : Fin 4 → Fin 4 → Word32) (i j : Fin 4) :
    word (ofWords f) i j = f i j := by
  change ((Vector.ofFn fun i => Vector.ofFn (f i))[i.val])[j.val] = f i j
  rw [Vector.getElem_ofFn, Vector.getElem_ofFn]

def quarterRound (a b c d : Word32) : Fin 4 → Word32 :=
  let a := a + b
  let d := (d ^^^ a).rotateLeft 16
  let c := c + d
  let b := (b ^^^ c).rotateLeft 12
  let a := a + b
  let d := (d ^^^ a).rotateLeft 8
  let c := c + d
  let b := (b ^^^ c).rotateLeft 7
  ![a, b, c, d]

def columnRound (m : Matrix) : Matrix :=
  ofWords fun i j => quarterRound (word m 0 j) (word m 1 j) (word m 2 j) (word m 3 j) i

/-- Row `i` turned left by `i` places, which makes columns of the diagonals. -/
def alignDiagonals (m : Matrix) : Matrix := ofWords fun i j => word m i (j + i)

def restoreDiagonals (m : Matrix) : Matrix := ofWords fun i j => word m i (j - i)

def diagonalRound (m : Matrix) : Matrix := restoreDiagonals (columnRound (alignDiagonals m))

def innerBlock (m : Matrix) : Matrix := diagonalRound (columnRound m)

def littleEndian (w : Word32) : List Byte :=
  (List.finRange 4).map fun k => BitVec.ofNat 8 (w.toNat / 256 ^ k.val)

def serialize (m : Matrix) : List Byte :=
  (List.finRange 4).flatMap fun i => (List.finRange 4).flatMap fun j => littleEndian (word m i j)

def block (m : Matrix) : List Byte :=
  let rounds := innerBlock^[10] m
  serialize (ofWords fun i j => word m i j + word rounds i j)

end Rfc8439

def columnIndex (i j : Fin 4) : Fin 16 := ⟨4 * i.val + j.val, by omega⟩

def diagonalIndex (i j : Fin 4) : Fin 16 := columnIndex i (j + i)

def matrixOf (x : ChaChaState) : Rfc8439.Matrix :=
  Rfc8439.ofWords fun i j => x.get (columnIndex i j)

/-- Quarter rounds on the four lines of the matrix that `f` picks. -/
def quarterRounds (f : Fin 4 → Fin 4 → Fin 16) (x : ChaChaState) : ChaChaState :=
  let x := quarterRound x (f 0 0) (f 1 0) (f 2 0) (f 3 0)
  let x := quarterRound x (f 0 1) (f 1 1) (f 2 1) (f 3 1)
  let x := quarterRound x (f 0 2) (f 1 2) (f 2 2) (f 3 2)
  quarterRound x (f 0 3) (f 1 3) (f 2 3) (f 3 3)

theorem doubleRound_eq (x : ChaChaState) :
    doubleRound x = quarterRounds diagonalIndex (quarterRounds columnIndex x) := rfl

theorem get_set (x : ChaChaState) (a i : Fin 16) (v : Word32) :
    (x.set a.val v (word_lt a)).get i = if i = a then v else x.get i := by
  change (x.set a.val v (word_lt a))[i.val] = if i = a then v else x[i.val]
  rw [Vector.getElem_set]
  simp only [Fin.ext_iff, eq_comm]

theorem quarterStep_get (x : ChaChaState) {a d : Fin 16} (b : Fin 16) (h : d ≠ a) (n : ℕ)
    (i : Fin 16) : (quarterStep x a b d n).get i =
      if i = d then rotl32 (x.get d ^^^ (x.get a + x.get b)) n
      else if i = a then x.get a + x.get b else x.get i := by
  simp only [quarterStep, get_set, h, if_true, if_false]

theorem rotl32_eq (x : Word32) {n : ℕ} (h : n < 32) : rotl32 x n = x.rotateLeft n := by
  rw [BitVec.rotateLeft_def, Nat.mod_eq_of_lt h, rotl32]

theorem quarterRound_get (x : ChaChaState) {a b c d : Fin 16} (h : [a, b, c, d].Nodup) :
    let q := Rfc8439.quarterRound (x.get a) (x.get b) (x.get c) (x.get d)
    (quarterRound x a b c d).get a = q 0 ∧ (quarterRound x a b c d).get b = q 1 ∧
      (quarterRound x a b c d).get c = q 2 ∧ (quarterRound x a b c d).get d = q 3 := by
  simp only [List.nodup_cons, List.mem_cons, List.not_mem_nil, or_false, not_or, not_false_eq_true,
    List.nodup_nil, and_true] at h
  obtain ⟨⟨hab, hac, had⟩, ⟨hbc, hbd⟩, hcd⟩ := h
  simp only [quarterRound, quarterStep_get _ _ (Ne.symm had), quarterStep_get _ _ hbc, hab, hac,
    had, hbc, hbd, hcd, Ne.symm hab, Ne.symm hac, Ne.symm had, Ne.symm hbc, Ne.symm hbd,
    Ne.symm hcd, if_true, if_false]
  simp [rotl32_eq, Rfc8439.quarterRound]

theorem quarterRound_get_of_notMem (x : ChaChaState) {a b c d i : Fin 16} (h : [a, b, c, d].Nodup)
    (hi : i ∉ [a, b, c, d]) : (quarterRound x a b c d).get i = x.get i := by
  simp only [List.nodup_cons, List.mem_cons, List.not_mem_nil, or_false, not_or, not_false_eq_true,
    List.nodup_nil, and_true] at h hi
  obtain ⟨⟨-, -, had⟩, ⟨hbc, -⟩, -⟩ := h
  obtain ⟨hia, hib, hic, hid⟩ := hi
  simp only [quarterRound, quarterStep_get _ _ (Ne.symm had), quarterStep_get _ _ hbc, hia, hib,
    hic, hid, if_false]

/-- Lines that do not meet go through their quarter rounds side by side. -/
theorem quarterRounds_get {f : Fin 4 → Fin 4 → Fin 16}
    (hf : ∀ i j k l, f i j = f k l → i = k ∧ j = l) (x : ChaChaState) (i j : Fin 4) :
    (quarterRounds f x).get (f i j) =
      Rfc8439.quarterRound (x.get (f 0 j)) (x.get (f 1 j)) (x.get (f 2 j)) (x.get (f 3 j)) i := by
  have hline (k : Fin 4) : [f 0 k, f 1 k, f 2 k, f 3 k].Nodup := by
    simp [fun i j => (⟨fun h => (hf i k j k h).1, fun h => h ▸ rfl⟩ : f i k = f j k ↔ i = j)]
  have hown (x : ChaChaState) (l i : Fin 4) :
      (quarterRound x (f 0 l) (f 1 l) (f 2 l) (f 3 l)).get (f i l) =
        Rfc8439.quarterRound (x.get (f 0 l)) (x.get (f 1 l)) (x.get (f 2 l)) (x.get (f 3 l)) i := by
    obtain ⟨h0, h1, h2, h3⟩ := quarterRound_get x (hline l)
    fin_cases i
    exacts [h0, h1, h2, h3]
  have hother (x : ChaChaState) {k l : Fin 4} (h : k ≠ l) (i : Fin 4) :
      (quarterRound x (f 0 l) (f 1 l) (f 2 l) (f 3 l)).get (f i k) = x.get (f i k) := by
    apply quarterRound_get_of_notMem x (hline l)
    simp only [List.mem_cons, List.not_mem_nil, or_false, not_or]
    exact ⟨fun he => h (hf _ _ _ _ he).2, fun he => h (hf _ _ _ _ he).2,
      fun he => h (hf _ _ _ _ he).2, fun he => h (hf _ _ _ _ he).2⟩
  fin_cases j <;> simp [quarterRounds, hown, hother]

theorem columnIndex_inj (i j k l : Fin 4) (h : columnIndex i j = columnIndex k l) :
    i = k ∧ j = l := by
  simp only [columnIndex, Fin.mk.injEq] at h
  omega

theorem diagonalIndex_inj (i j k l : Fin 4) (h : diagonalIndex i j = diagonalIndex k l) :
    i = k ∧ j = l := by
  obtain ⟨rfl, hj⟩ := columnIndex_inj _ _ _ _ h
  refine ⟨rfl, ?_⟩
  clear h
  revert i j l
  decide

theorem matrixOf_columns (x : ChaChaState) :
    matrixOf (quarterRounds columnIndex x) = Rfc8439.columnRound (matrixOf x) := by
  simp only [matrixOf, Rfc8439.columnRound, Rfc8439.word_ofWords, quarterRounds_get columnIndex_inj]

theorem matrixOf_diagonals (x : ChaChaState) :
    matrixOf (quarterRounds diagonalIndex x) = Rfc8439.diagonalRound (matrixOf x) := by
  have hturn : ∀ i j : Fin 4, j - i + i = j := by decide
  have hcolumn (i j : Fin 4) : columnIndex i j = diagonalIndex i (j - i) := by
    rw [diagonalIndex, hturn]
  have hword (i j : Fin 4) := quarterRounds_get diagonalIndex_inj x i (j - i)
  simp only [← hcolumn] at hword
  simp only [matrixOf, Rfc8439.diagonalRound, Rfc8439.restoreDiagonals, Rfc8439.columnRound,
    Rfc8439.alignDiagonals, Rfc8439.word_ofWords, hword, diagonalIndex]

theorem matrixOf_doubleRound (x : ChaChaState) :
    matrixOf (doubleRound x) = Rfc8439.innerBlock (matrixOf x) := by
  rw [doubleRound_eq, matrixOf_diagonals, matrixOf_columns, Rfc8439.innerBlock]

theorem matrixOf_rounds (x : ChaChaState) (n : ℕ) :
    matrixOf (doubleRound^[n] x) = Rfc8439.innerBlock^[n] (matrixOf x) :=
  Function.Semiconj.iterate_right matrixOf_doubleRound n x

theorem littleEndian_byte (w : Word32) (k : ℕ) :
    (w >>> (8 * k)).setWidth 8 = BitVec.ofNat 8 (w.toNat / 256 ^ k) := by
  apply BitVec.eq_of_toNat_eq
  rw [BitVec.toNat_setWidth, BitVec.toNat_ushiftRight, BitVec.toNat_ofNat,
    Nat.shiftRight_eq_div_pow, pow_mul]
  rfl

theorem toList_chacha20Keystream (s : ChaChaState) :
    (chacha20Keystream s).toList = Rfc8439.block (matrixOf s) := by
  unfold chacha20Keystream Rfc8439.block
  rw [← matrixOf_rounds]
  generalize doubleRound^[10] s = x
  rw [Vector.toList_ofFn, List.ofFn_mul (m := 4) (n := 16), List.ofFn_eq_map, Rfc8439.serialize,
    List.flatMap]
  congr 1
  apply List.map_congr_left
  intro i _
  rw [List.ofFn_mul (m := 4) (n := 4), List.ofFn_eq_map, List.flatMap]
  congr 1
  apply List.map_congr_left
  intro j _
  rw [List.ofFn_eq_map, Rfc8439.littleEndian]
  apply List.map_congr_left
  intro k _
  have hget (y : ChaChaState) {n : ℕ} (hn : n < 16) (h : n = 4 * i.val + j.val) :
      y[n] = Rfc8439.word (matrixOf y) i j := by
    subst h
    rw [matrixOf, Rfc8439.word_ofWords]
    rfl
  have hword : (i.val * 16 + (j.val * 4 + k.val)) / 4 = 4 * i.val + j.val := by omega
  have hbyte : (i.val * 16 + (j.val * 4 + k.val)) % 4 = k.val := by omega
  simp only [hget x _ hword, hget s _ hword, hbyte, littleEndian_byte, Rfc8439.word_ofWords]
  rw [BitVec.add_comm]

def counter64 (s : ChaChaState) : ℕ := (s.get 13).toNat * 2 ^ 32 + (s.get 12).toNat

theorem chacha20Advance_get (s : ChaChaState) (i : Fin 16) :
    (chacha20Advance s).get i =
      if i = 12 then s.get 12 + 1#32
      else if i = 13 ∧ s.get 12 + 1#32 = 0#32 then s.get 13 + 1#32 else s.get i := by
  unfold chacha20Advance
  simp only [countUp, get_set, if_true]
  by_cases hcarry : s.get 12 + 1#32 = 0#32
  · simp only [hcarry, if_true, get_set]
    by_cases h12 : i = 12
    · simp [h12]
    · simp [h12]
  · simp only [hcarry, if_false, get_set, and_false]

theorem counter64_advance (s : ChaChaState) :
    counter64 (chacha20Advance s) = (counter64 s + 1) % 2 ^ 64 := by
  have hlow := (s.get 12).isLt
  have hhigh := (s.get 13).isLt
  have hcount : (s.get 12 + 1#32).toNat = ((s.get 12).toNat + 1) % 2 ^ 32 := BitVec.toNat_add _ _
  have hnonce : (s.get 13 + 1#32).toNat = ((s.get 13).toNat + 1) % 2 ^ 32 := BitVec.toNat_add _ _
  rw [counter64, counter64, chacha20Advance_get, chacha20Advance_get, if_pos rfl,
    if_neg (by decide), hcount]
  by_cases hcarry : s.get 12 + 1#32 = 0#32
  · rw [if_pos ⟨rfl, hcarry⟩, hnonce]
    rw [hcarry, BitVec.toNat_ofNat] at hcount
    omega
  · rw [if_neg (mt And.right hcarry)]
    have hne : ((s.get 12).toNat + 1) % 2 ^ 32 ≠ 0 := by
      rw [← hcount]
      exact fun h => hcarry (BitVec.eq_of_toNat_eq h)
    omega

theorem iterate_advance (s : ChaChaState) (n : ℕ) :
    (∀ i, i ≠ 12 → i ≠ 13 → (chacha.advance^[n] s).get i = s.get i) ∧
      counter64 (chacha.advance^[n] s) = (counter64 s + n) % 2 ^ 64 := by
  induction n with
  | zero =>
    have hlow := (s.get 12).isLt
    have hhigh := (s.get 13).isLt
    refine ⟨fun _ _ _ => rfl, ?_⟩
    rw [Function.iterate_zero_apply, counter64]
    omega
  | succ n ih =>
    rw [Function.iterate_succ_apply']
    constructor
    · intro i h12 h13
      rw [← ih.1 i h12 h13]
      exact (chacha20Advance_get _ i).trans (by rw [if_neg h12, if_neg (mt And.left h13)])
    · refine (counter64_advance _).trans ?_
      rw [ih.2, Nat.mod_add_mod, Nat.add_assoc]

theorem advance_distinct (s : ChaChaState) {j k : ℕ} (hjk : j < k) (hk : k < 2 ^ 64) :
    chacha.advance^[j] s ≠ chacha.advance^[k] s := by
  intro h
  have hcount := congrArg counter64 h
  rw [(iterate_advance s j).2, (iterate_advance s k).2] at hcount
  omega

/-- The block function is the one of RFC 8439, and its calls walk through the states that differ
in the counter of 64 bits only, none of them twice in a cycle. -/
theorem chacha20_block_rfc8439 :
    (∀ s : ChaChaState, (chacha20Block s).1.toList = Rfc8439.block (matrixOf s)) ∧
    (∀ (s : ChaChaState) (n : ℕ),
      (∀ i, i ≠ 12 → i ≠ 13 → (chacha.advance^[n] s).get i = s.get i) ∧
        counter64 (chacha.advance^[n] s) = (counter64 s + n) % 2 ^ 64) ∧
    ∀ (s : ChaChaState) (j k : ℕ), j < k → k < 2 ^ 64 →
      chacha.advance^[j] s ≠ chacha.advance^[k] s :=
  ⟨toList_chacha20Keystream, iterate_advance, fun s _ _ => advance_distinct s⟩

/-- The key bytes 0 to 31, the nonce and the counter of the example in the RFC. -/
example :
    ((chacha20Block #v[0x61707865#32, 0x3320646e#32, 0x79622d32#32, 0x6b206574#32, 0x03020100#32,
      0x07060504#32, 0x0b0a0908#32, 0x0f0e0d0c#32, 0x13121110#32, 0x17161514#32, 0x1b1a1918#32,
      0x1f1e1d1c#32, 1#32, 0x09000000#32, 0x4a000000#32, 0#32]).1.toList.take 4) =
        [0x10#8, 0xf1#8, 0xe7#8, 0xe4#8] := by
  decide +kernel

theorem chacha20_block_rfc8439_wrap :
    chacha.advance^[0] (Vector.replicate 16 0xFFFFFFFF#32) ≠
      chacha.advance^[1] (Vector.replicate 16 0xFFFFFFFF#32) :=
  chacha20_block_rfc8439.2.2 _ 0 1 (by decide) (by decide)

end Chronoid
