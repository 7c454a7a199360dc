import Chronoid.Avx2Lanes

/-! The script that derives the multiplier of a division by a constant. The integers of Python
are unbounded, its `//` rounds down and its shifts refuse a negative count. -/

namespace Chronoid

inductive PyErr where
  | valueError (message : String)
  | zeroDivisionError
  | assertionError (message : String)
  deriving DecidableEq

@[simp] theorem except_ok_bind {ε α β : Type} (x : α) (f : α → Except ε β) :
    ((Except.ok x : Except ε α) >>= f) = f x := rfl

def pyHex (x : Int) : String :=
  (if x < 0 then "-0x" else "0x") ++ String.ofList (Nat.toDigits 16 x.natAbs)

def pyShiftLeft (x n : Int) : Except PyErr Int :=
  if n < 0 then .error (.valueError "negative shift count") else .ok (x * 2 ^ n.toNat)

def pyShiftRight (x n : Int) : Except PyErr Int :=
  if n < 0 then .error (.valueError "negative shift count") else .ok (x.fdiv (2 ^ n.toNat))

def pyFloorDiv (x d : Int) : Except PyErr Int :=
  if d = 0 then .error .zeroDivisionError else .ok (x.fdiv d)

def divisorRangeError (nBits divisor : Int) : PyErr :=
  .valueError ("divisor must satisfy 1 < d < 2^" ++ toString nBits ++ "; got " ++ toString divisor)

/-- The comparison is a chained one: the shift is evaluated only after `1 < divisor`. -/
def deriveMagic (nBits divisor : Int) : Except PyErr Int :=
  if 1 < divisor then do
    let twoN ← pyShiftLeft 1 nBits
    if divisor < twoN then
      let m ← pyFloorDiv twoN divisor
      let deficit := twoN - m * divisor
      if 0 ≤ deficit ∧ deficit ≤ divisor - 1 then .ok m
      else .error (.assertionError
        ("derived M=" ++ pyHex m ++ " fails precondition: 2^N - M*d = " ++
        toString deficit ++ " not in [0, " ++ toString (divisor - 1) ++ "]"))
    else .error (divisorRangeError nBits divisor)
  else .error (divisorRangeError nBits divisor)

/-- The high product with its correction step: quotient and remainder. -/
def magicDivmod (nBits divisor m v : Int) : Except PyErr (Int × Int) := do
  let qMul ← pyShiftRight (v * m) nBits
  let r := v - qMul * divisor
  if r ≥ divisor then .ok (qMul + 1, r - divisor) else .ok (qMul, r)

def verifySample (nBits divisor m v : Int) : Except PyErr Unit := do
  let qRef ← pyFloorDiv v divisor
  let (qMul, _) ← magicDivmod nBits divisor m v
  if qMul ≠ qRef then
    .error (.assertionError ("magic constant verification failed at v=" ++ pyHex v ++
      ": reference quotient " ++ toString qRef ++ ", magic " ++ toString qMul))
  else .ok ()

/-- `draws` is what `randint (0, mask)` gives, sample by sample. -/
def verifyAgainstReference (nBits divisor m : Int) (draws : Int → List Int) :
    Except PyErr Unit := do
  let twoN ← pyShiftLeft 1 nBits
  (draws (twoN - 1)).forM (verifySample nBits divisor m)

def MagicRange (nBits divisor : Int) : Prop := 0 ≤ nBits ∧ 1 < divisor ∧ divisor < 2 ^ nBits.toNat

instance (nBits divisor : Int) : Decidable (MagicRange nBits divisor) :=
  inferInstanceAs (Decidable (_ ∧ _))

section Natural

variable {k d v : ℕ}

theorem pyShiftLeft_one (k : ℕ) : pyShiftLeft 1 k = .ok ((2 ^ k : ℕ) : Int) := by
  rw [pyShiftLeft, if_neg (by omega), Int.toNat_natCast, one_mul]
  push_cast
  rfl

theorem fdiv_natCast (x d : ℕ) : (x : Int).fdiv d = ((x / d : ℕ) : Int) := by
  rw [Int.fdiv_eq_ediv_of_nonneg _ (by omega), Int.natCast_ediv]

theorem fmod_natCast (x d : ℕ) : (x : Int).fmod d = ((x % d : ℕ) : Int) := by
  rw [Int.fmod_eq_emod_of_nonneg _ (by omega), Int.natCast_emod]

theorem pyFloorDiv_natCast (hd : 0 < d) (x : ℕ) : pyFloorDiv x d = .ok ((x / d : ℕ) : Int) := by
  rw [pyFloorDiv, if_neg (by omega), fdiv_natCast]

theorem pyShiftRight_natCast (x k : ℕ) : pyShiftRight x k = .ok ((x / 2 ^ k : ℕ) : Int) := by
  have hpow : (2 : Int) ^ k = ((2 ^ k : ℕ) : Int) := by
    push_cast
    rfl
  rw [pyShiftRight, if_neg (by omega), Int.toNat_natCast, hpow, fdiv_natCast]

theorem floor_deficit (hd : 0 < d) (n : ℕ) :
    0 ≤ (n : Int) - ((n / d : ℕ) : Int) * d ∧ (n : Int) - ((n / d : ℕ) : Int) * d ≤ d - 1 := by
  have hsplit : (n : Int) = d * ((n / d : ℕ) : Int) + ((n % d : ℕ) : Int) := by
    exact_mod_cast (Nat.div_add_mod n d).symm
  have hlt := Nat.mod_lt n hd
  have hdeficit : (n : Int) - ((n / d : ℕ) : Int) * d = ((n % d : ℕ) : Int) := by
    rw [mul_comm]
    omega
  rw [hdeficit]
  omega

theorem deriveMagic_natCast (hd : 1 < d) (hn : d < 2 ^ k) :
    deriveMagic k d = .ok ((2 ^ k / d : ℕ) : Int) := by
  have hdeficit := floor_deficit (show 0 < d by omega) (2 ^ k)
  rw [deriveMagic, if_pos (by omega), pyShiftLeft_one, except_ok_bind, if_pos (Int.ofNat_lt.mpr hn),
    pyFloorDiv_natCast (by omega), except_ok_bind]
  exact if_pos hdeficit

theorem magicDivmod_natCast (hd : 0 < d) (hv : v < 2 ^ k) :
    v / d ≤ v * (2 ^ k / d) / 2 ^ k + 1 ∧ v * (2 ^ k / d) / 2 ^ k ≤ v / d ∧
      magicDivmod k d ((2 ^ k / d : ℕ) : Int) v =
        .ok (((v / d : ℕ) : Int), ((v % d : ℕ) : Int)) := by
  have hlow := Reciprocal.mul_floor_div_le (v := v) hd (Nat.two_pow_pos k)
  have hhigh := Reciprocal.div_le_mul_floor_div hd hv
  refine ⟨hhigh, hlow, ?_⟩
  obtain ⟨hle, -, hquot, hrem⟩ := Reciprocal.corrected hd hlow hhigh
  rw [magicDivmod, ← Nat.cast_mul, pyShiftRight_natCast, except_ok_bind]
  generalize v * (2 ^ k / d) / 2 ^ k = q at *
  have hr : (v : Int) - q * d = ((v - q * d : ℕ) : Int) := by
    push_cast [hle]
    rfl
  rw [← hquot, ← hrem]
  simp only [hr]
  by_cases hge : d ≤ v - q * d
  · rw [if_pos (by omega), if_pos hge, if_pos hge]
    congr 2
    omega
  · rw [if_neg (by omega), if_neg hge, if_neg hge]

theorem verifySample_natCast (hd : 0 < d) (hv : v < 2 ^ k) :
    verifySample k d ((2 ^ k / d : ℕ) : Int) v = .ok () := by
  rw [verifySample, pyFloorDiv_natCast hd, except_ok_bind, (magicDivmod_natCast hd hv).2.2,
    except_ok_bind]
  simp

end Natural

theorem deriveMagic_raises {nBits divisor : Int} (h : ¬MagicRange nBits divisor) :
    ∃ message, deriveMagic nBits divisor = .error (.valueError message) := by
  rw [deriveMagic]
  by_cases hd : 1 < divisor
  · rw [if_pos hd, pyShiftLeft]
    by_cases hn : nBits < 0
    · rw [if_pos hn]
      exact ⟨_, rfl⟩
    · have hbig : ¬divisor < 1 * 2 ^ nBits.toNat := by
        rw [one_mul]
        exact fun hlt => h ⟨by omega, hd, hlt⟩
      rw [if_neg hn, except_ok_bind, if_neg hbig]
      exact ⟨_, rfl⟩
  · rw [if_neg hd]
    exact ⟨_, rfl⟩

theorem forM_eq_ok {ε α : Type} {f : α → Except ε Unit} {xs : List α} (h : ∀ x ∈ xs, f x = .ok ()) :
    xs.forM f = .ok () := by
  induction xs with
  | nil => rfl
  | cons x xs ih =>
    rw [List.forM, h x (by simp), except_ok_bind]
    exact ih fun y hy => h y (by simp [hy])

theorem MagicRange.natCast {nBits divisor : Int} (h : MagicRange nBits divisor) :
    ∃ k d : ℕ, nBits = k ∧ divisor = d ∧ 1 < d ∧ d < 2 ^ k := by
  obtain ⟨hn, hd, hlt⟩ := h
  obtain ⟨k, rfl⟩ := Int.eq_ofNat_of_zero_le hn
  obtain ⟨d, rfl⟩ := Int.eq_ofNat_of_zero_le (show 0 ≤ divisor by omega)
  rw [Int.toNat_natCast] at hlt
  exact ⟨k, d, rfl, rfl, by omega, by exact_mod_cast hlt⟩

/-- The multiplier is derived exactly for the divisors between 1 and `2 ^ nBits`, and there the
high product and one correction step divide every number below `2 ^ nBits`. -/
theorem derive_magic_sound (nBits divisor : Int) :
    (MagicRange nBits divisor → ∃ m, deriveMagic nBits divisor = .ok m ∧
      0 ≤ 2 ^ nBits.toNat - m * divisor ∧ 2 ^ nBits.toNat - m * divisor ≤ divisor - 1 ∧
      (∀ v, 0 ≤ v → v < 2 ^ nBits.toNat →
        (∃ q, pyShiftRight (v * m) nBits = .ok q ∧ v.fdiv divisor - 1 ≤ q ∧ q ≤ v.fdiv divisor) ∧
        magicDivmod nBits divisor m v = .ok (v.fdiv divisor, v.fmod divisor)) ∧
      ∀ draws, (∀ v ∈ draws (2 ^ nBits.toNat - 1), 0 ≤ v ∧ v ≤ 2 ^ nBits.toNat - 1) →
        verifyAgainstReference nBits divisor m draws = .ok ()) ∧
    (¬MagicRange nBits divisor →
      ∃ message, deriveMagic nBits divisor = .error (.valueError message)) := by
  refine ⟨fun h => ?_, deriveMagic_raises⟩
  obtain ⟨k, d, rfl, rfl, hd, hn⟩ := h.natCast
  have hpow : (2 : Int) ^ k = ((2 ^ k : ℕ) : Int) := by
    push_cast
    rfl
  rw [Int.toNat_natCast, hpow]
  obtain ⟨hdeficit, hdeficit'⟩ := floor_deficit (show 0 < d by omega) (2 ^ k)
  refine ⟨_, deriveMagic_natCast hd hn, hdeficit, hdeficit', ?_, ?_⟩
  · intro v hv hlt
    obtain ⟨v, rfl⟩ := Int.eq_ofNat_of_zero_le hv
    obtain ⟨hhigh, hlow, hdivmod⟩ := magicDivmod_natCast (show 0 < d by omega) (Int.ofNat_lt.mp hlt)
    rw [fdiv_natCast, fmod_natCast]
    refine ⟨⟨((v * (2 ^ k / d) / 2 ^ k : ℕ) : Int), ?_, ?_, ?_⟩, hdivmod⟩
    · rw [← Nat.cast_mul]
      exact pyShiftRight_natCast _ k
    · omega
    · omega
  · intro draws hdraws
    rw [verifyAgainstReference, pyShiftLeft_one, except_ok_bind]
    apply forM_eq_ok
    intro v hmem
    obtain ⟨hv, hle⟩ := hdraws v hmem
    obtain ⟨v, rfl⟩ := Int.eq_ofNat_of_zero_le hv
    exact verifySample_natCast (by omega) (by omega)

theorem derive_magic_sound_div62 :
    ∃ m, deriveMagic 64 62 = .ok m ∧ 2 ^ 64 - m * 62 ≤ 61 ∧
      magicDivmod 64 62 m (2 ^ 64 - 1) = .ok ((2 ^ 64 - 1) / 62, (2 ^ 64 - 1) % 62) := by
  obtain ⟨m, hm, -, hdeficit, hall, -⟩ := (derive_magic_sound 64 62).1 (by decide)
  exact ⟨m, hm, hdeficit, (hall (2 ^ 64 - 1) (by decide) (by decide)).2⟩

/-- The multiplier of the vector kernel is the derived one. -/
example : deriveMagic 64 62 = .ok ksuidDiv62M.toNat := by decide

end Chronoid
