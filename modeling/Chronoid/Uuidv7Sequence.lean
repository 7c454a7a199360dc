import Chronoid.Uuidv7
import Mathlib.Tactic.IntervalCases

/-! The monotonic UUIDv7 sequence: the calls as the source computes them and what
one call can do. -/

namespace Chronoid

structure Uuidv7Sequence where
  lastMs : Int
  counter : Word16
  randB : Vector Byte 8
  deriving DecidableEq, Repr

def uuidv7CounterMask : Word32 := 0x0FFF#32

def uuidv7SequenceDrawRandom (f : Fill) (n : ℕ) : Uuidv7Err × Vector Byte n :=
  if f.ret ≠ 0 then (.errRng, f.buf n) else (.ok, f.buf n)

/-- A failing draw leaves the caller's counter alone; what stands here for it then
is never read. -/
def uuidv7SequenceDrawCounter (f : Fill) : Uuidv7Err × Word16 :=
  let two := uuidv7SequenceDrawRandom f 2
  (two.1, ((two.2[0].setWidth 32 <<< 8 ||| two.2[1].setWidth 32) &&& uuidv7CounterMask).setWidth 16)

structure InitResult where
  err : Uuidv7Err
  seq : Uuidv7Sequence
  draws : ℕ

def uuidv7SequenceInit (src : RandomSource) (k : ℕ) (s : Uuidv7Sequence) : InitResult :=
  let counter := uuidv7SequenceDrawCounter (src k)
  if counter.1 ≠ .ok then ⟨counter.1, s, k + 1⟩
  else
    let randB := uuidv7SequenceDrawRandom (src (k + 1)) 8
    if randB.1 ≠ .ok then ⟨randB.1, s, k + 2⟩
    else ⟨.ok, ⟨0, counter.2, randB.2⟩, k + 2⟩

def uuidv7SequenceEmit (unixMs : Int) (counter : Word16) (randB : Vector Byte 8) : Uuidv7 :=
  let ms : Word64 := BitVec.ofInt 64 unixMs
  let c := counter &&& uuidv7CounterMask.setWidth 16
  ⟨#v[(ms >>> 40).setWidth 8, (ms >>> 32).setWidth 8, (ms >>> 24).setWidth 8,
    (ms >>> 16).setWidth 8, (ms >>> 8).setWidth 8, ms.setWidth 8,
    (0x70#16 ||| ((c >>> 8) &&& 0x0F#16)).setWidth 8, (c &&& 0xFF#16).setWidth 8,
    0x80#8 ||| (randB[0] &&& 0x3F#8),
    randB[1], randB[2], randB[3], randB[4], randB[5], randB[6], randB[7]]⟩

structure NextResult where
  err : Uuidv7Err
  seq : Uuidv7Sequence
  out : Uuidv7
  draws : ℕ

/-- A fresh step to millisecond `ms`: the tail is drawn before the counter, and
the sequence is written only after both draws. -/
def uuidv7SequenceFresh (src : RandomSource) (k : ℕ) (ms : Int) (s : Uuidv7Sequence)
    (out : Uuidv7) : NextResult :=
  let newRandB := uuidv7SequenceDrawRandom (src k) 8
  if newRandB.1 ≠ .ok then ⟨newRandB.1, s, out, k + 1⟩
  else
    let newCounter := uuidv7SequenceDrawCounter (src (k + 1))
    if newCounter.1 ≠ .ok then ⟨newCounter.1, s, out, k + 2⟩
    else
      ⟨.ok, ⟨ms, newCounter.2, newRandB.2⟩,
        uuidv7SequenceEmit ms newCounter.2 newRandB.2, k + 2⟩

def uuidv7SequenceNext (src : RandomSource) (k : ℕ) (wallMs : Int) (s : Uuidv7Sequence)
    (out : Uuidv7) : NextResult :=
  let effectiveMs :=
    if wallMs < s.lastMs ∨ wallMs > uuidv7MaxUnixMs then s.lastMs else wallMs
  if effectiveMs < 0 ∨ effectiveMs > uuidv7MaxUnixMs then
    ⟨.errTimeRange, s, out, k⟩
  else if effectiveMs > s.lastMs then
    uuidv7SequenceFresh src k effectiveMs s out
  else
    let bumped : Word32 := s.counter.setWidth 32 + 1#32
    if bumped > uuidv7CounterMask then
      if s.lastMs ≥ uuidv7MaxUnixMs then
        ⟨.errTimeRange, s, out, k⟩
      else
        uuidv7SequenceFresh src k (s.lastMs + 1) s out
    else
      ⟨.ok, { s with counter := bumped.setWidth 16 },
        uuidv7SequenceEmit s.lastMs (bumped.setWidth 16) s.randB, k⟩

structure Uuidv7Sequence.Valid (s : Uuidv7Sequence) : Prop where
  counter_le : s.counter.toNat ≤ 0xFFF
  lastMs_nonneg : 0 ≤ s.lastMs
  lastMs_le : s.lastMs ≤ uuidv7MaxUnixMs

/-- No millisecond is left: the counter is full in the last one. -/
def Uuidv7Sequence.AtEnd (s : Uuidv7Sequence) : Prop :=
  s.lastMs = uuidv7MaxUnixMs ∧ s.counter.toNat = 0xFFF

theorem drawRandom_ok_iff {f : Fill} {n : ℕ} :
    (uuidv7SequenceDrawRandom f n).1 = .ok ↔ f.ret = 0 := by
  unfold uuidv7SequenceDrawRandom
  split_ifs with h <;> simp_all

theorem drawRandom_err {f : Fill} {n : ℕ} (h : f.ret ≠ 0) :
    (uuidv7SequenceDrawRandom f n).1 = .errRng := by
  simp [uuidv7SequenceDrawRandom, h]

theorem drawCounter_ok_iff {f : Fill} : (uuidv7SequenceDrawCounter f).1 = .ok ↔ f.ret = 0 :=
  drawRandom_ok_iff

theorem drawCounter_err {f : Fill} (h : f.ret ≠ 0) :
    (uuidv7SequenceDrawCounter f).1 = .errRng :=
  drawRandom_err h

theorem drawCounter_le (f : Fill) : (uuidv7SequenceDrawCounter f).2.toNat ≤ 0xFFF := by
  simp only [uuidv7SequenceDrawCounter, uuidv7CounterMask, BitVec.toNat_setWidth, BitVec.toNat_and]
  exact (Nat.mod_le _ _).trans Nat.and_le_right

theorem init_eq {src : RandomSource} {k k' : ℕ} {s s' : Uuidv7Sequence}
    (h : uuidv7SequenceInit src k s = ⟨.ok, s', k'⟩) :
    s' = ⟨0, (uuidv7SequenceDrawCounter (src k)).2, (src (k + 1)).buf 8⟩ ∧
      (src k).ret = 0 ∧ (src (k + 1)).ret = 0 ∧ k' = k + 2 := by
  unfold uuidv7SequenceInit at h
  by_cases h₁ : (src k).ret = 0
  · by_cases h₂ : (src (k + 1)).ret = 0
    · simp only [ne_eq, drawCounter_ok_iff.mpr h₁, drawRandom_ok_iff.mpr h₂, not_true, if_false,
        InitResult.mk.injEq, true_and] at h
      obtain ⟨rfl, rfl⟩ := h
      exact ⟨by simp [uuidv7SequenceDrawRandom, h₂], h₁, h₂, rfl⟩
    · simp [drawCounter_ok_iff.mpr h₁, drawRandom_err h₂] at h
  · simp [drawCounter_err h₁] at h

theorem init_ok {src : RandomSource} {k k' : ℕ} {s s' : Uuidv7Sequence}
    (h : uuidv7SequenceInit src k s = ⟨.ok, s', k'⟩) :
    s'.Valid ∧ (src k).ret = 0 ∧ (src (k + 1)).ret = 0 ∧ k' = k + 2 := by
  obtain ⟨rfl, hret⟩ := init_eq h
  exact ⟨⟨drawCounter_le _, le_refl _, by simp [uuidv7MaxUnixMs]⟩, hret⟩

/-- The fresh millisecond a call moves to: the clock's, when it is ahead and in
range, and otherwise one more than the last when the counter is full. -/
def FreshMs (s : Uuidv7Sequence) (wallMs ms : Int) : Prop :=
  (s.lastMs < wallMs ∧ wallMs ≤ uuidv7MaxUnixMs ∧ ms = wallMs) ∨
    ((wallMs ≤ s.lastMs ∨ uuidv7MaxUnixMs < wallMs) ∧ s.counter.toNat = 0xFFF ∧
      s.lastMs < uuidv7MaxUnixMs ∧ ms = s.lastMs + 1)

theorem FreshMs.lt {s : Uuidv7Sequence} {wallMs ms : Int} (h : FreshMs s wallMs ms) :
    s.lastMs < ms ∧ ms ≤ uuidv7MaxUnixMs := by
  rcases h with ⟨h₁, h₂, rfl⟩ | ⟨_, _, h, rfl⟩
  · exact ⟨h₁, h₂⟩
  · exact ⟨by omega, by omega⟩

/-- Everything one call on a valid sequence can do. -/
inductive NextStep (src : RandomSource) (k : ℕ) (wallMs : Int) (s : Uuidv7Sequence)
    (out : Uuidv7) : NextResult → Prop
  | exhausted (hend : s.AtEnd) (hwall : wallMs ≤ s.lastMs ∨ uuidv7MaxUnixMs < wallMs) :
      NextStep src k wallMs s out ⟨.errTimeRange, s, out, k⟩
  | tailFailed {ms : Int} (hms : FreshMs s wallMs ms) (htail : (src k).ret ≠ 0) :
      NextStep src k wallMs s out ⟨.errRng, s, out, k + 1⟩
  | counterFailed {ms : Int} (hms : FreshMs s wallMs ms) (htail : (src k).ret = 0)
      (hcounter : (src (k + 1)).ret ≠ 0) :
      NextStep src k wallMs s out ⟨.errRng, s, out, k + 2⟩
  | fresh {ms : Int} {s' : Uuidv7Sequence} (hms : FreshMs s wallMs ms) (htail : (src k).ret = 0)
      (hcounter : (src (k + 1)).ret = 0)
      (hs' : s' = ⟨ms, (uuidv7SequenceDrawCounter (src (k + 1))).2, (src k).buf 8⟩) :
      NextStep src k wallMs s out
        ⟨.ok, s', uuidv7SequenceEmit s'.lastMs s'.counter s'.randB, k + 2⟩
  | increment {s' : Uuidv7Sequence} (hwall : wallMs ≤ s.lastMs ∨ uuidv7MaxUnixMs < wallMs)
      (hlt : s.counter.toNat < 0xFFF) (hs' : s' = { s with counter := s.counter + 1#16 }) :
      NextStep src k wallMs s out
        ⟨.ok, s', uuidv7SequenceEmit s'.lastMs s'.counter s'.randB, k⟩

theorem fresh_step {src : RandomSource} {k : ℕ} {wallMs ms : Int} {s : Uuidv7Sequence}
    (hms : FreshMs s wallMs ms) (out : Uuidv7) :
    NextStep src k wallMs s out (uuidv7SequenceFresh src k ms s out) := by
  unfold uuidv7SequenceFresh
  by_cases h₁ : (src k).ret = 0
  · by_cases h₂ : (src (k + 1)).ret = 0
    · simp only [ne_eq, drawRandom_ok_iff.mpr h₁, drawCounter_ok_iff.mpr h₂, not_true, if_false]
      exact .fresh hms h₁ h₂ (by simp [uuidv7SequenceDrawRandom, h₁])
    · simp only [ne_eq, drawRandom_ok_iff.mpr h₁, drawCounter_err h₂, not_true, if_false]
      exact .counterFailed hms h₁ h₂
  · simp only [ne_eq, drawRandom_err h₁]
    exact .tailFailed hms h₁

theorem bumped_toNat (c : Word16) : (c.setWidth 32 + 1#32 : Word32).toNat = c.toNat + 1 := by
  have := c.isLt
  simp only [BitVec.toNat_add, BitVec.toNat_setWidth, BitVec.toNat_ofNat]
  omega

theorem bumped_gt_iff (c : Word16) :
    (c.setWidth 32 + 1#32 : Word32) > uuidv7CounterMask ↔ 0xFFF ≤ c.toNat := by
  rw [gt_iff_lt, BitVec.lt_def, bumped_toNat]
  exact Nat.lt_succ_iff

theorem next_step (src : RandomSource) (k : ℕ) (wallMs : Int) {s : Uuidv7Sequence}
    (hs : s.Valid) (out : Uuidv7) :
    NextStep src k wallMs s out (uuidv7SequenceNext src k wallMs s out) := by
  obtain ⟨hc, h0, hm⟩ := hs
  unfold uuidv7SequenceNext
  by_cases hw : s.lastMs < wallMs ∧ wallMs ≤ uuidv7MaxUnixMs
  · simp only [gt_iff_lt, if_neg (show ¬(wallMs < s.lastMs ∨ uuidv7MaxUnixMs < wallMs) by omega),
      if_neg (show ¬(wallMs < 0 ∨ uuidv7MaxUnixMs < wallMs) by omega), if_pos hw.1]
    exact fresh_step (.inl ⟨hw.1, hw.2, rfl⟩) out
  · -- the clock is behind, level or out of range: the last millisecond is kept
    have hwall : wallMs ≤ s.lastMs ∨ uuidv7MaxUnixMs < wallMs := by omega
    have heff : (if wallMs < s.lastMs ∨ wallMs > uuidv7MaxUnixMs then s.lastMs else wallMs) =
        s.lastMs := by split_ifs <;> omega
    simp only [heff, gt_iff_lt, if_neg (show ¬(s.lastMs < 0 ∨ uuidv7MaxUnixMs < s.lastMs) by omega),
      lt_irrefl, if_false]
    by_cases hfull : 0xFFF ≤ s.counter.toNat
    · rw [if_pos ((bumped_gt_iff _).mpr hfull)]
      have hfull : s.counter.toNat = 0xFFF := le_antisymm hc hfull
      by_cases hend : s.lastMs ≥ uuidv7MaxUnixMs
      · rw [if_pos hend]
        exact .exhausted ⟨le_antisymm hm hend, hfull⟩ hwall
      · rw [if_neg hend]
        exact fresh_step (.inr ⟨hwall, hfull, by omega, rfl⟩) out
    · rw [if_neg (mt (bumped_gt_iff _).mp hfull)]
      have hbumped : (s.counter.setWidth 32 + 1#32 : Word32).setWidth 16 = s.counter + 1#16 := by
        apply BitVec.eq_of_toNat_eq
        rw [BitVec.toNat_setWidth, bumped_toNat, BitVec.toNat_add]
        rfl
      rw [hbumped]
      refine .increment hwall ?_ rfl
      omega

theorem next_valid {src : RandomSource} {k : ℕ} {wallMs : Int} {s : Uuidv7Sequence}
    {out : Uuidv7} {r : NextResult} (hs : s.Valid) (h : NextStep src k wallMs s out r) :
    r.seq.Valid := by
  cases h with
  | exhausted | tailFailed | counterFailed => exact hs
  | fresh hms _ _ hs' =>
    subst hs'
    have hlt := hms.lt
    exact ⟨drawCounter_le _, by have := hs.lastMs_nonneg; simp only; omega, hlt.2⟩
  | increment _ hlt hs' =>
    subst hs'
    refine ⟨?_, hs.lastMs_nonneg, hs.lastMs_le⟩
    simp only [BitVec.toNat_add, BitVec.toNat_ofNat]
    omega

end Chronoid
