import Mathlib.Order.CompletePartialOrder
import Chronoid.Uuidv7SequenceRuns

/-! A run of a UUIDv7 sequence that keeps track of its random draws: every identifier
is logged with the draws its tail and its starting counter came from. -/

namespace Chronoid

structure Origin where
  tail : ℕ
  counter : ℕ
  deriving DecidableEq, Repr

def Origin.draws (o : Origin) : Set ℕ := {o.tail, o.counter}

/-- `age` counts the increments since the counter was drawn. -/
structure TracedRun where
  run : SequenceRun
  origin : Origin
  age : ℕ

/-- A successful call: the sequence it found and left, the clock it read, and what it emitted. -/
structure Emission where
  before : Uuidv7Sequence
  wallMs : Int
  after : Uuidv7Sequence
  id : Uuidv7
  origin : Origin
  age : ℕ

def tracedInit (k : ℕ) (s : Uuidv7Sequence) : TracedRun := ⟨⟨s, k + 2⟩, ⟨k + 1, k⟩, 0⟩

/-- A successful call that drew has drawn its tail first and its counter next. -/
def tracedStep (src : RandomSource) (st : TracedRun) (c : NextCall) : TracedRun × Option Emission :=
  let r := uuidv7SequenceNext src st.run.draws c.wallMs st.run.seq c.out
  if r.err = .ok then
    let drew := st.run.draws < r.draws
    let origin := if drew then ⟨st.run.draws, st.run.draws + 1⟩ else st.origin
    let age := if drew then 0 else st.age + 1
    (⟨⟨r.seq, r.draws⟩, origin, age⟩, some ⟨st.run.seq, c.wallMs, r.seq, r.out, origin, age⟩)
  else (⟨⟨r.seq, r.draws⟩, st.origin, st.age⟩, none)

/-- The call moved to a millisecond of its own, by a clock tick or a counter rollover. -/
def Emission.Fresh (e : Emission) : Prop := ∃ ms, FreshMs e.before e.wallMs ms

theorem tracedStep_run (src : RandomSource) (st : TracedRun) (c : NextCall) :
    sequenceStep src st.run c =
      ((tracedStep src st c).1.run, (tracedStep src st c).2.map Emission.id) := by
  simp only [sequenceStep, tracedStep]
  split_ifs <;> rfl

theorem traced_run (src : RandomSource) (st : TracedRun) (calls : List NextCall) :
    (Machine.run (sequenceStep src) st.run calls).1 =
      (Machine.run (tracedStep src) st calls).1.run ∧
      (Machine.run (sequenceStep src) st.run calls).2.reduceOption =
        (Machine.emitted (tracedStep src) st calls).map Emission.id := by
  rw [Machine.run_map (tracedStep_run src) st calls]
  exact ⟨rfl, List.reduceOption_map⟩

/-- Everything one call can do to a traced run whose sequence is valid. -/
inductive TracedStep (src : RandomSource) (st : TracedRun) (c : NextCall) :
    TracedRun × Option Emission → Prop
  | failed {d : ℕ} (hd : st.run.draws ≤ d) :
      TracedStep src st c (⟨⟨st.run.seq, d⟩, st.origin, st.age⟩, none)
  | fresh {ms : Int} {s : Uuidv7Sequence} (hms : FreshMs st.run.seq c.wallMs ms)
      (htail : (src st.run.draws).ret = 0) (hcounter : (src (st.run.draws + 1)).ret = 0)
      (hs : s = ⟨ms, (uuidv7SequenceDrawCounter (src (st.run.draws + 1))).2,
        (src st.run.draws).buf 8⟩) :
      TracedStep src st c
        (⟨⟨s, st.run.draws + 2⟩, ⟨st.run.draws, st.run.draws + 1⟩, 0⟩,
          some ⟨st.run.seq, c.wallMs, s, uuidv7SequenceEmit s.lastMs s.counter s.randB,
            ⟨st.run.draws, st.run.draws + 1⟩, 0⟩)
  | increment {s : Uuidv7Sequence}
      (hwall : c.wallMs ≤ st.run.seq.lastMs ∨ uuidv7MaxUnixMs < c.wallMs)
      (hlt : st.run.seq.counter.toNat < 0xFFF)
      (hs : s = { st.run.seq with counter := st.run.seq.counter + 1#16 }) :
      TracedStep src st c
        (⟨⟨s, st.run.draws⟩, st.origin, st.age + 1⟩,
          some ⟨st.run.seq, c.wallMs, s, uuidv7SequenceEmit s.lastMs s.counter s.randB, st.origin,
            st.age + 1⟩)

theorem traced_step (src : RandomSource) (st : TracedRun) (c : NextCall) (hv : st.run.seq.Valid) :
    TracedStep src st c (tracedStep src st c) := by
  have hn := next_step src st.run.draws c.wallMs hv c.out
  rw [tracedStep]
  generalize uuidv7SequenceNext src st.run.draws c.wallMs st.run.seq c.out = r at hn
  cases hn with
  | exhausted => exact .failed (le_refl _)
  | tailFailed => exact .failed (Nat.le_succ _)
  | counterFailed => exact .failed (Nat.le_add_right _ 2)
  | fresh hms htail hcounter hs =>
    simp only [if_true, if_pos (show st.run.draws < st.run.draws + 2 by omega)]
    exact .fresh hms htail hcounter hs
  | increment hwall hlt hs =>
    simp only [if_true, if_neg (lt_irrefl st.run.draws)]
    exact .increment hwall hlt hs

/-- The tail and the counter of a sequence are those of two successful draws, the counter
`age` increments later. -/
structure Sourced (src : RandomSource) (s : Uuidv7Sequence) (o : Origin) (age : ℕ) : Prop where
  valid : s.Valid
  tail_ok : (src o.tail).ret = 0
  counter_ok : (src o.counter).ret = 0
  tail : s.randB = (src o.tail).buf 8
  counter : s.counter.toNat = (uuidv7SequenceDrawCounter (src o.counter)).2.toNat + age

structure TracedRun.Invariant (src : RandomSource) (st : TracedRun) : Prop where
  sourced : Sourced src st.run.seq st.origin st.age
  tail_lt : st.origin.tail < st.run.draws
  counter_lt : st.origin.counter < st.run.draws

theorem tracedInit_invariant {src : RandomSource} {k k' : ℕ} {s s' : Uuidv7Sequence}
    (h : uuidv7SequenceInit src k s = ⟨.ok, s', k'⟩) : (tracedInit k s').Invariant src := by
  obtain ⟨hs, htail, hcounter, -⟩ := init_eq h
  refine ⟨⟨(init_ok h).1, hcounter, htail, ?_, ?_⟩, Nat.lt_succ_self _,
    Nat.lt_add_of_pos_right Nat.two_pos⟩
  · rw [tracedInit, hs]
  · rw [tracedInit, hs]
    rfl

theorem not_freshMs {s : Uuidv7Sequence} {wallMs : Int}
    (hwall : wallMs ≤ s.lastMs ∨ uuidv7MaxUnixMs < wallMs) (hlt : s.counter.toNat < 0xFFF) :
    ¬∃ ms, FreshMs s wallMs ms := by
  rintro ⟨ms, hms | hms⟩
  · omega
  · omega

theorem toNat_increment {c : Word16} (h : c.toNat < 0xFFF) : (c + 1#16).toNat = c.toNat + 1 := by
  rw [BitVec.toNat_add]
  exact Nat.mod_eq_of_lt (by simp; omega)

/-- An emission of a traced run: what it shows and where its random bits came from. -/
structure Emission.Sound (src : RandomSource) (e : Emission) : Prop where
  sourced : Sourced src e.after e.origin e.age
  id : e.id = uuidv7SequenceEmit e.after.lastMs e.after.counter e.after.randB
  fresh : e.Fresh ↔ e.age = 0

theorem TracedStep.invariant {src : RandomSource} {st : TracedRun} {c : NextCall}
    {r : TracedRun × Option Emission} (hst : st.Invariant src) (h : TracedStep src st c r) :
    r.1.Invariant src ∧ ∀ e, r.2 = some e → e.Sound src := by
  obtain ⟨hs, htail, hcounter⟩ := hst
  cases h with
  | failed hd => exact ⟨⟨hs, by simp only; omega, by simp only; omega⟩, by simp⟩
  | @fresh ms s hms hrtail hrcounter he =>
    have hsourced : Sourced src s ⟨st.run.draws, st.run.draws + 1⟩ 0 := by
      have hlt := hms.lt
      have h0 := hs.valid.lastMs_nonneg
      subst he
      exact ⟨⟨drawCounter_le _, by simp only; omega, hlt.2⟩, hrtail, hrcounter, rfl, rfl⟩
    refine ⟨⟨hsourced, by simp only; omega, by simp only; omega⟩, ?_⟩
    rintro e ⟨⟩
    exact ⟨hsourced, rfl, fun _ => rfl, fun _ => ⟨ms, hms⟩⟩
  | @increment s hwall hlt he =>
    have hsourced : Sourced src s st.origin (st.age + 1) := by
      have hnat := toNat_increment hlt
      subst he
      refine ⟨⟨?_, hs.valid.lastMs_nonneg, hs.valid.lastMs_le⟩, hs.tail_ok, hs.counter_ok,
        hs.tail, ?_⟩
      · simp only [hnat]
        omega
      · simp only [hnat, hs.counter]
        omega
    refine ⟨⟨hsourced, htail, hcounter⟩, ?_⟩
    rintro e ⟨⟩
    exact ⟨hsourced, rfl, fun hf => absurd hf (not_freshMs hwall hlt), nofun⟩

theorem traced_invariant {src : RandomSource} {st : TracedRun} (hst : st.Invariant src)
    (calls : List NextCall) : (Machine.run (tracedStep src) st calls).1.Invariant src :=
  Machine.run_invariant (I := TracedRun.Invariant src)
    (fun st c hst => ((traced_step src st c hst.sourced.valid).invariant hst).1) hst calls

/-- The emission at index `n` is in the millisecond the run started from. -/
structure SameMs (st : TracedRun) (es : List Emission) (n : ℕ) (e : Emission) : Prop where
  lastMs : e.after.lastMs = st.run.seq.lastMs
  randB : e.after.randB = st.run.seq.randB
  counter : e.after.counter.toNat = st.run.seq.counter.toNat + (n + 1)
  origin : e.origin = st.origin
  steady : ∀ k ≤ n, ∀ e', es[k]? = some e' → ¬e'.Fresh

/-- The emission at index `n` is in a later one, with draws made since. -/
structure LaterMs (st : TracedRun) (es : List Emission) (n : ℕ) (e : Emission) : Prop where
  lastMs : st.run.seq.lastMs < e.after.lastMs
  tail : st.run.draws ≤ e.origin.tail
  counter : st.run.draws ≤ e.origin.counter
  fresh : ∃ k ≤ n, ∃ e', es[k]? = some e' ∧ e'.Fresh

theorem LaterMs.cons {st : TracedRun} {es : List Emission} {n : ℕ} {e : Emission}
    (h : LaterMs st es n e) (a : Emission) :
    ∃ k ≤ n + 1, ∃ e', (a :: es)[k]? = some e' ∧ e'.Fresh := by
  obtain ⟨k, hk, e', he', hf⟩ := h.fresh
  exact ⟨k + 1, by omega, e', by simpa using he', hf⟩

theorem emission_sameMs_or_laterMs {src : RandomSource} {st : TracedRun} (hst : st.Invariant src)
    (calls : List NextCall) {n : ℕ} {e : Emission}
    (h : (Machine.emitted (tracedStep src) st calls)[n]? = some e) :
    SameMs st (Machine.emitted (tracedStep src) st calls) n e ∨
      LaterMs st (Machine.emitted (tracedStep src) st calls) n e := by
  induction calls generalizing st n with
  | nil => simp at h
  | cons c calls ih =>
    have hstep := traced_step src st c hst.sourced.valid
    have hinv := (hstep.invariant hst).1
    rw [Machine.emitted_cons] at h ⊢
    generalize tracedStep src st c = r at *
    cases hstep with
    | @failed d hd =>
      simp only [Option.toList_none, List.nil_append] at h ⊢
      rcases ih hinv h with hs | hl
      · exact .inl ⟨hs.lastMs, hs.randB, hs.counter, hs.origin, hs.steady⟩
      · exact .inr ⟨hl.lastMs, hd.trans hl.tail, hd.trans hl.counter, hl.fresh⟩
    | @fresh ms s hms _ _ he =>
      simp only [Option.toList_some, List.singleton_append] at h ⊢
      have hlt : st.run.seq.lastMs < s.lastMs := by rw [he]; exact hms.lt.1
      right
      cases n with
      | zero =>
        obtain rfl := Option.some_inj.mp h
        exact ⟨hlt, le_refl _, Nat.le_succ _, 0, le_refl 0, _, rfl, ms, hms⟩
      | succ n =>
        rcases ih hinv h with hs | hl
        · refine ⟨hs.lastMs ▸ hlt, ?_, ?_, 0, Nat.zero_le _, _, rfl, ms, hms⟩
          · rw [hs.origin]
          · rw [hs.origin]
            exact Nat.le_succ _
        · exact ⟨hlt.trans hl.lastMs, le_trans (Nat.le_add_right _ 2) hl.tail,
            le_trans (Nat.le_add_right _ 2) hl.counter, hl.cons _⟩
    | @increment s hwall hlt he =>
      simp only [Option.toList_some, List.singleton_append] at h ⊢
      have hcounter : s.counter.toNat = st.run.seq.counter.toNat + 1 := by
        rw [he]
        exact toNat_increment hlt
      have hms : s.lastMs = st.run.seq.lastMs := by rw [he]
      have hrandB : s.randB = st.run.seq.randB := by rw [he]
      cases n with
      | zero =>
        obtain rfl := Option.some_inj.mp h
        refine .inl ⟨hms, hrandB, hcounter, rfl, fun k hk e' he' => ?_⟩
        obtain rfl := Nat.le_zero.mp hk
        obtain rfl := Option.some_inj.mp he'
        exact not_freshMs hwall hlt
      | succ n =>
        rcases ih hinv h with hs | hl
        · refine .inl ⟨hs.lastMs.trans hms, hs.randB.trans hrandB, ?_, hs.origin,
            fun k hk e' he' => ?_⟩
          · have := hs.counter
            simp only at this
            omega
          · cases k with
            | zero =>
              obtain rfl := Option.some_inj.mp he'
              exact not_freshMs hwall hlt
            | succ k => exact hs.steady k (by omega) e' (by simpa using he')
        · exact .inr ⟨hms ▸ hl.lastMs, hl.tail, hl.counter, hl.cons _⟩

theorem traced_sound {src : RandomSource} {st : TracedRun} (hst : st.Invariant src)
    (calls : List NextCall) : ∀ e ∈ Machine.emitted (tracedStep src) st calls, e.Sound src :=
  Machine.emitted_forall (I := TracedRun.Invariant src)
    (fun st c hst => (traced_step src st c hst.sourced.valid).invariant hst) hst calls

theorem Emission.Sound.unixMs {src : RandomSource} {e : Emission} (h : e.Sound src) :
    uuidv7UnixMs e.id = e.after.lastMs := by
  rw [h.id, h.sourced.valid.unixMs_emit]

theorem Emission.Sound.randA {src : RandomSource} {e : Emission} (h : e.Sound src) :
    (uuidv7RandA e.id).toNat = e.after.counter.toNat := by
  rw [h.id, h.sourced.valid.randA_emit]

theorem Emission.Sound.randB_eq {src : RandomSource} {a b : Emission} (ha : a.Sound src)
    (hb : b.Sound src) (h : a.after.randB = b.after.randB) :
    uuidv7RandB a.id = uuidv7RandB b.id := by
  refine Vector.toList_inj.mp (bytesValue_inj (by simp) ?_)
  rw [ha.id, hb.id, ha.sourced.valid.randB_emit, hb.sourced.valid.randB_emit, h]

/-- What an earlier emission determines of a later one: in its own millisecond all but the
counter, and in a later one that neither of its draws is used again. -/
theorem emission_pair {src : RandomSource} {st : TracedRun} (hst : st.Invariant src)
    (calls : List NextCall) {i j : ℕ} {a b : Emission} (hij : i < j)
    (ha : (Machine.emitted (tracedStep src) st calls)[i]? = some a)
    (hb : (Machine.emitted (tracedStep src) st calls)[j]? = some b) :
    let es := Machine.emitted (tracedStep src) st calls
    (b.after.lastMs = a.after.lastMs ∧ b.after.randB = a.after.randB ∧ b.origin = a.origin ∧
      b.after.counter.toNat = a.after.counter.toNat + (j - i) ∧
      ∀ k e, i < k → k ≤ j → es[k]? = some e → ¬e.Fresh) ∨
    (a.after.lastMs < b.after.lastMs ∧ Disjoint a.origin.draws b.origin.draws ∧
      ∃ k e, i < k ∧ k ≤ j ∧ es[k]? = some e ∧ e.Fresh) := by
  intro es
  obtain ⟨pre, c, post, -, ho, hlen, hsplit⟩ := Machine.emitted_split ha
  have hpre := traced_invariant hst pre
  have hstep := traced_step src (Machine.run (tracedStep src) st pre).1 c hpre.sourced.valid
  have hinv := (hstep.invariant hpre).1
  -- the emission leaves its own sequence and origin behind
  have hleft : (tracedStep src (Machine.run (tracedStep src) st pre).1 c).1.run.seq = a.after ∧
      (tracedStep src (Machine.run (tracedStep src) st pre).1 c).1.origin = a.origin := by
    generalize tracedStep src (Machine.run (tracedStep src) st pre).1 c = r at ho hstep
    cases hstep with
    | failed => cases ho
    | fresh | increment =>
      cases ho
      exact ⟨rfl, rfl⟩
  have hindex (k : ℕ) (hk : i < k) : es[k]? =
      (Machine.emitted (tracedStep src)
        (tracedStep src (Machine.run (tracedStep src) st pre).1 c).1 post)[k - i - 1]? := by
    obtain ⟨m, hm⟩ := Nat.exists_eq_add_of_lt hk
    rw [show es = _ from hsplit, List.getElem?_append_right (by omega), hlen,
      show k - i = m + 1 by omega, List.getElem?_cons_succ, Nat.add_sub_cancel]
  generalize (tracedStep src (Machine.run (tracedStep src) st pre).1 c).1 = st' at *
  obtain ⟨hseq, horigin⟩ := hleft
  have hb' := hb
  rw [show Machine.emitted (tracedStep src) st calls = es from rfl, hindex j hij] at hb'
  rcases emission_sameMs_or_laterMs hinv post hb' with hs | hl
  · left
    refine ⟨hs.lastMs.trans (congrArg _ hseq), hs.randB.trans (congrArg _ hseq),
      hs.origin.trans horigin, ?_, fun k e hik hkj he => ?_⟩
    · rw [hs.counter, hseq]
      omega
    · exact hs.steady (k - i - 1) (by omega) e (by rw [← hindex k hik]; exact he)
  · right
    refine ⟨hseq ▸ hl.lastMs, ?_, ?_⟩
    · have htail := hinv.tail_lt
      have hcounter := hinv.counter_lt
      rw [horigin] at htail hcounter
      have htail' := hl.tail
      have hcounter' := hl.counter
      simp only [Origin.draws, Set.disjoint_insert_left, Set.mem_insert_iff, Set.mem_singleton_iff,
        Set.disjoint_singleton_left]
      omega
    · obtain ⟨k, hk, e, he, hf⟩ := hl.fresh
      refine ⟨i + 1 + k, e, by omega, by omega, ?_, hf⟩
      rw [hindex _ (by omega), show i + 1 + k - i - 1 = k by omega]
      exact he

theorem traced_draws_lt {src : RandomSource} {st : TracedRun} (hst : st.Invariant src)
    (calls : List NextCall) : ∀ e ∈ Machine.emitted (tracedStep src) st calls,
      ∀ d ∈ e.origin.draws, d < (Machine.run (tracedStep src) st calls).1.run.draws := by
  have hstep (st : TracedRun) (c : NextCall) (hst : st.Invariant src) :
      (tracedStep src st c).1.Invariant src ∧ st.run.draws ≤ (tracedStep src st c).1.run.draws ∧
        ∀ e, (tracedStep src st c).2 = some e →
          max e.origin.tail e.origin.counter + 1 ≤ (tracedStep src st c).1.run.draws := by
    have hcall := traced_step src st c hst.sourced.valid
    refine ⟨(hcall.invariant hst).1, ?_, ?_⟩
    all_goals
      have htail := hst.tail_lt
      have hcounter := hst.counter_lt
      generalize tracedStep src st c = r at hcall ⊢
    · cases hcall with
      | failed hd => exact hd
      | fresh => exact Nat.le_add_right _ 2
      | increment => exact le_refl _
    · rintro e he
      cases hcall with
      | failed => cases he
      | fresh | increment =>
        cases he
        simp only
        omega
  intro e he d hd
  have hle := (Machine.emitted_le (I := TracedRun.Invariant src) (fun st => st.run.draws) hstep hst
    calls).2 e he
  simp only [Origin.draws, Set.mem_insert_iff, Set.mem_singleton_iff] at hd
  omega

theorem failed_draws_unused {src : RandomSource} {st : TracedRun} (hst : st.Invariant src)
    (pre : List NextCall) (c : NextCall) (post : List NextCall)
    (hfail : (tracedStep src (Machine.run (tracedStep src) st pre).1 c).2 = none) {d : ℕ}
    (hd : (Machine.run (tracedStep src) st pre).1.run.draws ≤ d)
    (hd' : d < (tracedStep src (Machine.run (tracedStep src) st pre).1 c).1.run.draws) :
    ∀ e ∈ Machine.emitted (tracedStep src) st (pre ++ c :: post), d ∉ e.origin.draws := by
  intro e he
  have hpre := traced_invariant hst pre
  have hbefore := traced_draws_lt hst pre e
  rw [Machine.emitted_append, Machine.emitted_cons, hfail, Option.toList_none, List.nil_append,
    List.mem_append] at he
  generalize (Machine.run (tracedStep src) st pre).1 = st₁ at *
  have hstep := traced_step src st₁ c hpre.sourced.valid
  have hinv := (hstep.invariant hpre).1
  rcases he with he | he
  · intro hmem
    have := hbefore he d hmem
    omega
  · have horigin : (tracedStep src st₁ c).1.origin = st₁.origin := by
      generalize tracedStep src st₁ c = r at hfail hstep
      cases hstep with
      | failed => rfl
      | fresh | increment => cases hfail
    have htail := hpre.tail_lt
    have hcounter := hpre.counter_lt
    simp only [Origin.draws, Set.mem_insert_iff, Set.mem_singleton_iff]
    obtain ⟨n, hn⟩ := List.getElem?_of_mem he
    rcases emission_sameMs_or_laterMs hinv post hn with hs | hl
    · rw [hs.origin, horigin]
      omega
    · have htail' := hl.tail
      have hcounter' := hl.counter
      omega

theorem emission_disjoint {src : RandomSource} {st : TracedRun} (hst : st.Invariant src)
    (calls : List NextCall) {a b : Emission} (ha : a ∈ Machine.emitted (tracedStep src) st calls)
    (hb : b ∈ Machine.emitted (tracedStep src) st calls) (hne : a.after.lastMs ≠ b.after.lastMs) :
    Disjoint a.origin.draws b.origin.draws := by
  obtain ⟨i, hi⟩ := List.getElem?_of_mem ha
  obtain ⟨j, hj⟩ := List.getElem?_of_mem hb
  rcases Nat.lt_trichotomy i j with hij | rfl | hji
  · rcases emission_pair hst calls hij hi hj with ⟨hsame, _⟩ | ⟨_, hdisj, _⟩
    · exact absurd hsame.symm hne
    · exact hdisj
  · obtain rfl := Option.some_inj.mp (hi.symm.trans hj)
    exact absurd rfl hne
  · rcases emission_pair hst calls hji hj hi with ⟨hsame, _⟩ | ⟨_, hdisj, _⟩
    · exact absurd hsame hne
    · exact hdisj.symm

/-- The shape of a whole run. Each identifier is the one built from the state its call left.
Two share a millisecond exactly when no call after the first, up to the second, made a fresh
step, and then they share the tail too and count the calls between them. What is random in an
identifier comes from two successful draws, which no identifier of another millisecond and no
failed call shares. -/
theorem sequence_run_structure (src : RandomSource) {k₀ k : ℕ} {s₀ s : Uuidv7Sequence}
    (hinit : uuidv7SequenceInit src k₀ s₀ = ⟨.ok, s, k⟩) (calls : List NextCall) :
    let es := Machine.emitted (tracedStep src) (tracedInit k₀ s) calls
    es.map Emission.id = (Machine.run (sequenceStep src) ⟨s, k⟩ calls).2.reduceOption ∧
    (∀ e ∈ es, ∀ out,
      uuidv7FromParts out e.after.lastMs e.after.counter e.after.randB = (.ok, e.id)) ∧
    (∀ i j a b, i < j → es[i]? = some a → es[j]? = some b →
      (uuidv7UnixMs a.id = uuidv7UnixMs b.id ↔
        ∀ n e, i < n → n ≤ j → es[n]? = some e → ¬e.Fresh) ∧
      (uuidv7UnixMs a.id = uuidv7UnixMs b.id → uuidv7RandB a.id = uuidv7RandB b.id ∧
        (uuidv7RandA b.id).toNat = (uuidv7RandA a.id).toNat + (j - i))) ∧
    (∀ e ∈ es, (src e.origin.tail).ret = 0 ∧ (src e.origin.counter).ret = 0 ∧
      e.after.randB = (src e.origin.tail).buf 8 ∧
      (uuidv7RandA e.id).toNat =
        (uuidv7SequenceDrawCounter (src e.origin.counter)).2.toNat + e.age ∧
      (e.Fresh ↔ e.age = 0)) ∧
    (∀ a ∈ es, ∀ b ∈ es, uuidv7UnixMs a.id ≠ uuidv7UnixMs b.id →
      Disjoint a.origin.draws b.origin.draws) ∧
    ∀ pre c post, calls = pre ++ c :: post →
      let st := (Machine.run (sequenceStep src) ⟨s, k⟩ pre).1
      let r := uuidv7SequenceNext src st.draws c.wallMs st.seq c.out
      r.err ≠ .ok → ∀ d, st.draws ≤ d → d < r.draws → ∀ e ∈ es, d ∉ e.origin.draws := by
  intro es
  have hst := tracedInit_invariant hinit
  have hk : k = k₀ + 2 := (init_ok hinit).2.2.2
  subst hk
  have hsound := traced_sound hst calls
  have hms (e) (he : e ∈ es) : uuidv7UnixMs e.id = e.after.lastMs := (hsound e he).unixMs
  refine ⟨(traced_run src (tracedInit k₀ s) calls).2.symm, fun e he out => ?_, ?_,
    fun e he => ?_, ?_, ?_⟩
  · have hv := (hsound e he).sourced.valid
    rw [emit_eq_parts hv.lastMs_nonneg hv.lastMs_le, (hsound e he).id]
  · intro i j a b hij ha hb
    have hma := List.mem_of_getElem? ha
    have hmb := List.mem_of_getElem? hb
    rw [hms a hma, hms b hmb, (hsound a hma).randA, (hsound b hmb).randA]
    rcases emission_pair hst calls hij ha hb with ⟨hsame, hrandB, _, hcounter, hsteady⟩ |
        ⟨hlt, _, n, e, hin, hnj, he, hf⟩
    · exact ⟨⟨fun _ => hsteady, fun _ => hsame.symm⟩,
        fun _ => ⟨(hsound a hma).randB_eq (hsound b hmb) hrandB.symm, hcounter⟩⟩
    · exact ⟨⟨fun heq => absurd heq hlt.ne, fun hh => absurd hf (hh n e hin hnj he)⟩,
        fun heq => absurd heq hlt.ne⟩
  · have hs := (hsound e he).sourced
    exact ⟨hs.tail_ok, hs.counter_ok, hs.tail, (hsound e he).randA.trans hs.counter,
      (hsound e he).fresh⟩
  · intro a ha b hb hne
    rw [hms a ha, hms b hb] at hne
    exact emission_disjoint hst calls ha hb hne
  · rintro pre c post rfl st r hfail d hd hd'
    have hrun : st = (Machine.run (tracedStep src) (tracedInit k₀ s) pre).1.run :=
      (traced_run src (tracedInit k₀ s) pre).1
    have hstep : tracedStep src (Machine.run (tracedStep src) (tracedInit k₀ s) pre).1 c =
        (⟨⟨r.seq, r.draws⟩, (Machine.run (tracedStep src) (tracedInit k₀ s) pre).1.origin,
          (Machine.run (tracedStep src) (tracedInit k₀ s) pre).1.age⟩, none) := by
      rw [tracedStep, ← hrun]
      exact if_neg hfail
    exact failed_draws_unused hst pre c post (by rw [hstep]) (by rw [← hrun]; exact hd)
      (by rw [hstep]; exact hd')

theorem sequence_run_structure_two_ticks :
    let es := Machine.emitted (tracedStep fun _ => ⟨0, fun _ => 0⟩)
      (tracedInit 0 ⟨0, 0, Vector.replicate 8 0⟩)
      [⟨1000, ⟨Vector.replicate 16 0⟩⟩, ⟨1000, ⟨Vector.replicate 16 0⟩⟩,
        ⟨1001, ⟨Vector.replicate 16 0⟩⟩]
    es.length = 3 ∧ ∀ a ∈ es, ∀ b ∈ es, uuidv7UnixMs a.id ≠ uuidv7UnixMs b.id →
      Disjoint a.origin.draws b.origin.draws := by
  have hh := (@sequence_run_structure (fun _ => ⟨0, fun _ => 0⟩) 0 2
    ⟨7, 7, Vector.replicate 8 7⟩ _ rfl [⟨1000, ⟨Vector.replicate 16 0⟩⟩,
      ⟨1000, ⟨Vector.replicate 16 0⟩⟩, ⟨1001, ⟨Vector.replicate 16 0⟩⟩]).2.2.2.2.1
  exact ⟨by decide +kernel, hh⟩

end Chronoid
