import Chronoid.ChaCha20Rfc
import Chronoid.RandSeedLog

/-! How much of one seed is used when every draw is as short as the library's own: the limit is
read at the start of a call only, and still keeps the block counter far from its end. -/

namespace Chronoid

/-- The thread the copy loop of a draw starts from, if it comes to that. -/
def drawStart (hook : Option ExitHook) (t : Thread) (c : DrawCall) : Option Thread :=
  if t.inDestructor then none
  else if tlsRngShouldReseed t.rng c then tlsRngSeed hook c t
  else some t

def drawPass (t : Thread) (c : DrawCall) (j : ℕ) : FillState := fillStep^[j] ⟨t.rng, c.len, []⟩

theorem randomBytes_eq_drawStart (hook : Option ExitHook) (t : Thread) (c : DrawCall) :
    randomBytes hook t c = match drawStart hook t c with
      | none => ⟨-1, [], t⟩
      | some start =>
        ⟨0, (drawPass start c c.len).out, { start with rng := (drawPass start c c.len).rng }⟩ := by
  rw [randomBytes, drawStart]
  split_ifs
  · rfl
  · cases tlsRngSeed hook c t <;> rfl
  · rfl

def blockCounter (r : TlsRng) : ℕ := (r.state.get 12).toNat

variable {hook : Option ExitHook} {s₀ : ChaChaState} {p : ℕ} {r : TlsRng}

theorem seedState_counter (kn : Vector Byte 44) : (seedState kn).get 12 = 0#32 := by
  change (seedState kn)[12] = 0#32
  rw [seedState, Vector.getElem_append_left (by decide),
    Vector.getElem_append_right (by decide) (by decide)]
  rfl

theorem iterate_advance_counter (kn : Vector Byte 44) {k : ℕ} (hk : k < 2 ^ 32) :
    ((chacha.advance^[k] (seedState kn)).get 12).toNat = k := by
  have hcount := (iterate_advance (seedState kn) k).2
  have hlow := ((chacha.advance^[k] (seedState kn)).get 12).isLt
  have hhigh := ((seedState kn).get 13).isLt
  rw [counter64, counter64, seedState_counter, BitVec.toNat_ofNat] at hcount
  omega

theorem Streaming.blockCounter_le {kn : Vector Byte 44} (h : Streaming (seedState kn) p r)
    (hp : p ≤ 2 ^ 20 + 15) : blockCounter r ≤ 2 ^ 14 + 1 := by
  obtain ⟨k, hstate, hk⟩ := h.reading.blocks
  have hle := h.reading.length_le
  have hsize : chacha.size = 64 := rfl
  rw [hsize] at hk hle
  rw [blockCounter, hstate, iterate_advance_counter kn (by omega)]
  omega

/-- Between the passes of the loop the keystream is read just as far as bytes were copied. -/
theorem iterate_fillStep_streaming {s : FillState} (h : Streaming s₀ p s.rng) (j : ℕ) :
    ∃ d, d ≤ s.remaining ∧ Streaming s₀ (p + d) (fillStep^[j] s).rng := by
  induction j generalizing s p with
  | zero => exact ⟨0, Nat.zero_le _, h⟩
  | succ j ih =>
    rw [Function.iterate_succ_apply]
    by_cases hz : s.remaining = 0
    · rw [fillStep_of_remaining_eq_zero hz]
      exact ih h
    · obtain ⟨chunk, -, hle, hrem, -, hstream⟩ := fillStep_spec h hz
      obtain ⟨d, hd, hstream'⟩ := ih hstream
      rw [Nat.add_assoc] at hstream'
      exact ⟨chunk + d, by omega, hstream'⟩

theorem drawStart_cases (hook : Option ExitHook) {t : Thread} (h : t.inDestructor = false)
    (c : DrawCall) : (drawStart hook t c = none ∧ seedingOf t c = none) ∨
      (∃ kn, drawStart hook t c = some (seedThread hook c t kn) ∧ seedingOf t c = some kn) ∨
      (drawStart hook t c = some t ∧ seedingOf t c = none ∧
        tlsRngShouldReseed t.rng c = false) := by
  rw [drawStart, if_neg (by simp [h])]
  cases hs : tlsRngShouldReseed t.rng c with
  | false => exact .inr (.inr ⟨rfl, seedingOf_of_streams hs, rfl⟩)
  | true =>
    cases he : c.entropy with
    | none => exact .inl ⟨by simp [tlsRngSeed, he], seedingOf_of_no_entropy he⟩
    | some kn => exact .inr (.inl ⟨kn, by simp [tlsRngSeed, he], seedingOf_eq_some.mpr ⟨h, hs, he⟩⟩)

/-- The limit lets a draw start only below it, and the draw counts from there. -/
theorem Tracks.start {t start : Thread} {g : SeedLog} (h : Tracks t g) {c : DrawCall}
    (hstart : drawStart hook t c = some start) :
    ∃ kn p, p < 2 ^ 20 ∧ Streaming (seedState kn) p start.rng ∧
      ∀ out, (g.record t (.draw c) out).out.length = p + out.length := by
  rcases drawStart_cases hook h.inDestructor c with
    ⟨hnone, -⟩ | ⟨kn, hsome, hseeds⟩ | ⟨hsome, hnot, hs⟩
  · simp [hnone] at hstart
  · obtain rfl : seedThread hook c t kn = start := Option.some_inj.mp (hsome.symm.trans hstart)
    refine ⟨kn, 0, by decide, seedThread_streaming hook c t kn, fun out => ?_⟩
    rw [SeedLog.record_of_seeds hseeds, Nat.zero_add]
  · obtain rfl : t = start := Option.some_inj.mp (hsome.symm.trans hstart)
    obtain ⟨hseeded, hbytes, -⟩ := tlsRngShouldReseed_eq_false.mp hs
    obtain ⟨kn, -, hlt, -, hstream⟩ := h.seeded hseeded
    rw [hstream.toNat_bytesEmitted hlt] at hbytes
    refine ⟨kn, _, hbytes, hstream, fun out => ?_⟩
    rw [SeedLog.record_of_not_seeds hnot, List.length_append]

theorem drawPass_counter {t start : Thread} {g : SeedLog} (h : Tracks t g) {c : DrawCall}
    (hc : c.len ≤ 16) (hstart : drawStart hook t c = some start) (j : ℕ) :
    blockCounter (drawPass start c j).rng ≤ 2 ^ 14 + 1 := by
  obtain ⟨kn, p, hp, hstream, -⟩ := h.start hstart
  obtain ⟨d, hd, hstream'⟩ := iterate_fillStep_streaming (s := ⟨start.rng, c.len, []⟩) hstream j
  have hd : d ≤ c.len := hd
  exact hstream'.blockCounter_le (by omega)

structure WithinBudget (t : Thread) (g : SeedLog) : Prop where
  out_le : g.out.length ≤ 2 ^ 20 + 15
  counter_le : blockCounter t.rng ≤ 2 ^ 14 + 1

theorem WithinBudget.draw {t : Thread} {g : SeedLog} (h : WithinBudget t g) (htracks : Tracks t g)
    {c : DrawCall} (hc : c.len ≤ 16) :
    WithinBudget (randomBytes hook t c).thread
      (g.record t (.draw c) (randomBytes hook t c).out) := by
  rw [randomBytes_eq_drawStart]
  cases hstart : drawStart hook t c with
  | none =>
    rcases drawStart_cases hook htracks.inDestructor c with ⟨-, hnot⟩ | ⟨kn, hsome, -⟩ | ⟨hsome, -⟩
    · rw [SeedLog.record_of_not_seeds hnot, List.append_nil]
      exact h
    · simp [hsome] at hstart
    · simp [hsome] at hstart
  | some start =>
    obtain ⟨kn, p, hp, hstream, hrecord⟩ := htracks.start hstart
    refine ⟨?_, drawPass_counter htracks hc hstart c.len⟩
    have hout : (drawPass start c c.len).out.length = c.len := by
      rw [drawPass, (iterate_fillStep (s := ⟨start.rng, c.len, []⟩) hstream le_rfl).2.1]
      simp
    rw [hrecord, hout]
    omega

theorem withinBudget (hook : Option ExitHook) {ops : List RngOp}
    (hlen : ∀ c, RngOp.draw c ∈ ops → c.len ≤ 16) :
    WithinBudget (after hook ops) (seedLog hook ops) := by
  induction ops using List.reverseRecOn with
  | nil => exact ⟨Nat.zero_le _, Nat.zero_le _⟩
  | append_singleton ops op ih =>
    have hh := ih fun c hc => hlen c (List.mem_append_left _ hc)
    rw [after_concat, seedLog_concat]
    cases op with
    | draw c => exact hh.draw (tracks hook ops) (hlen c (by simp))
    | forceReseed => exact ⟨hh.out_le, hh.counter_le⟩
    | wipe => exact ⟨hh.out_le, Nat.zero_le _⟩

theorem no_carry {r : TlsRng} (h : blockCounter r ≤ 2 ^ 14 + 1) :
    (countUp r.state 12).get 12 ≠ 0#32 := by
  intro hzero
  have hcount : (r.state.get 12 + 1#32).toNat = (blockCounter r + 1) % 2 ^ 32 :=
    BitVec.toNat_add _ _
  rw [countUp, get_set, if_pos rfl] at hzero
  rw [hzero, BitVec.toNat_ofNat] at hcount
  omega

/-- With draws of at most 16 bytes a seed delivers at most 15 bytes beyond the limit, in one block
more than the limit takes, so that no pass of any draw finds the counter word about to wrap. -/
theorem seed_budget (hook : Option ExitHook) (ops : List RngOp)
    (hlen : ∀ c, RngOp.draw c ∈ ops → c.len ≤ 16) :
    (seedLog hook ops).out.length ≤ 2 ^ 20 + 15 ∧ blockCounter (after hook ops).rng ≤ 2 ^ 14 + 1 ∧
      ∀ pre c, pre ++ [.draw c] <+: ops →
        ∀ start, drawStart hook (after hook pre) c = some start → ∀ j,
        blockCounter (drawPass start c j).rng ≤ 2 ^ 14 + 1 ∧
          (countUp (drawPass start c j).rng.state 12).get 12 ≠ 0#32 := by
  have hh := withinBudget hook hlen
  refine ⟨hh.out_le, hh.counter_le, fun pre c hpre start hstart j => ?_⟩
  have hc : c.len ≤ 16 := hlen c (hpre.subset (by simp))
  have hcounter := drawPass_counter (tracks hook pre) hc hstart j
  exact ⟨hcounter, no_carry hcounter⟩

theorem seed_budget_two_draws :
    (seedLog none [.draw (quietCall 16 (by decide)), .draw (quietCall 10 (by decide))]).out.length ≤
      2 ^ 20 + 15 := by
  refine (seed_budget none _ fun c hc => ?_).1
  rcases List.mem_cons.mp hc with h | h
  · cases h
    decide
  · cases List.mem_singleton.mp h
    decide

end Chronoid
