import Chronoid.RandRuns

/-! A run of the generator with a record of the seed it took last and of what came out of it. -/

namespace Chronoid

structure SeedLog where
  seed : Option (Vector Byte 44)
  out : List Byte

/-- A draw that seeds opens a new record, and one that delivers more of the same seed goes on
with the old one. -/
def SeedLog.record (g : SeedLog) (t : Thread) (op : RngOp) (out : List Byte) : SeedLog :=
  match op with
  | .draw c =>
    match seedingOf t c with
    | some kn => ⟨some kn, out⟩
    | none => ⟨g.seed, g.out ++ out⟩
  | .forceReseed => g
  | .wipe => g

def loggedStep (hook : Option ExitHook) (s : Thread × SeedLog) (op : RngOp) :
    (Thread × SeedLog) × List Byte :=
  (((rngStep hook s.1 op).1, s.2.record s.1 op (rngStep hook s.1 op).2), (rngStep hook s.1 op).2)

def seedLog (hook : Option ExitHook) (ops : List RngOp) : SeedLog :=
  (Machine.run (loggedStep hook) (freshThread, ⟨none, []⟩) ops).1.2

/-- A slot that is seeded reads the keystream of the recorded seed, and what was recorded is the
part of it that is read. -/
structure Tracks (t : Thread) (g : SeedLog) : Prop where
  inDestructor : t.inDestructor = false
  seeded : t.rng.seeded = true → ∃ kn, g.seed = some kn ∧ g.out.length < 2 ^ 64 ∧
    g.out = chacha.segment (seedState kn) 0 g.out.length ∧
      Streaming (seedState kn) g.out.length t.rng

variable {hook : Option ExitHook} {t : Thread} {g : SeedLog}

theorem logged_thread (hook : Option ExitHook) (ops : List RngOp) :
    (Machine.run (loggedStep hook) (freshThread, ⟨none, []⟩) ops).1.1 = after hook ops := by
  have hstep (s : Thread × SeedLog) (op : RngOp) :
      rngStep hook s.1 op = ((loggedStep hook s op).1.1, id (loggedStep hook s op).2) := rfl
  rw [after, Machine.run_map hstep (freshThread, ⟨none, []⟩) ops]

theorem seedLog_concat (hook : Option ExitHook) (ops : List RngOp) (op : RngOp) :
    seedLog hook (ops ++ [op]) =
      (seedLog hook ops).record (after hook ops) op (rngStep hook (after hook ops) op).2 := by
  rw [seedLog, Machine.run_concat, ← logged_thread]
  rfl

theorem SeedLog.record_of_seeds {c : DrawCall} {kn : Vector Byte 44} (h : seedingOf t c = some kn)
    (out : List Byte) : g.record t (.draw c) out = ⟨some kn, out⟩ := by
  simp only [SeedLog.record, h]

theorem SeedLog.record_of_not_seeds {c : DrawCall} (h : seedingOf t c = none) (out : List Byte) :
    g.record t (.draw c) out = ⟨g.seed, g.out ++ out⟩ := by
  simp only [SeedLog.record, h]

theorem seedingOf_of_no_entropy {c : DrawCall} (h : c.entropy = none) : seedingOf t c = none := by
  rw [seedingOf, h, ite_self]

theorem seedingOf_of_streams {c : DrawCall} (h : tlsRngShouldReseed t.rng c = false) :
    seedingOf t c = none := by
  simp [seedingOf, h]

theorem Tracks.draw (h : Tracks t g) (c : DrawCall) :
    Tracks (randomBytes hook t c).thread (g.record t (.draw c) (randomBytes hook t c).out) := by
  have hstep := randomBytes_step hook t c
  generalize randomBytes hook t c = r at hstep ⊢
  cases hstep with
  | inDestructor hd => simp [h.inDestructor] at hd
  | noEntropy _ he =>
    rw [SeedLog.record_of_not_seeds (seedingOf_of_no_entropy he), List.append_nil]
    exact h
  | reseeds kn hd hs he =>
    rw [SeedLog.record_of_seeds (seedingOf_eq_some.mpr ⟨hd, hs, he⟩)]
    obtain ⟨-, hout, hstream⟩ := fill_spec (seedThread_streaming hook c t kn) c.len
    obtain ⟨_, -, hd'⟩ := seedThread_frame hook c t kn
    have hlen : (fill (seedThread hook c t kn).rng c.len).out.length = c.len := by
      rw [hout, BlockStream.length_segment]
    have hlt := c.len_lt
    rw [Nat.zero_add] at hstream
    refine ⟨hd'.trans hd, fun _ => ⟨kn, rfl, ?_⟩⟩
    rw [hlen]
    exact ⟨by omega, hout, hstream⟩
  | streams hd hs =>
    rw [SeedLog.record_of_not_seeds (seedingOf_of_streams hs)]
    obtain ⟨hseeded, hbytes, -⟩ := tlsRngShouldReseed_eq_false.mp hs
    obtain ⟨kn, hseed, hlt, hprefix, hstream⟩ := h.seeded hseeded
    rw [hstream.toNat_bytesEmitted hlt] at hbytes
    obtain ⟨-, hout, hstream'⟩ := fill_spec hstream c.len
    have hlen : (g.out ++ (fill t.rng c.len).out).length = g.out.length + c.len := by
      rw [List.length_append, hout, BlockStream.length_segment]
    have hclen := c.len_lt
    refine ⟨hd, fun _ => ⟨kn, hseed, ?_⟩⟩
    rw [hlen]
    refine ⟨by omega, ?_, hstream'⟩
    have hjoin := BlockStream.segment_append chacha (seedState kn) 0 g.out.length c.len
    rw [Nat.zero_add] at hjoin
    rw [← hjoin, ← hprefix, hout]

theorem tracks (hook : Option ExitHook) (ops : List RngOp) :
    Tracks (after hook ops) (seedLog hook ops) := by
  induction ops using List.reverseRecOn with
  | nil => exact ⟨rfl, fun h => by cases h⟩
  | append_singleton ops op ih =>
    rw [after_concat, seedLog_concat]
    cases op with
    | draw c => exact ih.draw c
    | forceReseed => exact ⟨ih.inDestructor, fun h => by cases h⟩
    | wipe => exact ⟨rfl, fun h => by cases h⟩

end Chronoid
