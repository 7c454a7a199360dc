import Chronoid.RandSeedLog

/-! What the keystream window of a thread holds between calls: zeros where bytes were handed out,
then bytes of the last block that were not. -/

namespace Chronoid

structure ZeroBelow (r : TlsRng) : Prop where
  bufPos_le : r.bufPos ≤ 64
  zero : ∀ i (h : i < 64), i < r.bufPos → r.buf[i] = 0#8

variable {r : TlsRng}

theorem ZeroBelow.refillBuf (h : ZeroBelow r) : ZeroBelow (refillBuf r) := by
  rw [Chronoid.refillBuf]
  split_ifs
  · exact ⟨Nat.zero_le 64, fun i _ hi => absurd hi (Nat.not_lt_zero i)⟩
  · exact h

theorem getElem_wipeRange (buf : Vector Byte 64) (pos len : ℕ) {i : ℕ} (h : i < 64) :
    (wipeRange buf pos len)[i] = if pos ≤ i ∧ i < pos + len then 0#8 else buf[i] := by
  simp [wipeRange]

/-- The bytes wiped are those just copied, and they start where the zeros end. -/
theorem ZeroBelow.fillStep {s : FillState} (h : ZeroBelow s.rng) : ZeroBelow (fillStep s).rng := by
  rw [Chronoid.fillStep]
  by_cases hz : s.remaining = 0
  · rw [if_pos hz]
    exact h
  · rw [if_neg hz]
    have hr := h.refillBuf
    generalize Chronoid.refillBuf s.rng = r at hr ⊢
    have hle := hr.bufPos_le
    constructor
    · simp only
      split_ifs <;> omega
    · intro i hi hlt
      simp only at hlt ⊢
      rw [getElem_wipeRange _ _ _ hi]
      by_cases hlow : r.bufPos ≤ i
      · rw [if_pos ⟨hlow, hlt⟩]
      · rw [if_neg (mt And.left hlow)]
        exact hr.zero i hi (by omega)

theorem ZeroBelow.fill (h : ZeroBelow r) (n : ℕ) : ZeroBelow (fill r n).rng :=
  Function.Iterate.rec (fun s : FillState => ZeroBelow s.rng)
    (a := ⟨r, n, []⟩) h (fun _ hs => hs.fillStep) n

theorem ZeroBelow.zero_rng : ZeroBelow TlsRng.zero :=
  ⟨Nat.zero_le 64, fun i _ hi => absurd hi (Nat.not_lt_zero i)⟩

theorem ZeroBelow.seedThread (hook : Option ExitHook) (c : DrawCall) (t : Thread)
    (kn : Vector Byte 44) : ZeroBelow (seedThread hook c t kn).rng := by
  obtain ⟨b, hrng, -⟩ := seedThread_frame hook c t kn
  rw [hrng]
  exact ⟨le_rfl, fun i hi _ => Vector.getElem_replicate hi⟩

theorem ZeroBelow.step (hook : Option ExitHook) (t : Thread) (op : RngOp) (h : ZeroBelow t.rng) :
    ZeroBelow (rngStep hook t op).1.rng := by
  cases op with
  | draw c =>
    have hstep := randomBytes_step hook t c
    rw [rngStep]
    generalize randomBytes hook t c = r at hstep ⊢
    cases hstep with
    | inDestructor | noEntropy => exact h
    | reseeds kn => exact (ZeroBelow.seedThread hook c t kn).fill c.len
    | streams => exact h.fill c.len
  | forceReseed => exact ⟨h.bufPos_le, h.zero⟩
  | wipe => exact ZeroBelow.zero_rng

theorem zeroBelow (hook : Option ExitHook) (ops : List RngOp) : ZeroBelow (after hook ops).rng :=
  Machine.run_invariant (I := fun t : Thread => ZeroBelow t.rng) (ZeroBelow.step hook)
    ZeroBelow.zero_rng ops

/-- Every byte of the window was handed out and is zero now, or is still to be handed out: what is
left of the last block under the seed in force completes what that seed has delivered. -/
theorem keystream_window (hook : Option ExitHook) (ops : List RngOp) :
    let r := (after hook ops).rng
    let g := seedLog hook ops
    r.bufPos ≤ 64 ∧ (∀ i (h : i < 64), i < r.bufPos → r.buf[i] = 0#8) ∧
      (r.seeded = true → ∃ kn k, g.seed = some kn ∧ r.state = chacha.advance^[k] (seedState kn) ∧
        r.buf.toList.drop r.bufPos = (chacha.lastBlock (seedState kn) k).drop r.bufPos ∧
        g.out ++ r.buf.toList.drop r.bufPos = chacha.blocks (seedState kn) k) := by
  intro r g
  have hzero := zeroBelow hook ops
  refine ⟨hzero.bufPos_le, hzero.zero, fun hseeded => ?_⟩
  obtain ⟨kn, hseed, -, hout, hstream⟩ := (tracks hook ops).seeded hseeded
  obtain ⟨k, hstate, hblocks, htail⟩ := hstream.reading.leftover
  refine ⟨kn, k, hseed, hstate, ?_, ?_⟩
  · have hpos : chacha.size - (r.buf.toList.drop r.bufPos).length = r.bufPos := by
      have hsize : chacha.size = 64 := rfl
      have hle : r.bufPos ≤ 64 := hzero.bufPos_le
      rw [hsize, List.length_drop, Vector.length_toList]
      omega
    rw [hpos] at htail
    exact htail
  · rw [hout]
    exact hblocks

theorem keystream_window_one_draw :
    let r := (after none [.draw (byteCall 1)]).rng
    ∃ kn k, (seedLog none [.draw (byteCall 1)]).seed = some kn ∧
      r.state = chacha.advance^[k] (seedState kn) ∧
      r.buf.toList.drop r.bufPos = (chacha.lastBlock (seedState kn) k).drop r.bufPos ∧
      (seedLog none [.draw (byteCall 1)]).out ++ r.buf.toList.drop r.bufPos =
        chacha.blocks (seedState kn) k :=
  (keystream_window none [.draw (byteCall 1)]).2.2 (by decide +kernel)

end Chronoid
