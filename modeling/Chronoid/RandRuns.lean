import Chronoid.RandStream

/-! Runs of one thread's generator: where every delivered byte was seeded. -/

namespace Chronoid

inductive RngOp where
  | draw (c : DrawCall)
  | forceReseed
  | wipe

def rngStep (hook : Option ExitHook) (t : Thread) : RngOp → Thread × List Byte
  | .draw c => ((randomBytes hook t c).thread, (randomBytes hook t c).out)
  | .forceReseed => (randomForceReseed t, [])
  | .wipe => (randomThreadStateWipe t, [])

def after (hook : Option ExitHook) (ops : List RngOp) : Thread :=
  (Machine.run (rngStep hook) freshThread ops).1

def deliveredBy (hook : Option ExitHook) (t : Thread) (ops : List RngOp) : ℕ :=
  ((Machine.run (rngStep hook) t ops).2.map List.length).sum

/-- The seed in force after `ops` was taken by the draw `c`, which came after `pre`;
since then there were only draws. -/
structure SeededBy (hook : Option ExitHook) (ops pre : List RngOp) (c : DrawCall) (mid : List RngOp)
    (kn : Vector Byte 44) : Prop where
  split : ops = pre ++ .draw c :: mid
  reseeds : tlsRngShouldReseed (after hook pre).rng c = true
  entropy : c.entropy = some kn
  draws : ∀ op ∈ mid, ∃ d, op = .draw d

structure Provenance (hook : Option ExitHook) (ops : List RngOp) (t : Thread) : Prop where
  inDestructor : t.inDestructor = false
  seeded : t.rng.seeded = true → ∃ pre c mid kn, SeededBy hook ops pre c mid kn ∧
    t.rng.seedTime = c.seedNow ∧ t.rng.seedPid = c.pid ∧
    deliveredBy hook (after hook pre) (.draw c :: mid) < 2 ^ 64 ∧
    Streaming (seedState kn) (deliveredBy hook (after hook pre) (.draw c :: mid)) t.rng

variable {hook : Option ExitHook}

theorem after_concat (ops : List RngOp) (op : RngOp) :
    after hook (ops ++ [op]) = (rngStep hook (after hook ops) op).1 := by
  rw [after, Machine.run_concat]
  rfl

theorem deliveredBy_concat (hook : Option ExitHook) (t : Thread) (ops : List RngOp) (op : RngOp) :
    deliveredBy hook t (ops ++ [op]) = deliveredBy hook t ops +
      (rngStep hook (Machine.run (rngStep hook) t ops).1 op).2.length := by
  simp [deliveredBy, Machine.run_concat]

theorem SeededBy.after_eq {ops pre mid : List RngOp} {c : DrawCall} {kn : Vector Byte 44}
    (h : SeededBy hook ops pre c mid kn) :
    (Machine.run (rngStep hook) (after hook pre) (.draw c :: mid)).1 = after hook ops := by
  rw [after, after, h.split, Machine.run_append]

theorem SeededBy.draw {ops pre mid : List RngOp} {c : DrawCall} {kn : Vector Byte 44}
    (h : SeededBy hook ops pre c mid kn) (d : DrawCall) :
    SeededBy hook (ops ++ [.draw d]) pre c (mid ++ [.draw d]) kn := by
  refine ⟨by simp [h.split], h.reseeds, h.entropy, fun op hop => ?_⟩
  rcases List.mem_append.mp hop with hop | hop
  · exact h.draws op hop
  · exact ⟨d, List.mem_singleton.mp hop⟩

theorem SeededBy.deliveredBy_draw {ops pre mid : List RngOp} {c : DrawCall} {kn : Vector Byte 44}
    (h : SeededBy hook ops pre c mid kn) (d : DrawCall) :
    deliveredBy hook (after hook pre) (.draw c :: (mid ++ [.draw d])) =
      deliveredBy hook (after hook pre) (.draw c :: mid) +
        (randomBytes hook (after hook ops) d).out.length := by
  have hh := deliveredBy_concat hook (after hook pre) (.draw c :: mid) (.draw d)
  rw [h.after_eq] at hh
  exact hh

theorem Provenance.draw {ops : List RngOp} (h : Provenance hook ops (after hook ops))
    (c : DrawCall) :
    Provenance hook (ops ++ [.draw c]) (randomBytes hook (after hook ops) c).thread := by
  by_cases hok : (randomBytes hook (after hook ops) c).ret = 0
  · cases hs : tlsRngShouldReseed (after hook ops).rng c with
    | true =>
      obtain ⟨kn, hkn, hout, hstream, hd, b, hinfo⟩ := reseeds_step hok hs
      have hlen := c.len_lt
      have hp : deliveredBy hook (after hook ops) [.draw c] = c.len := by
        simp [deliveredBy, Machine.run, rngStep, hout]
      simp only [TlsRng.seedInfo, Prod.mk.injEq] at hinfo
      refine ⟨hd, fun _ => ⟨ops, c, [], kn, ⟨rfl, hs, hkn, by simp⟩, hinfo.1, hinfo.2.1, ?_, ?_⟩⟩
      · omega
      · rwa [hp]
    | false =>
      obtain ⟨pre, c₀, mid, kn, hseed, htime, hpid, hlt, hstream⟩ :=
        h.seeded (tlsRngShouldReseed_eq_false.mp hs).1
      obtain ⟨-, hout, hstream', hlt', hd', hinfo⟩ :=
        streams_step hook hstream hlt h.inDestructor hs
      simp only [TlsRng.seedInfo, Prod.mk.injEq] at hinfo
      refine ⟨hd', fun _ => ⟨pre, c₀, mid ++ [.draw c], kn, hseed.draw c, hinfo.1.trans htime,
        hinfo.2.1.trans hpid, ?_⟩⟩
      rw [hseed.deliveredBy_draw, hout, BlockStream.length_segment]
      exact ⟨hlt', hstream'⟩
  · -- nothing was delivered and the slot is the same, so its seed is too
    obtain ⟨-, hout, hthread⟩ := failed_step hok
    rw [hthread]
    refine ⟨h.inDestructor, fun hs => ?_⟩
    obtain ⟨pre, c₀, mid, kn, hseed, htime, hpid, hlt, hstream⟩ := h.seeded hs
    refine ⟨pre, c₀, mid ++ [.draw c], kn, hseed.draw c, htime, hpid, ?_⟩
    rw [hseed.deliveredBy_draw, hout]
    exact ⟨hlt, hstream⟩

theorem provenance (hook : Option ExitHook) (ops : List RngOp) :
    Provenance hook ops (after hook ops) := by
  induction ops using List.reverseRecOn with
  | nil => exact ⟨rfl, fun h => by cases h⟩
  | append_singleton ops op ih =>
    rw [after_concat]
    cases op with
    | draw c => exact ih.draw c
    | forceReseed => exact ⟨ih.inDestructor, fun h => by cases h⟩
    | wipe => exact ⟨rfl, fun h => by cases h⟩

/-- Whatever came before, a successful call delivers keystream of a seed it took itself,
or of one taken by an earlier draw under the same process, less than an hour ago, of which
less than a mebibyte was delivered and since which nothing but draws happened. A call that
cannot take the seed it needs delivers nothing and changes nothing. -/
theorem random_reseed_freshness (hook : Option ExitHook) (ops : List RngOp) (c : DrawCall) :
    let t := after hook ops
    let r := randomBytes hook t c
    (r.ret = 0 →
      (∃ kn, tlsRngShouldReseed t.rng c = true ∧ c.entropy = some kn ∧
        r.out = chacha.segment (seedState kn) 0 c.len) ∨
      ∃ pre c₀ mid kn, SeededBy hook ops pre c₀ mid kn ∧ c₀.pid = c.pid ∧
        0 ≤ c.now - c₀.seedNow ∧ c.now - c₀.seedNow < 3600 ∧
        deliveredBy hook (after hook pre) (.draw c₀ :: mid) < 2 ^ 20 ∧
        r.out = chacha.segment (seedState kn)
          (deliveredBy hook (after hook pre) (.draw c₀ :: mid)) c.len) ∧
    (r.ret ≠ 0 → r.ret = -1 ∧ r.out = [] ∧ r.thread = t) ∧
    (tlsRngShouldReseed t.rng c = true → c.entropy = none → r.ret = -1) := by
  intro t r
  refine ⟨fun hok => ?_, failed_step, fun hs he => ?_⟩
  · cases hs : tlsRngShouldReseed t.rng c with
    | true =>
      obtain ⟨kn, hkn, hout, -⟩ := reseeds_step hok hs
      exact .inl ⟨kn, rfl, hkn, hout⟩
    | false =>
      obtain ⟨hseeded, hbytes, hpid, hlow, hhigh⟩ := tlsRngShouldReseed_eq_false.mp hs
      obtain ⟨pre, c₀, mid, kn, hseed, htime, hpid', hlt, hstream⟩ :=
        (provenance hook ops).seeded hseeded
      have hout := (streams_step hook hstream hlt (provenance hook ops).inDestructor hs).2.1
      rw [htime] at hlow hhigh
      rw [hstream.toNat_bytesEmitted hlt] at hbytes
      exact .inr ⟨pre, c₀, mid, kn, hseed, (hpid.trans hpid').symm, hlow, hhigh, hbytes, hout⟩
  · refine (failed_step fun hok => ?_).1
    obtain ⟨kn, hkn, -⟩ := reseeds_step hok hs
    simp [he] at hkn

theorem random_reseed_freshness_second_draw :
    ∃ pre c₀ mid kn, SeededBy none [.draw (byteCall 1)] pre c₀ mid kn ∧ c₀.pid = 1 ∧
      (randomBytes none (after none [.draw (byteCall 1)]) (byteCall 1)).out =
        chacha.segment (seedState kn) (deliveredBy none (after none pre) (.draw c₀ :: mid)) 1 := by
  have hh := (random_reseed_freshness none [.draw (byteCall 1)] (byteCall 1)).1 (by decide +kernel)
  rcases hh with ⟨kn, hs, -⟩ | ⟨pre, c₀, mid, kn, hseed, hpid, -, -, -, hout⟩
  · exact absurd hs (by decide +kernel)
  · exact ⟨pre, c₀, mid, kn, hseed, hpid, hout⟩

end Chronoid
