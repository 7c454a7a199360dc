import Chronoid.Library.Machine
import Chronoid.RandTls

/-! Within one seed the generator reads the ChaCha20 keystream without loss: however
the requests are cut, the bytes delivered are a prefix of it. -/

namespace Chronoid

open BlockStream (Reading)

/-- The part of a generator that the copy loop leaves alone. -/
def TlsRng.seedInfo (r : TlsRng) : Int × Int × Bool × Bool :=
  (r.seedTime, r.seedPid, r.seeded, r.destructorRegistered)

/-- `p` bytes of the keystream from `s₀` have been delivered. -/
structure Streaming (s₀ : ChaChaState) (p : ℕ) (r : TlsRng) : Prop where
  reading : Reading chacha s₀ p (r.buf.toList.drop r.bufPos) r.state
  bufPos_le : r.bufPos ≤ 64
  bytesEmitted_eq : r.bytesEmitted = BitVec.ofNat 64 p

variable {s₀ : ChaChaState} {p : ℕ} {r : TlsRng}

theorem Streaming.refillBuf (h : Streaming s₀ p r) :
    Streaming s₀ p (refillBuf r) ∧ (Chronoid.refillBuf r).bufPos < 64 := by
  have hle := h.bufPos_le
  by_cases hfull : r.bufPos = 64
  · have hread := h.reading
    rw [hfull, List.drop_eq_nil_of_le (by simp)] at hread
    have hblock := hread.refill
    rw [chacha_block, chacha_advance] at hblock
    rw [Chronoid.refillBuf, if_pos hfull]
    generalize chacha20Block r.state = b at *
    exact ⟨⟨by simpa only [List.drop_zero] using hblock, Nat.zero_le 64, h.bytesEmitted_eq⟩,
      Nat.zero_lt_succ 63⟩
  · rw [Chronoid.refillBuf, if_neg hfull]
    exact ⟨h, by omega⟩

theorem refillBuf_seedInfo (r : TlsRng) : (refillBuf r).seedInfo = r.seedInfo := by
  rw [refillBuf]
  split_ifs <;> rfl

theorem drop_wipeRange (buf : Vector Byte 64) (pos len : ℕ) :
    (wipeRange buf pos len).toList.drop (pos + len) = (buf.toList.drop pos).drop len := by
  rw [List.drop_drop]
  refine List.ext_getElem (by simp) fun i hi _ => ?_
  simp [wipeRange]

theorem fillStep_seedInfo (s : FillState) : (fillStep s).rng.seedInfo = s.rng.seedInfo := by
  rw [fillStep]
  split_ifs
  · rfl
  · rw [← refillBuf_seedInfo s.rng]
    simp only [TlsRng.seedInfo]

theorem fill_seedInfo (r : TlsRng) (n : ℕ) : (fill r n).rng.seedInfo = r.seedInfo := by
  have hrun (k : ℕ) (s : FillState) : (fillStep^[k] s).rng.seedInfo = s.rng.seedInfo := by
    induction k generalizing s with
    | zero => rfl
    | succ k ih => rw [Function.iterate_succ_apply, ih, fillStep_seedInfo]
  exact hrun n ⟨r, n, []⟩

theorem fillStep_of_remaining_eq_zero {s : FillState} (h : s.remaining = 0) : fillStep s = s := by
  rw [fillStep, if_pos h]

/-- One pass delivers the next `chunk` bytes of the keystream, at least one. -/
theorem fillStep_spec {s : FillState} (h : Streaming s₀ p s.rng) (hn : s.remaining ≠ 0) :
    ∃ chunk, 0 < chunk ∧ chunk ≤ s.remaining ∧ (fillStep s).remaining = s.remaining - chunk ∧
      (fillStep s).out = s.out ++ chacha.segment s₀ p chunk ∧
      Streaming s₀ (p + chunk) (fillStep s).rng := by
  obtain ⟨hr, hlt⟩ := h.refillBuf
  rw [fillStep, if_neg hn]
  generalize refillBuf s.rng = r at *
  have hunread : (r.buf.toList.drop r.bufPos).length = 64 - r.bufPos := by simp
  have hchunk : (if s.remaining < 64 - r.bufPos then s.remaining else 64 - r.bufPos) =
      min s.remaining (64 - r.bufPos) := by
    split_ifs <;> omega
  simp only [hchunk]
  refine ⟨min s.remaining (64 - r.bufPos), by omega, by omega, rfl, ?_, ?_, ?_, ?_⟩
  · rw [hr.reading.take (by omega)]
  · simp only [drop_wipeRange]
    exact hr.reading.drop (by omega)
  · simp only
    omega
  · simp only [hr.bytesEmitted_eq]
    rw [BitVec.ofNat_add]

theorem iterate_fillStep {k : ℕ} {s : FillState} (h : Streaming s₀ p s.rng) (hk : s.remaining ≤ k) :
    (fillStep^[k] s).remaining = 0 ∧
      (fillStep^[k] s).out = s.out ++ chacha.segment s₀ p s.remaining ∧
      Streaming s₀ (p + s.remaining) (fillStep^[k] s).rng := by
  induction k generalizing s p with
  | zero =>
    have hz : s.remaining = 0 := by omega
    simpa [hz] using h
  | succ k ih =>
    rw [Function.iterate_succ_apply]
    by_cases hz : s.remaining = 0
    · rw [fillStep_of_remaining_eq_zero hz]
      exact ih h (by omega)
    · obtain ⟨chunk, hpos, hle, hrem, hout, hstream⟩ := fillStep_spec h hz
      obtain ⟨hrem', hout', hstream'⟩ := ih hstream (by omega)
      have hsum : p + chunk + (s.remaining - chunk) = p + s.remaining := by omega
      rw [hrem, hsum] at hstream'
      refine ⟨hrem', ?_, hstream'⟩
      rw [hout', hout, List.append_assoc, hrem, BlockStream.segment_append, Nat.add_sub_cancel' hle]

theorem fill_spec (h : Streaming s₀ p r) (n : ℕ) :
    (fill r n).remaining = 0 ∧ (fill r n).out = chacha.segment s₀ p n ∧
      Streaming s₀ (p + n) (fill r n).rng :=
  iterate_fillStep (s := ⟨r, n, []⟩) h le_rfl

theorem fillStep_progress {s : FillState} (h : s.rng.bufPos ≤ 64) (hn : s.remaining ≠ 0) :
    (fillStep s).remaining < s.remaining ∧ (fillStep s).rng.bufPos ≤ 64 := by
  have hlt : (Chronoid.refillBuf s.rng).bufPos < 64 := by
    rw [Chronoid.refillBuf]
    split_ifs
    · exact Nat.zero_lt_succ 63
    · omega
  rw [fillStep, if_neg hn]
  generalize Chronoid.refillBuf s.rng = r at *
  simp only
  split_ifs <;> omega

theorem seedThread_streaming (hook : Option ExitHook) (c : DrawCall) (t : Thread)
    (kn : Vector Byte 44) : Streaming (seedState kn) 0 (seedThread hook c t kn).rng := by
  obtain ⟨b, hrng, -⟩ := seedThread_frame hook c t kn
  rw [hrng]
  refine ⟨?_, le_rfl, rfl⟩
  rw [List.drop_eq_nil_of_le (by simp)]
  exact Reading.start _

theorem Streaming.toNat_bytesEmitted (h : Streaming s₀ p r) (hp : p < 2 ^ 64) :
    r.bytesEmitted.toNat = p := by
  rw [h.bytesEmitted_eq, BitVec.toNat_ofNat, Nat.mod_eq_of_lt hp]

def drawStep (hook : Option ExitHook) (t : Thread) (c : DrawCall) : Thread × DrawResult :=
  ((randomBytes hook t c).thread, randomBytes hook t c)

def NoReseed (hook : Option ExitHook) : Thread → List DrawCall → Prop
  | _, [] => True
  | t, c :: cs =>
    tlsRngShouldReseed t.rng c = false ∧ NoReseed hook (randomBytes hook t c).thread cs

def delivered (rs : List DrawResult) : List Byte := (rs.map DrawResult.out).flatten

def requested (cs : List DrawCall) : ℕ := (cs.map DrawCall.len).sum

theorem streams_step (hook : Option ExitHook) {t : Thread} {c : DrawCall}
    (h : Streaming s₀ p t.rng) (hp : p < 2 ^ 64) (hd : t.inDestructor = false)
    (hs : tlsRngShouldReseed t.rng c = false) :
    (randomBytes hook t c).ret = 0 ∧ (randomBytes hook t c).out = chacha.segment s₀ p c.len ∧
      Streaming s₀ (p + c.len) (randomBytes hook t c).thread.rng ∧ p + c.len < 2 ^ 64 ∧
      (randomBytes hook t c).thread.inDestructor = false ∧
      (randomBytes hook t c).thread.rng.seedInfo = t.rng.seedInfo := by
  have hlow := (tlsRngShouldReseed_eq_false.mp hs).2.1
  rw [h.toNat_bytesEmitted hp] at hlow
  have hlen := c.len_lt
  obtain ⟨-, hout, hstream⟩ := fill_spec h c.len
  have hstep := randomBytes_step hook t c
  generalize randomBytes hook t c = r at *
  cases hstep with
  | inDestructor hd' => simp [hd] at hd'
  | noEntropy hs' => simp [hs] at hs'
  | reseeds kn _ hs' => simp [hs] at hs'
  | streams => exact ⟨rfl, hout, hstream, by omega, hd, fill_seedInfo _ _⟩

theorem stream_run {hook : Option ExitHook} {t : Thread} {cs : List DrawCall}
    (h : Streaming s₀ p t.rng) (hp : p < 2 ^ 64) (hd : t.inDestructor = false)
    (hno : NoReseed hook t cs) :
    (∀ r ∈ (Machine.run (drawStep hook) t cs).2, r.ret = 0) ∧
      delivered (Machine.run (drawStep hook) t cs).2 = chacha.segment s₀ p (requested cs) ∧
      Streaming s₀ (p + requested cs) (Machine.run (drawStep hook) t cs).1.rng ∧
      p + requested cs < 2 ^ 64 := by
  induction cs generalizing t p with
  | nil => exact ⟨by simp [Machine.run], by simp [Machine.run, delivered, requested], h, hp⟩
  | cons c cs ih =>
    obtain ⟨hs, hno⟩ := hno
    obtain ⟨hret, hout, hstream, hp', hd', -⟩ := streams_step hook h hp hd hs
    obtain ⟨hrets, houts, hfinal, hlt⟩ := ih hstream hp' hd' hno
    have hreq : p + c.len + requested cs = p + requested (c :: cs) := by
      simp [requested, Nat.add_assoc]
    rw [hreq] at hfinal hlt
    refine ⟨?_, ?_, hfinal, hlt⟩
    · intro r hr
      rcases List.mem_cons.mp hr with rfl | hr
      · exact hret
      · exact hrets r hr
    · have hcons : delivered (Machine.run (drawStep hook) t (c :: cs)).2 =
          (randomBytes hook t c).out ++
            delivered (Machine.run (drawStep hook) (randomBytes hook t c).thread cs).2 := rfl
      rw [hcons, hout, houts, BlockStream.segment_append]
      congr 1

theorem fill_remaining {n : ℕ} (h : r.bufPos ≤ 64) : (fill r n).remaining = 0 := by
  have hrun (k : ℕ) (s : FillState) (hs : s.rng.bufPos ≤ 64) (hk : s.remaining ≤ k) :
      (fillStep^[k] s).remaining = 0 := by
    induction k generalizing s with
    | zero => exact Nat.le_zero.mp hk
    | succ k ih =>
      rw [Function.iterate_succ_apply]
      by_cases hz : s.remaining = 0
      · rw [fillStep_of_remaining_eq_zero hz]
        exact ih s hs (by omega)
      · obtain ⟨hlt, hle⟩ := fillStep_progress hs hz
        exact ih _ hle (by omega)
  exact hrun n ⟨r, n, []⟩ h le_rfl

theorem reseeds_step {hook : Option ExitHook} {t : Thread} {c : DrawCall}
    (hok : (randomBytes hook t c).ret = 0) (hs : tlsRngShouldReseed t.rng c = true) :
    ∃ kn, c.entropy = some kn ∧ (randomBytes hook t c).out = chacha.segment (seedState kn) 0 c.len ∧
      Streaming (seedState kn) c.len (randomBytes hook t c).thread.rng ∧
      (randomBytes hook t c).thread.inDestructor = false ∧
      ∃ b, (randomBytes hook t c).thread.rng.seedInfo = (c.seedNow, c.pid, true, b) := by
  have hstep := randomBytes_step hook t c
  generalize randomBytes hook t c = r at *
  cases hstep with
  | inDestructor => cases hok
  | noEntropy => cases hok
  | streams _ hs' => simp [hs] at hs'
  | reseeds kn hd _ he =>
    obtain ⟨b, hrng, hd'⟩ := seedThread_frame hook c t kn
    obtain ⟨-, hout, hstream⟩ := fill_spec (seedThread_streaming hook c t kn) c.len
    rw [Nat.zero_add] at hstream
    refine ⟨kn, he, hout, hstream, hd'.trans hd, b, ?_⟩
    rw [fill_seedInfo, hrng]
    rfl

def seedingOf (t : Thread) (c : DrawCall) : Option (Vector Byte 44) :=
  if t.inDestructor = false ∧ tlsRngShouldReseed t.rng c = true then c.entropy else none

theorem seedingOf_eq_some {t : Thread} {c : DrawCall} {kn : Vector Byte 44} :
    seedingOf t c = some kn ↔ t.inDestructor = false ∧ tlsRngShouldReseed t.rng c = true ∧
      c.entropy = some kn := by
  rw [seedingOf]
  split_ifs with h
  · simp [h.1, h.2]
  · simp only [false_iff]
    exact fun hh => h ⟨hh.1, hh.2.1⟩

theorem randomBytes_of_seeds (hook : Option ExitHook) {t : Thread} {c : DrawCall}
    {kn : Vector Byte 44} (h : seedingOf t c = some kn) :
    (randomBytes hook t c).ret = 0 ∧ tlsRngShouldReseed t.rng c = true ∧
      (randomBytes hook t c).thread.pending = (seedThread hook c t kn).pending := by
  obtain ⟨hd, hs, he⟩ := seedingOf_eq_some.mp h
  have hstep := randomBytes_step hook t c
  generalize randomBytes hook t c = r at *
  cases hstep with
  | inDestructor hd' => simp [hd] at hd'
  | noEntropy _ he' => simp [he] at he'
  | streams _ hs' => simp [hs] at hs'
  | reseeds kn' _ _ he' =>
    obtain rfl : kn' = kn := Option.some_inj.mp (he'.symm.trans he)
    exact ⟨rfl, hs, rfl⟩

theorem randomBytes_of_not_seeds (hook : Option ExitHook) {t : Thread} {c : DrawCall}
    (h : seedingOf t c = none) :
    (randomBytes hook t c).thread.rng.seedInfo = t.rng.seedInfo ∧
      (randomBytes hook t c).thread.inDestructor = t.inDestructor ∧
      (randomBytes hook t c).thread.pending = t.pending := by
  have hstep := randomBytes_step hook t c
  generalize randomBytes hook t c = r at *
  cases hstep with
  | inDestructor => exact ⟨rfl, rfl, rfl⟩
  | noEntropy => exact ⟨rfl, rfl, rfl⟩
  | streams => exact ⟨fill_seedInfo _ _, rfl, rfl⟩
  | reseeds kn hd hs he => simp [seedingOf_eq_some.mpr ⟨hd, hs, he⟩] at h

theorem failed_step {hook : Option ExitHook} {t : Thread} {c : DrawCall}
    (h : (randomBytes hook t c).ret ≠ 0) :
    (randomBytes hook t c).ret = -1 ∧ (randomBytes hook t c).out = [] ∧
      (randomBytes hook t c).thread = t := by
  have hstep := randomBytes_step hook t c
  generalize randomBytes hook t c = r at *
  cases hstep with
  | inDestructor => exact ⟨rfl, rfl, rfl⟩
  | noEntropy => exact ⟨rfl, rfl, rfl⟩
  | reseeds => exact absurd rfl h
  | streams => exact absurd rfl h

/-- From the seeding on, as long as no call reseeds, the calls read the keystream of the
seed without skipping, repeating or reordering a byte, however they cut it. -/
theorem random_bytes_lossless (hook : Option ExitHook) (t : Thread) (c : DrawCall)
    (cs : List DrawCall) (hseed : tlsRngShouldReseed t.rng c = true)
    (hok : (randomBytes hook t c).ret = 0)
    (hno : NoReseed hook (randomBytes hook t c).thread cs) :
    let r := Machine.run (drawStep hook) t (c :: cs)
    (∀ d ∈ r.2, d.ret = 0) ∧
    (∃ kn, c.entropy = some kn ∧
      delivered r.2 = chacha.segment (seedState kn) 0 (requested (c :: cs))) ∧
    r.1.rng.bufPos ≤ 64 ∧ r.1.rng.bytesEmitted.toNat = requested (c :: cs) ∧
    (∀ s : FillState, s.rng.bufPos ≤ 64 → s.remaining ≠ 0 →
      (fillStep s).remaining < s.remaining ∧ (fillStep s).rng.bufPos ≤ 64) ∧
    ∀ (rng : TlsRng) (n : ℕ), rng.bufPos ≤ 64 → (fill rng n).remaining = 0 := by
  intro r
  obtain ⟨kn, hkn, hout, hstream, hd, -⟩ := reseeds_step hok hseed
  have hlen := c.len_lt
  obtain ⟨hrets, houts, hfinal, hlt⟩ := stream_run hstream (by omega) hd hno
  have hreq : c.len + requested cs = requested (c :: cs) := by simp [requested]
  rw [hreq] at hfinal hlt
  have hcons : delivered r.2 = (randomBytes hook t c).out ++
      delivered (Machine.run (drawStep hook) (randomBytes hook t c).thread cs).2 := rfl
  refine ⟨?_, ⟨kn, hkn, ?_⟩, hfinal.bufPos_le, hfinal.toNat_bytesEmitted hlt,
    fun s hs hn => fillStep_progress hs hn, fun rng n h => fill_remaining h⟩
  · intro d hdmem
    rcases List.mem_cons.mp hdmem with rfl | hdmem
    · exact hok
    · exact hrets d hdmem
  · have happend := BlockStream.segment_append chacha (seedState kn) 0 c.len (requested cs)
    rw [Nat.zero_add, hreq] at happend
    rw [hcons, hout, houts, happend]

def quietCall (len : ℕ) (h : len < 2 ^ 63) : DrawCall :=
  ⟨len, h, 1, 0, 0, some (Vector.replicate 44 0#8), ⟨0, true, true⟩⟩

def byteCall (pid : Int) : DrawCall :=
  ⟨1, by decide, pid, 0, 0, some (Vector.replicate 44 0#8), ⟨0, true, true⟩⟩

def freshThread : Thread := ⟨TlsRng.zero, false, none, 0⟩

theorem random_bytes_lossless_three_calls :
    let calls := [quietCall 40 (by decide), quietCall 0 (by decide), quietCall 30 (by decide)]
    delivered (Machine.run (drawStep none) freshThread calls).2 =
      chacha.segment (seedState (Vector.replicate 44 0#8)) 0 70 := by
  intro calls
  have hseed : tlsRngShouldReseed freshThread.rng (quietCall 40 (by decide)) = true := by decide
  have hok : (randomBytes none freshThread (quietCall 40 (by decide))).ret = 0 := by decide +kernel
  have hno : NoReseed none (randomBytes none freshThread (quietCall 40 (by decide))).thread
      [quietCall 0 (by decide), quietCall 30 (by decide)] :=
    ⟨by decide +kernel, by decide +kernel, trivial⟩
  obtain ⟨-, ⟨kn, hkn, hout⟩, -⟩ := random_bytes_lossless none freshThread _ _ hseed hok hno
  obtain rfl : Vector.replicate 44 0#8 = kn := Option.some_inj.mp hkn
  exact hout

end Chronoid
