import Chronoid.ForkedIds
import Chronoid.GenListing

/-! The program on its own generator, from the seed of the operating system to the random bytes of
every identifier it prints. -/

namespace Chronoid

/-- The thread of a process that has drawn `n` times. -/
def threadAfter (hook : Option ExitHook) (calls : ℕ → DrawCall) : ℕ → Thread
  | 0 => freshThread
  | n + 1 => (randomBytes hook (threadAfter hook calls n) (calls n)).thread

/-- The generator of the thread as the source of its draws. -/
def threadSource (hook : Option ExitHook) (calls : ℕ → DrawCall) : RandomSource := fun n =>
  let r := randomBytes hook (threadAfter hook calls n) (calls n)
  ⟨r.ret, fun j => r.out.getD j 0#8⟩

def IdFormat.randomLen : IdFormat → ℕ
  | .ksuid => 16
  | .uuidv7 => 10

/-- As many draws of `len` bytes as it takes to come to the limit of a seed. -/
def drawsPerSeed (len : ℕ) : ℕ := (2 ^ 20 + len - 1) / len

example : drawsPerSeed 16 = 65536 ∧ drawsPerSeed 10 = 104858 := by decide

/-- The draws of a process that keeps its identifier and its clock: each is made within the hour of
the draw that its seed is due at, and those are given entropy. -/
structure Calm (calls : ℕ → DrawCall) (len : ℕ) : Prop where
  len_eq : ∀ n, (calls n).len = len
  pid : ∀ n, (calls n).pid = (calls 0).pid
  seeds : ∀ k, (calls (drawsPerSeed len * k)).entropy.isSome = true
  hour : ∀ k j, j < drawsPerSeed len →
    0 ≤ (calls (drawsPerSeed len * k + j)).now - (calls (drawsPerSeed len * k)).seedNow ∧
      (calls (drawsPerSeed len * k + j)).now - (calls (drawsPerSeed len * k)).seedNow < 3600

theorem drawsPerSeed_spec {len : ℕ} (h : 0 < len) :
    0 < drawsPerSeed len ∧ 2 ^ 20 ≤ len * drawsPerSeed len ∧
      ∀ j < drawsPerSeed len, len * j < 2 ^ 20 := by
  have hle : len * drawsPerSeed len ≤ 2 ^ 20 + len - 1 := Nat.mul_div_le _ _
  have hlt : 2 ^ 20 + len - 1 < len * (drawsPerSeed len + 1) := Nat.lt_mul_div_succ _ h
  rw [Nat.mul_succ] at hlt
  have hlimit : 2 ^ 20 ≤ len * drawsPerSeed len := by omega
  refine ⟨Nat.pos_of_ne_zero fun hzero => ?_, hlimit, fun j hj => ?_⟩
  · rw [hzero] at hlimit
    omega
  · have hnext := Nat.mul_le_mul_left len (Nat.succ_le_of_lt hj)
    rw [Nat.mul_succ] at hnext
    omega

/-- Before draw `n` the thread has taken `j` draws from the keystream of seeding `k`. -/
inductive CalmState (calls : ℕ → DrawCall) (len : ℕ) : ℕ → Thread → Prop
  | fresh : CalmState calls len 0 freshThread
  | seeded {t : Thread} (k j : ℕ) {kn : Vector Byte 44} (hj : 0 < j) (hper : j ≤ drawsPerSeed len)
      (hkn : (calls (drawsPerSeed len * k)).entropy = some kn)
      (hdestructor : t.inDestructor = false)
      (hstream : Streaming (seedState kn) (len * j) t.rng) (hseeded : t.rng.seeded = true)
      (hpid : t.rng.seedPid = (calls 0).pid)
      (htime : t.rng.seedTime = (calls (drawsPerSeed len * k)).seedNow) :
      CalmState calls len (drawsPerSeed len * k + j) t

variable {hook : Option ExitHook} {calls : ℕ → DrawCall} {len : ℕ}

/-- What draw `j` from seeding `k` delivers. -/
structure CalmDraw (hook : Option ExitHook) (calls : ℕ → DrawCall) (len k j : ℕ) (t : Thread) :
    Prop where
  ret : (randomBytes hook t (calls (drawsPerSeed len * k + j))).ret = 0
  out : ∃ kn, (calls (drawsPerSeed len * k)).entropy = some kn ∧
    (randomBytes hook t (calls (drawsPerSeed len * k + j))).out =
      chacha.segment (seedState kn) (len * j) len
  after : CalmState calls len (drawsPerSeed len * k + (j + 1))
    (randomBytes hook t (calls (drawsPerSeed len * k + j))).thread

/-- A seed that is due is taken. -/
theorem Calm.draw_seeds (h : Calm calls len) (hlen : 0 < len) {t : Thread} {k : ℕ}
    (hdestructor : t.inDestructor = false)
    (hs : tlsRngShouldReseed t.rng (calls (drawsPerSeed len * k)) = true) :
    CalmDraw hook calls len k 0 t := by
  obtain ⟨kn, hkn⟩ := Option.isSome_iff_exists.mp (h.seeds k)
  obtain ⟨hret, -⟩ := randomBytes_of_seeds hook (seedingOf_eq_some.mpr ⟨hdestructor, hs, hkn⟩)
  obtain ⟨kn', hkn', hout, hstream, hd, b, hinfo⟩ := reseeds_step hret hs
  rw [h.len_eq] at hout hstream
  simp only [TlsRng.seedInfo, Prod.mk.injEq] at hinfo
  refine ⟨hret, ⟨kn', hkn', hout⟩, ?_⟩
  exact .seeded k 1 Nat.one_pos (drawsPerSeed_spec hlen).1 hkn' hd (by rwa [Nat.mul_one])
    hinfo.2.2.1 (hinfo.2.1.trans (h.pid _)) hinfo.1

/-- Until then the draws read on. -/
theorem Calm.draw_streams (h : Calm calls len) (hlen : 0 < len) {t : Thread} {k j : ℕ}
    {kn : Vector Byte 44}
    (hj : j < drawsPerSeed len) (hkn : (calls (drawsPerSeed len * k)).entropy = some kn)
    (hdestructor : t.inDestructor = false) (hstream : Streaming (seedState kn) (len * j) t.rng)
    (hseeded : t.rng.seeded = true) (hpid : t.rng.seedPid = (calls 0).pid)
    (htime : t.rng.seedTime = (calls (drawsPerSeed len * k)).seedNow) :
    CalmDraw hook calls len k j t := by
  have hlimit := (drawsPerSeed_spec hlen).2.2 j hj
  have hs : tlsRngShouldReseed t.rng (calls (drawsPerSeed len * k + j)) = false := by
    refine tlsRngShouldReseed_eq_false.mpr ⟨hseeded, ?_, (h.pid _).trans hpid.symm, ?_⟩
    · rwa [hstream.toNat_bytesEmitted (by omega)]
    · rw [htime]
      exact h.hour k j hj
  obtain ⟨hret, hout, hstream', -, hd, hinfo⟩ := streams_step hook hstream (by omega) hdestructor hs
  rw [h.len_eq] at hout hstream'
  simp only [TlsRng.seedInfo, Prod.mk.injEq] at hinfo
  refine ⟨hret, ⟨kn, hkn, hout⟩, ?_⟩
  exact .seeded k (j + 1) j.succ_pos hj hkn hd hstream' (hinfo.2.2.1.trans hseeded)
    (hinfo.2.1.trans hpid) (hinfo.1.trans htime)

theorem CalmState.draw (hook : Option ExitHook) (h : Calm calls len) (hlen : 0 < len) {n : ℕ}
    {t : Thread} (hstate : CalmState calls len n t) :
    ∃ k j, n = drawsPerSeed len * k + j ∧ j < drawsPerSeed len ∧ CalmDraw hook calls len k j t := by
  obtain ⟨hper, hlimit, -⟩ := drawsPerSeed_spec hlen
  cases hstate with
  | fresh => exact ⟨0, 0, by simp, hper, h.draw_seeds hlen rfl rfl⟩
  | seeded k j hj hle hkn hdestructor hstream hseeded hpid htime =>
    rcases hle.lt_or_eq with hlt | rfl
    · exact ⟨k, j, rfl, hlt, h.draw_streams hlen hlt hkn hdestructor hstream hseeded hpid htime⟩
    · refine ⟨k + 1, 0, by rw [Nat.mul_succ, Nat.add_zero], hper, h.draw_seeds hlen hdestructor ?_⟩
      by_contra hs
      rw [Bool.not_eq_true, tlsRngShouldReseed_eq_false] at hs
      have hbound : len * drawsPerSeed len ≤ 2 ^ 20 + len - 1 := Nat.mul_div_le _ _
      have hlen_lt := (calls 0).len_lt
      rw [h.len_eq] at hlen_lt
      have hemitted := hs.2.1
      rw [hstream.toNat_bytesEmitted (by omega)] at hemitted
      omega

theorem calmState_threadAfter (hook : Option ExitHook) (h : Calm calls len) (hlen : 0 < len)
    (n : ℕ) : CalmState calls len n (threadAfter hook calls n) := by
  induction n with
  | zero => exact .fresh
  | succ n ih =>
    obtain ⟨k, j, hn, -, hdraw⟩ := ih.draw hook h hlen
    have hafter := hdraw.after
    rw [← hn] at hafter
    exact hn ▸ hafter

/-- Draw `n` delivers the part of a keystream that its number asks for. -/
theorem Calm.draw (h : Calm calls len) (hook : Option ExitHook) (hlen : 0 < len) (n : ℕ) :
    (threadSource hook calls n).ret = 0 ∧
      ∃ kn, (calls (drawsPerSeed len * (n / drawsPerSeed len))).entropy = some kn ∧
      ((threadSource hook calls n).buf len).toList =
        chacha.segment (seedState kn) (len * (n % drawsPerSeed len)) len := by
  obtain ⟨k, j, rfl, hj, hdraw⟩ := (calmState_threadAfter hook h hlen n).draw hook h hlen
  obtain ⟨kn, hkn, hout⟩ := hdraw.out
  rw [Nat.mul_add_div (drawsPerSeed_spec hlen).1, Nat.div_eq_of_lt hj, Nat.add_zero,
    Nat.mul_add_mod, Nat.mod_eq_of_lt hj]
  refine ⟨hdraw.ret, kn, hkn, ?_⟩
  rw [threadSource, toList_buf (by rw [hout, BlockStream.length_segment]), hout]

/-- The clock of pass `i` can be read and is in the range of the format. -/
def ClockInRange (env : GenEnv) (i : ℕ) : IdFormat → Prop
  | .ksuid => ∃ t, env.clock i = some t ∧ KsuidTimeInRange t.toInt
  | .uuidv7 => 0 ≤ env.nowMs i ∧ env.nowMs i ≤ uuidv7MaxUnixMs

theorem makes_of_clock {env : GenEnv} {i : ℕ} {f : IdFormat} (hclock : ClockInRange env i f)
    (hret : (env.src i).ret = 0) : ∃ g, Makes env i f g := by
  refine (makes_or_fails env f i).resolve_right ?_
  rintro ⟨e, he⟩
  cases he with
  | ksuidTime h =>
    obtain ⟨t, ht, hin⟩ := hclock
    exact h t ht hin
  | ksuidRng _ _ hne => exact hne hret
  | uuidv7Time h => exact h hclock
  | uuidv7Rng _ hne => exact hne hret

theorem Makes.carries {env : GenEnv} {i : ℕ} {f : IdFormat} {g : GenId} (h : Makes env i f g) :
    g.Carries ((env.src i).buf f.randomLen).toList := by
  cases h with
  | ksuid hclock ht hret htime hpayload => exact congrArg Vector.toList hpayload
  | uuidv7 hms hret hid =>
    have hh := carries_fromParts hms ⟨Vector.replicate 16 0#8⟩ ((env.src i).buf 10)
    rwa [hid] at hh

/-- A program whose clocks stay in range makes every identifier it was asked for, and which bytes of
which keystream an identifier carries is told by its number alone: the generator takes a new seed
every `2 ^ 20` bytes, and from a seed the identifiers carry the keystream piece after piece. -/
theorem generated_keystream (hook : Option ExitHook) (env : GenEnv) (o : GenOptions)
    {calls : ℕ → DrawCall} (h : Calm calls o.idformat.randomLen)
    (hclock : ∀ i < o.count, ClockInRange env i o.idformat) :
    ∃ ids, generate { env with src := threadSource hook calls } o =
        ⟨0, (ids.map (GenId.printed env.time o)).flatten, none⟩ ∧
      List.Forall₂ (fun i g => ∃ kn, (calls (drawsPerSeed o.idformat.randomLen *
          (i / drawsPerSeed o.idformat.randomLen))).entropy = some kn ∧
        g.Carries (chacha.segment (seedState kn)
          (o.idformat.randomLen * (i % drawsPerSeed o.idformat.randomLen)) o.idformat.randomLen))
        (List.range o.count) ids := by
  have hlen : 0 < o.idformat.randomLen := by cases o.idformat <;> decide
  have hdraw := h.draw hook hlen
  have hexit : (generate { env with src := threadSource hook calls } o).exit = 0 := by
    refine (generate_through _ o).2.mpr fun i hi => makes_of_clock ?_ (hdraw i).1
    have hh := hclock i hi
    cases hf : o.idformat <;> rwa [hf] at hh
  obtain ⟨ids, hids, hrun⟩ := generate_yields hexit
  refine ⟨ids, hrun, hids.imp fun i g hg => ?_⟩
  obtain ⟨-, kn, hkn, hout⟩ := hdraw i
  exact ⟨kn, hkn, hout ▸ hg.carries⟩

def numberedSeed (k : ℕ) : Vector Byte 44 := Vector.replicate 44 (BitVec.ofNat 8 k)

/-- Twenty draws a second, and entropy that tells the seeds apart. -/
def steadyCall (n : ℕ) : DrawCall :=
  { ksuidCall (byteCall 1) with
    now := n / 20
    seedNow := n / 20
    entropy := some (numberedSeed (n / 2 ^ 16)) }

theorem calm_steadyCall : Calm steadyCall 16 := by
  have hper : drawsPerSeed 16 = 2 ^ 16 := by decide
  refine ⟨fun _ => rfl, fun _ => rfl, fun _ => rfl, fun k j hj => ?_⟩
  rw [hper] at hj ⊢
  simp only [steadyCall]
  omega

/-- A seed has bytes for `2 ^ 16` identifiers of this listing, and the second gives the rest. -/
theorem generated_keystream_plain :
    let o := { GenOptions.default with count := 70000 }
    ∃ ids : List GenId, generate { plainEnv with src := threadSource none steadyCall } o =
        ⟨0, (ids.map (GenId.printed plainEnv.time o)).flatten, none⟩ ∧ ids.length = 70000 ∧
      ∀ i (g : GenId), ids[i]? = some g → g.Carries
        (chacha.segment (seedState (numberedSeed (i / 2 ^ 16))) (16 * (i % 2 ^ 16)) 16) := by
  intro o
  obtain ⟨ids, hrun, hids⟩ :=
    generated_keystream none plainEnv o calm_steadyCall fun _ _ => ⟨_, rfl, by decide⟩
  have hlen : ids.length = 70000 := hids.length_eq.symm.trans (List.length_range ..)
  refine ⟨ids, hrun, hlen, fun i g hg => ?_⟩
  obtain ⟨hi, rfl⟩ := List.getElem?_eq_some_iff.mp hg
  obtain ⟨kn, hkn, hcarries⟩ := (List.forall₂_iff_get.mp hids).2 i (by simp [o, ← hlen, hi]) hi
  have hper : drawsPerSeed o.idformat.randomLen = 2 ^ 16 := by decide
  simp only [List.get_eq_getElem, List.getElem_range, hper, steadyCall, Option.some_inj,
    Nat.mul_div_cancel_left _ (Nat.two_pow_pos 16)] at hkn hcarries
  exact hkn ▸ hcarries

end Chronoid
