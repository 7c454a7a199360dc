import Chronoid.ChaCha20

/-! The per-thread random generator: seeding, the reseed test, the loop that hands
out keystream, and the thread-exit wipe with its registration. -/

namespace Chronoid

structure TlsRng where
  state : ChaChaState
  buf : Vector Byte 64
  bufPos : ℕ
  bytesEmitted : Word64
  seedTime : Int
  seedPid : Int
  seeded : Bool
  destructorRegistered : Bool
  deriving DecidableEq

inductive ExitHook where
  | cxa
  | fls
  deriving DecidableEq

/-- A thread: its generator slot, and what the platform holds for its exit. `flsIndex`
is the outcome of the one `FlsAlloc`, once made; `pending` counts the wipe callbacks
accepted and not yet run. -/
structure Thread where
  rng : TlsRng
  inDestructor : Bool
  flsIndex : Option Bool
  pending : ℕ
  deriving DecidableEq

structure Registration where
  cxaRet : Int
  flsAlloc : Bool
  flsSetValue : Bool

/-- One `chronoid_random_bytes` call with what the system answers during it: the clock
is read by the reseed test and again by the seeding, and `entropy` is what the source
of the operating system delivers. No buffer has `2 ^ 63` bytes. -/
structure DrawCall where
  len : ℕ
  len_lt : len < 2 ^ 63
  pid : Int
  now : Int
  seedNow : Int
  entropy : Option (Vector Byte 44)
  registration : Registration

def rngReseedBytes : Word64 := 1#64 <<< 20
def rngReseedSeconds : Int := 3600

def TlsRng.zero : TlsRng :=
  ⟨Vector.replicate 16 0#32, Vector.replicate 64 0#8, 0, 0#64, 0, 0, false, false⟩

def randomThreadStateWipe (t : Thread) : Thread :=
  { t with rng := TlsRng.zero, inDestructor := false }

def randomForceReseed (t : Thread) : Thread := { t with rng := { t.rng with seeded := false } }

/-- The flag goes up before the attempt on the cxa hook, whose answer is dropped, and
only after a success on the FLS hook. -/
def tlsRegisterThreadExit (hook : Option ExitHook) (env : Registration) (t : Thread) : Thread :=
  if t.rng.destructorRegistered then t
  else match hook with
    | none => t
    | some .cxa =>
      let t := { t with rng := { t.rng with destructorRegistered := true } }
      if env.cxaRet = 0 then { t with pending := t.pending + 1 } else t
    | some .fls =>
      let t := { t with flsIndex := some (t.flsIndex.getD env.flsAlloc) }
      if t.flsIndex = some false then t
      else if env.flsSetValue then
        { t with rng := { t.rng with destructorRegistered := true }, pending := 1 }
      else t

def seedState (kn : Vector Byte 44) : ChaChaState :=
  #v[0x61707865#32, 0x3320646e#32, 0x79622d32#32, 0x6b206574#32] ++
    Vector.ofFn (fun i : Fin 8 => le32Load kn (i.val * 4) (by omega)) ++ #v[0#32] ++
    Vector.ofFn (fun i : Fin 3 => le32Load kn (32 + i.val * 4) (by omega))

/-- What a seeding writes of its key and nonce; the slot is not marked as seeded yet. -/
def writeSeed (c : DrawCall) (t : Thread) (kn : Vector Byte 44) : Thread :=
  { t with rng := { t.rng with
    state := seedState kn, buf := Vector.replicate 64 0#8, bufPos := 64, bytesEmitted := 0#64,
    seedPid := c.pid, seedTime := c.seedNow } }

def seedThread (hook : Option ExitHook) (c : DrawCall) (t : Thread) (kn : Vector Byte 44) :
    Thread :=
  let t := tlsRegisterThreadExit hook c.registration (writeSeed c t kn)
  { t with rng := { t.rng with seeded := true } }

section WriteSeed

variable (c : DrawCall) (t : Thread) (kn : Vector Byte 44)

@[simp] theorem writeSeed_rng : (writeSeed c t kn).rng = ⟨seedState kn, Vector.replicate 64 0#8, 64,
    0#64, c.seedNow, c.pid, t.rng.seeded, t.rng.destructorRegistered⟩ := by
  simp only [writeSeed]

@[simp] theorem writeSeed_inDestructor : (writeSeed c t kn).inDestructor = t.inDestructor := by
  simp only [writeSeed]

@[simp] theorem writeSeed_flsIndex : (writeSeed c t kn).flsIndex = t.flsIndex := by
  simp only [writeSeed]

@[simp] theorem writeSeed_pending : (writeSeed c t kn).pending = t.pending := by
  simp only [writeSeed]

theorem seedThread_pending (hook : Option ExitHook) : (seedThread hook c t kn).pending =
    (tlsRegisterThreadExit hook c.registration (writeSeed c t kn)).pending := by
  simp only [seedThread]

end WriteSeed

/-- `none` is the failure of the entropy source, before anything is written. -/
def tlsRngSeed (hook : Option ExitHook) (c : DrawCall) (t : Thread) : Option Thread :=
  c.entropy.map (seedThread hook c t)

def tlsRngShouldReseed (r : TlsRng) (c : DrawCall) : Bool :=
  if !r.seeded then true
  else if r.bytesEmitted ≥ rngReseedBytes then true
  else if c.pid ≠ r.seedPid then true
  else if c.now < r.seedTime then true
  else if c.now - r.seedTime ≥ rngReseedSeconds then true
  else false

/-- Whether the subtraction of the reseed test is reached and leaves the range of a signed word: C
leaves the answer undefined then, and the model goes on with the unbounded difference. -/
def tlsRngReseedOverflow (r : TlsRng) (c : DrawCall) : Bool :=
  r.seeded && decide (r.bytesEmitted < rngReseedBytes) && decide (c.pid = r.seedPid) &&
    decide (r.seedTime ≤ c.now) && decide (2 ^ 63 ≤ c.now - r.seedTime)

structure FillState where
  rng : TlsRng
  remaining : ℕ
  out : List Byte

def refillBuf (r : TlsRng) : TlsRng :=
  if r.bufPos = 64 then
    { r with buf := (chacha20Block r.state).1, state := (chacha20Block r.state).2, bufPos := 0 }
  else r

def wipeRange (buf : Vector Byte 64) (pos len : ℕ) : Vector Byte 64 :=
  Vector.ofFn fun i => if pos ≤ i.val ∧ i.val < pos + len then 0#8 else buf[i.val]

def fillStep (s : FillState) : FillState :=
  if s.remaining = 0 then s
  else
    let r := refillBuf s.rng
    let avail := 64 - r.bufPos
    let chunk := if s.remaining < avail then s.remaining else avail
    { rng := { r with
        buf := wipeRange r.buf r.bufPos chunk
        bufPos := r.bufPos + chunk
        bytesEmitted := r.bytesEmitted + BitVec.ofNat 64 chunk }
      remaining := s.remaining - chunk
      out := s.out ++ (r.buf.toList.drop r.bufPos).take chunk }

/-- Every pass delivers a byte at least, so as many passes as bytes finish the loop. -/
def fill (r : TlsRng) (n : ℕ) : FillState := fillStep^[n] ⟨r, n, []⟩

structure DrawResult where
  ret : Int
  out : List Byte
  thread : Thread

def randomBytes (hook : Option ExitHook) (t : Thread) (c : DrawCall) : DrawResult :=
  if t.inDestructor then ⟨-1, [], t⟩
  else if tlsRngShouldReseed t.rng c then
    match tlsRngSeed hook c t with
    | none => ⟨-1, [], t⟩
    | some t =>
      let s := fill t.rng c.len
      ⟨0, s.out, { t with rng := s.rng }⟩
  else
    let s := fill t.rng c.len
    ⟨0, s.out, { t with rng := s.rng }⟩

theorem tlsRegisterThreadExit_frame (hook : Option ExitHook) (env : Registration) (t : Thread) :
    (∃ b, (tlsRegisterThreadExit hook env t).rng = { t.rng with destructorRegistered := b }) ∧
      (tlsRegisterThreadExit hook env t).inDestructor = t.inDestructor := by
  rcases hook with _ | _ | _ <;> simp only [tlsRegisterThreadExit] <;> split_ifs <;>
    exact ⟨⟨_, rfl⟩, rfl⟩

theorem seedThread_frame (hook : Option ExitHook) (c : DrawCall) (t : Thread)
    (kn : Vector Byte 44) :
    ∃ b, (seedThread hook c t kn).rng = ⟨seedState kn, Vector.replicate 64 0#8, 64, 0#64, c.seedNow,
      c.pid, true, b⟩ ∧ (seedThread hook c t kn).inDestructor = t.inDestructor := by
  obtain ⟨⟨b, hb⟩, hd⟩ := tlsRegisterThreadExit_frame hook c.registration (writeSeed c t kn)
  rw [writeSeed_inDestructor] at hd
  rw [writeSeed_rng] at hb
  refine ⟨b, ?_, hd⟩
  simp only [seedThread, hb]

/-- The ways a call can go. -/
inductive DrawStep (hook : Option ExitHook) (t : Thread) (c : DrawCall) : DrawResult → Prop
  | inDestructor : t.inDestructor = true → DrawStep hook t c ⟨-1, [], t⟩
  | noEntropy : tlsRngShouldReseed t.rng c = true → c.entropy = none → DrawStep hook t c ⟨-1, [], t⟩
  | reseeds (kn : Vector Byte 44) : t.inDestructor = false → tlsRngShouldReseed t.rng c = true →
      c.entropy = some kn → DrawStep hook t c
        ⟨0, (fill (seedThread hook c t kn).rng c.len).out,
          { seedThread hook c t kn with rng := (fill (seedThread hook c t kn).rng c.len).rng }⟩
  | streams : t.inDestructor = false → tlsRngShouldReseed t.rng c = false →
      DrawStep hook t c ⟨0, (fill t.rng c.len).out, { t with rng := (fill t.rng c.len).rng }⟩

theorem randomBytes_step (hook : Option ExitHook) (t : Thread) (c : DrawCall) :
    DrawStep hook t c (randomBytes hook t c) := by
  rw [randomBytes]
  split_ifs with hd hs
  · exact .inDestructor hd
  · cases he : c.entropy with
    | none =>
      simp only [tlsRngSeed, he, Option.map_none]
      exact .noEntropy hs he
    | some kn =>
      simp only [tlsRngSeed, he, Option.map_some]
      exact .reseeds kn (by simpa using hd) hs he
  · exact .streams (by simpa using hd) (by simpa using hs)

theorem tlsRngShouldReseed_eq_false {r : TlsRng} {c : DrawCall} :
    tlsRngShouldReseed r c = false ↔ r.seeded = true ∧ r.bytesEmitted.toNat < 2 ^ 20 ∧
      c.pid = r.seedPid ∧ 0 ≤ c.now - r.seedTime ∧ c.now - r.seedTime < 3600 := by
  have hbytes : r.bytesEmitted ≥ rngReseedBytes ↔ ¬r.bytesEmitted.toNat < 2 ^ 20 := by
    rw [Nat.not_lt]
    rfl
  simp only [tlsRngShouldReseed, hbytes, rngReseedSeconds]
  cases r.seeded with
  | false => simp
  | true =>
    simp only [Bool.not_true, Bool.false_eq_true, if_false, true_and]
    split_ifs <;> simp <;> omega

theorem tlsRngReseedOverflow_eq_true {r : TlsRng} {c : DrawCall} :
    tlsRngReseedOverflow r c = true ↔ r.seeded = true ∧ r.bytesEmitted.toNat < 2 ^ 20 ∧
      c.pid = r.seedPid ∧ 2 ^ 63 ≤ c.now - r.seedTime := by
  have hbytes : r.bytesEmitted < rngReseedBytes ↔ r.bytesEmitted.toNat < 2 ^ 20 := Iff.rfl
  simp only [tlsRngReseedOverflow, Bool.and_eq_true, decide_eq_true_eq, hbytes]
  constructor
  · rintro ⟨⟨⟨⟨hseeded, hlow⟩, hpid⟩, -⟩, hfar⟩
    exact ⟨hseeded, hlow, hpid, hfar⟩
  · rintro ⟨hseeded, hlow, hpid, hfar⟩
    exact ⟨⟨⟨⟨hseeded, hlow⟩, hpid⟩, by omega⟩, hfar⟩

end Chronoid
