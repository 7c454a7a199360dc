import Chronoid.RandRuns

/-! The thread-exit wipe: when a slot that looks seeded has a callback that will fire. -/

namespace Chronoid

/-- What can happen to a thread where the platform has an exit hook. The callback is the
platform's to run, once for each registration it accepted. -/
inductive ExitOp where
  | op (o : RngOp)
  | runCallback

def runExitCallback (t : Thread) : Thread :=
  if t.pending = 0 then t else randomThreadStateWipe { t with pending := t.pending - 1 }

def exitStep (hook : ExitHook) (t : Thread) : ExitOp → Thread × List Byte
  | .op o => rngStep (some hook) t o
  | .runCallback => (runExitCallback t, [])

def newThread (flsIndex : Option Bool) : Thread := ⟨TlsRng.zero, false, flsIndex, 0⟩

def accepts (hook : ExitHook) (flsIndex : Option Bool) (env : Registration) : Bool :=
  match hook with
  | .cxa => env.cxaRet = 0
  | .fls => flsIndex.getD env.flsAlloc && env.flsSetValue

def attempts (t : Thread) (c : DrawCall) : Prop :=
  (seedingOf t c).isSome = true ∧ t.rng.destructorRegistered = false

/-- A registration asked for while no callback is due is accepted. -/
def Accepted (hook : ExitHook) (t : Thread) : ExitOp → Prop
  | .op (.draw c) => attempts t c → t.pending = 0 → accepts hook t.flsIndex c.registration = true
  | _ => True

/-- If the slot looks seeded, an accepted callback has still to run. -/
def Guarded (t : Thread) : Prop := t.rng.seeded = true → 0 < t.pending

instance (t : Thread) : Decidable (Guarded t) :=
  inferInstanceAs (Decidable (t.rng.seeded = true → 0 < t.pending))

structure ExitInv (t : Thread) : Prop where
  inDestructor : t.inDestructor = false
  seeded : t.rng.seeded = true → 0 < t.pending
  registered : t.rng.destructorRegistered = true → 0 < t.pending

variable {hook : ExitHook}

theorem tlsRegisterThreadExit_of_registered {env : Registration} {t : Thread}
    (h : t.rng.destructorRegistered = true) : tlsRegisterThreadExit (some hook) env t = t := by
  cases hook <;> simp [tlsRegisterThreadExit, h]

theorem tlsRegisterThreadExit_of_accepts {env : Registration} {t : Thread}
    (h : t.rng.destructorRegistered = false) (ha : accepts hook t.flsIndex env = true) :
    0 < (tlsRegisterThreadExit (some hook) env t).pending := by
  cases hook with
  | cxa =>
    have hret : env.cxaRet = 0 := by simpa [accepts] using ha
    simp [tlsRegisterThreadExit, h, hret]
  | fls =>
    simp only [accepts, Bool.and_eq_true] at ha
    simp [tlsRegisterThreadExit, h, ha.1, ha.2]

theorem tlsRegisterThreadExit_of_refuses {env : Registration} {t : Thread}
    (ha : accepts hook t.flsIndex env = false) :
    (tlsRegisterThreadExit (some hook) env t).pending = t.pending := by
  cases hook with
  | cxa =>
    have hret : env.cxaRet ≠ 0 := by simpa [accepts] using ha
    simp only [tlsRegisterThreadExit, hret, if_false]
    split_ifs <;> rfl
  | fls =>
    simp only [accepts, Bool.and_eq_false_iff] at ha
    simp only [tlsRegisterThreadExit]
    split_ifs with hreg hindex hset
    · rfl
    · rfl
    · simp_all
    · rfl

theorem tlsRegisterThreadExit_pending_pos {env : Registration} {t : Thread}
    (hreg : t.rng.destructorRegistered = true → 0 < t.pending)
    (ha : t.rng.destructorRegistered = false → t.pending = 0 → accepts hook t.flsIndex env = true) :
    0 < (tlsRegisterThreadExit (some hook) env t).pending := by
  cases h : t.rng.destructorRegistered with
  | true =>
    rw [tlsRegisterThreadExit_of_registered h]
    exact hreg h
  | false =>
    cases hacc : accepts hook t.flsIndex env with
    | true => exact tlsRegisterThreadExit_of_accepts h hacc
    | false =>
      rw [tlsRegisterThreadExit_of_refuses hacc]
      by_contra hz
      simp [ha h (Nat.eq_zero_of_not_pos hz)] at hacc

theorem seedThread_pending_pos {t : Thread} {c : DrawCall} (kn : Vector Byte 44)
    (hreg : t.rng.destructorRegistered = true → 0 < t.pending)
    (ha : t.rng.destructorRegistered = false → t.pending = 0 →
      accepts hook t.flsIndex c.registration = true) :
    0 < (seedThread (some hook) c t kn).pending := by
  rw [seedThread_pending]
  exact tlsRegisterThreadExit_pending_pos (by simpa using hreg) (by simpa using ha)

theorem seedThread_pending_of_refuses {t : Thread} {c : DrawCall} (kn : Vector Byte 44)
    (ha : accepts hook t.flsIndex c.registration = false) :
    (seedThread (some hook) c t kn).pending = t.pending := by
  rw [seedThread_pending, tlsRegisterThreadExit_of_refuses (by simpa using ha), writeSeed_pending]

theorem ExitInv.draw {t : Thread} {c : DrawCall} (h : ExitInv t)
    (ha : Accepted hook t (.op (.draw c))) : ExitInv (randomBytes (some hook) t c).thread := by
  cases hkn : seedingOf t c with
  | some kn =>
    obtain ⟨hok, hs, hpending⟩ := randomBytes_of_seeds (some hook) hkn
    obtain ⟨-, -, -, -, hd, -⟩ := reseeds_step hok hs
    have hpos : 0 < (randomBytes (some hook) t c).thread.pending := by
      rw [hpending]
      refine seedThread_pending_pos kn h.registered fun hreg hz => ?_
      exact ha ⟨by simp [hkn], hreg⟩ hz
    exact ⟨hd, fun _ => hpos, fun _ => hpos⟩
  | none =>
    obtain ⟨hinfo, hd, hpending⟩ := randomBytes_of_not_seeds (some hook) hkn
    simp only [TlsRng.seedInfo, Prod.mk.injEq] at hinfo
    obtain ⟨-, -, hseeded, hreg⟩ := hinfo
    refine ⟨hd.trans h.inDestructor, fun hs => ?_, fun hr => ?_⟩
    · rw [hpending]
      exact h.seeded (hseeded ▸ hs)
    · rw [hpending]
      exact h.registered (hreg ▸ hr)

theorem ExitInv.zero {t : Thread} : ExitInv (randomThreadStateWipe t) :=
  ⟨rfl, fun h => (by cases h), fun h => (by cases h)⟩

/-- An accepted registration is never lost: a wipe takes both flags down with the slot. -/
theorem ExitInv.step {t : Thread} {op : ExitOp} (h : ExitInv t) (ha : Accepted hook t op) :
    ExitInv (exitStep hook t op).1 := by
  cases op with
  | runCallback =>
    simp only [exitStep, runExitCallback]
    split_ifs
    · exact h
    · exact .zero
  | op o =>
    cases o with
    | draw c => exact h.draw ha
    | forceReseed => exact ⟨h.inDestructor, fun hs => (by cases hs), h.registered⟩
    | wipe => exact .zero

theorem not_guarded_of_not_accepted {t : Thread} {op : ExitOp} (ha : ¬Accepted hook t op) :
    ¬Guarded (exitStep hook t op).1 := by
  rcases op with (c | _ | _) | _
  · simp only [Accepted, Classical.not_imp, Bool.not_eq_true] at ha
    obtain ⟨⟨hseeds, -⟩, hz, hacc⟩ := ha
    obtain ⟨kn, hkn⟩ := Option.isSome_iff_exists.mp hseeds
    obtain ⟨hok, hs, hpending⟩ := randomBytes_of_seeds (some hook) hkn
    obtain ⟨-, -, -, -, -, b, hinfo⟩ := reseeds_step hok hs
    simp only [TlsRng.seedInfo, Prod.mk.injEq] at hinfo
    rw [seedThread_pending_of_refuses kn hacc, hz] at hpending
    intro hguarded
    have hpos : 0 < (randomBytes (some hook) t c).thread.pending := hguarded hinfo.2.2.1
    omega
  all_goals exact absurd trivial ha

/-- The slot looks seeded only while a callback will fire, in every state of a run, exactly
when the platform refuses no registration that is asked for while none is due. -/
theorem seeded_guarded_iff (hook : ExitHook) (flsIndex : Option Bool) (ops : List ExitOp) :
    (∀ pre, pre <+: ops → Guarded (Machine.run (exitStep hook) (newThread flsIndex) pre).1) ↔
      Machine.Along (exitStep hook) (Accepted hook) (newThread flsIndex) ops :=
  Machine.throughout_iff_along (fun _ _ => ExitInv.step) (fun _ h => h.seeded)
    (fun _ _ _ => not_guarded_of_not_accepted) (I := ExitInv)
    ⟨rfl, fun h => (by cases h), fun h => (by cases h)⟩ ops

def drawUnder (env : Registration) : ExitOp := .op (.draw { byteCall 1 with registration := env })

/-- Both hooks seed on after a refusal: the answer of the one is dropped, the other returns
early from the registration only. -/
theorem seeded_unguarded :
    ¬Guarded (Machine.run (exitStep .cxa) (newThread none) [drawUnder ⟨-1, true, true⟩]).1 ∧
      ¬Guarded (Machine.run (exitStep .fls) (newThread none) [drawUnder ⟨0, false, true⟩]).1 := by
  decide +kernel

end Chronoid
