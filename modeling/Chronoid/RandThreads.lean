import Chronoid.RandFork
import Chronoid.RandThreadExit

/-! The threads of a tree of processes. Every thread has a generator of its own; a new thread starts
with an empty one, and a child process with a copy of that of the thread that forked. -/

namespace Chronoid

def onThread (s : ProcTree) (i : ℕ) (f : Thread → Thread) : ProcTree :=
  match s.procs[i]? with
  | some p => { s with procs := s.procs.set i { p with thread := f p.thread } }
  | none => s

/-- A thread of the same process, with nothing drawn yet. -/
def spawnThread (s : ProcTree) (i : ℕ) : ProcTree :=
  match s.procs[i]? with
  | some p => { s with procs := s.procs ++ [⟨p.pid, true, newThread p.thread.flsIndex, 0⟩] }
  | none => s

/-- What a thread may do beside drawing, forking and exiting; the callback is the platform's. -/
inductive ThreadOp where
  | proc (op : ProcOp)
  | spawn (i : ℕ)
  | forceReseed (i : ℕ)
  | wipe (i : ℕ)
  | runCallback (i : ℕ)

def threadStep (hook : Option ExitHook) (s : ProcTree) : ThreadOp → ProcTree
  | .proc op => (treeStep hook s op).1
  | .spawn i => spawnThread s i
  | .forceReseed i => onThread s i randomForceReseed
  | .wipe i => onThread s i randomThreadStateWipe
  | .runCallback i => onThread s i runExitCallback

def ThreadOp.procOps : ThreadOp → List ProcOp
  | .proc op => [op]
  | _ => []

/-- Where in which keystream a draw starts. -/
def keystreamAt (s : ProcTree) (p : Proc) (c : DrawCall) : ℕ × ℕ :=
  if (seedingOf p.thread c).isSome then (s.seedings.length, 0)
  else (p.seeding, p.thread.rng.bytesEmitted.toNat)

/-- Every process is told its own identifier. -/
def OwnPid (s : ProcTree) : ProcOp → Prop
  | .draw i c => ∀ p ∈ s.procs[i]?, c.pid = p.pid
  | _ => True

instance (s : ProcTree) : (op : ProcOp) → Decidable (OwnPid s op)
  | .fork _ _ => inferInstanceAs (Decidable True)
  | .exit _ => inferInstanceAs (Decidable True)
  | .draw _ _ => inferInstanceAs (Decidable (∀ p ∈ _, _))

instance (s : ProcTree) : (op : ProcOp) → Decidable (FreshPid s op)
  | .fork _ _ => inferInstanceAs (Decidable (∀ p ∈ _, _))
  | .exit _ => inferInstanceAs (Decidable True)
  | .draw _ _ => inferInstanceAs (Decidable True)

/-- Nobody mistakes its process for another, and no child goes under the identifier that its copied
slot has cached. -/
def Told (s : ProcTree) (ops : List ProcOp) : Prop := ∀ op ∈ ops, OwnPid s op ∧ FreshPid s op

instance (s : ProcTree) (ops : List ProcOp) : Decidable (Told s ops) :=
  inferInstanceAs (Decidable (∀ op ∈ ops, _))

section Tree

variable {hook : Option ExitHook} {s : ProcTree} {i : ℕ} {p : Proc} {c : DrawCall}

theorem drawProc_grows (hook : Option ExitHook) (s : ProcTree) (i : ℕ) (p : Proc) (c : DrawCall) :
    (∃ gs, (drawProc hook s i p c).seedings = s.seedings ++ gs) ∧
      (drawProc hook s i p c).log = s.log ++ deliveries i (keystreamAt s p c).1
        (keystreamAt s p c).2 (randomBytes hook p.thread c).out := by
  cases hkn : seedingOf p.thread c with
  | none =>
    simp only [drawProc, keystreamAt, hkn, Option.isSome_none, Bool.false_eq_true, if_false,
      and_true]
    exact ⟨[], (List.append_nil _).symm⟩
  | some kn =>
    simp only [drawProc, keystreamAt, hkn, Option.isSome_some, if_true, and_true]
    exact ⟨_, rfl⟩

/-- What was seeded and delivered stays where it is. -/
def ProcTree.Grows (s s' : ProcTree) : Prop :=
  (∃ gs, s'.seedings = s.seedings ++ gs) ∧ ∃ ds, s'.log = s.log ++ ds

theorem ProcTree.Grows.refl (s : ProcTree) : s.Grows s :=
  ⟨⟨[], (List.append_nil _).symm⟩, [], (List.append_nil _).symm⟩

theorem ProcTree.Grows.trans {s s' s'' : ProcTree} (h : s.Grows s') (h' : s'.Grows s'') :
    s.Grows s'' := by
  obtain ⟨⟨gs, hgs⟩, ds, hds⟩ := h
  obtain ⟨⟨gs', hgs'⟩, ds', hds'⟩ := h'
  exact ⟨⟨gs ++ gs', by rw [hgs', hgs, List.append_assoc]⟩, ds ++ ds',
    by rw [hds', hds, List.append_assoc]⟩

theorem ProcTree.Grows.seeding {s s' : ProcTree} (h : s.Grows s') {k : ℕ} {g : Seeding}
    (hg : s.seedings[k]? = some g) : s'.seedings[k]? = some g := by
  obtain ⟨⟨gs, hgs⟩, -⟩ := h
  exact hgs ▸ seedings_append gs hg

theorem ProcTree.Grows.delivered {s s' : ProcTree} (h : s.Grows s') {x : ℕ × ℕ}
    (hx : x ∈ s.log.map Delivery.position) : x ∈ s'.log.map Delivery.position := by
  obtain ⟨-, ds, hds⟩ := h
  rw [hds, List.map_append]
  exact List.mem_append_left _ hx

theorem treeStep_grows (hook : Option ExitHook) (s : ProcTree) (op : ProcOp) :
    s.Grows (treeStep hook s op).1 := by
  cases op with
  | fork i pid =>
    simp only [treeStep]
    cases s.procs[i]? <;> exact .refl s
  | exit i =>
    simp only [treeStep]
    cases s.procs[i]? <;> exact .refl s
  | draw i c =>
    simp only [treeStep]
    cases s.procs[i]? with
    | none => exact .refl s
    | some p => exact ⟨(drawProc_grows hook s i p c).1, _, (drawProc_grows hook s i p c).2⟩

theorem treeStep_draw (hp : s.procs[i]? = some p) :
    (treeStep hook s (.draw i c)).1 = drawProc hook s i p c := by
  simp only [treeStep, hp]

/-- The reseed test catches every draw from another process's slot, as long as no process goes under
the identifier that the slot it copied has cached. -/
theorem PidInv.detected (h : PidInv s) {op : ProcOp} (hown : OwnPid s op) : Detected s op := by
  cases op with
  | draw i c =>
    intro p hp hforeign
    have hpid := hown p hp
    by_contra hs
    rw [Bool.not_eq_true, tlsRngShouldReseed_eq_false] at hs
    exact hforeign (h i p hp hs.1 (hs.2.2.1.symm.trans hpid))
  | _ => trivial

/-- A draw that succeeds gives its process the keystream of a seeding of its own. -/
theorem TreeInv.draws (h : TreeInv s) (hook : Option ExitHook) (hp : s.procs[i]? = some p)
    (hdet : Detected s (.draw i c)) (hok : (randomBytes hook p.thread c).ret = 0) :
    ∃ g, (drawProc hook s i p c).seedings[(keystreamAt s p c).1]? = some g ∧ g.owner = i ∧
      (randomBytes hook p.thread c).out =
        chacha.segment (seedState g.kn) (keystreamAt s p c).2 c.len := by
  have hslot := h.slots i p hp
  cases hs : tlsRngShouldReseed p.thread.rng c with
  | true =>
    obtain ⟨kn, hkn, hout, -⟩ := reseeds_step hok hs
    have hseeds : seedingOf p.thread c = some kn :=
      seedingOf_eq_some.mpr ⟨hslot.inDestructor, hs, hkn⟩
    simp only [drawProc, keystreamAt, hseeds, Option.isSome_some, if_true]
    exact ⟨⟨i, kn⟩, by simp, rfl, hout⟩
  | false =>
    have hseeds : seedingOf p.thread c = none := by simp [seedingOf, hs]
    obtain ⟨g, n, hg, hn, hstream, -⟩ := hslot.streaming (tlsRngShouldReseed_eq_false.mp hs).1
    have hown : (s.seedings[p.seeding]?).map Seeding.owner = some i := by
      by_contra hne
      rw [hdet p hp hne] at hs
      cases hs
    rw [hg, Option.map_some, Option.some_inj] at hown
    obtain ⟨-, hout, -⟩ := streams_step hook hstream hn hslot.inDestructor hs
    simp only [drawProc, keystreamAt, hseeds, Option.isSome_none, Bool.false_eq_true, if_false,
      hstream.toNat_bytesEmitted hn]
    exact ⟨g, hg, hown, hout⟩

/-- The bytes that a draw delivers stand in a keystream of its process, where nothing was delivered
before. -/
structure Draws (s s' : ProcTree) (i : ℕ) (place : ℕ × ℕ) (bytes : List Byte) : Prop where
  segment : ∃ g, s'.seedings[place.1]? = some g ∧ g.owner = i ∧
    bytes = chacha.segment (seedState g.kn) place.2 bytes.length
  delivered : ∀ j < bytes.length, (place.1, place.2 + j) ∈ s'.log.map Delivery.position
  fresh : ∀ j < bytes.length, (place.1, place.2 + j) ∉ s.log.map Delivery.position

theorem TreeInv.draw_draws (h : TreeInv s) (hp : s.procs[i]? = some p)
    (hdet : Detected s (.draw i c)) (hok : (randomBytes hook p.thread c).ret = 0) :
    (randomBytes hook p.thread c).out.length = c.len ∧
      Draws s (drawProc hook s i p c) i (keystreamAt s p c) (randomBytes hook p.thread c).out := by
  obtain ⟨g, hg, hown, hout⟩ := h.draws hook hp hdet hok
  have hlength : (randomBytes hook p.thread c).out.length = c.len := by
    rw [hout, BlockStream.length_segment]
  have hlog := (drawProc_grows hook s i p c).2
  have hmem : ∀ j < (randomBytes hook p.thread c).out.length,
      ((keystreamAt s p c).1, (keystreamAt s p c).2 + j) ∈
      (deliveries i (keystreamAt s p c).1 (keystreamAt s p c).2
        (randomBytes hook p.thread c).out).map Delivery.position := by
    intro j hj
    rw [position_deliveries]
    exact List.mem_map_of_mem (List.mem_range'_1.mpr ⟨by omega, by omega⟩)
  have hdrawn : TreeInv (drawProc hook s i p c) := h.draw hp (hdet p hp)
  have hnodup := hdrawn.nodup
  rw [hlog, List.map_append, List.nodup_append] at hnodup
  refine ⟨hlength, ⟨g, hg, hown, by rw [hlength, ← hout]⟩, fun j hj => ?_, fun j hj hold => ?_⟩
  · rw [hlog, List.map_append]
    exact List.mem_append_right _ (hmem j hj)
  · exact hnodup.2.2 _ hold _ (hmem j hj) rfl

theorem treeStep_procs (hook : Option ExitHook) (s : ProcTree) (op : ProcOp) :
    s.procs.length ≤ (treeStep hook s op).1.procs.length := by
  cases op with
  | fork i pid =>
    simp only [treeStep]
    cases s.procs[i]? <;> simp
  | exit i =>
    simp only [treeStep]
    cases s.procs[i]? <;> simp
  | draw i c =>
    simp only [treeStep]
    cases s.procs[i]? with
    | none => exact le_rfl
    | some p =>
      simp only [drawProc]
      split <;> simp

/-- Either nothing changes, or the thread has lost what it was seeded with. -/
inductive Unseeds (s : ProcTree) (i : ℕ) : ProcTree → Prop
  | same {s' : ProcTree} (hs : s' = s) : Unseeds s i s'
  | unseeded {p q : Proc} (hp : s.procs[i]? = some p) (hseeded : q.thread.rng.seeded = false)
      (hdestructor : q.thread.inDestructor = p.thread.inDestructor ∨
        q.thread.inDestructor = false) :
      Unseeds s i { s with procs := s.procs.set i q }

theorem onThread_unseeds {f : Thread → Thread} (hf : ∀ t, f t = t ∨ (f t).rng.seeded = false ∧
    ((f t).inDestructor = t.inDestructor ∨ (f t).inDestructor = false)) (s : ProcTree) (i : ℕ) :
    Unseeds s i (onThread s i f) := by
  rw [onThread]
  cases hp : s.procs[i]? with
  | none => exact .same rfl
  | some p =>
    rcases hf p.thread with hsame | ⟨hseeded, hdestructor⟩
    · obtain ⟨hi, rfl⟩ := List.getElem?_eq_some_iff.mp hp
      have hset : { s with procs := s.procs.set i s.procs[i] } = s := by rw [List.set_getElem_self]
      exact .same (by simpa only [hsame] using hset)
    · exact .unseeded hp hseeded hdestructor

theorem Unseeds.inv {s' : ProcTree} (hs : Unseeds s i s') (h : TreeInv s) (hpids : PidInv s) :
    TreeInv s' ∧ PidInv s' := by
  cases hs with
  | same hs => exact hs ▸ ⟨h, hpids⟩
  | unseeded hp hseeded hdestructor =>
    refine ⟨⟨fun j r hr => ?_, fun g hg => by simpa using h.owners g hg, h.labels, h.nodup⟩,
      fun j r hr hs hpid => ?_⟩
    · rcases getElem?_set_cases hr with ⟨rfl, rfl⟩ | ⟨-, hr⟩
      · refine ⟨hdestructor.elim (fun hh => hh.trans (h.slots _ _ hp).inDestructor) id,
          fun hs => ?_⟩
        rw [hseeded] at hs
        cases hs
      · exact ⟨(h.slots j r hr).inDestructor, (h.slots j r hr).streaming⟩
    · rcases getElem?_set_cases hr with ⟨rfl, rfl⟩ | ⟨-, hr⟩
      · rw [hseeded] at hs
        cases hs
      · exact hpids j r hr hs hpid

theorem spawnThread_inv (h : TreeInv s) (hpids : PidInv s) (i : ℕ) :
    TreeInv (spawnThread s i) ∧ PidInv (spawnThread s i) := by
  rw [spawnThread]
  cases s.procs[i]? with
  | none => exact ⟨h, hpids⟩
  | some p =>
    refine ⟨⟨fun j r hr => ?_, fun g hg => ?_, h.labels, h.nodup⟩, fun j r hr hs hpid => ?_⟩
    · rcases getElem?_concat_cases hr with hr | ⟨-, rfl⟩
      · exact ⟨(h.slots j r hr).inDestructor, (h.slots j r hr).streaming⟩
      · exact ⟨rfl, fun hs => (by cases hs)⟩
    · have hlt := h.owners g hg
      simp only [List.length_append, List.length_singleton]
      omega
    · rcases getElem?_concat_cases hr with hr | ⟨-, rfl⟩
      · exact hpids j r hr hs hpid
      · cases hs

theorem wipe_unseeds (t : Thread) :
    randomThreadStateWipe t = t ∨ (randomThreadStateWipe t).rng.seeded = false ∧
    ((randomThreadStateWipe t).inDestructor = t.inDestructor ∨
      (randomThreadStateWipe t).inDestructor = false) :=
  .inr ⟨rfl, .inr rfl⟩

theorem runExitCallback_unseeds (t : Thread) :
    runExitCallback t = t ∨ (runExitCallback t).rng.seeded = false ∧
    ((runExitCallback t).inDestructor = t.inDestructor ∨
      (runExitCallback t).inDestructor = false) := by
  rw [runExitCallback]
  split_ifs
  · exact .inl rfl
  · exact .inr ⟨rfl, .inr rfl⟩

/-- Whatever threads of whatever processes do, no place of a keystream is delivered twice. -/
theorem threadStep_inv (hook : Option ExitHook) (h : TreeInv s) (hpids : PidInv s) {op : ThreadOp}
    (htold : Told s op.procOps) :
    TreeInv (threadStep hook s op) ∧ PidInv (threadStep hook s op) := by
  cases op with
  | proc op =>
    obtain ⟨hown, hfresh⟩ := htold op (List.mem_singleton_self op)
    exact ⟨h.step (hpids.detected hown), hpids.step hfresh⟩
  | spawn i => exact spawnThread_inv h hpids i
  | forceReseed i =>
    have hunseeds (t : Thread) : randomForceReseed t = t ∨
        (randomForceReseed t).rng.seeded = false ∧
          ((randomForceReseed t).inDestructor = t.inDestructor ∨
            (randomForceReseed t).inDestructor = false) := .inr ⟨rfl, .inl rfl⟩
    exact (onThread_unseeds hunseeds s i).inv h hpids
  | wipe i => exact (onThread_unseeds wipe_unseeds s i).inv h hpids
  | runCallback i => exact (onThread_unseeds runExitCallback_unseeds s i).inv h hpids

theorem onThread_frame (s : ProcTree) (i : ℕ) (f : Thread → Thread) :
    (onThread s i f).seedings = s.seedings ∧
    (onThread s i f).log = s.log ∧ (onThread s i f).procs.length = s.procs.length := by
  rw [onThread]
  cases s.procs[i]? <;> simp

theorem threadStep_grows (hook : Option ExitHook) (s : ProcTree) (op : ThreadOp) :
    s.Grows (threadStep hook s op) ∧ s.procs.length ≤ (threadStep hook s op).procs.length := by
  have honThread (i : ℕ) (f : Thread → Thread) :
      s.Grows (onThread s i f) ∧ s.procs.length ≤ (onThread s i f).procs.length := by
    obtain ⟨hseedings, hlog, hprocs⟩ := onThread_frame s i f
    exact ⟨⟨⟨[], by rw [hseedings, List.append_nil]⟩, [], by rw [hlog, List.append_nil]⟩, hprocs.ge⟩
  cases op with
  | proc op => exact ⟨treeStep_grows hook s op, treeStep_procs hook s op⟩
  | spawn i =>
    simp only [threadStep, spawnThread]
    cases s.procs[i]? with
    | none => exact ⟨.refl s, le_rfl⟩
    | some p => exact ⟨⟨⟨[], (List.append_nil _).symm⟩, [], (List.append_nil _).symm⟩, by simp⟩
  | forceReseed i => exact honThread i _
  | wipe i => exact honThread i _
  | runCallback i => exact honThread i _

end Tree

end Chronoid
