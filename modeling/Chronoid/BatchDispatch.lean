import Chronoid.Library.Coherent
import Chronoid.Uuidv7Batch

/-! The dispatchers of the batch functions under any number of threads: the cached pointer is an
atomic object, and a thread that finds it unresolved looks the kernel up and stores it. -/

namespace Chronoid

open Coherent (Cell)

/-- A call of a batch function on arrays that are the caller's own until it returns. -/
structure BatchCall (α : Type*) where
  ids : List α
  out : ℕ
  n : ℕ
  mem : Memory
  room : n ≤ ids.length

/-- The functions of one format: its kernels, the tests of its trampoline, and its dispatcher as one
thread finds it. -/
structure BatchKernels (α : Type*) where
  scalar : List α → ℕ → ℕ → Memory → Option Memory
  avx2 : List α → ℕ → ℕ → Memory → Option Memory
  forceScalarEnv : Option String → Bool
  cpuSupportsAvx2 : CpuProbe → Bool
  stringBatch : BatchHost → BatchFn → List α → ℕ → ℕ → Memory → Option Memory × BatchFn

def ksuidKernels : BatchKernels Ksuid where
  scalar := ksuidStringBatchScalar
  avx2 := ksuidStringBatchAvx2
  forceScalarEnv := forceScalarEnv
  cpuSupportsAvx2 := ksuidCpuSupportsAvx2
  stringBatch := ksuidStringBatch

def uuidv7Kernels (ssse3 : Bool) : BatchKernels Uuidv7 where
  scalar := uuidv7StringBatchScalar ssse3
  avx2 := uuidv7StringBatchAvx2 ssse3
  forceScalarEnv := uuidv7ForceScalarEnv
  cpuSupportsAvx2 := uuidv7CpuSupportsAvx2
  stringBatch host impl := uuidv7StringBatch host impl ssse3

variable {ι α : Type*}

/-- What a kernel makes of a call; the trampoline makes nothing of it before it has resolved. -/
def BatchKernels.enter (K : BatchKernels α) : BatchFn → BatchCall α → Option Memory
  | .trampoline, _ => none
  | .scalar, c => K.scalar c.ids c.out c.n c.mem
  | .avx2, c => K.avx2 c.ids c.out c.n c.mem

/-- The call on its own, by the dispatcher of one thread. -/
def BatchKernels.alone (K : BatchKernels α) (host : BatchHost) (impl : BatchFn) (c : BatchCall α) :
    Option Memory :=
  (K.stringBatch host impl c.ids c.out c.n c.mem).1

/-- What the trampoline resolves to when it reads `env` in the environment. -/
def BatchKernels.resolved (K : BatchKernels α) (host : BatchHost) (env : Option String) : BatchFn :=
  if host.haveAvx2Batch && (!K.forceScalarEnv env && K.cpuSupportsAvx2 host.cpu) then .avx2
  else .scalar

/-- Where a thread is: in no call, before the load of the pointer, at the entry of what it loaded,
or in the trampoline before its store. -/
inductive BatchPc (α : Type*) where
  | idle
  | loading (c : BatchCall α)
  | entered (c : BatchCall α) (f : BatchFn)
  | storing (c : BatchCall α) (f : BatchFn)

def BatchPc.call? : BatchPc α → Option (BatchCall α)
  | .idle => none
  | .loading c => some c
  | .entered c _ => some c
  | .storing c _ => some c

inductive BatchEvent (ι α : Type*) where
  | looked (i : ι) (env : Option String) (f : BatchFn)
  | returned (i : ι) (c : BatchCall α) (f : Option BatchFn) (r : Option Memory)

/-- The cached pointer, the threads, and what has happened, the latest first. -/
structure BatchProcess (ι α : Type*) where
  impl : Cell ι BatchFn
  pc : ι → BatchPc α
  log : List (BatchEvent ι α)

def BatchProcess.start : BatchProcess ι α := ⟨.new .trampoline, fun _ => .idle, []⟩

/-- One step of thread `i`. The environment is what it is when the trampoline reads it. -/
inductive BatchStep [DecidableEq ι] (host : BatchHost) (K : BatchKernels α) (i : ι) :
    BatchProcess ι α → BatchProcess ι α → Prop
  | empty {s : BatchProcess ι α} (c : BatchCall α) (hpc : s.pc i = .idle) (hn : c.n = 0) :
      BatchStep host K i s { s with log := .returned i c none (some c.mem) :: s.log }
  | call {s : BatchProcess ι α} (c : BatchCall α) (hpc : s.pc i = .idle) (hn : c.n ≠ 0) :
      BatchStep host K i s { s with pc := Function.update s.pc i (.loading c) }
  | load {s : BatchProcess ι α} {c : BatchCall α} {p : ℕ} {f : BatchFn} (hpc : s.pc i = .loading c)
      (hload : s.impl.CanLoad i p f) :
      BatchStep host K i s { s with
        impl := s.impl.load i p, pc := Function.update s.pc i (.entered c f) }
  | lookup {s : BatchProcess ι α} {c : BatchCall α} (env : Option String)
      (hpc : s.pc i = .entered c .trampoline) :
      BatchStep host K i s { s with
        pc := Function.update s.pc i (.storing c (K.resolved host env)),
        log := .looked i env (K.resolved host env) :: s.log }
  | store {s : BatchProcess ι α} {c : BatchCall α} {f : BatchFn} {p : ℕ}
      (hpc : s.pc i = .storing c f) (hstore : s.impl.CanStore i p) :
      BatchStep host K i s { s with
        impl := s.impl.store i p f, pc := Function.update s.pc i (.entered c f) }
  | kernel {s : BatchProcess ι α} {c : BatchCall α} {f : BatchFn} (hpc : s.pc i = .entered c f)
      (hf : f ≠ .trampoline) :
      BatchStep host K i s { s with
        pc := Function.update s.pc i .idle, log := .returned i c (some f) (K.enter f c) :: s.log }

/-- A run, by the threads that take its steps. -/
inductive BatchRun [DecidableEq ι] (host : BatchHost) (K : BatchKernels α) :
    List ι → BatchProcess ι α → BatchProcess ι α → Prop
  | nil (s : BatchProcess ι α) : BatchRun host K [] s s
  | cons {i : ι} {is : List ι} {s s' s'' : BatchProcess ι α} (hstep : BatchStep host K i s s')
      (hrun : BatchRun host K is s' s'') : BatchRun host K (i :: is) s s''

def BatchEvent.looksUp [DecidableEq ι] (i : ι) : BatchEvent ι α → Bool
  | .looked j _ _ => j = i
  | .returned .. => false

/-- A kernel that a thread has looked up. -/
def Resolved (log : List (BatchEvent ι α)) (f : BatchFn) : Prop :=
  f ≠ .trampoline ∧ ∃ j env, .looked j env f ∈ log

def lookups [DecidableEq ι] (log : List (BatchEvent ι α)) (i : ι) : ℕ :=
  log.countP (BatchEvent.looksUp i)

/-- How many steps the call of a thread has left at most. -/
def BatchPc.rank : BatchPc α → ℕ
  | .idle => 0
  | .loading _ => 4
  | .entered _ .trampoline => 3
  | .storing _ _ => 2
  | .entered _ _ => 1

theorem rank_entered {c : BatchCall α} {f : BatchFn} (hf : f ≠ .trampoline) :
    (BatchPc.entered c f).rank = 1 := by
  cases f with
  | trampoline => exact absurd rfl hf
  | scalar => rfl
  | avx2 => rfl

theorem BatchPc.rank_pos {pc : BatchPc α} {c : BatchCall α} (h : pc.call? = some c) :
    0 < pc.rank := by
  rcases pc with _ | _ | ⟨c, _ | _ | _⟩ | _ <;> simp_all [BatchPc.rank, BatchPc.call?]

theorem BatchPc.rank_le (pc : BatchPc α) : pc.rank ≤ 4 := by
  rcases pc with _ | _ | ⟨c, _ | _ | _⟩ | _ <;> simp [BatchPc.rank]

/-- Both kernels make the same of every call, and so does the dispatcher. -/
def BatchKernels.Agree (K : BatchKernels α) : Prop :=
  ∀ c : BatchCall α, ∃ m, (∀ f ≠ .trampoline, K.enter f c = some m) ∧ (c.n = 0 → m = c.mem) ∧
    ∀ host impl, K.alone host impl c = some m

theorem BatchKernels.enter_of_agree {K : BatchKernels α} {c : BatchCall α} {m : Memory}
    (havx2 : K.enter .avx2 c = some m)
    (hscalar : K.enter .scalar c = some m) : ∀ f ≠ .trampoline, K.enter f c = some m := by
  intro f hf
  cases f with
  | trampoline => exact absurd rfl hf
  | scalar => exact hscalar
  | avx2 => exact havx2

theorem ksuidKernels_agree : ksuidKernels.Agree := by
  intro c
  have hspec := spells_batchText c.ids c.out (Set.Ico 0 c.n)
  obtain ⟨m, havx2, hw⟩ := ksuidStringBatchAvx2_wrote hspec c.room c.mem
  obtain ⟨m', hscalar, hw'⟩ := ksuidStringBatchScalar_wrote hspec c.room c.mem
  obtain rfl := hw.unique hw'
  have hzero (hn : c.n = 0) : m = c.mem := by
    rw [hn] at hscalar
    exact (Option.some_inj.mp hscalar).symm
  exact ⟨m, BatchKernels.enter_of_agree havx2 hscalar, hzero,
    fun host impl => stringBatch_of_agree _ _ host impl havx2 hscalar hzero⟩

theorem uuidv7Kernels_agree (ssse3 : Bool) : (uuidv7Kernels ssse3).Agree := by
  intro c
  have hspec := Store.laid_layOut (w := 36) c.out c.n (uuidv7Texts c.ids)
  obtain ⟨m, havx2, hw⟩ := uuidv7StringBatchAvx2_wrote ssse3 hspec c.room c.mem
  obtain ⟨m', hscalar, hw'⟩ := uuidv7StringBatchScalar_wrote ssse3 hspec c.room c.mem
  obtain rfl := hw.unique hw'
  have hzero (hn : c.n = 0) : m = c.mem := by
    rw [hn] at hscalar
    exact (Option.some_inj.mp hscalar).symm
  exact ⟨m, BatchKernels.enter_of_agree havx2 hscalar, hzero,
    fun host impl => stringBatch_of_agree _ _ host impl havx2 hscalar hzero⟩

variable {host : BatchHost} {K : BatchKernels α} {s s' : BatchProcess ι α} {i : ι}
  {log older : List (BatchEvent ι α)} {e : BatchEvent ι α}

theorem Resolved.mono {log' : List (BatchEvent ι α)} {f : BatchFn} (h : Resolved log f)
    (hlog : log <:+ log') : Resolved log' f :=
  have ⟨hf, j, env, hmem⟩ := h
  ⟨hf, j, env, hlog.mem hmem⟩

/-- A thread that has looked the kernel up has seen its own store. -/
def Settled (looks seen : ℕ) : Prop := looks = 0 ∨ looks = 1 ∧ 0 < seen

def PcInv (log : List (BatchEvent ι α)) (looks seen : ℕ) : BatchPc α → Prop
  | .idle => Settled looks seen
  | .loading _ => Settled looks seen
  | .entered _ f => f = .trampoline ∧ looks = 0 ∨ Resolved log f ∧ Settled looks seen
  | .storing _ f => Resolved log f ∧ looks = 1

/-- What stands behind an event, given the events before it. -/
def Justified (host : BatchHost) (K : BatchKernels α) (older : List (BatchEvent ι α)) :
    BatchEvent ι α → Prop
  | .looked _ env f => f = K.resolved host env
  | .returned _ c f r => (∀ g, f = some g → Resolved older g) ∧
      ∃ m, r = some m ∧ ∀ host' impl, K.alone host' impl c = some m

theorem PcInv.mono {log' : List (BatchEvent ι α)} {looks seen : ℕ} {pc : BatchPc α}
    (h : PcInv log looks seen pc) (hlog : log <:+ log') : PcInv log' looks seen pc := by
  cases pc with
  | idle => exact h
  | loading c => exact h
  | entered c f => exact h.imp id (And.imp_left fun hf => hf.mono hlog)
  | storing c f => exact h.imp_left fun hf => hf.mono hlog

theorem PcInv.looks_le {looks seen : ℕ} {pc : BatchPc α} (h : PcInv log looks seen pc) :
    looks ≤ 1 := by
  have hsettled (h : Settled looks seen) : looks ≤ 1 := by
    rcases h with h | h <;> omega
  cases pc with
  | idle => exact hsettled h
  | loading c => exact hsettled h
  | entered c f =>
    rcases h with h | h
    · omega
    · exact hsettled h.2
  | storing c f => exact h.2.le

theorem justified_cons (h : ∀ e older, e :: older <:+ log → Justified host K older e)
    (he : Justified host K log e) :
    ∀ e' older, e' :: older <:+ e :: log → Justified host K older e' := by
  intro e' older hsuffix
  rcases List.suffix_cons_iff.mp hsuffix with heq | hold
  · obtain ⟨rfl, rfl⟩ := List.cons_eq_cons.mp heq
    exact he
  · exact h e' older hold

section Threads

variable [DecidableEq ι]

structure BatchInv (host : BatchHost) (K : BatchKernels α) (s : BatchProcess ι α) : Prop where
  impl : s.impl.Sound (Resolved s.log)
  first : ∀ f, (0, f) ∈ s.impl.stored → f = .trampoline
  pc : ∀ i, PcInv s.log (lookups s.log i) (s.impl.seen i) (s.pc i)
  log : ∀ e older, e :: older <:+ s.log → Justified host K older e

/-- What the other threads find after a step of thread `i`. -/
structure Frame (i : ι) (s s' : BatchProcess ι α) : Prop where
  pc : ∀ j, j ≠ i → s'.pc j = s.pc j
  seen : ∀ j, j ≠ i → s'.impl.seen j = s.impl.seen j
  looks : ∀ j, j ≠ i → lookups s'.log j = lookups s.log j
  log : s.log <:+ s'.log

theorem BatchStep.frame (h : BatchStep host K i s s') : Frame i s s' := by
  have hlookup (env : Option String) (f : BatchFn) (j : ι) (hj : j ≠ i) :
      lookups (.looked i env f :: s.log) j = lookups s.log j := by
    simp [lookups, BatchEvent.looksUp, hj.symm]
  have hreturn (c : BatchCall α) (f : Option BatchFn) (r : Option Memory) (j : ι) :
      lookups (.returned i c f r :: s.log) j = lookups s.log j := by
    simp [lookups, BatchEvent.looksUp]
  have hcons (e : BatchEvent ι α) : s.log <:+ e :: s.log := List.suffix_cons e s.log
  cases h with
  | empty c => exact ⟨fun _ _ => rfl, fun _ _ => rfl, fun j _ => hreturn _ _ _ j, hcons _⟩
  | call c =>
    exact ⟨fun j hj => Function.update_of_ne hj _ _, fun _ _ => rfl, fun _ _ => rfl,
      List.suffix_rfl⟩
  | load =>
    exact ⟨fun j hj => Function.update_of_ne hj _ _, fun j hj => Function.update_of_ne hj _ _,
      fun _ _ => rfl, List.suffix_rfl⟩
  | lookup env =>
    exact ⟨fun j hj => Function.update_of_ne hj _ _, fun _ _ => rfl, fun j hj => hlookup _ _ j hj,
      hcons _⟩
  | store =>
    exact ⟨fun j hj => Function.update_of_ne hj _ _, fun j hj => Function.update_of_ne hj _ _,
      fun _ _ => rfl, List.suffix_rfl⟩
  | kernel =>
    exact ⟨fun j hj => Function.update_of_ne hj _ _, fun _ _ => rfl, fun j _ => hreturn _ _ _ j,
      hcons _⟩

theorem resolved_ne_trampoline (K : BatchKernels α) (host : BatchHost) (env : Option String) :
    K.resolved host env ≠ .trampoline := by
  unfold BatchKernels.resolved
  split_ifs <;> exact fun h => nomatch h

theorem BatchInv.start : BatchInv host K (.start : BatchProcess ι α) where
  impl := Coherent.sound_new
  first _ hf := (Prod.mk.inj (List.mem_singleton.mp hf)).2
  pc _ := .inl rfl
  log _ _ h := absurd (List.suffix_nil.mp h) (List.cons_ne_nil _ _)

theorem BatchInv.of_step (hinv : BatchInv host K s) (hstep : BatchStep host K i s s')
    (himpl : s'.impl.Sound (Resolved s'.log))
    (hfirst : ∀ f, (0, f) ∈ s'.impl.stored → f = .trampoline)
    (hpc : PcInv s'.log (lookups s'.log i) (s'.impl.seen i) (s'.pc i))
    (hlog : ∀ e older, e :: older <:+ s'.log → Justified host K older e) : BatchInv host K s' where
  impl := himpl
  first := hfirst
  pc j := by
    have hframe := hstep.frame
    rcases eq_or_ne j i with rfl | hj
    · exact hpc
    · rw [hframe.looks j hj, hframe.seen j hj, hframe.pc j hj]
      exact (hinv.pc j).mono hframe.log
  log := hlog

theorem BatchInv.step (hK : K.Agree) (hinv : BatchInv host K s) (hstep : BatchStep host K i s s') :
    BatchInv host K s' := by
  have hown := hinv.pc i
  have hgrow (f : BatchFn) (e : BatchEvent ι α) (hf : Resolved s.log f) : Resolved (e :: s.log) f :=
    hf.mono (List.suffix_cons e s.log)
  cases hstep with
  | empty c hpc hn =>
    rw [hpc] at hown
    refine hinv.of_step (.empty c hpc hn) (hinv.impl.imp fun f => hgrow f _) hinv.first ?_
      (justified_cons hinv.log ?_)
    · simpa [hpc, PcInv, lookups, BatchEvent.looksUp] using hown
    · obtain ⟨m, -, hzero, halone⟩ := hK c
      exact ⟨fun g hg => (nomatch hg), m, by rw [hzero hn], halone⟩
  | call c hpc hn =>
    rw [hpc] at hown
    refine hinv.of_step (.call c hpc hn) hinv.impl hinv.first ?_ hinv.log
    simpa [PcInv] using hown
  | @load c p f hpc hload =>
    rw [hpc] at hown
    refine hinv.of_step (.load hpc hload) (hinv.impl.load hload) hinv.first ?_ hinv.log
    simp only [Coherent.Cell.load_seen, Function.update_self]
    -- the initial pointer is at the first place, which a thread that has stored does not load from
    rcases Nat.eq_zero_or_pos p with rfl | hp
    · refine .inl ⟨hinv.first f hload.stored, hown.resolve_right fun hsettled => ?_⟩
      exact absurd hload.seen (not_le_of_gt hsettled.2)
    · exact .inr ⟨hinv.impl.allowed p f hload.stored hp, hown.imp id fun hlooks => ⟨hlooks.1, hp⟩⟩
  | @lookup c env hpc =>
    rw [hpc] at hown
    have hlooks : lookups s.log i = 0 := (hown.resolve_right fun h => h.1.1 rfl).2
    have hcount : lookups (.looked i env (K.resolved host env) :: s.log) i = lookups s.log i + 1 :=
      List.countP_cons_of_pos (by simp [BatchEvent.looksUp])
    refine hinv.of_step (.lookup env hpc) (hinv.impl.imp fun f => hgrow f _) hinv.first ?_
      (justified_cons hinv.log rfl)
    simp only [Function.update_self, hcount, hlooks]
    exact ⟨⟨resolved_ne_trampoline K host env, i, env, List.mem_cons_self⟩, rfl⟩
  | @store c f p hpc hstore =>
    rw [hpc] at hown
    have hp : 0 < p := (Nat.zero_le _).trans_lt hstore.seen
    refine hinv.of_step (.store hpc hstore) (hinv.impl.store hown.1) (fun g hg => ?_) ?_ hinv.log
    · rcases List.mem_cons.mp hg with hnew | hold
      · exact absurd (Prod.mk.inj hnew).1 hp.ne
      · exact hinv.first g hold
    · simp only [Coherent.Cell.store_seen, Function.update_self]
      exact .inr ⟨hown.1, .inr ⟨hown.2, hp⟩⟩
  | @kernel c f hpc hf =>
    rw [hpc] at hown
    have hresolved := hown.resolve_left fun h => hf h.1
    have hcount : lookups (.returned i c (some f) (K.enter f c) :: s.log) i = lookups s.log i :=
      List.countP_cons_of_neg (by simp [BatchEvent.looksUp])
    refine hinv.of_step (.kernel hpc hf) (hinv.impl.imp fun g => hgrow g _) hinv.first ?_
      (justified_cons hinv.log ?_)
    · simp only [Function.update_self, hcount]
      exact hresolved.2
    · obtain ⟨m, hm, -, halone⟩ := hK c
      exact ⟨fun g hg => Option.some_inj.mp hg ▸ hresolved.1, m, hm f hf, halone⟩

theorem BatchInv.run {is : List ι} (hK : K.Agree) (hinv : BatchInv host K s)
    (hrun : BatchRun host K is s s') : BatchInv host K s' := by
  induction hrun with
  | nil => exact hinv
  | cons hstep _ ih => exact ih (hinv.step hK hstep)

theorem BatchRun.log_suffix {is : List ι} (hrun : BatchRun host K is s s') : s.log <:+ s'.log := by
  induction hrun with
  | nil => exact List.suffix_rfl
  | cons hstep _ ih => exact hstep.frame.log.trans ih

theorem BatchInv.enabled (hinv : BatchInv host K s) (hpc : s.pc i ≠ .idle) :
    ∃ s', BatchStep host K i s s' := by
  cases h : s.pc i with
  | idle => exact absurd h hpc
  | loading c =>
    obtain ⟨p, f, hload⟩ := hinv.impl.exists_canLoad i
    exact ⟨_, .load h hload⟩
  | entered c f =>
    by_cases hf : f = .trampoline
    · subst hf
      exact ⟨_, .lookup none h⟩
    · exact ⟨_, .kernel h hf⟩
  | storing c f =>
    obtain ⟨p, hstore⟩ := Coherent.exists_canStore s.impl i
    exact ⟨_, .store h hstore⟩

/-- A step of a thread in a call ends that call or comes nearer to its end. -/
theorem BatchInv.progress (hinv : BatchInv host K s) (hstep : BatchStep host K i s s')
    {c : BatchCall α} (hcall : (s.pc i).call? = some c) :
    ((s'.pc i).call? = some c ∧ (s'.pc i).rank < (s.pc i).rank) ∨
      ∃ f r, s'.log = .returned i c f r :: s.log := by
  have hown := hinv.pc i
  cases hstep with
  | empty _ h | call _ h =>
    rw [h] at hcall
    cases hcall
  | @load _ p f h =>
    rw [h] at hcall
    obtain rfl := Option.some_inj.mp hcall
    refine .inl ⟨by simp only [Function.update_self, BatchPc.call?], ?_⟩
    simp only [h, Function.update_self]
    cases f <;> simp [BatchPc.rank]
  | lookup env h =>
    rw [h] at hcall
    obtain rfl := Option.some_inj.mp hcall
    refine .inl ⟨by simp only [Function.update_self, BatchPc.call?], ?_⟩
    simp [h, BatchPc.rank]
  | store h =>
    rw [h] at hcall hown
    obtain rfl := Option.some_inj.mp hcall
    refine .inl ⟨by simp only [Function.update_self, BatchPc.call?], ?_⟩
    simp only [h, Function.update_self, rank_entered hown.1.1]
    exact Nat.lt_succ_self 1
  | @kernel _ f h =>
    rw [h] at hcall
    obtain rfl := Option.some_inj.mp hcall
    exact .inr ⟨some f, _, rfl⟩

/-- The other threads cannot hold a call up. -/
theorem BatchInv.returns (hK : K.Agree) {is : List ι} (hrun : BatchRun host K is s s')
    (hinv : BatchInv host K s) {c : BatchCall α} (hcall : (s.pc i).call? = some c)
    (hcount : (s.pc i).rank ≤ is.count i) :
    ∃ f r older, .returned i c f r :: older <:+ s'.log ∧ s.log <:+ older := by
  induction hrun with
  | nil => exact absurd hcount (not_le_of_gt (by simpa using BatchPc.rank_pos hcall))
  | @cons j is s s₁ s₂ hstep hrun ih =>
    have hinv₁ := hinv.step hK hstep
    rcases eq_or_ne j i with rfl | hj
    · rcases hinv.progress hstep hcall with ⟨hcall₁, hrank⟩ | ⟨f, r, hlog⟩
      · rw [List.count_cons_self] at hcount
        obtain ⟨f, r, older, hlog, hold⟩ := ih hinv₁ hcall₁ (by omega)
        exact ⟨f, r, older, hlog, hstep.frame.log.trans hold⟩
      · exact ⟨f, r, s.log, hlog ▸ hrun.log_suffix, List.suffix_rfl⟩
    · rw [List.count_cons_of_ne hj] at hcount
      have hsame := hstep.frame.pc i hj.symm
      obtain ⟨f, r, older, hlog, hold⟩ := ih hinv₁ (hsame ▸ hcall) (hsame ▸ hcount)
      exact ⟨f, r, older, hlog, hstep.frame.log.trans hold⟩

/-- What holds of a dispatcher in every state that its threads can bring about. -/
structure Dispatches (host : BatchHost) (K : BatchKernels α) (s : BatchProcess ι α) : Prop where
  results : ∀ i c f r, .returned i c f r ∈ s.log →
    ∃ m, r = some m ∧ ∀ host' impl, K.alone host' impl c = some m
  avx2 : ∀ i c r older, .returned i c (some .avx2) r :: older <:+ s.log →
    host.haveAvx2Batch = true ∧ K.cpuSupportsAvx2 host.cpu = true ∧
      ∃ j env, .looked j env .avx2 ∈ older ∧ K.forceScalarEnv env = false
  resolved : ∀ p f, (p, f) ∈ s.impl.stored → 0 < p → f ≠ .trampoline
  lookups : ∀ i, lookups s.log i ≤ 1
  enabled : ∀ i, s.pc i ≠ .idle → ∃ s', BatchStep host K i s s'
  returns : ∀ i c is s', (s.pc i).call? = some c → BatchRun host K is s s' → 4 ≤ is.count i →
    ∃ f r older, .returned i c f r :: older <:+ s'.log ∧ s.log <:+ older

theorem BatchInv.dispatches (hK : K.Agree) (hinv : BatchInv host K s) : Dispatches host K s where
  results i c f r h := by
    obtain ⟨newer, older, hlog⟩ := List.append_of_mem h
    exact (hinv.log _ older ⟨newer, hlog.symm⟩).2
  avx2 i c r older h := by
    obtain ⟨-, j, env, hmem⟩ := (hinv.log _ older h).1 .avx2 rfl
    obtain ⟨newer, rest, hsplit⟩ := List.append_of_mem hmem
    have hold : .looked j env .avx2 :: rest <:+ s.log :=
      (show _ <:+ older from ⟨newer, hsplit.symm⟩).trans ((List.suffix_cons _ _).trans h)
    have hresolved : .avx2 = K.resolved host env := hinv.log _ rest hold
    unfold BatchKernels.resolved at hresolved
    split_ifs at hresolved with hallowed
    simp only [Bool.and_eq_true, Bool.not_eq_true'] at hallowed
    exact ⟨hallowed.1, hallowed.2.2, j, env, hmem, hallowed.2.1⟩
  resolved p f h hp := (hinv.impl.allowed p f h hp).1
  lookups i := (hinv.pc i).looks_le
  enabled i := hinv.enabled
  returns i c is s' hpc hrun hcount := hinv.returns hK hrun hpc ((s.pc i).rank_le.trans hcount)

end Threads

/-- Any number of threads may call either batch function, in any order and with any stale reads of
the cached pointer: a call returns what it would return alone, after at most four steps of its own
thread; an AVX2 kernel runs only after a lookup that found the processor able and the environment
not against it; and no thread looks up twice. -/
theorem string_batch_threads {ι : Type*} [DecidableEq ι] (host : BatchHost) :
    (∀ (is : List ι) (s : BatchProcess ι Ksuid), BatchRun host ksuidKernels is .start s →
      Dispatches host ksuidKernels s) ∧
    ∀ ssse3 (is : List ι) (s : BatchProcess ι Uuidv7),
      BatchRun host (uuidv7Kernels ssse3) is .start s → Dispatches host (uuidv7Kernels ssse3) s :=
  ⟨fun _ _ hrun => (BatchInv.start.run ksuidKernels_agree hrun).dispatches ksuidKernels_agree,
    fun ssse3 _ _ hrun => (BatchInv.start.run (uuidv7Kernels_agree ssse3) hrun).dispatches
      (uuidv7Kernels_agree ssse3)⟩

def avx2Host : BatchHost := ⟨true, none, .msvc 0x20#32 0x6#64⟩

def oneIdCall : BatchCall Ksuid := ⟨[⟨Vector.replicate 20 0#8⟩], 0, 1, fun _ => 0#8, le_rfl⟩

/-- Both threads load the initial pointer and look the kernel up, the second when the override is
set. It stores last, and its next call loads what it stored. -/
theorem racing_run : ∃ s : BatchProcess Bool Ksuid, BatchRun avx2Host ksuidKernels
      [true, false, true, false, true, false, true, false, true, false, false, false, false]
      .start s ∧
    s.log = [.returned false oneIdCall (some .scalar) (ksuidKernels.enter .scalar oneIdCall),
      .returned false oneIdCall (some .scalar) (ksuidKernels.enter .scalar oneIdCall),
      .returned true oneIdCall (some .avx2) (ksuidKernels.enter .avx2 oneIdCall),
      .looked false (some "1") .scalar, .looked true none .avx2] := by
  have hfirst : ksuidKernels.resolved avx2Host none = .avx2 := by decide
  have hsecond : ksuidKernels.resolved avx2Host (some "1") = .scalar := by decide
  refine ⟨_, .cons (.call oneIdCall rfl (by decide)) <| .cons (.call oneIdCall rfl (by decide)) <|
    .cons (.load rfl ⟨List.mem_singleton_self _, le_rfl⟩) <|
    .cons (.load rfl ⟨List.mem_singleton_self _, le_rfl⟩) <|
    .cons (.lookup none rfl) <| .cons (.lookup (some "1") rfl) <|
    .cons (.store (p := 1) rfl ⟨by simp [BatchProcess.start, Cell.new], by decide⟩) <|
    .cons (.store (p := 2) rfl ⟨by simp [BatchProcess.start, Cell.new, Cell.store], by decide⟩) <|
    .cons (.kernel rfl (resolved_ne_trampoline _ _ _)) <|
    .cons (.kernel rfl (resolved_ne_trampoline _ _ _)) <|
    .cons (.call oneIdCall rfl (by decide)) <| .cons (.load rfl ⟨List.mem_cons_self, le_rfl⟩) <|
    .cons (.kernel rfl (resolved_ne_trampoline _ _ _)) <| .nil _, ?_⟩
  simp only [hfirst, hsecond, BatchProcess.start]

theorem string_batch_threads_race :
    ∃ s : BatchProcess Bool Ksuid, Dispatches avx2Host ksuidKernels s ∧
    lookups s.log true = 1 ∧ lookups s.log false = 1 ∧
    .returned true oneIdCall (some .avx2) (ksuidKernels.enter .avx2 oneIdCall) ∈ s.log ∧
    .returned false oneIdCall (some .scalar) (ksuidKernels.enter .scalar oneIdCall) ∈ s.log := by
  obtain ⟨s, hrun, hlog⟩ := racing_run
  refine ⟨s, (string_batch_threads avx2Host).1 _ s hrun, ?_⟩
  rw [hlog]
  exact ⟨rfl, rfl, by simp, by simp⟩

end Chronoid
