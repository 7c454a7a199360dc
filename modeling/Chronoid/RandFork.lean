import Chronoid.RandStream

/-! A tree of processes that draw and fork. A child copies the generator of its parent,
and only the cached process identifier tells the copy from the original. -/

namespace Chronoid

/-- A process of one thread. `seeding` names the seeding its slot was last filled by. -/
structure Proc where
  pid : Int
  live : Bool
  thread : Thread
  seeding : ℕ

structure Seeding where
  owner : ℕ
  kn : Vector Byte 44

/-- A delivered byte, with the seeding and the offset in its keystream. -/
structure Delivery where
  proc : ℕ
  seeding : ℕ
  offset : ℕ
  byte : Byte

structure ProcTree where
  procs : List Proc
  seedings : List Seeding
  log : List Delivery

inductive ProcOp where
  | fork (i : ℕ) (pid : Int)
  | exit (i : ℕ)
  | draw (i : ℕ) (c : DrawCall)

def deliveries (proc seeding offset : ℕ) (out : List Byte) : List Delivery :=
  out.mapIdx fun i b => ⟨proc, seeding, offset + i, b⟩

/-- A draw of process `i`. Without a seeding it goes on where its slot left off. -/
def drawProc (hook : Option ExitHook) (s : ProcTree) (i : ℕ) (p : Proc) (c : DrawCall) : ProcTree :=
  let r := randomBytes hook p.thread c
  match seedingOf p.thread c with
  | some kn =>
    { procs := s.procs.set i { p with thread := r.thread, seeding := s.seedings.length }
      seedings := s.seedings ++ [⟨i, kn⟩]
      log := s.log ++ deliveries i s.seedings.length 0 r.out }
  | none =>
    { s with
      procs := s.procs.set i { p with thread := r.thread }
      log := s.log ++ deliveries i p.seeding p.thread.rng.bytesEmitted.toNat r.out }

def treeStep (hook : Option ExitHook) (s : ProcTree) (op : ProcOp) : ProcTree × Unit :=
  match op with
  | .fork i pid =>
    match s.procs[i]? with
    | some p => ({ s with procs := s.procs ++ [{ p with pid := pid, live := true }] }, ())
    | none => (s, ())
  | .exit i =>
    match s.procs[i]? with
    | some p => ({ s with procs := s.procs.set i { p with live := false } }, ())
    | none => (s, ())
  | .draw i c =>
    match s.procs[i]? with
    | some p => (drawProc hook s i p c, ())
    | none => (s, ())

def boot (pid : Int) : ProcTree := ⟨[⟨pid, true, freshThread, 0⟩], [], []⟩

/-- Only live processes act, each under its own identifier, and a new process is given one
that no live process has. The entropy source does not fail. -/
def Legal (s : ProcTree) : ProcOp → Prop
  | .fork i pid => (∃ p ∈ s.procs[i]?, p.live = true) ∧ ∀ q ∈ s.procs, q.live = true → q.pid ≠ pid
  | .exit i => ∃ p ∈ s.procs[i]?, p.live = true
  | .draw i c => ∃ p ∈ s.procs[i]?, p.live = true ∧ c.pid = p.pid ∧ c.entropy.isSome = true

def WithinHour (s : ProcTree) : ProcOp → Prop
  | .draw i c => ∀ p ∈ s.procs[i]?, p.thread.rng.seeded = true →
      0 ≤ c.now - p.thread.rng.seedTime ∧ c.now - p.thread.rng.seedTime < 3600
  | _ => True

def NoSharedPosition (log : List Delivery) : Prop :=
  ∀ d ∈ log, ∀ e ∈ log, d.seeding = e.seeding → d.offset = e.offset → d.proc = e.proc

/-- A draw from a slot that another process seeded is one that the reseed test catches. -/
def Detected (s : ProcTree) : ProcOp → Prop
  | .draw i c => ∀ p ∈ s.procs[i]?, (s.seedings[p.seeding]?).map Seeding.owner ≠ some i →
      tlsRngShouldReseed p.thread.rng c = true
  | _ => True

/-- A child is not given the identifier that the seeded slot it copies has cached. -/
def FreshPid (s : ProcTree) : ProcOp → Prop
  | .fork i pid => ∀ p ∈ s.procs[i]?, p.thread.rng.seeded = true → p.thread.rng.seedPid ≠ pid
  | _ => True

instance (s : ProcTree) : (op : ProcOp) → Decidable (Legal s op)
  | .fork _ _ => inferInstanceAs (Decidable (_ ∧ _))
  | .exit _ => inferInstanceAs (Decidable (∃ p ∈ _, _))
  | .draw _ _ => inferInstanceAs (Decidable (∃ p ∈ _, _))

instance (s : ProcTree) : (op : ProcOp) → Decidable (WithinHour s op)
  | .fork _ _ => inferInstanceAs (Decidable True)
  | .exit _ => inferInstanceAs (Decidable True)
  | .draw _ _ => inferInstanceAs (Decidable (∀ p ∈ _, _))

instance (s : ProcTree) : (op : ProcOp) → Decidable (Detected s op)
  | .fork _ _ => inferInstanceAs (Decidable True)
  | .exit _ => inferInstanceAs (Decidable True)
  | .draw _ _ => inferInstanceAs (Decidable (∀ p ∈ _, _))

instance (log : List Delivery) : Decidable (NoSharedPosition log) :=
  inferInstanceAs (Decidable (∀ d ∈ log, ∀ e ∈ log, _))

def Delivery.position (d : Delivery) : ℕ × ℕ := (d.seeding, d.offset)

/-- What the slot of process `i` gives it: the keystream of its seeding, and, where the
seeding is its own, from beyond everything delivered of it. -/
structure SlotInv (s : ProcTree) (i : ℕ) (p : Proc) : Prop where
  inDestructor : p.thread.inDestructor = false
  streaming : p.thread.rng.seeded = true → ∃ g n, s.seedings[p.seeding]? = some g ∧ n < 2 ^ 64 ∧
    Streaming (seedState g.kn) n p.thread.rng ∧
    (g.owner = i → ∀ d ∈ s.log, d.seeding = p.seeding → d.offset < n)

/-- Only the process that made a seeding has delivered from it. -/
structure TreeInv (s : ProcTree) : Prop where
  slots : ∀ i p, s.procs[i]? = some p → SlotInv s i p
  owners : ∀ g ∈ s.seedings, g.owner < s.procs.length
  labels : ∀ d ∈ s.log, ∃ g, s.seedings[d.seeding]? = some g ∧ g.owner = d.proc ∧
    d.byte = chacha.item (seedState g.kn) d.offset
  nodup : (s.log.map Delivery.position).Nodup

variable {hook : Option ExitHook} {s : ProcTree}

theorem position_deliveries (i k o : ℕ) (out : List Byte) :
    (deliveries i k o out).map Delivery.position = (List.range' o out.length).map (k, ·) := by
  refine List.ext_getElem (by simp [deliveries]) fun j hj hj' => ?_
  simp [deliveries, Delivery.position]

theorem mem_deliveries_segment {i k o n : ℕ} {s₀ : ChaChaState} {d : Delivery}
    (h : d ∈ deliveries i k o (chacha.segment s₀ o n)) :
    d.proc = i ∧ d.seeding = k ∧ o ≤ d.offset ∧ d.offset < o + n ∧
      d.byte = chacha.item s₀ d.offset := by
  obtain ⟨j, hj, rfl⟩ := List.mem_mapIdx.mp h
  rw [BlockStream.length_segment] at hj
  exact ⟨rfl, rfl, Nat.le_add_right o j, by simpa using hj, BlockStream.getElem_segment ..⟩

theorem getElem?_set_cases {procs : List Proc} {i j : ℕ} {p q : Proc}
    (h : (procs.set i p)[j]? = some q) : j = i ∧ q = p ∨ j ≠ i ∧ procs[j]? = some q := by
  by_cases hij : j = i
  · subst hij
    refine .inl ⟨rfl, ?_⟩
    rw [List.getElem?_set_self'] at h
    cases hj : procs[j]? <;> simp_all
  · rw [List.getElem?_set_ne (Ne.symm hij)] at h
    exact .inr ⟨hij, h⟩

theorem getElem?_concat_cases {procs : List Proc} {j : ℕ} {p q : Proc}
    (h : (procs ++ [p])[j]? = some q) : procs[j]? = some q ∨ j = procs.length ∧ q = p := by
  by_cases hj : j < procs.length
  · rw [List.getElem?_append_left hj] at h
    exact .inl h
  · rw [List.getElem?_append_right (Nat.le_of_not_lt hj), List.getElem?_singleton] at h
    split_ifs at h with hz
    · exact .inr ⟨by omega, (Option.some_inj.mp h).symm⟩

theorem TreeInv.set_same (h : TreeInv s) {i : ℕ} {p q : Proc} (hp : s.procs[i]? = some p)
    (hthread : q.thread = p.thread) (hseeding : q.seeding = p.seeding) :
    TreeInv { s with procs := s.procs.set i q } := by
  refine ⟨fun j r hr => ?_, fun g hg => ?_, h.labels, h.nodup⟩
  · rcases getElem?_set_cases hr with ⟨rfl, rfl⟩ | ⟨-, hr⟩
    · obtain ⟨hd, hstream⟩ := h.slots _ p hp
      exact ⟨by rw [hthread, hd], by rw [hthread, hseeding]; exact hstream⟩
    · exact ⟨(h.slots j r hr).inDestructor, (h.slots j r hr).streaming⟩
  · simpa using h.owners g hg

theorem TreeInv.fork (h : TreeInv s) {i : ℕ} {p : Proc} (hp : s.procs[i]? = some p) (pid : Int) :
    TreeInv { s with procs := s.procs ++ [{ p with pid := pid, live := true }] } := by
  refine ⟨fun j q hq => ?_, fun g hg => ?_, h.labels, h.nodup⟩
  · rcases getElem?_concat_cases hq with hq | ⟨rfl, rfl⟩
    · exact ⟨(h.slots j q hq).inDestructor, (h.slots j q hq).streaming⟩
    · obtain ⟨hd, hstream⟩ := h.slots i p hp
      refine ⟨hd, fun hs => ?_⟩
      obtain ⟨g, n, hg, hn, hstream, -⟩ := hstream hs
      refine ⟨g, n, hg, hn, hstream, fun hown => ?_⟩
      have hlt := h.owners g (List.mem_of_getElem? hg)
      omega
  · have hlt := h.owners g hg
    simp only [List.length_append, List.length_singleton]
    omega

theorem seedings_append {k : ℕ} {g : Seeding} (gs : List Seeding) (h : s.seedings[k]? = some g) :
    (s.seedings ++ gs)[k]? = some g :=
  List.getElem?_append_left (List.getElem?_eq_some_iff.mp h).1 ▸ h

section Deliver

variable {i k o n : ℕ} {g : Seeding} {gs : List Seeding}

theorem SlotInv.deliver_other {j : ℕ} {p : Proc} {procs : List Proc} (h : SlotInv s j p)
    (hg : (s.seedings ++ gs)[k]? = some g) (hown : g.owner = i) (hj : j ≠ i) :
    SlotInv ⟨procs, s.seedings ++ gs,
      s.log ++ deliveries i k o (chacha.segment (seedState g.kn) o n)⟩ j p := by
  refine ⟨h.inDestructor, fun hs => ?_⟩
  obtain ⟨g', n', hg', hn', hstream, hbeyond⟩ := h.streaming hs
  refine ⟨g', n', seedings_append gs hg', hn', hstream, fun hown' d hdmem hdk => ?_⟩
  rcases List.mem_append.mp hdmem with hdmem | hdmem
  · exact hbeyond hown' d hdmem hdk
  · obtain ⟨-, hdk', -⟩ := mem_deliveries_segment hdmem
    have hsame : some g' = some g := by rw [← seedings_append gs hg', ← hg, ← hdk, hdk']
    cases hsame
    exact absurd (hown'.symm.trans hown) hj

theorem nodup_deliver {log : List Delivery} (h : (log.map Delivery.position).Nodup)
    (hbeyond : ∀ d ∈ log, d.seeding = k → d.offset < o) (s₀ : ChaChaState) :
    ((log ++ deliveries i k o (chacha.segment s₀ o n)).map Delivery.position).Nodup := by
  rw [List.map_append, List.nodup_append]
  refine ⟨h, ?_, ?_⟩
  · rw [position_deliveries]
    exact (List.nodup_range' (s := o)).map fun a b hab => (Prod.mk.inj hab).2
  · intro x hx y hy hxy
    obtain ⟨d, hdmem, rfl⟩ := List.mem_map.mp hx
    obtain ⟨e, hemem, rfl⟩ := List.mem_map.mp hy
    obtain ⟨-, hek, hlow, -⟩ := mem_deliveries_segment hemem
    obtain ⟨hk', ho'⟩ := Prod.mk.inj hxy
    have hlt := hbeyond d hdmem (hk'.trans hek)
    omega

/-- A process delivers on from a seeding of its own, beyond what was delivered of it. -/
theorem TreeInv.deliver (h : TreeInv s) {q : Proc} (hg : (s.seedings ++ gs)[k]? = some g)
    (hown : g.owner = i) (hgs : ∀ g ∈ gs, g.owner < s.procs.length)
    (hbeyond : ∀ d ∈ s.log, d.seeding = k → d.offset < o) (hk : q.seeding = k)
    (hd : q.thread.inDestructor = false) (hn : o + n < 2 ^ 64)
    (hstream : Streaming (seedState g.kn) (o + n) q.thread.rng) :
    TreeInv ⟨s.procs.set i q, s.seedings ++ gs,
      s.log ++ deliveries i k o (chacha.segment (seedState g.kn) o n)⟩ := by
  refine ⟨fun j r hr => ?_, fun g' hg' => ?_, fun d hdmem => ?_, nodup_deliver h.nodup hbeyond _⟩
  · rcases getElem?_set_cases hr with ⟨rfl, rfl⟩ | ⟨hj, hr⟩
    · refine ⟨hd, fun _ => ⟨g, o + n, hk ▸ hg, hn, hstream, fun _ d hdmem hdk => ?_⟩⟩
      rcases List.mem_append.mp hdmem with hdmem | hdmem
      · have hlt := hbeyond d hdmem (hdk.trans hk)
        omega
      · exact (mem_deliveries_segment hdmem).2.2.2.1
    · exact (h.slots j r hr).deliver_other hg hown hj
  · rw [List.length_set]
    rcases List.mem_append.mp hg' with hg' | hg'
    · exact h.owners g' hg'
    · exact hgs g' hg'
  · rcases List.mem_append.mp hdmem with hdmem | hdmem
    · obtain ⟨g', hg', hlabel⟩ := h.labels d hdmem
      exact ⟨g', seedings_append gs hg', hlabel⟩
    · obtain ⟨hproc, hdk, -, -, hbyte⟩ := mem_deliveries_segment hdmem
      exact ⟨g, hdk ▸ hg, hown.trans hproc.symm, hbyte⟩

end Deliver

theorem TreeInv.draw_seeds (h : TreeInv s) {i : ℕ} {p : Proc} {c : DrawCall} {kn : Vector Byte 44}
    (hp : s.procs[i]? = some p) (hkn : seedingOf p.thread c = some kn) :
    TreeInv (drawProc hook s i p c) := by
  have hlen := c.len_lt
  have hi : i < s.procs.length := (List.getElem?_eq_some_iff.mp hp).1
  obtain ⟨hok, hs, -⟩ := randomBytes_of_seeds hook hkn
  obtain ⟨kn', hkn', hout, hstream, hd, -⟩ := reseeds_step hok hs
  obtain rfl : kn' = kn := Option.some_inj.mp (hkn'.symm.trans (seedingOf_eq_some.mp hkn).2.2)
  simp only [drawProc, hkn, hout]
  refine h.deliver (g := ⟨i, kn'⟩) (by simp) rfl (by simpa using hi) (fun d hdmem hdk => ?_) rfl
    hd (by omega) (by rwa [Nat.zero_add])
  -- nothing was delivered of a seeding that is only made now
  obtain ⟨g, hg, -⟩ := h.labels d hdmem
  have hlt := (List.getElem?_eq_some_iff.mp hg).1
  omega

theorem TreeInv.draw_fails (h : TreeInv s) {i : ℕ} {p : Proc} {c : DrawCall}
    (hp : s.procs[i]? = some p) (hkn : seedingOf p.thread c = none)
    (hs : tlsRngShouldReseed p.thread.rng c = true) : TreeInv (drawProc hook s i p c) := by
  have hret : (randomBytes hook p.thread c).ret ≠ 0 := fun hok => by
    obtain ⟨kn, hkn', -⟩ := reseeds_step hok hs
    rw [seedingOf_eq_some.mpr ⟨(h.slots i p hp).inDestructor, hs, hkn'⟩] at hkn
    cases hkn
  obtain ⟨-, hout, hthread⟩ := failed_step hret
  simp only [drawProc, hkn, hout, hthread, deliveries, List.mapIdx_nil, List.append_nil]
  exact h.set_same hp rfl rfl

theorem TreeInv.draw_streams (h : TreeInv s) {i : ℕ} {p : Proc} {c : DrawCall}
    (hp : s.procs[i]? = some p) (hs : tlsRngShouldReseed p.thread.rng c = false)
    (hown : (s.seedings[p.seeding]?).map Seeding.owner = some i) :
    TreeInv (drawProc hook s i p c) := by
  obtain ⟨hd, hslot⟩ := h.slots i p hp
  obtain ⟨g, n, hg, hn, hstream, hbeyond⟩ := hslot (tlsRngShouldReseed_eq_false.mp hs).1
  rw [hg, Option.map_some, Option.some_inj] at hown
  obtain ⟨-, hout, hstream', hn', hd', -⟩ := streams_step hook hstream hn hd hs
  have hkn : seedingOf p.thread c = none := by simp [seedingOf, hs]
  have hg' : (s.seedings ++ [])[p.seeding]? = some g := by rwa [List.append_nil]
  simp only [drawProc, hkn, hout, hstream.toNat_bytesEmitted hn]
  simpa only [List.append_nil] using h.deliver
    (q := { p with thread := (randomBytes hook p.thread c).thread }) hg' hown (by simp)
    (hbeyond hown) rfl hd' hn' hstream'

theorem TreeInv.draw (h : TreeInv s) {i : ℕ} {p : Proc} {c : DrawCall} (hp : s.procs[i]? = some p)
    (hdet : (s.seedings[p.seeding]?).map Seeding.owner ≠ some i →
      tlsRngShouldReseed p.thread.rng c = true) : TreeInv (drawProc hook s i p c) := by
  cases hkn : seedingOf p.thread c with
  | some kn => exact h.draw_seeds hp hkn
  | none =>
    cases hs : tlsRngShouldReseed p.thread.rng c with
    | true => exact h.draw_fails hp hkn hs
    | false =>
      refine h.draw_streams hp hs ?_
      by_contra hne
      rw [hdet hne] at hs
      cases hs

theorem TreeInv.step (h : TreeInv s) {op : ProcOp} (hdet : Detected s op) :
    TreeInv (treeStep hook s op).1 := by
  cases op with
  | fork i pid =>
    simp only [treeStep]
    cases hp : s.procs[i]? with
    | none => exact h
    | some p => exact h.fork hp pid
  | exit i =>
    simp only [treeStep]
    cases hp : s.procs[i]? with
    | none => exact h
    | some p => exact h.set_same hp rfl rfl
  | draw i c =>
    simp only [treeStep]
    cases hp : s.procs[i]? with
    | none => exact h
    | some p => exact h.draw hp (hdet p hp)

theorem boot_procs {pid : Int} {i : ℕ} {p : Proc} (h : (boot pid).procs[i]? = some p) :
    p = ⟨pid, true, freshThread, 0⟩ := by
  obtain ⟨hi, rfl⟩ := List.getElem?_eq_some_iff.mp h
  obtain rfl : i = 0 := Nat.lt_one_iff.mp hi
  rfl

theorem treeInv_boot (pid : Int) : TreeInv (boot pid) := by
  refine ⟨fun i p hp => ?_, by simp [boot], by simp [boot], by simp [boot]⟩
  rw [boot_procs hp]
  exact ⟨rfl, fun hs => (by cases hs)⟩

/-- As long as the reseed test catches every draw from a slot that another process seeded,
no position of a keystream is delivered twice, by one process or by two. -/
theorem fork_streams_disjoint (hook : Option ExitHook) (pid : Int) (ops : List ProcOp)
    (hdet : Machine.Along (treeStep hook) Detected (boot pid) ops) :
    let log := (Machine.run (treeStep hook) (boot pid) ops).1.log
    let seedings := (Machine.run (treeStep hook) (boot pid) ops).1.seedings
    NoSharedPosition log ∧ (log.map Delivery.position).Nodup ∧
      ∀ d ∈ log, ∃ g, seedings[d.seeding]? = some g ∧ g.owner = d.proc ∧
        d.byte = chacha.item (seedState g.kn) d.offset := by
  intro log seedings
  have h : TreeInv (Machine.run (treeStep hook) (boot pid) ops).1 :=
    hdet.invariant (fun _ _ hinv hop => hinv.step hop) (treeInv_boot pid)
  refine ⟨fun d hdmem e hemem hk _ => ?_, h.nodup, h.labels⟩
  obtain ⟨g, hg, hd, -⟩ := h.labels d hdmem
  obtain ⟨g', hg', he, -⟩ := h.labels e hemem
  rw [hk, hg'] at hg
  cases hg
  exact hd.symm.trans he

def parentAndChild : List ProcOp :=
  [.draw 0 (byteCall 1), .fork 0 2, .draw 0 (byteCall 1), .draw 1 (byteCall 2), .exit 0,
    .draw 1 (byteCall 2)]

theorem fork_streams_disjoint_parent_child :
    NoSharedPosition (Machine.run (treeStep none) (boot 1) parentAndChild).1.log :=
  (fork_streams_disjoint none 1 parentAndChild (by decide +kernel)).1

def PidInv (s : ProcTree) : Prop :=
  ∀ i p, s.procs[i]? = some p → p.thread.rng.seeded = true → p.thread.rng.seedPid = p.pid →
    (s.seedings[p.seeding]?).map Seeding.owner = some i

theorem PidInv.draw (h : PidInv s) {i : ℕ} {p : Proc} (hp : s.procs[i]? = some p) (c : DrawCall) :
    PidInv (drawProc hook s i p c) := by
  rw [drawProc]
  cases hkn : seedingOf p.thread c with
  | some kn =>
    intro j q hq hs hpid
    rcases getElem?_set_cases hq with ⟨rfl, rfl⟩ | ⟨-, hq⟩
    · simp
    · have hown := h j q hq hs hpid
      have hlt : q.seeding < s.seedings.length := by
        by_contra hge
        simp [List.getElem?_eq_none (Nat.le_of_not_lt hge)] at hown
      simpa only [List.getElem?_append_left hlt] using hown
  | none =>
    obtain ⟨hinfo, -⟩ := randomBytes_of_not_seeds hook hkn
    simp only [TlsRng.seedInfo, Prod.mk.injEq] at hinfo
    intro j q hq hs hpid
    rcases getElem?_set_cases hq with ⟨rfl, rfl⟩ | ⟨-, hq⟩
    · exact h j p hp (hinfo.2.2.1 ▸ hs) (hinfo.2.1 ▸ hpid)
    · exact h j q hq hs hpid

theorem PidInv.step (h : PidInv s) {op : ProcOp} (hfresh : FreshPid s op) :
    PidInv (treeStep hook s op).1 := by
  cases op with
  | fork i pid =>
    simp only [treeStep]
    cases hp : s.procs[i]? with
    | none => exact h
    | some p =>
      intro j q hq hs hpid
      rcases getElem?_concat_cases hq with hq | ⟨rfl, rfl⟩
      · exact h j q hq hs hpid
      · exact absurd hpid (hfresh p hp hs)
  | exit i =>
    simp only [treeStep]
    cases hp : s.procs[i]? with
    | none => exact h
    | some p =>
      intro j q hq hs hpid
      rcases getElem?_set_cases hq with ⟨rfl, rfl⟩ | ⟨-, hq⟩
      · exact h j p hp hs hpid
      · exact h j q hq hs hpid
  | draw i c =>
    simp only [treeStep]
    cases hp : s.procs[i]? with
    | none => exact h
    | some p => exact h.draw hp c

/-- The reseed test catches every draw from another process's slot, in a run whose forks
give no child the identifier that its copy has cached. -/
theorem detected_of_freshPid (hook : Option ExitHook) (pid : Int) (ops : List ProcOp)
    (h : Machine.Along (treeStep hook) (fun s op => Legal s op ∧ FreshPid s op) (boot pid) ops) :
    Machine.Along (treeStep hook) Detected (boot pid) ops := by
  refine h.strengthen (I := PidInv) (fun _ _ hinv hop => hinv.step hop.2) ?_ ?_
  · rintro s op hinv ⟨hlegal, -⟩
    cases op with
    | draw i c =>
      intro p hp hown
      obtain ⟨q, hq, -, hpid, -⟩ := hlegal
      obtain rfl : p = q := Option.some_inj.mp (hp.symm.trans hq)
      by_contra hs
      rw [Bool.not_eq_true, tlsRngShouldReseed_eq_false] at hs
      exact hown (hinv i p hp hs.1 (hs.2.2.1.symm.trans hpid))
    | _ => trivial
  · intro i p hp hs
    rw [boot_procs hp] at hs
    cases hs

/-- The grandchild is given the identifier of the process that seeded its slot, which has
drawn on since its slot was copied and has then exited. -/
def reusedPid : List ProcOp :=
  [.draw 0 (byteCall 1), .fork 0 2, .draw 0 (byteCall 1), .exit 0, .fork 1 1, .draw 2 (byteCall 1)]

theorem fork_shares_position :
    Machine.Along (treeStep none) (fun s op => Legal s op ∧ WithinHour s op) (boot 1) reusedPid ∧
      ¬NoSharedPosition (Machine.run (treeStep none) (boot 1) reusedPid).1.log := by
  decide +kernel

end Chronoid
