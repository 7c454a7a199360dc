import Chronoid.GenGenerate
import Chronoid.RandThreads

/-! The identifiers that the threads of a tree of processes make, and the keystream that goes into
them. -/

namespace Chronoid

def DrawCall.sized (c : DrawCall) (n : ℕ) (h : n < 2 ^ 63) : DrawCall :=
  { c with len := n, len_lt := h }

/-- What the generators see of a draw by a thread. -/
def drawn (hook : Option ExitHook) (p : Proc) (c : DrawCall) : Fill :=
  ⟨(randomBytes hook p.thread c).ret, fun j => (randomBytes hook p.thread c).out.getD j 0#8⟩

/-- An identifier with the thread that made it and the place its random bytes come from. -/
structure MadeId where
  proc : ℕ
  id : GenId
  seeding : ℕ
  offset : ℕ

structure IdTree where
  tree : ProcTree
  made : List MadeId

/-- What threads do: make an identifier without an override installed, or anything else. -/
inductive IdOp where
  | tree (op : ThreadOp)
  | newKsuid (i : ℕ) (clock : Option Word64) (c : DrawCall) (out : Ksuid)
  | newUuidv7 (i : ℕ) (now : Int) (c : DrawCall) (out : Uuidv7)

def ksuidCall (c : DrawCall) : DrawCall := c.sized 16 (by decide)

def uuidv7Call (c : DrawCall) : DrawCall := c.sized 10 (by decide)

/-- What a generator leaves behind that drew or did not, and made an identifier or did not. -/
def IdTree.record (hook : Option ExitHook) (s : IdTree) (i : ℕ) (p : Proc) (c : DrawCall)
    (draws : ℕ) (id : Option GenId) : IdTree where
  tree := if draws = 0 then s.tree else drawProc hook s.tree i p c
  made :=
    s.made ++ id.toList.map fun id =>
      ⟨i, id, (keystreamAt s.tree p c).1, (keystreamAt s.tree p c).2⟩

def idStep (hook : Option ExitHook) (s : IdTree) : IdOp → IdTree × Unit
  | .tree op => ({ s with tree := threadStep hook s.tree op }, ())
  | .newKsuid i clock c out =>
    match s.tree.procs[i]? with
    | none => (s, ())
    | some p =>
      let r := ksuidNew (fun _ => drawn hook p (ksuidCall c)) 0 clock out
      (s.record hook i p (ksuidCall c) r.draws
        (if r.err = .ok then some (.ksuid r.out) else none), ())
  | .newUuidv7 i now c out =>
    match s.tree.procs[i]? with
    | none => (s, ())
    | some p =>
      let r := uuidv7New (fun _ => drawn hook p (uuidv7Call c)) 0 now out
      (s.record hook i p (uuidv7Call c) r.draws
        (if r.err = .ok then some (.uuidv7 r.out) else none), ())

def idBoot (pid : Int) : IdTree := ⟨boot pid, []⟩

def IdOp.procOps : IdOp → List ProcOp
  | .tree op => op.procOps
  | .newKsuid i _ c _ => [.draw i (ksuidCall c)]
  | .newUuidv7 i _ c _ => [.draw i (uuidv7Call c)]

/-- The random bytes stand in the identifier, in a UUIDv7 without the bits that its marks take. -/
def GenId.Carries (random : List Byte) : GenId → Prop
  | .ksuid id => (ksuidPayload id).toList = random
  | .uuidv7 id => (uuidv7RandA id).toNat = bytesValue (random.take 2) % 2 ^ 12 ∧
      bytesValue (uuidv7RandB id).toList = bytesValue (random.drop 2) % 2 ^ 62

def GenId.randomLen : GenId → ℕ
  | .ksuid _ => 16
  | .uuidv7 _ => 10

/-- How a generator can go that draws `n` bytes: by the fill it is given, the number of its draws
and what it makes. -/
inductive GenStep (f : Fill) (n : ℕ) : ℕ → Option GenId → Prop
  | undrawn : GenStep f n 0 none
  | failed (hret : f.ret ≠ 0) : GenStep f n 1 none
  | made (hret : f.ret = 0) (id : GenId) (hlen : id.randomLen = n)
      (hcarries : id.Carries (f.buf n).toList) : GenStep f n 1 (some id)

theorem ksuidNew_genStep (f : Fill) (clock : Option Word64) (out : Ksuid) :
    let r := ksuidNew (fun _ => f) 0 clock out
    GenStep f 16 r.draws (if r.err = .ok then some (.ksuid r.out) else none) := by
  cases clock with
  | none => exact .undrawn
  | some t =>
    by_cases ht : KsuidTimeInRange t.toInt
    · by_cases hret : f.ret = 0
      · obtain ⟨id, hparts, -, hpayload⟩ := fromParts_made out (f.buf 16) ht
        simp only [ksuidNew, newWithTime_eq_fromParts (fun _ => f) 0 out ht hret, hparts, if_true]
        exact .made hret _ rfl (congrArg Vector.toList hpayload)
      · have hin := mt (corrected_out_iff t).mp (not_not.mpr ht)
        simp only [ksuidNew, ksuidNewWithTime, if_neg hin, if_pos hret]
        exact .failed hret
    · have hout := (corrected_out_iff t).mpr ht
      simp only [ksuidNew, ksuidNewWithTime, if_pos hout]
      exact .undrawn

theorem toNat_randA12bit (rnd : Vector Byte 10) :
    (randA12bit rnd).toNat = bytesValue (rnd.toList.take 2) := by
  have htake : rnd.toList.take 2 = [rnd.get 0, rnd.get 1] := by
    refine List.ext_getElem (by simp) fun i hi _ => ?_
    have hi : i < 2 := by simp at hi; omega
    interval_cases i <;> simp [Vector.get]
  have hlow : ((rnd.get 1).setWidth 16).toNat < 2 ^ 8 := by
    rw [BitVec.toNat_setWidth]
    omega
  have hhigh : ((rnd.get 0).setWidth 16 <<< 8 : Word16).toNat = (rnd.get 0).toNat <<< 8 := by
    rw [BitVec.toNat_shiftLeft, BitVec.toNat_setWidth, Nat.shiftLeft_eq, Nat.shiftLeft_eq]
    omega
  rw [htake, randA12bit, BitVec.toNat_or, hhigh, ← Nat.shiftLeft_add_eq_or_of_lt hlow,
    Nat.shiftLeft_eq]
  simp [bytesValue_cons]
  omega

theorem drop_rnd (rnd : Vector Byte 10) :
    (Vector.ofFn fun j : Fin 8 => rnd.get (j.natAdd 2)).toList = rnd.toList.drop 2 := by
  refine List.ext_getElem (by simp) fun i hi hi' => ?_
  simp [Vector.get, Nat.add_comm]

theorem carries_fromParts {now : Int} (hnow : 0 ≤ now ∧ now ≤ uuidv7MaxUnixMs) (out : Uuidv7)
    (rnd : Vector Byte 10) :
    (GenId.uuidv7 (uuidv7FromParts out now (randA12bit rnd)
      (Vector.ofFn fun j : Fin 8 => rnd.get (j.natAdd 2))).2).Carries rnd.toList := by
  have hfields := fieldsOf_eq (parts_value hnow.1 hnow.2 out (randA12bit rnd)
    (Vector.ofFn fun j : Fin 8 => rnd.get (j.natAdd 2)))
  constructor
  · have ha := congrArg (fun f => f.randA.val) hfields
    simp only [fieldsOf_randA] at ha
    rw [← toNat_randA12bit, ← ha, randA_value, Nat.mod_mod]
  · have hb := congrArg (fun f => f.randB.val) hfields
    simp only [fieldsOf_randB] at hb
    rw [← drop_rnd, ← hb, randB_value, Nat.mod_mod]

theorem uuidv7New_genStep (f : Fill) (now : Int) (out : Uuidv7) :
    let r := uuidv7New (fun _ => f) 0 now out
    GenStep f 10 r.draws (if r.err = .ok then some (.uuidv7 r.out) else none) := by
  by_cases hnow : 0 ≤ now ∧ now ≤ uuidv7MaxUnixMs
  · by_cases hret : f.ret = 0
    · simp only [uuidv7New_made (fun _ => f) 0 hnow hret, if_pos (parts_ok_iff.mpr hnow)]
      exact .made hret _ rfl (carries_fromParts hnow out (f.buf 10))
    · have hin : ¬(now < 0 ∨ now > uuidv7MaxUnixMs) := by omega
      simp only [uuidv7New, uuidv7NewWithTime, if_neg hin, if_pos hret]
      exact .failed hret
  · have hout : now < 0 ∨ now > uuidv7MaxUnixMs := by omega
    simp only [uuidv7New, if_pos hout]
    exact .undrawn

/-- No place of a keystream goes into both. -/
def MadeId.Apart (m m' : MadeId) : Prop :=
  ∀ j < m.id.randomLen, ∀ j' < m'.id.randomLen,
    (m.seeding, m.offset + j) ≠ (m'.seeding, m'.offset + j')

/-- The random bytes of the identifier are consecutive bytes of a keystream that its process seeded,
and they have been delivered. -/
structure MadeId.Drawn (s : ProcTree) (m : MadeId) : Prop where
  carries : ∃ g, s.seedings[m.seeding]? = some g ∧ g.owner = m.proc ∧
    m.id.Carries (chacha.segment (seedState g.kn) m.offset m.id.randomLen)
  delivered : ∀ j < m.id.randomLen, (m.seeding, m.offset + j) ∈ s.log.map Delivery.position

structure IdInv (s : IdTree) : Prop where
  tree : TreeInv s.tree
  pids : PidInv s.tree
  made : ∀ m ∈ s.made, m.Drawn s.tree
  apart : s.made.Pairwise MadeId.Apart

theorem MadeId.Drawn.mono {s s' : ProcTree} {m : MadeId} (h : m.Drawn s) (hgrows : s.Grows s') :
    m.Drawn s' where
  carries := by
    obtain ⟨g, hg, hown, hcarries⟩ := h.carries
    exact ⟨g, hgrows.seeding hg, hown, hcarries⟩
  delivered j hj := hgrows.delivered (h.delivered j hj)

theorem IdInv.thread_step (hook : Option ExitHook) {s : IdTree} (op : ThreadOp) (h : IdInv s)
    (htold : Told s.tree op.procOps) : IdInv { s with tree := threadStep hook s.tree op } := by
  obtain ⟨htree, hpids⟩ := threadStep_inv hook h.tree h.pids htold
  exact ⟨htree, hpids, fun m hm => (h.made m hm).mono (threadStep_grows hook s.tree op).1, h.apart⟩

theorem toList_buf {ret : Int} {bs : List Byte} {n : ℕ} (hn : bs.length = n) :
    (Fill.buf ⟨ret, fun j => bs.getD j 0#8⟩ n).toList = bs := by
  refine List.ext_getElem (by simp [hn]) fun j hj hj' => ?_
  simp [Fill.buf, List.getD_eq_getElem?_getD, hj']

/-- A generator that draws gives its identifier places that nothing was delivered from before. -/
theorem IdInv.record {hook : Option ExitHook} {s : IdTree} {i : ℕ} {p : Proc} {c : DrawCall}
    {draws : ℕ} {id : Option GenId}
    (h : IdInv s) (hp : s.tree.procs[i]? = some p) (htold : Told s.tree [.draw i c])
    (hgen : GenStep (drawn hook p c) c.len draws id) : IdInv (s.record hook i p c draws id) := by
  have hdet := h.pids.detected (htold _ List.mem_cons_self).1
  have hstep := h.thread_step hook (.proc (.draw i c)) htold
  simp only [threadStep, treeStep_draw hp] at hstep
  cases hgen with
  | undrawn => simpa [IdTree.record] using h
  | failed hret => simpa [IdTree.record] using hstep
  | made hret id hlen hcarries =>
    obtain ⟨hlength, hdraws⟩ := h.tree.draw_draws hp hdet hret
    rw [drawn, toList_buf hlength] at hcarries
    have hbytes : id.randomLen = (randomBytes hook p.thread c).out.length := hlen.trans hlength.symm
    have hdrawn : MadeId.Drawn (drawProc hook s.tree i p c)
        ⟨i, id, (keystreamAt s.tree p c).1, (keystreamAt s.tree p c).2⟩ := by
      obtain ⟨g, hg, howner, hout⟩ := hdraws.segment
      refine ⟨⟨g, hg, howner, ?_⟩, fun j hj => hdraws.delivered j (hj.trans_eq hbytes)⟩
      simp only [hbytes]
      exact hout ▸ hcarries
    have hgrows := treeStep_grows hook s.tree (.draw i c)
    rw [treeStep_draw hp] at hgrows
    refine ⟨hstep.tree, hstep.pids, fun m hm => ?_, ?_⟩
    · rcases List.mem_append.mp hm with hold | hnew
      · exact (h.made m hold).mono hgrows
      · obtain rfl : m = _ := by simpa using hnew
        exact hdrawn
    · refine List.pairwise_append.mpr ⟨h.apart, by simp, fun m hm m' hm' j hj j' hj' heq => ?_⟩
      obtain rfl : m' = _ := by simpa using hm'
      exact hdraws.fresh j' (hj'.trans_eq hbytes) (heq ▸ (h.made m hm).delivered j hj)

theorem IdInv.step {hook : Option ExitHook} {s : IdTree} {op : IdOp} (h : IdInv s)
    (htold : Told s.tree op.procOps) : IdInv (idStep hook s op).1 := by
  cases op with
  | tree op => exact h.thread_step hook op htold
  | newKsuid i clock c out =>
    simp only [idStep]
    cases hp : s.tree.procs[i]? with
    | none => exact h
    | some p => exact h.record hp htold (ksuidNew_genStep _ clock out)
  | newUuidv7 i now c out =>
    simp only [idStep]
    cases hp : s.tree.procs[i]? with
    | none => exact h
    | some p => exact h.record hp htold (uuidv7New_genStep _ now out)

theorem idInv_boot (pid : Int) : IdInv (idBoot pid) where
  tree := treeInv_boot pid
  pids i p hp hs := by
    rw [boot_procs hp] at hs
    cases hs
  made _ hm := nomatch hm
  apart := .nil

/-- However processes fork and their threads start, draw, reseed and wipe, as long as no child goes
under the identifier that its copied slot has cached, the random bytes of every identifier are
consecutive bytes of a keystream that its own thread seeded, and no place of a keystream goes into
two identifiers. -/
theorem generated_ids_apart (hook : Option ExitHook) (pid : Int) (ops : List IdOp)
    (h : Machine.Along (idStep hook) (fun s op => Told s.tree op.procOps) (idBoot pid) ops) :
    let s := (Machine.run (idStep hook) (idBoot pid) ops).1
    (∀ m ∈ s.made, ∃ g, s.tree.seedings[m.seeding]? = some g ∧ g.owner = m.proc ∧
      m.id.Carries (chacha.segment (seedState g.kn) m.offset m.id.randomLen)) ∧
    s.made.Pairwise MadeId.Apart := by
  have hinv := h.invariant (I := IdInv) (fun _ _ hinv hop => hinv.step hop) (idInv_boot pid)
  exact ⟨fun m hm => (hinv.made m hm).carries, hinv.apart⟩

/-- A parent makes an identifier before and after its child, born in between, and its second thread
make one. -/
def parentAndChildIds : List IdOp :=
  [.newKsuid 0 (some 1500000000#64) (byteCall 1) ⟨Vector.replicate 20 0#8⟩,
    .tree (.proc (.fork 0 2)), .tree (.spawn 0),
    .newUuidv7 1 1500000000000 (byteCall 2) ⟨Vector.replicate 16 0#8⟩,
    .newUuidv7 2 1500000000000 (byteCall 1) ⟨Vector.replicate 16 0#8⟩, .tree (.wipe 2),
    .newKsuid 0 (some 1500000000#64) (byteCall 1) ⟨Vector.replicate 20 0#8⟩]

theorem generated_ids_apart_parent_child :
    (Machine.run (idStep none) (idBoot 1) parentAndChildIds).1.made.Pairwise MadeId.Apart :=
  (generated_ids_apart none 1 parentAndChildIds (by decide +kernel)).2

end Chronoid
