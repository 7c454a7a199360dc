import Chronoid.ForkedIds
import Chronoid.Uuidv7Trace

/-! UUIDv7 sequences of the threads of a tree of processes. A fork copies the sequences of a thread
with the rest of its memory, and nothing in a sequence tells the copy from the original. -/

namespace Chronoid

/-- Thread `i` makes the calls in turn. -/
def drawsOf (hook : Option ExitHook) (s : ProcTree) (i : ℕ) (cs : List DrawCall) : ℕ → ProcTree
  | 0 => s
  | k + 1 =>
    match cs[k]? with
    | some c => (treeStep hook (drawsOf hook s i cs k) (.draw i c)).1
    | none => drawsOf hook s i cs k

def drawAt (hook : Option ExitHook) (s : ProcTree) (i : ℕ) (cs : List DrawCall) (k : ℕ) :
    Option (Proc × DrawCall) :=
  ((drawsOf hook s i cs k).procs[i]?).bind fun p => (cs[k]?).map fun c => (p, c)

/-- The random source of thread `i`, which fails where there is no such thread or call. -/
def fillsOf (hook : Option ExitHook) (s : ProcTree) (i : ℕ) (cs : List DrawCall) :
    RandomSource := fun k =>
  match drawAt hook s i cs k with
  | some (p, c) => drawn hook p c
  | none => ⟨-1, fun _ => 0#8⟩

def placeOf (hook : Option ExitHook) (s : ProcTree) (i : ℕ) (cs : List DrawCall) (k : ℕ) : ℕ × ℕ :=
  match drawAt hook s i cs k with
  | some (p, c) => keystreamAt (drawsOf hook s i cs k) p c
  | none => (0, 0)

/-- Where in which keystreams the tail of a sequence and its counter start. -/
structure SeqOrigin where
  tail : ℕ × ℕ
  counter : ℕ × ℕ
  deriving DecidableEq

def SeqOrigin.Uses (o : SeqOrigin) (x : ℕ × ℕ) : Prop :=
  (∃ j < 8, x = (o.tail.1, o.tail.2 + j)) ∨ ∃ j < 2, x = (o.counter.1, o.counter.2 + j)

/-- No place of a keystream is used by both. -/
def SeqOrigin.Apart (o o' : SeqOrigin) : Prop := ∀ x, o.Uses x → ¬o'.Uses x

/-- A sequence with the draws that it is on; `age` counts the increments since. -/
structure SeqTrace where
  seq : Uuidv7Sequence
  origin : SeqOrigin
  age : ℕ

/-- An identifier with the state its sequence was left in. -/
structure SeqEmission extends SeqTrace where
  proc : ℕ
  id : Uuidv7

/-- The sequences of a thread are numbered. -/
structure SeqTree where
  tree : ProcTree
  slots : ℕ → List SeqTrace
  emitted : List SeqEmission

inductive SeqOp where
  | tree (op : ThreadOp)
  | init (i : ℕ) (c c' : DrawCall) (s : Uuidv7Sequence)
  | next (i j : ℕ) (wallMs : Int) (c c' : DrawCall) (out : Uuidv7)

def initCalls (c c' : DrawCall) : List DrawCall := [c.sized 2 (by decide), c'.sized 8 (by decide)]

def nextCalls (c c' : DrawCall) : List DrawCall := [c.sized 8 (by decide), c'.sized 2 (by decide)]

def SeqOp.procOps : SeqOp → List ProcOp
  | .tree op => op.procOps
  | .init i c c' _ => (initCalls c c').map (.draw i)
  | .next i _ _ c c' _ => (nextCalls c c').map (.draw i)

def copySlots (s : SeqTree) : ThreadOp → ℕ → List SeqTrace
  | .proc (.fork i _) =>
    if i < s.tree.procs.length then Function.update s.slots s.tree.procs.length (s.slots i)
    else s.slots
  | _ => s.slots

/-- A sequence is kept as the call leaves it, and so is what a successful call emits. -/
def seqStep (hook : Option ExitHook) (s : SeqTree) : SeqOp → SeqTree × Unit
  | .tree op => ({ s with tree := threadStep hook s.tree op, slots := copySlots s op }, ())
  | .init i c c' s₀ =>
    let cs := initCalls c c'
    let place := placeOf hook s.tree i cs
    let r := uuidv7SequenceInit (fillsOf hook s.tree i cs) 0 s₀
    let made := if r.err = .ok then [⟨r.seq, ⟨place 1, place 0⟩, 0⟩] else []
    ({ s with
      tree := drawsOf hook s.tree i cs r.draws
      slots := Function.update s.slots i (s.slots i ++ made) }, ())
  | .next i j wallMs c c' out =>
    match (s.slots i)[j]? with
    | none => (s, ())
    | some t =>
      let cs := nextCalls c c'
      let place := placeOf hook s.tree i cs
      let r := uuidv7SequenceNext (fillsOf hook s.tree i cs) 0 wallMs t.seq out
      let t' : SeqTrace :=
        if r.err ≠ .ok then { t with seq := r.seq }
        else if r.draws = 0 then { t with seq := r.seq, age := t.age + 1 }
        else ⟨r.seq, ⟨place 0, place 1⟩, 0⟩
      ({ tree := drawsOf hook s.tree i cs r.draws
         slots := Function.update s.slots i ((s.slots i).set j t')
         emitted := if r.err = .ok then s.emitted ++ [⟨t', i, r.out⟩] else s.emitted }, ())

def seqBoot (pid : Int) : SeqTree := ⟨boot pid, fun _ => [], []⟩

section Draws

variable {hook : Option ExitHook} {s : ProcTree} {i k n : ℕ} {cs : List DrawCall}

theorem drawsOf_grows_succ (hook : Option ExitHook) (s : ProcTree) (i : ℕ) (cs : List DrawCall)
    (k : ℕ) : (drawsOf hook s i cs k).Grows (drawsOf hook s i cs (k + 1)) := by
  rw [drawsOf]
  split
  · exact treeStep_grows hook _ _
  · exact .refl _

theorem drawsOf_grows (hook : Option ExitHook) (s : ProcTree) (i : ℕ) (cs : List DrawCall) (k : ℕ) :
    s.Grows (drawsOf hook s i cs k) := by
  induction k with
  | zero => exact .refl s
  | succ k ih => exact ih.trans (drawsOf_grows_succ hook s i cs k)

theorem drawProc_pid {p : Proc} {c : DrawCall} (hp : s.procs[i]? = some p) (j : ℕ) :
    ((drawProc hook s i p c).procs[j]?).map Proc.pid = (s.procs[j]?).map Proc.pid := by
  rw [drawProc]
  by_cases hij : i = j
  · subst hij
    split <;> simp [List.getElem?_set_self', hp]
  · split <;> simp only [List.getElem?_set_ne hij]

theorem drawsOf_pid (hook : Option ExitHook) (s : ProcTree) (i : ℕ) (cs : List DrawCall) (k j : ℕ) :
    ((drawsOf hook s i cs k).procs[j]?).map Proc.pid = (s.procs[j]?).map Proc.pid := by
  induction k with
  | zero => rfl
  | succ k ih =>
    rw [← ih, drawsOf]
    split
    · next c hc =>
      cases hp : (drawsOf hook s i cs k).procs[i]? with
      | none => simp only [treeStep, hp]
      | some p => rw [treeStep_draw hp, drawProc_pid hp]
    · rfl

theorem ownPid_drawsOf (hook : Option ExitHook) {c : DrawCall} (h : OwnPid s (.draw i c))
    (cs : List DrawCall) (k : ℕ) : OwnPid (drawsOf hook s i cs k) (.draw i c) := by
  intro p hp
  have hpid := drawsOf_pid hook s i cs k i
  rw [hp, Option.map_some] at hpid
  obtain ⟨q, hq, hqp⟩ := Option.map_eq_some_iff.mp hpid.symm
  exact (h q hq).trans hqp

theorem TreeInv.drawsOf (h : TreeInv s) (hook : Option ExitHook) (hpids : PidInv s)
    (hown : ∀ c ∈ cs, OwnPid s (.draw i c)) (k : ℕ) :
    TreeInv (drawsOf hook s i cs k) ∧ PidInv (Chronoid.drawsOf hook s i cs k) := by
  induction k with
  | zero => exact ⟨h, hpids⟩
  | succ k ih =>
    rw [Chronoid.drawsOf]
    split
    · next c hc =>
      have hpid := ownPid_drawsOf hook (hown c (List.mem_of_getElem? hc)) cs k
      exact ⟨ih.1.step (ih.2.detected hpid), ih.2.step trivial⟩
    · exact ih

theorem drawAt_eq_some {p : Proc} {c : DrawCall} (h : drawAt hook s i cs k = some (p, c)) :
    (drawsOf hook s i cs k).procs[i]? = some p ∧ cs[k]? = some c := by
  obtain ⟨q, hq, hmap⟩ := Option.bind_eq_some_iff.mp h
  obtain ⟨c', hc', heq⟩ := Option.map_eq_some_iff.mp hmap
  cases heq
  exact ⟨hq, hc'⟩

theorem lt_of_fillsOf (hok : (fillsOf hook s i cs 0).ret = 0) : i < s.procs.length := by
  cases hat : drawAt hook s i cs 0 with
  | none =>
    rw [fillsOf, hat] at hok
    cases hok
  | some pc => exact (List.getElem?_eq_some_iff.mp (drawAt_eq_some hat).1).1

/-- A draw that succeeds takes its bytes from places that nothing was delivered from before. -/
theorem TreeInv.fillsOf (h : TreeInv s) (hpids : PidInv s) (hown : ∀ c ∈ cs, OwnPid s (.draw i c))
    (hlen : ∀ c ∈ cs[k]?, c.len = n) (hok : (fillsOf hook s i cs k).ret = 0) :
    Draws (Chronoid.drawsOf hook s i cs k) (Chronoid.drawsOf hook s i cs (k + 1)) i
      (placeOf hook s i cs k) ((fillsOf hook s i cs k).buf n).toList := by
  obtain ⟨htree, hpids'⟩ := h.drawsOf hook hpids hown k
  cases hat : drawAt hook s i cs k with
  | none =>
    rw [Chronoid.fillsOf, hat] at hok
    cases hok
  | some pc =>
    obtain ⟨p, c⟩ := pc
    obtain ⟨hp, hc⟩ := drawAt_eq_some hat
    have hpid := ownPid_drawsOf hook (hown c (List.mem_of_getElem? hc)) cs k
    rw [Chronoid.fillsOf, hat] at hok
    obtain ⟨hlength, hdraws⟩ := htree.draw_draws hp (hpids'.detected hpid) hok
    rw [hlen c hc] at hlength
    simp only [Chronoid.fillsOf, placeOf, hat, Chronoid.drawsOf, hc, drawn, toList_buf hlength,
      treeStep_draw hp]
    exact hdraws

end Draws

theorem Draws.grow {s₀ s s' s₁ : ProcTree} {i : ℕ} {place : ℕ × ℕ} {bytes : List Byte}
    (h : Draws s s' i place bytes)
    (hs : s₀.Grows s) (hs' : s'.Grows s₁) : Draws s₀ s₁ i place bytes := by
  obtain ⟨g, hg, hown, hbytes⟩ := h.segment
  exact ⟨⟨g, hs'.seeding hg, hown, hbytes⟩, fun j hj => hs'.delivered (h.delivered j hj),
    fun j hj hmem => h.fresh j hj (hs.delivered hmem)⟩

theorem toNat_drawCounter (f : Fill) :
    (uuidv7SequenceDrawCounter f).2.toNat = bytesValue (f.buf 2).toList % 2 ^ 12 := by
  have hbuf : (uuidv7SequenceDrawRandom f 2).2 = f.buf 2 := by
    rw [uuidv7SequenceDrawRandom]
    split_ifs <;> rfl
  have hlist : (f.buf 2).toList = [(f.buf 2)[0], (f.buf 2)[1]] := by
    refine List.ext_getElem (by simp) fun i hi _ => ?_
    have hi : i < 2 := by simpa using hi
    interval_cases i <;> simp
  rw [uuidv7SequenceDrawCounter, hbuf, hlist]
  generalize (f.buf 2)[0] = a
  generalize (f.buf 2)[1] = b
  have hlow : (b.setWidth 32 : Word32).toNat = b.toNat := by
    rw [BitVec.toNat_setWidth]
    omega
  have hhigh : (a.setWidth 32 <<< 8 : Word32).toNat = a.toNat <<< 8 := by
    rw [BitVec.toNat_shiftLeft, BitVec.toNat_setWidth, Nat.shiftLeft_eq, Nat.shiftLeft_eq]
    omega
  have hmask : uuidv7CounterMask.toNat = 2 ^ 12 - 1 := by decide
  rw [BitVec.toNat_setWidth, BitVec.toNat_and, BitVec.toNat_or, hlow, hhigh, hmask,
    Nat.and_two_pow_sub_one_eq_mod,
    ← Nat.shiftLeft_add_eq_or_of_lt (show b.toNat < 2 ^ 8 from b.isLt), Nat.shiftLeft_eq]
  simp [bytesValue_cons]
  omega

/-- What a sequence holds comes from keystream that was delivered for it: its tail, and the counter
that it has incremented `age` times. -/
structure SeqTrace.Sound (s : ProcTree) (t : SeqTrace) : Prop where
  valid : t.seq.Valid
  tail : ∃ g, s.seedings[t.origin.tail.1]? = some g ∧
    t.seq.randB.toList = chacha.segment (seedState g.kn) t.origin.tail.2 8
  counter : ∃ g, s.seedings[t.origin.counter.1]? = some g ∧ t.seq.counter.toNat =
    bytesValue (chacha.segment (seedState g.kn) t.origin.counter.2 2) % 2 ^ 12 + t.age
  delivered : ∀ x, t.origin.Uses x → x ∈ s.log.map Delivery.position

/-- Two sequences on the same draws are in the same millisecond with the same tail. -/
def SeqTrace.Kin (t t' : SeqTrace) : Prop :=
  t.origin = t'.origin ∧ t.seq.lastMs = t'.seq.lastMs ∧ t.seq.randB = t'.seq.randB ∨
    t.origin.Apart t'.origin

theorem SeqOrigin.Apart.ne {o o' : SeqOrigin} (h : o.Apart o') : o ≠ o' := by
  rintro rfl
  have huses : o.Uses o.tail := .inl ⟨0, by decide, rfl⟩
  exact h _ huses huses

theorem SeqTrace.Kin.symm {t t' : SeqTrace} (h : t.Kin t') : t'.Kin t := by
  rcases h with ⟨horigin, hms, hrandB⟩ | hapart
  · exact .inl ⟨horigin.symm, hms.symm, hrandB.symm⟩
  · exact .inr fun x hx hx' => hapart x hx' hx

theorem SeqTrace.Sound.mono {s s' : ProcTree} {t : SeqTrace} (h : t.Sound s) (hgrows : s.Grows s') :
    t.Sound s' := by
  obtain ⟨g, hg, htail⟩ := h.tail
  obtain ⟨g', hg', hcounter⟩ := h.counter
  exact ⟨h.valid, ⟨g, hgrows.seeding hg, htail⟩, ⟨g', hgrows.seeding hg', hcounter⟩,
    fun x hx => hgrows.delivered (h.delivered x hx)⟩

/-- A sequence just drawn is on draws that nothing else is on. -/
theorem sound_of_draws {s s' : ProcTree} {i : ℕ} {o : SeqOrigin} {seq : Uuidv7Sequence} {f : Fill}
    (hvalid : seq.Valid) (htail : Draws s s' i o.tail seq.randB.toList)
    (hcounter : Draws s s' i o.counter (f.buf 2).toList)
    (hdrawn : seq.counter = (uuidv7SequenceDrawCounter f).2) :
    SeqTrace.Sound s' ⟨seq, o, 0⟩ ∧ ∀ x, o.Uses x → x ∉ s.log.map Delivery.position := by
  refine ⟨⟨hvalid, ?_, ?_, ?_⟩, ?_⟩
  · obtain ⟨g, hg, -, hbytes⟩ := htail.segment
    exact ⟨g, hg, by simpa using hbytes⟩
  · obtain ⟨g, hg, -, hbytes⟩ := hcounter.segment
    refine ⟨g, hg, ?_⟩
    rw [hdrawn, toNat_drawCounter, hbytes]
    simp
  · rintro x (⟨j, hj, rfl⟩ | ⟨j, hj, rfl⟩)
    · exact htail.delivered j (by simpa using hj)
    · exact hcounter.delivered j (by simpa using hj)
  · rintro x (⟨j, hj, rfl⟩ | ⟨j, hj, rfl⟩)
    · exact htail.fresh j (by simpa using hj)
    · exact hcounter.fresh j (by simpa using hj)

def SeqTree.Holds (s : SeqTree) (t : SeqTrace) : Prop :=
  (∃ i, t ∈ s.slots i) ∨ ∃ e ∈ s.emitted, e.toSeqTrace = t

/-- `past` and `once` say that a thread does not go back: of the identifiers it has emitted from the
same draws, each is further on, and its sequence is as far as the last. -/
structure SeqInv (s : SeqTree) : Prop where
  tree : TreeInv s.tree
  pids : PidInv s.tree
  bounded : ∀ i, s.slots i ≠ [] → i < s.tree.procs.length
  sound : ∀ t, s.Holds t → t.Sound s.tree
  kin : ∀ t t', s.Holds t → s.Holds t' → t.Kin t'
  slots : ∀ i, ((s.slots i).map SeqTrace.origin).Nodup
  emits : ∀ e ∈ s.emitted, e.id = uuidv7SequenceEmit e.seq.lastMs e.seq.counter e.seq.randB ∧
    e.proc < s.tree.procs.length
  past : ∀ e ∈ s.emitted, ∀ t ∈ s.slots e.proc, e.origin = t.origin → e.age ≤ t.age
  once : s.emitted.Pairwise fun e e' => e.proc = e'.proc → e.origin = e'.origin → e.age < e'.age

variable {s : SeqTree} {i : ℕ} {t : SeqTrace} {l : List SeqTrace}

theorem SeqInv.grow (h : SeqInv s) {tree : ProcTree} (htree : TreeInv tree) (hpids : PidInv tree)
    (hgrows : s.tree.Grows tree) (hlen : s.tree.procs.length ≤ tree.procs.length) :
    SeqInv { s with tree := tree } where
  tree := htree
  pids := hpids
  bounded i hi := (h.bounded i hi).trans_le hlen
  sound t ht := (h.sound t ht).mono hgrows
  kin := h.kin
  slots := h.slots
  emits e he := ⟨(h.emits e he).1, (h.emits e he).2.trans_le hlen⟩
  past := h.past
  once := h.once

theorem mem_update_cases {ι α : Type*} [DecidableEq ι] {slots : ι → List α} {l : List α}
    {i k : ι} {u : α} (hu : u ∈ Function.update slots i l k) : (k = i ∧ u ∈ l) ∨ u ∈ slots k := by
  by_cases hk : k = i
  · subst hk
    rw [Function.update_self] at hu
    exact .inl ⟨rfl, hu⟩
  · rw [Function.update_of_ne hk] at hu
    exact .inr hu

theorem SeqTree.Holds.of_write {tree : ProcTree} {es : List SeqEmission} {u : SeqTrace}
    (hl : ∀ u ∈ l, u = t ∨ u ∈ s.slots i) (hes : ∀ e ∈ es, e.toSeqTrace = t)
    (h : SeqTree.Holds ⟨tree, Function.update s.slots i l, s.emitted ++ es⟩ u) :
    u = t ∨ s.Holds u := by
  rcases h with ⟨k, hu⟩ | ⟨e, he, rfl⟩
  · rcases mem_update_cases hu with ⟨rfl, hmem⟩ | hmem
    · exact (hl u hmem).imp_right fun hold => .inl ⟨k, hold⟩
    · exact .inr (.inl ⟨k, hmem⟩)
  · rcases List.mem_append.mp he with he | he
    · exact .inr (.inr ⟨e, he, rfl⟩)
    · exact .inl (hes e he)

/-- What a thread has emitted from the draws of a sequence is behind its next step. -/
theorem SeqInv.behind (h : SeqInv s)
    (hnew : (∃ u ∈ s.slots i, u.origin = t.origin ∧ u.age < t.age) ∨
      ∀ u, s.Holds u → t.origin.Apart u.origin) :
    ∀ e ∈ s.emitted, e.proc = i → e.origin = t.origin → e.age < t.age := by
  intro e he hproc horigin
  rcases hnew with ⟨u, hu, huo, hage⟩ | hapart
  · exact (h.past e he u (hproc ▸ hu) (horigin.trans huo.symm)).trans_lt hage
  · exact absurd horigin.symm (hapart _ (.inr ⟨e, he, rfl⟩)).ne

/-- A sequence of thread `i` is drawn anew or goes on from where it was, and may emit. -/
theorem SeqInv.write (h : SeqInv s) (hi : i < s.tree.procs.length) (hsound : t.Sound s.tree)
    (hkin : ∀ u, s.Holds u → t.Kin u)
    (hnew : (∃ u ∈ s.slots i, u.origin = t.origin ∧ u.age < t.age) ∨
      ∀ u, s.Holds u → t.origin.Apart u.origin)
    (ht : t ∈ l) (hl : ∀ u ∈ l, u = t ∨ u ∈ s.slots i) (hnodup : (l.map SeqTrace.origin).Nodup)
    (es : List SeqEmission)
    (hes : ∀ e ∈ es, e = ⟨t, i, uuidv7SequenceEmit t.seq.lastMs t.seq.counter t.seq.randB⟩)
    (hone : es.length ≤ 1) : SeqInv ⟨s.tree, Function.update s.slots i l, s.emitted ++ es⟩ := by
  have hholds (u : SeqTrace) :
      SeqTree.Holds ⟨s.tree, Function.update s.slots i l, s.emitted ++ es⟩ u → u = t ∨ s.Holds u :=
    SeqTree.Holds.of_write hl fun e he => by rw [hes e he]
  have hbehind := h.behind hnew
  refine ⟨h.tree, h.pids, fun k hk => ?_, fun u hu => ?_, fun u u' hu hu' => ?_, fun k => ?_,
    fun e he => ?_, fun e he u hu horigin => ?_, ?_⟩
  · by_cases hki : k = i
    · exact hki ▸ hi
    · exact h.bounded k (by simpa only [Function.update_of_ne hki] using hk)
  · rcases hholds u hu with rfl | hu
    · exact hsound
    · exact h.sound u hu
  · rcases hholds u hu with rfl | hu <;> rcases hholds u' hu' with rfl | hu'
    · exact .inl ⟨rfl, rfl, rfl⟩
    · exact hkin u' hu'
    · exact (hkin u hu).symm
    · exact h.kin u u' hu hu'
  · by_cases hki : k = i
    · subst hki
      simpa only [Function.update_self] using hnodup
    · simpa only [Function.update_of_ne hki] using h.slots k
  · rcases List.mem_append.mp he with he | he
    · exact h.emits e he
    · rw [hes e he]
      exact ⟨rfl, hi⟩
  · rcases List.mem_append.mp he with he | he
    · rcases mem_update_cases hu with ⟨hproc, hmem⟩ | hmem
      · rcases hl u hmem with rfl | hold
        · exact (hbehind e he hproc horigin).le
        · exact h.past e he u (hproc ▸ hold) horigin
      · exact h.past e he u hmem horigin
    · obtain rfl := hes e he
      simp only [Function.update_self] at hu
      exact (congrArg SeqTrace.age (List.inj_on_of_nodup_map hnodup ht hu horigin)).le
  · refine List.pairwise_append.mpr ⟨h.once, ?_, fun e he e' he' hproc horigin => ?_⟩
    · match es, hone with
      | [], _ => exact .nil
      | [e], _ => exact List.pairwise_singleton _ e
    · rw [hes e' he'] at hproc horigin ⊢
      exact hbehind e he hproc horigin

/-- Draws that nothing was delivered from before are apart from all that is held. -/
theorem SeqInv.apart_of_fresh (h : SeqInv s) {o : SeqOrigin}
    (hfresh : ∀ x, o.Uses x → x ∉ s.tree.log.map Delivery.position)
    {u : SeqTrace} (hu : s.Holds u) : o.Apart u.origin :=
  fun x hx hx' => hfresh x hx ((h.sound u hu).delivered x hx')

theorem drawsOf_procs (hook : Option ExitHook) (s : ProcTree) (i : ℕ) (cs : List DrawCall) (k : ℕ) :
    s.procs.length ≤ (drawsOf hook s i cs k).procs.length := by
  induction k with
  | zero => exact le_rfl
  | succ k ih =>
    rw [drawsOf]
    split
    · exact ih.trans (treeStep_procs hook _ _)
    · exact ih

theorem SeqInv.drawn (h : SeqInv s) (hook : Option ExitHook) {cs : List DrawCall}
    (hown : ∀ c ∈ cs, OwnPid s.tree (.draw i c))
    (k : ℕ) : SeqInv { s with tree := drawsOf hook s.tree i cs k } := by
  obtain ⟨htree, hpids⟩ := h.tree.drawsOf hook h.pids hown k
  exact h.grow htree hpids (drawsOf_grows hook s.tree i cs k) (drawsOf_procs hook s.tree i cs k)

theorem SeqInv.draws_of_two (h : SeqInv s) (hook : Option ExitHook) {cs : List DrawCall} {k n : ℕ}
    (hown : ∀ c ∈ cs, OwnPid s.tree (.draw i c)) (hk : k < 2) (hlen : ∀ c ∈ cs[k]?, c.len = n)
    (hok : (fillsOf hook s.tree i cs k).ret = 0) :
    Draws s.tree (drawsOf hook s.tree i cs 2) i (placeOf hook s.tree i cs k)
      ((fillsOf hook s.tree i cs k).buf n).toList := by
  have hdraws := h.tree.fillsOf h.pids hown hlen hok
  interval_cases k
  · exact hdraws.grow (.refl _) (drawsOf_grows_succ hook s.tree i cs 1)
  · exact hdraws.grow (drawsOf_grows hook s.tree i cs 1) (.refl _)

theorem SeqInv.init {hook : Option ExitHook} (h : SeqInv s) {c c' : DrawCall} (s₀ : Uuidv7Sequence)
    (hown : ∀ d ∈ initCalls c c', OwnPid s.tree (.draw i d)) :
    SeqInv (seqStep hook s (.init i c c' s₀)).1 := by
  obtain ⟨r, hr⟩ : ∃ r, uuidv7SequenceInit (fillsOf hook s.tree i (initCalls c c')) 0 s₀ = r :=
    ⟨_, rfl⟩
  obtain ⟨err, seq, k⟩ := r
  by_cases hok : err = .ok
  · subst hok
    obtain ⟨hseq, hret, hret', rfl⟩ := init_eq hr
    let t : SeqTrace :=
      ⟨seq, ⟨placeOf hook s.tree i (initCalls c c') 1, placeOf hook s.tree i (initCalls c c') 0⟩, 0⟩
    have htail : Draws s.tree (drawsOf hook s.tree i (initCalls c c') 2) i t.origin.tail
        seq.randB.toList := by
      rw [hseq]
      have hlen : ∀ d ∈ (initCalls c c')[1]?, d.len = 8 := by simp [initCalls, DrawCall.sized]
      exact h.draws_of_two hook hown (by decide) hlen hret'
    have hcounter : Draws s.tree (drawsOf hook s.tree i (initCalls c c') 2) i t.origin.counter
        ((fillsOf hook s.tree i (initCalls c c') 0).buf 2).toList :=
      h.draws_of_two hook hown (by decide) (by simp [initCalls, DrawCall.sized]) hret
    obtain ⟨hsound, hfresh⟩ := sound_of_draws (init_ok hr).1 htail hcounter (by rw [hseq])
    have hapart : ∀ u, s.Holds u → t.origin.Apart u.origin := fun u hu => h.apart_of_fresh hfresh hu
    have hproc := (lt_of_fillsOf hret).trans_le (drawsOf_procs hook s.tree i (initCalls c c') 2)
    have hw := (h.drawn hook hown 2).write (t := t) (l := s.slots i ++ [t]) hproc hsound
      (fun u hu => .inr (hapart u hu)) (.inr hapart) (by simp) (by simp [or_comm]) ?_ [] (by simp)
      (by simp)
    · simpa [seqStep, hr] using hw
    · rw [List.map_append, List.map_singleton, List.nodup_append]
      refine ⟨h.slots i, by simp, fun o ho o' ho' => ?_⟩
      obtain ⟨u, hu, rfl⟩ := List.mem_map.mp ho
      rw [List.mem_singleton.mp ho']
      exact (hapart u (.inl ⟨i, hu⟩)).ne.symm
  · simpa [seqStep, hr, hok] using h.drawn hook hown k

/-- A sequence that is put back where it was. -/
theorem SeqTree.update_set_self {j : ℕ} (hj : (s.slots i)[j]? = some t) :
    Function.update s.slots i ((s.slots i).set j t) = s.slots := by
  obtain ⟨hlt, rfl⟩ := List.getElem?_eq_some_iff.mp hj
  rw [List.set_getElem_self, Function.update_eq_self]

theorem SeqInv.emit (h : SeqInv s) {j : ℕ} {t' : SeqTrace} (hj : (s.slots i)[j]? = some t)
    (hsound : t'.Sound s.tree) (hkin : ∀ u, s.Holds u → t'.Kin u)
    (hnew : (t'.origin = t.origin ∧ t.age < t'.age) ∨ ∀ u, s.Holds u → t'.origin.Apart u.origin) :
    SeqInv ⟨s.tree, Function.update s.slots i ((s.slots i).set j t'),
      s.emitted ++ [⟨t', i, uuidv7SequenceEmit t'.seq.lastMs t'.seq.counter t'.seq.randB⟩]⟩ := by
  have hlt := (List.getElem?_eq_some_iff.mp hj).1
  have hmem := List.mem_of_getElem? hj
  refine h.write (h.bounded i (List.ne_nil_of_mem hmem)) hsound hkin
    (hnew.imp_left fun hh => ⟨t, hmem, hh.1.symm, hh.2⟩) (List.mem_set hlt t')
    (fun u hu => (List.mem_or_eq_of_mem_set hu).symm) ?_ _ (by simp) (by simp)
  rw [List.map_set]
  rcases hnew with ⟨horigin, -⟩ | hapart
  · have hj' : ((s.slots i).map SeqTrace.origin)[j]? = some t'.origin := by
      rw [List.getElem?_map, hj, horigin]
      rfl
    obtain ⟨hlt', hget⟩ := List.getElem?_eq_some_iff.mp hj'
    rw [← hget, List.set_getElem_self]
    exact h.slots i
  · refine (h.slots i).set fun ho => ?_
    obtain ⟨u, hu, horigin⟩ := List.mem_map.mp ho
    exact (hapart u (.inl ⟨i, hu⟩)).ne horigin.symm

theorem SeqInv.next {hook : Option ExitHook} (h : SeqInv s) {j : ℕ} {c c' : DrawCall}
    (wallMs : Int) (out : Uuidv7) (hown : ∀ d ∈ nextCalls c c', OwnPid s.tree (.draw i d)) :
    SeqInv (seqStep hook s (.next i j wallMs c c' out)).1 := by
  cases hj : (s.slots i)[j]? with
  | none => simpa [seqStep, hj] using h
  | some t =>
    have hsound := h.sound t (.inl ⟨i, List.mem_of_getElem? hj⟩)
    have hstep := next_step (fillsOf hook s.tree i (nextCalls c c')) 0 wallMs hsound.valid out
    obtain ⟨r, hr⟩ :
        ∃ r, uuidv7SequenceNext (fillsOf hook s.tree i (nextCalls c c')) 0 wallMs t.seq out = r :=
      ⟨_, rfl⟩
    rw [hr] at hstep
    cases hstep with
    | exhausted => simpa [seqStep, hj, hr, SeqTree.update_set_self hj] using h.drawn hook hown 0
    | tailFailed => simpa [seqStep, hj, hr, SeqTree.update_set_self hj] using h.drawn hook hown 1
    | counterFailed => simpa [seqStep, hj, hr, SeqTree.update_set_self hj] using h.drawn hook hown 2
    | @fresh ms seq hms htail hcounter hseq =>
      have hvalid :=
        next_valid hsound.valid (.fresh hms htail hcounter hseq : NextStep _ 0 wallMs t.seq out _)
      let o : SeqOrigin :=
        ⟨placeOf hook s.tree i (nextCalls c c') 0, placeOf hook s.tree i (nextCalls c c') 1⟩
      let t' : SeqTrace := ⟨seq, o, 0⟩
      have htail' : Draws s.tree (drawsOf hook s.tree i (nextCalls c c') 2) i o.tail
          seq.randB.toList := by
        rw [hseq]
        have hlen : ∀ d ∈ (nextCalls c c')[0]?, d.len = 8 := by simp [nextCalls, DrawCall.sized]
        exact h.draws_of_two hook hown (by decide) hlen htail
      have hcounter' : Draws s.tree (drawsOf hook s.tree i (nextCalls c c') 2) i o.counter
          ((fillsOf hook s.tree i (nextCalls c c') 1).buf 2).toList :=
        h.draws_of_two hook hown (by decide) (by simp [nextCalls, DrawCall.sized]) hcounter
      obtain ⟨hsound', hfresh⟩ := sound_of_draws hvalid htail' hcounter' (by rw [hseq])
      have hapart : ∀ u, s.Holds u → t'.origin.Apart u.origin :=
        fun u hu => h.apart_of_fresh hfresh hu
      have hw :=
        (h.drawn hook hown 2).emit hj hsound' (fun u hu => .inr (hapart u hu)) (.inr hapart)
      simpa [seqStep, hj, hr] using hw
    | @increment seq hwall hlt hseq =>
      have hvalid := next_valid hsound.valid (.increment hwall hlt hseq :
        NextStep (fillsOf hook s.tree i (nextCalls c c')) 0 wallMs t.seq out _)
      have hsound' : SeqTrace.Sound s.tree ⟨seq, t.origin, t.age + 1⟩ := by
        refine ⟨hvalid, ?_, ?_, hsound.delivered⟩
        · rw [hseq]
          exact hsound.tail
        · obtain ⟨g, hg, hcounter⟩ := hsound.counter
          refine ⟨g, hg, ?_⟩
          rw [hseq, toNat_increment hlt, hcounter]
          rfl
      have hkin : ∀ u, s.Holds u → SeqTrace.Kin ⟨seq, t.origin, t.age + 1⟩ u := by
        intro u hu
        rw [hseq]
        exact h.kin t u (.inl ⟨i, List.mem_of_getElem? hj⟩) hu
      have hw := (h.drawn hook hown 0).emit hj hsound' hkin (.inl ⟨rfl, Nat.lt_succ_self _⟩)
      simpa [seqStep, hj, hr] using hw

/-- A thread that has emitted nothing yet may be given the sequences of another. -/
theorem SeqInv.copy (h : SeqInv s) {m : ℕ} (hm : m < s.tree.procs.length)
    (hproc : ∀ e ∈ s.emitted, e.proc ≠ m) (i : ℕ) :
    SeqInv { s with slots := Function.update s.slots m (s.slots i) } := by
  have hholds : ∀ t, SeqTree.Holds { s with slots := Function.update s.slots m (s.slots i) } t →
      s.Holds t := by
    rintro t (⟨k, ht⟩ | he)
    · rcases mem_update_cases ht with ⟨-, hmem⟩ | hmem
      · exact .inl ⟨i, hmem⟩
      · exact .inl ⟨k, hmem⟩
    · exact .inr he
  refine ⟨h.tree, h.pids, fun k hk => ?_, fun t ht => h.sound t (hholds t ht),
    fun t t' ht ht' => h.kin t t' (hholds t ht) (hholds t' ht'), fun k => ?_, h.emits,
    fun e he t ht => ?_, h.once⟩
  · by_cases hkm : k = m
    · exact hkm ▸ hm
    · exact h.bounded k (by simpa only [Function.update_of_ne hkm] using hk)
  · by_cases hkm : k = m
    · subst hkm
      simpa only [Function.update_self] using h.slots i
    · simpa only [Function.update_of_ne hkm] using h.slots k
  · exact h.past e he t (by simpa only [Function.update_of_ne (hproc e he)] using ht)

theorem SeqInv.thread_step (hook : Option ExitHook) (h : SeqInv s) {op : ThreadOp}
    (htold : Told s.tree op.procOps) : SeqInv (seqStep hook s (.tree op)).1 := by
  obtain ⟨htree, hpids⟩ := threadStep_inv hook h.tree h.pids htold
  obtain ⟨hgrows, hlen⟩ := threadStep_grows hook s.tree op
  have hgrow := h.grow htree hpids hgrows hlen
  cases op with
  | proc op =>
    cases op with
    | fork j pid =>
      simp only [seqStep, copySlots]
      split_ifs with hj
      · refine hgrow.copy ?_ (fun e he => (h.emits e he).2.ne) j
        simp [threadStep, treeStep, List.getElem?_eq_getElem hj]
      · exact hgrow
    | _ => exact hgrow
  | _ => exact hgrow

theorem SeqInv.step {hook : Option ExitHook} (h : SeqInv s) {op : SeqOp}
    (htold : Told s.tree op.procOps) : SeqInv (seqStep hook s op).1 := by
  cases op with
  | tree op => exact h.thread_step hook htold
  | init i c c' s₀ => exact h.init s₀ fun d hd => (htold _ (List.mem_map_of_mem hd)).1
  | next i j wallMs c c' out =>
    exact h.next wallMs out fun d hd => (htold _ (List.mem_map_of_mem hd)).1

theorem seqInv_boot (pid : Int) : SeqInv (seqBoot pid) where
  tree := treeInv_boot pid
  pids i p hp hs := by
    rw [boot_procs hp] at hs
    cases hs
  bounded i hi := absurd rfl hi
  sound t ht := by rcases ht with ⟨_, ht⟩ | ⟨_, ht, _⟩ <;> exact nomatch ht
  kin t t' ht := by rcases ht with ⟨_, ht⟩ | ⟨_, ht, _⟩ <;> exact nomatch ht
  slots _ := .nil
  emits _ he := nomatch he
  past _ he := nomatch he
  once := .nil

/-- However processes fork and their threads start, draw, reseed and wipe, as long as no child goes
under the identifier that its copied slot has cached: the tail and the counter of every identifier
that a sequence emits are keystream, the counter some increments on. Two identifiers either use no
place of a keystream both, or show one millisecond and one tail, and are the same just after as many
increments; and one thread never emits two that are. -/
theorem forked_sequences (hook : Option ExitHook) (pid : Int) (ops : List SeqOp)
    (h : Machine.Along (seqStep hook) (fun s op => Told s.tree op.procOps) (seqBoot pid) ops) :
    let s := (Machine.run (seqStep hook) (seqBoot pid) ops).1
    (∀ e ∈ s.emitted, ∃ g g', s.tree.seedings[e.origin.tail.1]? = some g ∧
      s.tree.seedings[e.origin.counter.1]? = some g' ∧
      bytesValue (uuidv7RandB e.id).toList =
        bytesValue (chacha.segment (seedState g.kn) e.origin.tail.2 8) % 2 ^ 62 ∧
      (uuidv7RandA e.id).toNat =
        bytesValue (chacha.segment (seedState g'.kn) e.origin.counter.2 2) % 2 ^ 12 + e.age) ∧
    (∀ e ∈ s.emitted, ∀ e' ∈ s.emitted, e.origin.Apart e'.origin ∨
      e.origin = e'.origin ∧ uuidv7UnixMs e.id = uuidv7UnixMs e'.id ∧
        uuidv7RandB e.id = uuidv7RandB e'.id ∧ (e.id = e'.id ↔ e.age = e'.age)) ∧
    s.emitted.Pairwise fun e e' => e.proc = e'.proc → e.origin = e'.origin → e.age < e'.age := by
  intro s
  have hinv : SeqInv s := h.invariant (fun _ _ hinv hop => hinv.step hop) (seqInv_boot pid)
  have hsound : ∀ e ∈ s.emitted, e.toSeqTrace.Sound s.tree :=
    fun e he => hinv.sound _ (.inr ⟨e, he, rfl⟩)
  refine ⟨fun e he => ?_, fun e he e' he' => ?_, hinv.once⟩
  · obtain ⟨hvalid, ⟨g, hg, htail⟩, ⟨g', hg', hcounter⟩, -⟩ := hsound e he
    refine ⟨g, g', hg, hg', ?_, ?_⟩
    · rw [(hinv.emits e he).1, hvalid.randB_emit, htail]
    · rw [(hinv.emits e he).1, hvalid.randA_emit, hcounter]
  · rcases hinv.kin _ _ (.inr ⟨e, he, rfl⟩) (.inr ⟨e', he', rfl⟩) with
      ⟨horigin, hms, hrandB⟩ | hapart
    · have hcounters : e.seq.counter = e'.seq.counter ↔ e.age = e'.age := by
        obtain ⟨g, hg, hcounter⟩ := (hsound e he).counter
        obtain ⟨g', hg', hcounter'⟩ := (hsound e' he').counter
        rw [horigin, hg', Option.some_inj] at hg
        subst hg
        rw [← BitVec.toNat_inj, hcounter, hcounter', horigin, Nat.add_left_cancel_iff]
      have hvalid := (hsound e he).valid
      have hvalid' := (hsound e' he').valid
      refine .inr ⟨horigin, ?_, ?_, ?_⟩
      · rw [(hinv.emits e he).1, (hinv.emits e' he').1, hvalid.unixMs_emit,
          hvalid'.unixMs_emit, hms]
      · refine Vector.toList_inj.mp (bytesValue_inj (by simp) ?_)
        rw [(hinv.emits e he).1, (hinv.emits e' he').1, hvalid.randB_emit,
          hvalid'.randB_emit, hrandB]
      · rw [← hcounters]
        refine ⟨fun hid => ?_, fun hcounter => ?_⟩
        · rw [← BitVec.toNat_inj, ← hvalid.randA_emit, ← hvalid'.randA_emit, ← (hinv.emits e he).1,
            ← (hinv.emits e' he').1, hid]
        · rw [(hinv.emits e he).1, (hinv.emits e' he').1, hms, hrandB, hcounter]
    · exact .inl hapart

/-- A process emits from a sequence, forks, and emits from it again in the same millisecond, as its
child does from its copy. -/
def copiedSequence : List SeqOp :=
  [.init 0 (byteCall 1) (byteCall 1) ⟨0, 0, Vector.replicate 8 0#8⟩,
    .next 0 0 1500000000000 (byteCall 1) (byteCall 1) ⟨Vector.replicate 16 0#8⟩,
    .tree (.proc (.fork 0 2)),
    .next 0 0 1500000000000 (byteCall 1) (byteCall 1) ⟨Vector.replicate 16 0#8⟩,
    .next 1 0 1500000000000 (byteCall 2) (byteCall 2) ⟨Vector.replicate 16 0#8⟩]

theorem forked_sequences_copied :
    let s := (Machine.run (seqStep none) (seqBoot 1) copiedSequence).1
    (∃ e ∈ s.emitted, ∃ e' ∈ s.emitted, e.proc ≠ e'.proc ∧ e.id = e'.id) ∧
      s.emitted.Pairwise fun e e' => e.proc = e'.proc → e.origin = e'.origin → e.age < e'.age :=
  ⟨by decide +kernel, (forked_sequences none 1 copiedSequence (by decide +kernel)).2.2⟩

end Chronoid
