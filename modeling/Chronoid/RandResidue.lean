import Chronoid.ChaCha20Rfc
import Chronoid.RandRuns

/-! What two histories of a thread that differ in the bytes of their seeds only have in common
afterwards: everything after a wipe, but the key material stays after a forced reseed. -/

namespace Chronoid

/-- One operation in two histories; a draw may get other entropy, but as much of it. -/
inductive SameButSeed : RngOp → RngOp → Prop
  | draw (c : DrawCall) (e : Option (Vector Byte 44)) (h : e.isSome = c.entropy.isSome) :
      SameButSeed (.draw c) (.draw { c with entropy := e })
  | forceReseed : SameButSeed .forceReseed .forceReseed
  | wipe : SameButSeed .wipe .wipe

/-- The seed whose key material is in the slot: the last one taken, until a wipe. -/
def residueStep (hook : Option ExitHook) (s : Thread × Option (Vector Byte 44)) (op : RngOp) :
    (Thread × Option (Vector Byte 44)) × List Byte :=
  match op with
  | .draw c =>
    (((randomBytes hook s.1 c).thread, (seedingOf s.1 c).or s.2), (randomBytes hook s.1 c).out)
  | .forceReseed => ((randomForceReseed s.1, s.2), [])
  | .wipe => ((randomThreadStateWipe s.1, none), [])

def residue (hook : Option ExitHook) (ops : List RngOp) : Option (Vector Byte 44) :=
  (Machine.run (residueStep hook) (freshThread, none) ops).1.2

/-- A slot but for its key material. -/
def TlsRng.control (r : TlsRng) : ℕ × Word64 × Int × Int × Bool × Bool :=
  (r.bufPos, r.bytesEmitted, r.seedInfo)

def Thread.control (t : Thread) : (ℕ × Word64 × Int × Int × Bool × Bool) × Bool × Option Bool × ℕ :=
  (t.rng.control, t.inDestructor, t.flsIndex, t.pending)

def SameControl (s s' : Thread × Option (Vector Byte 44)) : Prop :=
  s.1.control = s'.1.control ∧ s.2.isSome = s'.2.isSome

structure KeyMaterial (t : Thread) (held : Option (Vector Byte 44)) : Prop where
  zero : held = none → t.rng = TlsRng.zero
  key : ∀ kn, held = some kn → ∃ k, t.rng.state = chacha.advance^[k] (seedState kn)

variable {hook : Option ExitHook} {t t' : Thread} {held : Option (Vector Byte 44)}

theorem residue_thread (hook : Option ExitHook) (ops : List RngOp) :
    (Machine.run (residueStep hook) (freshThread, none) ops).1.1 = after hook ops := by
  have hstep (s : Thread × Option (Vector Byte 44)) (op : RngOp) :
      rngStep hook s.1 op = ((residueStep hook s op).1.1, id (residueStep hook s op).2) := by
    cases op <;> rfl
  rw [after, Machine.run_map hstep (freshThread, none) ops]

theorem residue_concat (hook : Option ExitHook) (ops : List RngOp) (op : RngOp) :
    residue hook (ops ++ [op]) = (residueStep hook (after hook ops, residue hook ops) op).1.2 := by
  rw [residue, Machine.run_concat, ← residue_thread]
  rfl

/-- Some draw since the last wipe took a seed. -/
def SeedHeld (hook : Option ExitHook) (ops : List RngOp) : Prop :=
  ∃ pre c mid, ops = pre ++ .draw c :: mid ∧ (seedingOf (after hook pre) c).isSome ∧ .wipe ∉ mid

theorem seedHeld_concat {ops : List RngOp} {op : RngOp} : SeedHeld hook (ops ++ [op]) ↔
    (∃ c, op = .draw c ∧ (seedingOf (after hook ops) c).isSome) ∨
      (op ≠ .wipe ∧ SeedHeld hook ops) := by
  constructor
  · rintro ⟨pre, c, mid, hsplit, hseeds, hwipe⟩
    rcases List.eq_nil_or_concat mid with rfl | ⟨mid, last, rfl⟩
    · obtain ⟨rfl, hlast⟩ := List.append_inj' hsplit rfl
      exact .inl ⟨c, List.singleton_inj.mp hlast, hseeds⟩
    · rw [List.concat_eq_append, ← List.cons_append, ← List.append_assoc] at hsplit
      obtain ⟨rfl, hlast⟩ := List.append_inj' hsplit rfl
      obtain rfl := List.singleton_inj.mp hlast
      refine .inr ⟨fun he => hwipe (by simp [he]), pre, c, mid, rfl, hseeds, fun hmem => hwipe ?_⟩
      simp [hmem]
  · rintro (⟨c, rfl, hseeds⟩ | ⟨hne, pre, c, mid, rfl, hseeds, hwipe⟩)
    · exact ⟨ops, c, [], rfl, hseeds, by simp⟩
    · refine ⟨pre, c, mid ++ [op], by simp, hseeds, fun hmem => ?_⟩
      rcases List.mem_append.mp hmem with hmem | hmem
      · exact hwipe hmem
      · exact hne (List.mem_singleton.mp hmem).symm

theorem residue_isSome_iff (hook : Option ExitHook) (ops : List RngOp) :
    (residue hook ops).isSome ↔ SeedHeld hook ops := by
  induction ops using List.reverseRecOn with
  | nil => exact ⟨nofun, fun ⟨pre, c, mid, h, _⟩ => by simp at h⟩
  | append_singleton ops op ih =>
    rw [residue_concat, seedHeld_concat, ← ih]
    cases op <;> simp [residueStep]

theorem fill_state (r : TlsRng) (n : ℕ) :
    ∃ k, (fill r n).rng.state = chacha.advance^[k] r.state := by
  have hstep (s : FillState) : ∃ k, (fillStep s).rng.state = chacha.advance^[k] s.rng.state := by
    rw [fillStep]
    split_ifs
    · exact ⟨0, rfl⟩
    · rw [refillBuf]
      split_ifs
      · exact ⟨1, rfl⟩
      · exact ⟨0, rfl⟩
  have hrun (k : ℕ) (s : FillState) :
      ∃ j, (fillStep^[k] s).rng.state = chacha.advance^[j] s.rng.state := by
    induction k generalizing s with
    | zero => exact ⟨0, rfl⟩
    | succ k ih =>
      obtain ⟨i, hi⟩ := hstep s
      obtain ⟨j, hj⟩ := ih (fillStep s)
      rw [Function.iterate_succ_apply, hj, hi, ← Function.iterate_add_apply]
      exact ⟨j + i, rfl⟩
  exact hrun n ⟨r, n, []⟩

theorem KeyMaterial.draw (h : KeyMaterial t held) (c : DrawCall) :
    KeyMaterial (randomBytes hook t c).thread ((seedingOf t c).or held) := by
  have hstep := randomBytes_step hook t c
  generalize randomBytes hook t c = r at hstep ⊢
  cases hstep with
  | inDestructor hd => simpa [seedingOf, hd] using h
  | noEntropy _ he => simpa [seedingOf, he] using h
  | reseeds kn hd hs he =>
    rw [seedingOf_eq_some.mpr ⟨hd, hs, he⟩, Option.some_or]
    refine ⟨fun hnone => absurd hnone (Option.some_ne_none kn), fun kn' hkn' => ?_⟩
    obtain rfl := Option.some_inj.mp hkn'
    obtain ⟨k, hk⟩ := fill_state (seedThread hook c t kn).rng c.len
    obtain ⟨b, hrng, -⟩ := seedThread_frame hook c t kn
    rw [hrng] at hk
    rw [hrng]
    exact ⟨k, hk⟩
  | streams hd hs =>
    have hnot : seedingOf t c = none := by simp [seedingOf, hs]
    rw [hnot, Option.none_or]
    constructor
    · intro hnone
      rw [h.zero hnone] at hs
      cases hs
    · intro kn hkn
      obtain ⟨i, hi⟩ := h.key kn hkn
      obtain ⟨j, hj⟩ := fill_state t.rng c.len
      rw [hi, ← Function.iterate_add_apply] at hj
      exact ⟨j + i, hj⟩

theorem keyMaterial (hook : Option ExitHook) (ops : List RngOp) :
    KeyMaterial (after hook ops) (residue hook ops) := by
  have hstep (s : Thread × Option (Vector Byte 44)) (op : RngOp) (h : KeyMaterial s.1 s.2) :
      KeyMaterial (residueStep hook s op).1.1 (residueStep hook s op).1.2 := by
    cases op with
    | draw c => exact h.draw c
    | forceReseed =>
      refine ⟨fun hnone => ?_, h.key⟩
      simp only [residueStep, randomForceReseed, h.zero hnone]
      rfl
    | wipe => exact ⟨fun _ => rfl, nofun⟩
  have hinv := Machine.run_invariant (I := fun s => KeyMaterial s.1 s.2) hstep
    (s := (freshThread, none)) ⟨fun _ => rfl, nofun⟩ ops
  rwa [residue_thread] at hinv

theorem control_eq_iff {r r' : TlsRng} : r.control = r'.control ↔
    r.bufPos = r'.bufPos ∧ r.bytesEmitted = r'.bytesEmitted ∧ r.seedInfo = r'.seedInfo := by
  simp only [TlsRng.control, Prod.ext_iff]

theorem refillBuf_control {r r' : TlsRng} (h : r.control = r'.control) :
    (refillBuf r).control = (refillBuf r').control := by
  obtain ⟨hpos, hbytes, hinfo⟩ := control_eq_iff.mp h
  rw [control_eq_iff, refillBuf_seedInfo, refillBuf_seedInfo, refillBuf, refillBuf, hpos]
  by_cases hfull : r'.bufPos = 64
  · rw [if_pos hfull, if_pos hfull]
    exact ⟨rfl, hbytes, hinfo⟩
  · rw [if_neg hfull, if_neg hfull]
    exact ⟨hpos, hbytes, hinfo⟩

theorem fillStep_control {s s' : FillState} (h : s.rng.control = s'.rng.control)
    (hn : s.remaining = s'.remaining) :
    (fillStep s).rng.control = (fillStep s').rng.control ∧
      (fillStep s).remaining = (fillStep s').remaining := by
  obtain ⟨hpos, hbytes, -⟩ := control_eq_iff.mp (refillBuf_control h)
  obtain ⟨-, -, hinfo⟩ := control_eq_iff.mp h
  rw [control_eq_iff, fillStep_seedInfo, fillStep_seedInfo, fillStep, fillStep, hn]
  by_cases hz : s'.remaining = 0
  · rw [if_pos hz, if_pos hz]
    exact ⟨control_eq_iff.mp h, hn⟩
  · simp only [if_neg hz, hpos, hbytes, hinfo, and_self]

theorem iterate_fillStep_control (k : ℕ) {s s' : FillState} (h : s.rng.control = s'.rng.control)
    (hn : s.remaining = s'.remaining) :
    (fillStep^[k] s).rng.control = (fillStep^[k] s').rng.control := by
  induction k generalizing s s' with
  | zero => exact h
  | succ k ih =>
    obtain ⟨hrng, hrem⟩ := fillStep_control h hn
    exact ih hrng hrem

theorem fill_control {r r' : TlsRng} (h : r.control = r'.control) (n : ℕ) :
    (fill r n).rng.control = (fill r' n).rng.control :=
  @iterate_fillStep_control n ⟨r, n, []⟩ ⟨r', n, []⟩ h rfl

theorem tlsRegisterThreadExit_control (env : Registration) (h : t.control = t'.control) :
    (tlsRegisterThreadExit hook env t).control = (tlsRegisterThreadExit hook env t').control := by
  simp only [Thread.control, TlsRng.control, TlsRng.seedInfo, Prod.mk.injEq] at h
  obtain ⟨⟨hpos, hbytes, htime, hpid, hseeded, hreg⟩, hd, hindex, hpending⟩ := h
  rcases hook with _ | _ | _ <;>
    simp only [tlsRegisterThreadExit, hreg, hindex] <;> split_ifs <;>
    simp only [Thread.control, TlsRng.control, TlsRng.seedInfo, *]

theorem seedThread_control (c : DrawCall) (e : Option (Vector Byte 44)) (kn kn' : Vector Byte 44)
    (h : t.control = t'.control) :
    (seedThread hook c t kn).control =
      (seedThread hook { c with entropy := e } t' kn').control := by
  have hwrite : (writeSeed c t kn).control =
      (writeSeed { c with entropy := e } t' kn').control := by
    simp only [Thread.control, TlsRng.control, TlsRng.seedInfo, Prod.mk.injEq] at h
    obtain ⟨⟨-, -, -, -, hseeded, hreg⟩, hd, hindex, hpending⟩ := h
    simp only [Thread.control, TlsRng.control, TlsRng.seedInfo, writeSeed, hseeded, hreg, hd,
      hindex, hpending]
  have hregister := @tlsRegisterThreadExit_control hook _ _ c.registration hwrite
  simp only [Thread.control, TlsRng.control, TlsRng.seedInfo, Prod.mk.injEq,
    seedThread] at hregister ⊢
  obtain ⟨⟨hpos, hbytes, htime, hpid, -, hreg⟩, hd, hindex, hpending⟩ := hregister
  exact ⟨⟨hpos, hbytes, htime, hpid, trivial, hreg⟩, hd, hindex, hpending⟩

theorem tlsRngShouldReseed_control {r r' : TlsRng} (h : r.control = r'.control) (c : DrawCall)
    (e : Option (Vector Byte 44)) :
    tlsRngShouldReseed r c = tlsRngShouldReseed r' { c with entropy := e } := by
  simp only [TlsRng.control, TlsRng.seedInfo, Prod.mk.injEq] at h
  obtain ⟨-, hbytes, htime, hpid, hseeded, -⟩ := h
  simp only [tlsRngShouldReseed, hbytes, htime, hpid, hseeded]

theorem filled_control (h : t.control = t'.control) (n : ℕ) :
    { t with rng := (fill t.rng n).rng }.control =
      { t' with rng := (fill t'.rng n).rng }.control := by
  simp only [Thread.control, Prod.mk.injEq] at h ⊢
  exact ⟨fill_control h.1 n, h.2⟩

theorem draw_control (hook : Option ExitHook) (h : t.control = t'.control) (c : DrawCall)
    {e : Option (Vector Byte 44)} (he : e.isSome = c.entropy.isSome) :
    (randomBytes hook t c).thread.control =
      (randomBytes hook t' { c with entropy := e }).thread.control ∧
      (seedingOf t c).isSome = (seedingOf t' { c with entropy := e }).isSome := by
  have hd : t.inDestructor = t'.inDestructor := congrArg (fun x => x.2.1) h
  have hs := tlsRngShouldReseed_control (congrArg Prod.fst h) c e
  rw [randomBytes, randomBytes, seedingOf, seedingOf]
  by_cases hdes : t.inDestructor = true
  · rw [if_pos hdes, if_pos (hd.symm.trans hdes)]
    exact ⟨h, by simp [hdes, hd.symm.trans hdes]⟩
  · have hno : t.inDestructor = false := Bool.not_eq_true _ ▸ hdes
    have hno' : t'.inDestructor = false := hd.symm.trans hno
    have hdes' : ¬t'.inDestructor = true := hd ▸ hdes
    rw [if_neg hdes, if_neg hdes']
    by_cases hreseed : tlsRngShouldReseed t.rng c = true
    · rw [if_pos hreseed, if_pos (hs.symm.trans hreseed), if_pos ⟨hno, hreseed⟩,
        if_pos ⟨hno', hs.symm.trans hreseed⟩]
      cases hc : c.entropy with
      | none =>
        obtain rfl : e = none := by simpa [hc] using he
        simpa [tlsRngSeed, hc] using h
      | some kn =>
        obtain ⟨kn', rfl⟩ : ∃ kn', e = some kn' := by
          rw [hc] at he
          exact Option.isSome_iff_exists.mp he
        simp only [tlsRngSeed, hc, Option.map_some]
        exact ⟨filled_control (seedThread_control c _ kn kn' h) c.len, rfl⟩
    · have hreseed' : ¬tlsRngShouldReseed t'.rng { c with entropy := e } = true := hs ▸ hreseed
      rw [if_neg hreseed, if_neg hreseed', if_neg (mt And.right hreseed),
        if_neg (mt And.right hreseed')]
      exact ⟨filled_control h c.len, rfl⟩

theorem related_control {ops ops' : List RngOp} (h : List.Forall₂ SameButSeed ops ops') :
    (after hook ops).control = (after hook ops').control ∧
      (residue hook ops).isSome = (residue hook ops').isSome := by
  have hstep (s s' : Thread × Option (Vector Byte 44)) (op op' : RngOp) (hs : SameControl s s')
      (hop : SameButSeed op op') :
      SameControl (residueStep hook s op).1 (residueStep hook s' op').1 := by
    cases hop with
    | draw c e he =>
      obtain ⟨hcontrol, hseeds⟩ := draw_control hook hs.1 c he
      refine ⟨hcontrol, ?_⟩
      simp only [residueStep, Option.isSome_or, hseeds, hs.2]
    | forceReseed =>
      refine ⟨?_, hs.2⟩
      have hcontrol := hs.1
      simp only [Thread.control, TlsRng.control, TlsRng.seedInfo, Prod.mk.injEq] at hcontrol
      simp only [residueStep, randomForceReseed, Thread.control, TlsRng.control, TlsRng.seedInfo,
        hcontrol]
    | wipe =>
      refine ⟨?_, rfl⟩
      have hcontrol := hs.1
      simp only [Thread.control, Prod.mk.injEq] at hcontrol
      simp only [residueStep, randomThreadStateWipe, Thread.control, hcontrol]
  have hstart : SameControl (freshThread, none) (freshThread, none) := ⟨rfl, rfl⟩
  obtain ⟨hcontrol, hsome⟩ := Machine.run_related (R := SameControl) hstep hstart h
  rw [residue_thread, residue_thread] at hcontrol
  exact ⟨hcontrol, hsome⟩

theorem wipe_control (h : t.control = t'.control) :
    randomThreadStateWipe t = randomThreadStateWipe t' := by
  simp only [Thread.control, Prod.mk.injEq] at h
  obtain ⟨-, -, hindex, hpending⟩ := h
  simp only [randomThreadStateWipe, hindex, hpending]

def RngOp.withSeed (kn : Vector Byte 44) : RngOp → RngOp
  | .draw c => .draw { c with entropy := c.entropy.map fun _ => kn }
  | .forceReseed => .forceReseed
  | .wipe => .wipe

theorem withSeed_related (kn : Vector Byte 44) (ops : List RngOp) :
    List.Forall₂ SameButSeed ops (ops.map (RngOp.withSeed kn)) := by
  rw [List.forall₂_map_right_iff, List.forall₂_same]
  intro op _
  cases op with
  | draw c => exact .draw c _ (by simp)
  | forceReseed => exact .forceReseed
  | wipe => exact .wipe

theorem residue_withSeed {kn kn' : Vector Byte 44} (ops : List RngOp)
    (h : residue hook (ops.map (RngOp.withSeed kn)) = some kn') : kn' = kn := by
  have hinv (ops : List RngOp) (s : Thread × Option (Vector Byte 44))
      (hs : ∀ k, s.2 = some k → k = kn) :
      ∀ k, (Machine.run (residueStep hook) s (ops.map (RngOp.withSeed kn))).1.2 = some k →
          k = kn := by
    induction ops generalizing s with
    | nil => exact hs
    | cons op ops ih =>
      apply ih
      cases op with
      | draw c =>
        intro k hk
        rcases Option.or_eq_some_iff.mp hk with hseeds | ⟨-, hheld⟩
        · obtain ⟨-, -, he⟩ := seedingOf_eq_some.mp hseeds
          simp only [Option.map_eq_some_iff] at he
          obtain ⟨-, -, rfl⟩ := he
          rfl
        · exact hs k hheld
      | forceReseed => exact hs
      | wipe => exact fun k hk => by cases hk
  exact hinv ops (freshThread, none) nofun kn' h

theorem le32Load_low (kn : Vector Byte 44) :
    (le32Load kn 0 (by decide)).getLsbD 0 = (kn.get 0).getLsbD 0 := by
  simp [le32Load]
  rfl

theorem key_word (kn : Vector Byte 44) (k : ℕ) :
    (chacha.advance^[k] (seedState kn)).get 4 = le32Load kn 0 (by decide) := by
  rw [(iterate_advance (seedState kn) k).1 4 (by decide) (by decide)]
  change (seedState kn)[4] = le32Load kn 0 (by decide)
  rw [seedState, Vector.getElem_append_left (by decide), Vector.getElem_append_left (by decide),
    Vector.getElem_append_right (by decide) (by decide), Vector.getElem_ofFn]
  rfl

def otherSeed (kn : Vector Byte 44) : Vector Byte 44 := kn.map (~~~ ·)

theorem otherSeed_get (kn : Vector Byte 44) : (otherSeed kn).get 0 = ~~~kn.get 0 :=
  Vector.getElem_map (~~~ ·) (Nat.zero_lt_succ 43)

theorem otherSeed_state (kn : Vector Byte 44) (j k : ℕ) :
    chacha.advance^[j] (seedState kn) ≠ chacha.advance^[k] (seedState (otherSeed kn)) := by
  intro h
  have hword := congrArg (fun s : ChaChaState => (s.get 4).getLsbD 0) h
  simp only [key_word, le32Load_low, otherSeed_get, BitVec.getLsbD_not] at hword
  simp at hword

/-- A wipe leaves nothing of the seeds. A forced reseed does so only where no seed was taken since
the last wipe, and there is nothing to remove. -/
theorem residue_removed_iff (hook : Option ExitHook) (ops : List RngOp) :
    (∀ ops', List.Forall₂ SameButSeed ops ops' →
      randomThreadStateWipe (after hook ops) = randomThreadStateWipe (after hook ops')) ∧
    ((∀ ops', List.Forall₂ SameButSeed ops ops' →
      randomThreadStateWipe (after hook ops) = randomThreadStateWipe (after hook ops') ∧
        randomForceReseed (after hook ops) = randomForceReseed (after hook ops')) ↔
      ¬SeedHeld hook ops) := by
  have hrelated (ops') (h : List.Forall₂ SameButSeed ops ops') :=
    @related_control hook ops ops' h
  have hwipe (ops') (h : List.Forall₂ SameButSeed ops ops') := wipe_control (hrelated ops' h).1
  rw [← residue_isSome_iff, Option.not_isSome_iff_eq_none]
  refine ⟨hwipe, fun h => ?_, fun hnone ops' h => ⟨hwipe ops' h, ?_⟩⟩
  · by_contra hheld
    obtain ⟨kn, hkn⟩ := Option.ne_none_iff_exists'.mp hheld
    have hrel := withSeed_related (otherSeed kn) ops
    obtain ⟨kn', hkn'⟩ :
        ∃ kn', residue hook (ops.map (RngOp.withSeed (otherSeed kn))) = some kn' := by
      rw [← Option.isSome_iff_exists, ← (related_control hrel).2, hkn, Option.isSome_some]
    obtain rfl := residue_withSeed ops hkn'
    obtain ⟨j, hj⟩ := (keyMaterial hook ops).key kn hkn
    obtain ⟨k, hk⟩ := (keyMaterial hook _).key _ hkn'
    have hstate := congrArg (fun t => t.rng.state) (h _ hrel).2
    simp only [randomForceReseed, hj, hk] at hstate
    exact otherSeed_state kn j k hstate
  · obtain ⟨hcontrol, hsome⟩ := hrelated ops' h
    have hnone' : residue hook ops' = none := by
      rwa [hnone, Option.isSome_none, eq_comm, Option.isSome_eq_false_iff,
        Option.isNone_iff_eq_none] at hsome
    have hrng := (keyMaterial hook ops).zero hnone
    have hrng' := (keyMaterial hook ops').zero hnone'
    simp only [Thread.control, Prod.mk.injEq] at hcontrol
    obtain ⟨-, hd, hindex, hpending⟩ := hcontrol
    simp only [randomForceReseed, hrng, hrng', hd, hindex, hpending]

/-- One draw under either of two seeds, then a forced reseed: the keys are still there. -/
theorem residue_after_force_reseed :
    let c := byteCall 1
    let d : DrawCall := { c with entropy := some (Vector.replicate 44 1#8) }
    List.Forall₂ SameButSeed [.draw c] [.draw d] ∧
      randomForceReseed (after none [.draw c]) ≠ randomForceReseed (after none [.draw d]) := by
  refine ⟨.cons (.draw (byteCall 1) _ rfl) .nil, fun h => ?_⟩
  exact absurd (congrArg (fun t => t.rng.state.get 4) h) (by decide +kernel)

end Chronoid
