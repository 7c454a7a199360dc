import Chronoid.KsuidBatch

/-! The scalar loop and the AVX2 kernel leave the same bytes in memory, whichever the
dispatcher resolves to. -/

namespace Chronoid

theorem kAvx2B62Alphabet_getElem? {d : ℕ} (h : d < 62) :
    kAvx2B62Alphabet[d]? = some (base62Char d) := by
  rw [kAvx2B62Alphabet, List.getElem?_append_left (Nat.lt_trans h (by decide))]
  exact kB62Alphabet_getElem? h

/-- A memory in which the number `v i` is spelled at each slot `i` of 27 bytes from `out`. -/
def Spells (spec : Memory) (out : ℕ) (I : Set ℕ) (v : ℕ → ℕ) : Prop :=
  ∀ i ∈ I, ∀ c < 27, spec (out + (i * 27 + c)) = base62Char (v i / 62 ^ (26 - c) % 62)

theorem scatter_wrote {spec : Memory} {out base col : ℕ} {rems : Vector Word64 8} {v : ℕ → ℕ}
    (hspec : Spells spec out (Set.Ico base (base + 8)) v) (hcol : col < 27)
    (hrems : ∀ i : Fin 8, rems[i].toNat = v (base + i) / 62 ^ (26 - col) % 62) (mem : Memory) :
    ∃ m, scatter out base col rems mem = some m ∧
      Store.Wrote spec {p | ∃ i ∈ Set.Ico base (base + 8), p = out + (i * 27 + col)} mem m := by
  have hpass : ∀ i ∈ List.finRange 8, ∀ m, ∃ m', (kAvx2B62Alphabet[rems[i].toNat]?).map (fun c =>
      Function.update m (out + ((base + i.val) * 27 + col)) c) = some m' ∧
        Store.Wrote spec {out + ((base + i.val) * 27 + col)} m m' := by
    intro i _ m
    have hd : rems[i].toNat < 62 := by
      rw [hrems i]
      exact Nat.mod_lt _ (by decide)
    rw [kAvx2B62Alphabet_getElem? hd]
    refine ⟨_, rfl, Store.Wrote.update m ?_⟩
    rw [hrems i]
    exact hspec _ ⟨by omega, by omega⟩ col hcol
  obtain ⟨m, hm, hw⟩ := Store.Wrote.foldlM hpass mem
  refine ⟨m, hm, hw.of_eq ?_⟩
  ext p
  simp only [Set.mem_iUnion, List.mem_finRange, Set.mem_singleton_iff, Set.mem_ofPred_eq,
    Set.mem_Ico]
  constructor
  · rintro ⟨i, -, rfl⟩
    exact ⟨base + i, by omega, rfl⟩
  · rintro ⟨i, hi, rfl⟩
    exact ⟨⟨i - base, by omega⟩, trivial, by simp [Nat.add_sub_cancel' hi.1]⟩

theorem columnLoop_wrote {spec : Memory} {out base : ℕ} {v : ℕ → ℕ}
    (hspec : Spells spec out (Set.Ico base (base + 8)) v) {col : ℕ} (hcol : col ≤ 27)
    {lo hi : List M256i} (hlo : Holds (fun k => v (base + k) / 62 ^ (27 - col)) lo)
    (hhi : Holds (fun k => v (base + (4 + k)) / 62 ^ (27 - col)) hi) (mem : Memory) :
    ∃ m, columnLoop out base col lo hi mem = some m ∧
      Store.Wrote spec {p | ∃ i ∈ Set.Ico base (base + 8), ∃ c < col, p = out + (i * 27 + c)}
        mem m := by
  induction col generalizing lo hi mem with
  | zero => exact ⟨mem, rfl, (Store.Wrote.refl spec mem).of_eq (by ext p; simp)⟩
  | succ col ih =>
    obtain ⟨hlo', hrlo⟩ := hlo.divPass
    obtain ⟨hhi', hrhi⟩ := hhi.divPass
    have hpow : 62 ^ (27 - (col + 1)) * 62 = 62 ^ (27 - col) := by
      rw [← pow_succ]
      congr 1
      omega
    simp only [Nat.div_div_eq_div_mul, hpow] at hlo' hhi'
    have hrems : ∀ i : Fin 8, ((divPass lo).2 ++ (divPass hi).2)[i].toNat =
        v (base + i) / 62 ^ (26 - col) % 62 := by
      intro i
      rw [show 26 - col = 27 - (col + 1) by omega, Fin.getElem_fin, Vector.getElem_append]
      split_ifs with hi
      · exact hrlo ⟨i, hi⟩
      · have hh := hrhi ⟨i - 4, by omega⟩
        simp only [show 4 + (i.val - 4) = i by omega] at hh
        exact hh
    obtain ⟨m₁, h₁, hw₁⟩ := scatter_wrote hspec (by omega) hrems mem
    obtain ⟨m₂, h₂, hw₂⟩ := ih (by omega) hlo' hhi' m₁
    refine ⟨m₂, ?_, (hw₁.trans hw₂).of_eq ?_⟩
    · simp only [columnLoop, h₁, Option.bind_some, h₂]
    · ext p
      simp only [Set.mem_union, Set.mem_ofPred_eq]
      constructor
      · rintro (⟨i, hi, rfl⟩ | ⟨i, hi, c, hc, rfl⟩)
        · exact ⟨i, hi, col, by omega, rfl⟩
        · exact ⟨i, hi, c, by omega, rfl⟩
      · rintro ⟨i, hi, c, hc, rfl⟩
        rcases Nat.lt_succ_iff_lt_or_eq.mp hc with hc | rfl
        · exact .inr ⟨i, hi, c, hc, rfl⟩
        · exact .inl ⟨i, hi, rfl⟩

def slots (out lo hi : ℕ) : Set ℕ := Set.Ico (out + lo * 27) (out + hi * 27)

theorem slots_eq (out lo hi : ℕ) :
    slots out lo hi = {p | ∃ i ∈ Set.Ico lo hi, ∃ c < 27, p = out + (i * 27 + c)} := by
  ext p
  simp only [slots, Set.mem_Ico, Set.mem_ofPred_eq]
  constructor
  · intro h
    exact ⟨(p - out) / 27, by omega, (p - out) % 27, by omega, by omega⟩
  · rintro ⟨i, hi, c, hc, rfl⟩
    omega

def idValue (ids : List Ksuid) (i : ℕ) : ℕ := ids[i]?.elim 0 Ksuid.value

theorem idValue_of_getElem? {ids : List Ksuid} {i : ℕ} {id : Ksuid} (h : ids[i]? = some id) :
    idValue ids i = id.value := by
  rw [idValue, h, Option.elim_some]

theorem loadGroup_wrote {spec : Memory} {ids : List Ksuid} {out base : ℕ}
    (hspec : Spells spec out (Set.Ico base (base + 8)) (idValue ids))
    (hbase : base + 8 ≤ ids.length) (mem : Memory) :
    ∃ m, ((loadGroup ids base).bind fun group => columnLoop out base 27
        (packLimbs group 0 (by decide)) (packLimbs group 4 (by decide)) mem) = some m ∧
      Store.Wrote spec (slots out base (base + 8)) mem m := by
  rw [slots_eq, loadGroup, dif_pos hbase, Option.bind_some]
  have hgroup (i : ℕ) (hi : i < 8) : idValue ids (base + i) = ids[base + i].value :=
    idValue_of_getElem? (List.getElem?_eq_getElem (by omega))
  refine columnLoop_wrote hspec (Nat.le_refl 27) ?_ ?_ mem
  · have hh := holds_packLimbs (Vector.ofFn fun i : Fin 8 => ids[base + i.val]) 0 (by decide)
    simpa [fun k : Fin 4 => hgroup k (by omega)] using hh
  · have hh := holds_packLimbs (Vector.ofFn fun i : Fin 8 => ids[base + i.val]) 4 (by decide)
    simpa [fun k : Fin 4 => hgroup (4 + k) (by omega)] using hh

theorem ksuidFormatAt_wrote {spec : Memory} {id : Ksuid} {out : ℕ}
    (hspec : ∀ c < 27, spec (out + c) = base62Char (id.value / 62 ^ (26 - c) % 62)) (mem : Memory) :
    ∃ m, ksuidFormatAt id out mem = some m ∧ Store.Wrote spec (Set.Ico out (out + 27)) mem m := by
  obtain ⟨text, hformat, htext⟩ := ksuidFormat_eq id (readBuffer 27 fun i => mem (out + i))
  refine ⟨Store.writeList mem out text.toList, by rw [ksuidFormatAt, hformat]; rfl, ?_⟩
  refine (Store.Wrote.writeList mem fun i hi => ?_).of_eq (by simp)
  have hi : i < 27 := by simpa using hi
  rw [hspec i hi]
  simp [htext, base62Text, Positional.getElem_fixed]

theorem ksuidStringBatchScalar_wrote {spec : Memory} {ids : List Ksuid} {out n : ℕ}
    (hspec : Spells spec out (Set.Ico 0 n) (idValue ids)) (hn : n ≤ ids.length) (mem : Memory) :
    ∃ m, ksuidStringBatchScalar ids out n mem = some m ∧
      Store.Wrote spec (slots out 0 n) mem m := by
  have hpass : ∀ i < n, ∀ m, ∃ m', (ids[i]?.bind fun id =>
      ksuidFormatAt id (out + i * 27) m) = some m' ∧
          Store.Wrote spec (slots out i (i + 1)) m m' := by
    intro i hi m
    have hid : ids[i]? = some ids[i] := List.getElem?_eq_getElem (by omega)
    have hchars : ∀ c < 27,
        spec (out + i * 27 + c) = base62Char (ids[i].value / 62 ^ (26 - c) % 62) := by
      intro c hc
      rw [Nat.add_assoc, hspec i ⟨by omega, hi⟩ c hc, idValue_of_getElem? hid]
    obtain ⟨m', hm, hw⟩ := ksuidFormatAt_wrote hchars m
    refine ⟨m', by rw [hid, Option.bind_some, hm], hw.of_eq ?_⟩
    rw [slots]
    congr 1
    omega
  obtain ⟨m, hm, hw⟩ := Store.Wrote.foldlM_range hpass mem
  exact ⟨m, hm, hw.of_eq (by simp [slots])⟩

theorem ksuidStringBatchAvx2_wrote {spec : Memory} {ids : List Ksuid} {out n : ℕ}
    (hspec : Spells spec out (Set.Ico 0 n) (idValue ids)) (hn : n ≤ ids.length) (mem : Memory) :
    ∃ m, ksuidStringBatchAvx2 ids out n mem = some m ∧ Store.Wrote spec (slots out 0 n) mem m := by
  have hpass : ∀ i < (n - n % 8) / 8, ∀ m, ∃ m',
      ((loadGroup ids (8 * i)).bind fun group => columnLoop out (8 * i) 27
        (packLimbs group 0 (by decide)) (packLimbs group 4 (by decide)) m) = some m' ∧
      Store.Wrote spec (Set.Ico (out + i * 216) (out + (i + 1) * 216)) m m' := by
    intro i hi m
    have hgroup : Spells spec out (Set.Ico (8 * i) (8 * i + 8)) (idValue ids) := by
      intro j hj
      have hlt := hj.2
      exact hspec j ⟨Nat.zero_le j, by omega⟩
    obtain ⟨m', hm, hw⟩ := loadGroup_wrote hgroup (by omega) m
    refine ⟨m', hm, hw.of_eq ?_⟩
    rw [slots]
    congr 1 <;> omega
  obtain ⟨m₁, h₁, hw₁⟩ := Store.Wrote.foldlM_range hpass mem
  have hbulk : Set.Ico out (out + (n - n % 8) / 8 * 216) = slots out 0 (n - n % 8) := by
    rw [slots]
    congr 1
    omega
  rw [hbulk] at hw₁
  simp only [ksuidStringBatchAvx2, h₁, Option.bind_some]
  by_cases htail : n - n % 8 < n
  · have hspec' : Spells spec (out + (n - n % 8) * 27) (Set.Ico 0 (n - (n - n % 8)))
        (idValue (ids.drop (n - n % 8))) := by
      intro i hi c hc
      have hi := hi.2
      have hh := hspec (n - n % 8 + i) ⟨Nat.zero_le _, by omega⟩ c hc
      rw [idValue, List.getElem?_drop, ← idValue, ← hh]
      congr 1
      omega
    obtain ⟨m₂, h₂, hw₂⟩ := ksuidStringBatchScalar_wrote hspec' (by simp; omega) m₁
    rw [if_pos htail]
    refine ⟨m₂, h₂, (hw₁.trans hw₂).of_eq ?_⟩
    ext p
    simp only [slots, Set.mem_union, Set.mem_Ico]
    omega
  · rw [if_neg htail]
    refine ⟨m₁, rfl, hw₁.of_eq ?_⟩
    rw [show n - n % 8 = n by omega]

def batchText (ids : List Ksuid) (out : ℕ) : Memory := fun p =>
  base62Char (idValue ids ((p - out) / 27) / 62 ^ (26 - (p - out) % 27) % 62)

theorem spells_batchText (ids : List Ksuid) (out : ℕ) (I : Set ℕ) :
    Spells (batchText ids out) out I (idValue ids) := by
  intro i _ c hc
  rw [batchText, Nat.add_sub_cancel_left, show (i * 27 + c) / 27 = i by omega,
    show (i * 27 + c) % 27 = c by omega]

inductive BatchFn where
  | trampoline
  | scalar
  | avx2
  deriving DecidableEq, Repr

/-- What the resolver can ask about the processor, by compiler. -/
inductive CpuProbe where
  | gnu (builtinAvx2 : Bool) (leaf7Ebx : Option Word32)
  | msvc (leaf7Ebx : Word32) (xcr0 : Word64)
  | other

structure BatchHost where
  haveAvx2Batch : Bool
  forceScalar : Option String
  cpu : CpuProbe

/-- The processor has AVX2 and its registers are saved, as either compiler finds out. -/
def cpuSupportsAvx2 : CpuProbe → Bool
  | .gnu builtinAvx2 leaf7Ebx => builtinAvx2 && leaf7Ebx.any fun ebx => ebx &&& 1#32 <<< 5 != 0#32
  | .msvc ebx xcr => if ebx &&& 1#32 <<< 5 == 0#32 then false else xcr &&& 6#64 == 6#64
  | .other => false

/-- Whether what `CHRONOID_FORCE_SCALAR` holds, if it is set, asks for the scalar kernel. -/
def envForcesScalar (v : Option String) : Bool :=
  match v with
  | none => false
  | some v => if v = "" then false else !(v = "0" || v = "false" || v = "FALSE")

/-- The trampoline of a batch function, with its tests and with what its kernels make of the
call. -/
def batchInitTrampoline (forceScalarEnv : Option String → Bool) (supportsAvx2 : CpuProbe → Bool)
    (host : BatchHost) (avx2 scalar : Option Memory) : Option Memory × BatchFn :=
  if host.haveAvx2Batch && (!forceScalarEnv host.forceScalar && supportsAvx2 host.cpu) then
    (avx2, .avx2)
  else (scalar, .scalar)

/-- The dispatcher of a batch function. `impl` is the cached function pointer before the call; the
second result is its value after. -/
def stringBatch (impl : BatchFn) (n : ℕ) (mem : Memory) (trampoline : Option Memory × BatchFn)
    (avx2 scalar : Option Memory) : Option Memory × BatchFn :=
  if n = 0 then (some mem, impl)
  else match impl with
    | .trampoline => trampoline
    | .scalar => (scalar, impl)
    | .avx2 => (avx2, impl)

def ksuidCpuSupportsAvx2 : CpuProbe → Bool := cpuSupportsAvx2

def forceScalarEnv : Option String → Bool := envForcesScalar

def ksuidStringBatchInitTrampoline (host : BatchHost) (ids : List Ksuid) (out n : ℕ)
    (mem : Memory) : Option Memory × BatchFn :=
  batchInitTrampoline forceScalarEnv ksuidCpuSupportsAvx2 host (ksuidStringBatchAvx2 ids out n mem)
    (ksuidStringBatchScalar ids out n mem)

def ksuidStringBatch (host : BatchHost) (impl : BatchFn) (ids : List Ksuid) (out n : ℕ)
    (mem : Memory) : Option Memory × BatchFn :=
  stringBatch impl n mem (ksuidStringBatchInitTrampoline host ids out n mem)
    (ksuidStringBatchAvx2 ids out n mem) (ksuidStringBatchScalar ids out n mem)

theorem stringBatch_of_agree (forceScalarEnv : Option String → Bool)
    (supportsAvx2 : CpuProbe → Bool) (host : BatchHost)
    (impl : BatchFn) {n : ℕ} {mem m : Memory} {avx2 scalar : Option Memory} (havx2 : avx2 = some m)
    (hscalar : scalar = some m) (hzero : n = 0 → m = mem) :
    (stringBatch impl n mem (batchInitTrampoline forceScalarEnv supportsAvx2 host avx2 scalar) avx2
      scalar).1 = some m := by
  unfold stringBatch
  split_ifs with hn
  · rw [hzero hn]
  · cases impl with
    | trampoline =>
      simp only [batchInitTrampoline]
      split_ifs
      · exact havx2
      · exact hscalar
    | scalar => exact hscalar
    | avx2 => exact havx2

/-- Both kernels write the texts of the batch, each in its slot and nothing else, so
what the dispatcher resolved to cannot be told from its output. -/
theorem ksuidStringBatch_kernels_agree (ids : List Ksuid) (out : ℕ) (mem : Memory) :
    ∃ m, ksuidStringBatchAvx2 ids out ids.length mem = some m ∧
      ksuidStringBatchScalar ids out ids.length mem = some m ∧
      (∀ i (h : i < ids.length) (buf : Vector Byte 27), ∃ text, ksuidFormat ids[i] buf = some text ∧
        readBuffer 27 (fun c => m (out + 27 * i + c)) = text) ∧
      (∀ p, p < out ∨ out + 27 * ids.length ≤ p → m p = mem p) ∧
      ∀ host impl, (ksuidStringBatch host impl ids out ids.length mem).1 = some m := by
  have hspec := spells_batchText ids out (Set.Ico 0 ids.length)
  obtain ⟨m, havx2, hw⟩ := ksuidStringBatchAvx2_wrote hspec le_rfl mem
  obtain ⟨m', hscalar, hw'⟩ := ksuidStringBatchScalar_wrote hspec le_rfl mem
  obtain rfl := hw.unique hw'
  refine ⟨m, havx2, hscalar, fun i hi buf => ?_, fun p hp => (hw p).2 ?_,
    fun host impl => ?_⟩
  · obtain ⟨text, hformat, htext⟩ := ksuidFormat_eq ids[i] buf
    refine ⟨text, hformat, Vector.ext fun c hc => ?_⟩
    have hbyte : m (out + (i * 27 + c)) = _ := ((hw _).1 (by simp [slots]; omega)).trans
      (hspec i ⟨Nat.zero_le i, hi⟩ c hc)
    rw [idValue_of_getElem? (List.getElem?_eq_getElem hi)] at hbyte
    have hchar := List.getElem_of_eq htext (by simpa using hc : c < text.toList.length)
    simp only [Vector.getElem_toList, base62Text, List.getElem_map,
      Positional.getElem_fixed] at hchar
    rw [hchar, ← hbyte, readBuffer, Vector.getElem_ofFn]
    exact congrArg m (show out + 27 * i + c = out + (i * 27 + c) by omega)
  · simp only [slots, Set.mem_Ico]
    omega
  · refine stringBatch_of_agree _ _ host impl havx2 hscalar fun hzero => ?_
    rw [hzero] at hscalar
    exact (Option.some_inj.mp hscalar).symm

end Chronoid
