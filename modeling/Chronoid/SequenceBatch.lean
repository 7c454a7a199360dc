import Chronoid.BatchDispatch
import Chronoid.GenParse
import Chronoid.KsuidSequence
import Chronoid.Uuidv7SequenceRuns

/-! What a sequence emits, formatted in bulk: the slots read back and sort as the identifiers
came. -/

namespace Chronoid

/-- The bytes at slot `i` of a batch of texts of `w` bytes. -/
def slotAt (m : Memory) (out w i : ℕ) : ℕ → Byte := fun c => m (out + w * i + c)

theorem ksuidParse_text (simd : Simd) (tmp : Vector Byte 20) (out : Ksuid)
    {s : ℕ → Byte} {id : Ksuid} (h : (readBuffer 27 s).toList = base62Text id.value) :
    ksuidParse simd tmp out s 27 = (.ok, id) := by
  rcases ksuidParse_eq simd tmp out s with ⟨-, id', hparse, hvalue⟩ | ⟨hno, -⟩
  · rw [h, base62Value_base62Text id.value_lt_numeral] at hvalue
    rw [hparse, Ksuid.value_inj hvalue]
  · refine absurd ?_ hno
    rw [h, KsuidGrammar, base62Value_base62Text id.value_lt_numeral]
    exact ⟨isBase62_base62Text _, Nat.le_pred_of_lt id.value_lt⟩

theorem uuidv7Parse_text (inner tmp : Vector Byte 16) (out : Uuidv7) {s : ℕ → Byte} {id : Uuidv7}
    (h : (readBuffer 36 s).toList = uuidv7Text id) :
    uuidv7Parse inner tmp out s 36 = (.ok, id) := by
  obtain ⟨t, ht, hlayout⟩ := hexText_layout id.b
  have htext : readBuffer 36 s = t := Vector.toList_inj.mp (h.trans ht.symm)
  have hcanonical := hlayout.canonical
  rcases uuidv7Parse_spec inner tmp out s with ⟨-, id', hparse, hlayout'⟩ | ⟨hno, -⟩
  · rw [htext, hcanonical.2] at hlayout'
    rw [hparse, hlayout'.id_unique hlayout]
  · exact absurd (htext ▸ hcanonical.1) hno

/-- Every slot of the batch holds the text of its identifier. -/
theorem ksuidBatch_slots (host : BatchHost) (impl : BatchFn) (ids : List Ksuid) (out : ℕ)
    (mem : Memory) : ∃ m, (ksuidStringBatch host impl ids out ids.length mem).1 = some m ∧
      ∀ i id, ids[i]? = some id →
        (readBuffer 27 (slotAt m out 27 i)).toList = base62Text id.value := by
  have hspec := spells_batchText ids out (Set.Ico 0 ids.length)
  obtain ⟨m, hscalar, hw⟩ := ksuidStringBatchScalar_wrote hspec le_rfl mem
  obtain ⟨m', henter, -, halone⟩ := ksuidKernels_agree ⟨ids, out, ids.length, mem, le_rfl⟩
  obtain rfl : m' = m := Option.some_inj.mp ((henter .scalar (by decide)).symm.trans hscalar)
  refine ⟨m', halone host impl, fun i id hid => ?_⟩
  have hi := (List.getElem?_eq_some_iff.mp hid).1
  refine List.ext_getElem (by simp [base62Text]) fun c hc hc' => ?_
  have hc : c < 27 := by simpa using hc
  have hbyte : m' (out + (i * 27 + c)) = _ :=
    ((hw _).1 (by simp [slots]; omega)).trans (hspec i ⟨Nat.zero_le i, hi⟩ c hc)
  rw [idValue_of_getElem? hid] at hbyte
  simp only [readBuffer, slotAt, Vector.getElem_toList, Vector.getElem_ofFn, base62Text,
    List.getElem_map, Positional.getElem_fixed]
  rw [show out + 27 * i + c = out + (i * 27 + c) by omega, hbyte]

theorem uuidv7Batch_slots (host : BatchHost) (impl : BatchFn) (ssse3 : Bool) (ids : List Uuidv7)
    (out : ℕ) (mem : Memory) :
    ∃ m, (uuidv7StringBatch host impl ssse3 ids out ids.length mem).1 = some m ∧
      ∀ i id, ids[i]? = some id → (readBuffer 36 (slotAt m out 36 i)).toList = uuidv7Text id := by
  have hspec := Store.laid_layOut (w := 36) out ids.length (uuidv7Texts ids)
  obtain ⟨m, hscalar, hw⟩ := uuidv7StringBatchScalar_wrote ssse3 hspec le_rfl mem
  obtain ⟨m', henter, -, halone⟩ := uuidv7Kernels_agree ssse3 ⟨ids, out, ids.length, mem, le_rfl⟩
  obtain rfl : m' = m := Option.some_inj.mp ((henter .scalar (by decide)).symm.trans hscalar)
  refine ⟨m', halone host impl, fun i id hid => ?_⟩
  have hi := (List.getElem?_eq_some_iff.mp hid).1
  refine List.ext_getElem (by simp [length_uuidv7Text]) fun c hc hc' => ?_
  have hc : c < 36 := by simpa using hc
  have hbyte : m' (out + (i * 36 + c)) = _ :=
    ((hw _).1 ⟨by omega, by omega⟩).trans (hspec i hi c hc)
  rw [uuidv7Texts_of_getElem? hid] at hbyte
  simp only [readBuffer, slotAt, Vector.getElem_toList, Vector.getElem_ofFn]
  rw [show out + 36 * i + c = out + (i * 36 + c) by omega, hbyte]
  have hget : (uuidv7Text id)[c]? = some (uuidv7Text id)[c] := List.getElem?_eq_getElem hc'
  exact List.getD_eq_getElem?_getD.trans (congrArg (fun o => o.getD 0#8) hget)

theorem pairwise_getElem? {α : Type*} {R : α → α → Prop} {l : List α} (h : l.Pairwise R) {i j : ℕ}
    {a b : α} (hij : i < j) (ha : l[i]? = some a) (hb : l[j]? = some b) : R a b := by
  obtain ⟨hi, rfl⟩ := List.getElem?_eq_some_iff.mp ha
  obtain ⟨hj, rfl⟩ := List.getElem?_eq_some_iff.mp hb
  exact List.pairwise_iff_getElem.mp h i j hi hj hij

theorem ksuid_emitted_increasing (seed : Ksuid) (calls : List KsuidSequenceCall) :
    (Machine.emitted ksuidSequenceStep (ksuidSequenceInit seed) calls).Pairwise fun a b =>
      a.value < b.value := by
  rw [emitted_ids, List.pairwise_map]
  refine List.pairwise_lt_range.imp_of_mem fun {j k} hj hk hjk => ?_
  rw [List.mem_range] at hj hk
  rw [sequenceId_value seed (by omega), sequenceId_value seed (by omega)]
  omega

theorem uuidv7_emitted_increasing (src : RandomSource) {k₀ k : ℕ} {s₀ s : Uuidv7Sequence}
    (hinit : uuidv7SequenceInit src k₀ s₀ = ⟨.ok, s, k⟩) (calls : List NextCall) :
    (Machine.emitted (sequenceStep src) ⟨s, k⟩ calls).Pairwise fun a b =>
      uuidv7Compare a b = .lt := by
  refine ((Machine.emitted_pairwise_lt (I := fun st : SequenceRun => st.seq.Valid)
    (fun st => st.seq.mark) (sequenceStep_mark src) (init_ok hinit).1 calls).2).imp
      fun {a b} hab => ?_
  exact uuidv7Compare_lt_iff.mpr (Nat.lt_of_div_lt_div hab)

/-- Whatever a sequence has emitted, in whatever run, and whatever the bulk function resolves to:
the batch has a slot for each identifier, the slots read back as the identifiers and, compared byte
by byte, they come in the order in which the identifiers were emitted. -/
theorem sequence_batch_sorted :
    (∀ (seed : Ksuid) (calls : List KsuidSequenceCall) (host : BatchHost) (impl : BatchFn) (out : ℕ)
      (mem : Memory),
      let ids := Machine.emitted ksuidSequenceStep (ksuidSequenceInit seed) calls
      ∃ m, (ksuidStringBatch host impl ids out ids.length mem).1 = some m ∧
        (∀ simd tmp slot i id, ids[i]? = some id →
          ksuidParse simd tmp slot (slotAt m out 27 i) 27 = (.ok, id)) ∧
        ∀ i j, i < j → j < ids.length →
          memcmp (readBuffer 27 (slotAt m out 27 i)).toList
            (readBuffer 27 (slotAt m out 27 j)).toList = .lt) ∧
    ∀ (src : RandomSource) (k₀ k : ℕ) (s₀ s : Uuidv7Sequence),
      uuidv7SequenceInit src k₀ s₀ = ⟨.ok, s, k⟩ →
      ∀ (calls : List NextCall) (host : BatchHost) (impl : BatchFn) (ssse3 : Bool) (out : ℕ)
        (mem : Memory),
      let ids := Machine.emitted (sequenceStep src) ⟨s, k⟩ calls
      ∃ m, (uuidv7StringBatch host impl ssse3 ids out ids.length mem).1 = some m ∧
        (∀ inner tmp slot i id, ids[i]? = some id →
          uuidv7Parse inner tmp slot (slotAt m out 36 i) 36 = (.ok, id)) ∧
        ∀ i j, i < j → j < ids.length →
          memcmp (readBuffer 36 (slotAt m out 36 i)).toList
            (readBuffer 36 (slotAt m out 36 j)).toList = .lt := by
  constructor
  · intro seed calls host impl out mem ids
    obtain ⟨m, hm, hslots⟩ := ksuidBatch_slots host impl ids out mem
    refine ⟨m, hm, fun simd tmp slot i id hid => ksuidParse_text simd tmp slot (hslots i id hid),
      fun i j hij hj => ?_⟩
    have hi' := List.getElem?_eq_getElem (hij.trans hj)
    have hj' := List.getElem?_eq_getElem hj
    rw [hslots i _ hi', hslots j _ hj',
      memcmp_base62Text (Ksuid.value_lt_numeral _) (Ksuid.value_lt_numeral _), Nat.compare_eq_lt]
    exact pairwise_getElem? (ksuid_emitted_increasing seed calls) hij hi' hj'
  · intro src k₀ k s₀ s hinit calls host impl ssse3 out mem ids
    obtain ⟨m, hm, hslots⟩ := uuidv7Batch_slots host impl ssse3 ids out mem
    refine ⟨m, hm, fun inner tmp slot i id hid => uuidv7Parse_text inner tmp slot (hslots i id hid),
      fun i j hij hj => ?_⟩
    have hi' := List.getElem?_eq_getElem (hij.trans hj)
    have hj' := List.getElem?_eq_getElem hj
    have htext := memcmp_uuidv7Format ssse3 ssse3 ids[i] ids[j]
      (Vector.replicate 36 0#8) (Vector.replicate 36 0#8)
    rw [uuidv7Format, uuidv7Format, hexEncodeLower_eq, hexEncodeLower_eq] at htext
    rw [hslots i _ hi', hslots j _ hj']
    exact htext.trans (pairwise_getElem? (uuidv7_emitted_increasing src hinit calls) hij hi' hj')

end Chronoid
