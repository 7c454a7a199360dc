import Chronoid.HexAvx2
import Chronoid.KsuidBatchKernels
import Chronoid.TextOrder
import Mathlib.Data.List.GetD

/-! Bulk formatting of UUIDv7s. The scalar loop and the AVX2 kernel, which encodes four
identifiers a pass, leave the same bytes in memory. -/

namespace Chronoid

def uuidv7FormatAt (ssse3 : Bool) (id : Uuidv7) (out : ℕ) (mem : Memory) : Memory :=
  Store.writeList mem out (uuidv7Format ssse3 id (readBuffer 36 fun i => mem (out + i))).toList

def uuidv7StringBatchScalar (ssse3 : Bool) (ids : List Uuidv7) (out n : ℕ) (mem : Memory) :
    Option Memory :=
  (List.range n).foldlM (fun mem i => ids[i]?.map fun id =>
    uuidv7FormatAt ssse3 id (out + i * 36) mem) mem

/-- The 32 bytes at an identifier; reading past the array has no value. -/
def loadPair (ids : List Uuidv7) (base : ℕ) : Option (Vector Byte 32) :=
  ids[base]?.bind fun a => ids[base + 1]?.map fun b => a.b ++ b.b

/-- The digits at `hex + off` are spliced to `out`. -/
def spliceAt (hex : Vector Byte 128) (off out : ℕ) (mem : Memory) : Memory :=
  Store.writeList mem out (uuidv7DashSplice (readBuffer 36 fun i => mem (out + i))
    fun i => hex.toList.getD (off + i) 0#8).toList

/-- One pass of the bulk loop. Its temporary is written whole before it is read, so what it
held does not matter. -/
def uuidv7BatchPass (ids : List Uuidv7) (out base : ℕ) (mem : Memory) : Option Memory :=
  (loadPair ids (base + 0)).bind fun first => (loadPair ids (base + 2)).map fun second =>
    let hex := uuidv7Hex32Avx2 (Vector.replicate 64 0#8) first ++
      uuidv7Hex32Avx2 (Vector.replicate 64 0#8) second
    let mem := spliceAt hex 0 (out + (base + 0) * 36) mem
    let mem := spliceAt hex 32 (out + (base + 1) * 36) mem
    let mem := spliceAt hex 64 (out + (base + 2) * 36) mem
    spliceAt hex 96 (out + (base + 3) * 36) mem

/-- `bulk` is `n & ~3`. -/
def uuidv7StringBatchAvx2 (ssse3 : Bool) (ids : List Uuidv7) (out n : ℕ) (mem : Memory) :
    Option Memory :=
  let bulk := n - n % 4
  ((List.range (bulk / 4)).foldlM
    (fun mem i => uuidv7BatchPass ids out (4 * i) mem) mem).bind fun mem =>
    if bulk < n then uuidv7StringBatchScalar ssse3 (ids.drop bulk) (out + bulk * 36) (n - bulk) mem
    else some mem

def uuidv7CpuSupportsAvx2 : CpuProbe → Bool := cpuSupportsAvx2

def uuidv7ForceScalarEnv : Option String → Bool := envForcesScalar

def uuidv7StringBatchInitTrampoline (host : BatchHost) (ssse3 : Bool) (ids : List Uuidv7)
    (out n : ℕ) (mem : Memory) : Option Memory × BatchFn :=
  batchInitTrampoline uuidv7ForceScalarEnv uuidv7CpuSupportsAvx2 host
    (uuidv7StringBatchAvx2 ssse3 ids out n mem) (uuidv7StringBatchScalar ssse3 ids out n mem)

def uuidv7StringBatch (host : BatchHost) (impl : BatchFn) (ssse3 : Bool) (ids : List Uuidv7)
    (out n : ℕ) (mem : Memory) : Option Memory × BatchFn :=
  stringBatch impl n mem (uuidv7StringBatchInitTrampoline host ssse3 ids out n mem)
    (uuidv7StringBatchAvx2 ssse3 ids out n mem) (uuidv7StringBatchScalar ssse3 ids out n mem)

def uuidv7Texts (ids : List Uuidv7) (i c : ℕ) : Byte :=
  ids[i]?.elim 0#8 fun id => (hexText (nibbles id.bytes)).getD c 0#8

theorem uuidv7Texts_of_getElem? {ids : List Uuidv7} {i : ℕ} {id : Uuidv7} (h : ids[i]? = some id)
    (c : ℕ) : uuidv7Texts ids i c = (hexText (nibbles id.bytes)).getD c 0#8 := by
  rw [uuidv7Texts, h, Option.elim_some]

theorem write_text {spec : Memory} {id : Uuidv7} {out : ℕ} (text : Vector Byte 36)
    (htext : text.toList = hexText (nibbles id.bytes))
    (hspec : ∀ c < 36, spec (out + c) = (hexText (nibbles id.bytes)).getD c 0#8) (mem : Memory) :
    Store.Wrote spec (Set.Ico out (out + 36)) mem (Store.writeList mem out text.toList) := by
  refine (Store.Wrote.writeList mem fun i hi => ?_).of_eq (by simp)
  rw [hspec i (by simpa using hi), ← htext, List.getD_eq_getElem?_getD, List.getElem?_eq_getElem hi]
  rfl

theorem uuidv7FormatAt_wrote (ssse3 : Bool) {spec : Memory} {id : Uuidv7} {out : ℕ}
    (hspec : ∀ c < 36, spec (out + c) = (hexText (nibbles id.bytes)).getD c 0#8) (mem : Memory) :
    Store.Wrote spec (Set.Ico out (out + 36)) mem (uuidv7FormatAt ssse3 id out mem) :=
  write_text _ (hexEncodeLower_eq ssse3 _ id.b) hspec mem

theorem uuidv7StringBatchScalar_wrote (ssse3 : Bool) {spec : Memory} {ids : List Uuidv7} {out n : ℕ}
    (hspec : Store.Laid spec out 36 n (uuidv7Texts ids)) (hn : n ≤ ids.length) (mem : Memory) :
    ∃ m, uuidv7StringBatchScalar ssse3 ids out n mem = some m ∧
      Store.Wrote spec (Set.Ico out (out + n * 36)) mem m := by
  refine Store.Wrote.foldlM_range (fun i hi m => ?_) mem
  have hid : ids[i]? = some ids[i] := List.getElem?_eq_getElem (by omega)
  rw [hid]
  refine ⟨_, rfl, (uuidv7FormatAt_wrote ssse3 (fun c hc => ?_) m).of_eq ?_⟩
  · rw [Nat.add_assoc, hspec i hi c hc, uuidv7Texts_of_getElem? hid]
  · congr 1
    omega

theorem loadPair_eq {ids : List Uuidv7} {base : ℕ} {a b : Uuidv7} (ha : ids[base]? = some a)
    (hb : ids[base + 1]? = some b) : loadPair ids base = some (a.b ++ b.b) := by
  rw [loadPair, ha, hb]
  rfl

theorem getD_quarters (a b c d : Vector Byte 32) {i : ℕ} (hi : i < 32) :
    ((a ++ b) ++ (c ++ d)).toList.getD (0 + i) 0#8 = a.toList.getD i 0#8 ∧
      ((a ++ b) ++ (c ++ d)).toList.getD (32 + i) 0#8 = b.toList.getD i 0#8 ∧
      ((a ++ b) ++ (c ++ d)).toList.getD (64 + i) 0#8 = c.toList.getD i 0#8 ∧
      ((a ++ b) ++ (c ++ d)).toList.getD (96 + i) 0#8 = d.toList.getD i 0#8 := by
  simp only [Vector.toList_append]
  have ha := a.length_toList
  have hc := c.length_toList
  have hab : (a.toList ++ b.toList).length = 64 := by simp
  refine ⟨?_, ?_, ?_, ?_⟩
  · rw [List.getD_append _ _ _ _ (by omega), List.getD_append _ _ _ _ (by omega), Nat.zero_add]
  · rw [List.getD_append _ _ _ _ (by omega), List.getD_append_right _ _ _ _ (by omega), ha,
      Nat.add_sub_cancel_left]
  · rw [List.getD_append_right _ _ _ _ (by omega), hab, Nat.add_sub_cancel_left,
      List.getD_append _ _ _ _ (by omega)]
  · rw [List.getD_append_right _ _ _ _ (by omega), hab,
      List.getD_append_right _ _ _ _ (by omega), hc]
    congr 1
    omega

theorem spliceAt_wrote {spec : Memory} {ids : List Uuidv7} {out n i : ℕ}
    (hspec : Store.Laid spec out 36 n (uuidv7Texts ids)) (hi : i < n) {id : Uuidv7}
    (hid : ids[i]? = some id) {hex : Vector Byte 128} {off : ℕ}
    (hhex : ∀ c < 32, hex.toList.getD (off + c) 0#8 = (hexDigits id.b).toList.getD c 0#8)
    (mem : Memory) :
    Store.Wrote spec (Set.Ico (out + i * 36) (out + (i + 1) * 36)) mem
      (spliceAt hex off (out + i * 36) mem) := by
  rw [spliceAt, uuidv7DashSplice_eq _ hhex, ← hexEncodeLowerSsse3_eq]
  refine (write_text _ (hexEncodeLower_eq true _ id.b) (fun c hc => ?_) mem).of_eq ?_
  · rw [Nat.add_assoc, hspec i hi c hc, uuidv7Texts_of_getElem? hid]
  · congr 1
    omega

theorem uuidv7BatchPass_wrote {spec : Memory} {ids : List Uuidv7} {out n base : ℕ}
    (hspec : Store.Laid spec out 36 n (uuidv7Texts ids)) (hbase : base + 4 ≤ n)
    (hn : n ≤ ids.length) (mem : Memory) : ∃ m, uuidv7BatchPass ids out base mem = some m ∧
      Store.Wrote spec (Set.Ico (out + base * 36) (out + (base + 4) * 36)) mem m := by
  have hget (k : ℕ) (hk : k < 4) : ∃ id, ids[base + k]? = some id :=
    ⟨ids[base + k], List.getElem?_eq_getElem (by omega)⟩
  obtain ⟨a, ha⟩ := hget 0 (by decide)
  obtain ⟨b, hb⟩ := hget 1 (by decide)
  obtain ⟨c, hc⟩ := hget 2 (by decide)
  obtain ⟨d, hd⟩ := hget 3 (by decide)
  have hquarters {i : ℕ} (hi : i < 32) :=
    getD_quarters (hexDigits a.b) (hexDigits b.b) (hexDigits c.b) (hexDigits d.b) hi
  rw [uuidv7BatchPass, loadPair_eq ha hb, loadPair_eq hc hd, Option.bind_some, Option.map_some,
    uuidv7Hex32Avx2_append, uuidv7Hex32Avx2_append]
  have hw₀ := spliceAt_wrote hspec (by omega) ha (fun i hi => (hquarters hi).1) mem
  have hw₁ := spliceAt_wrote hspec (by omega) hb (fun i hi => (hquarters hi).2.1)
  have hw₂ := spliceAt_wrote hspec (by omega) hc (fun i hi => (hquarters hi).2.2.1)
  have hw₃ := spliceAt_wrote hspec (by omega) hd (fun i hi => (hquarters hi).2.2.2)
  refine ⟨_, rfl, (((hw₀.trans (hw₁ _)).trans (hw₂ _)).trans (hw₃ _)).of_eq ?_⟩
  ext p
  simp only [Set.mem_union, Set.mem_Ico]
  omega

theorem uuidv7StringBatchAvx2_wrote (ssse3 : Bool) {spec : Memory} {ids : List Uuidv7} {out n : ℕ}
    (hspec : Store.Laid spec out 36 n (uuidv7Texts ids)) (hn : n ≤ ids.length) (mem : Memory) :
    ∃ m, uuidv7StringBatchAvx2 ssse3 ids out n mem = some m ∧
      Store.Wrote spec (Set.Ico out (out + n * 36)) mem m := by
  have hpass : ∀ i < (n - n % 4) / 4, ∀ m, ∃ m', uuidv7BatchPass ids out (4 * i) m = some m' ∧
      Store.Wrote spec (Set.Ico (out + i * 144) (out + (i + 1) * 144)) m m' := by
    intro i hi m
    obtain ⟨m', hm, hw⟩ := uuidv7BatchPass_wrote hspec (by omega : 4 * i + 4 ≤ n) hn m
    refine ⟨m', hm, hw.of_eq ?_⟩
    congr 1 <;> omega
  obtain ⟨m₁, h₁, hw₁⟩ := Store.Wrote.foldlM_range hpass mem
  simp only [uuidv7StringBatchAvx2, h₁, Option.bind_some]
  by_cases htail : n - n % 4 < n
  · have hrest : Store.Laid spec (out + (n - n % 4) * 36) 36 (n - (n - n % 4))
        (uuidv7Texts (ids.drop (n - n % 4))) := by
      intro i hi c hc
      simp only [hspec.drop (n - n % 4) i hi c hc, uuidv7Texts, List.getElem?_drop]
    obtain ⟨m₂, h₂, hw₂⟩ := uuidv7StringBatchScalar_wrote ssse3 hrest (by simp; omega) m₁
    rw [if_pos htail]
    refine ⟨m₂, h₂, (hw₁.trans hw₂).of_eq ?_⟩
    ext p
    simp only [Set.mem_union, Set.mem_Ico]
    omega
  · rw [if_neg htail]
    refine ⟨m₁, rfl, hw₁.of_eq ?_⟩
    congr 1
    omega

/-- Every encoder of one identifier writes the same text, and every way through the bulk
function writes that text in each slot and nothing else. -/
theorem uuidv7_hex_encoders_agree :
    (∀ (out out' : Vector Byte 36) (inp : Vector Byte 16),
      hexEncodeLowerSsse3 out inp = hexEncodeLowerScalar out' inp) ∧
    ∀ (ids : List Uuidv7) (out : ℕ) (mem : Memory), ∃ m,
      (∀ ssse3, uuidv7StringBatchAvx2 ssse3 ids out ids.length mem = some m ∧
        uuidv7StringBatchScalar ssse3 ids out ids.length mem = some m ∧
        (∀ host impl, (uuidv7StringBatch host impl ssse3 ids out ids.length mem).1 = some m) ∧
        ∀ i (h : i < ids.length) (buf : Vector Byte 36),
          readBuffer 36 (fun c => m (out + 36 * i + c)) = uuidv7Format ssse3 ids[i] buf) ∧
      ∀ p, p < out ∨ out + 36 * ids.length ≤ p → m p = mem p := by
  refine ⟨fun out out' inp =>
    (hexEncodeLowerSsse3_layout out inp).unique (hexEncodeLowerScalar_layout out' inp), ?_⟩
  intro ids out mem
  have hspec := Store.laid_layOut (w := 36) out ids.length (uuidv7Texts ids)
  obtain ⟨m, havx2, hw⟩ := uuidv7StringBatchAvx2_wrote true hspec le_rfl mem
  refine ⟨m, fun ssse3 => ?_, fun p hp => (hw p).2 ?_⟩
  · obtain ⟨m₁, havx2', hw₁⟩ := uuidv7StringBatchAvx2_wrote ssse3 hspec le_rfl mem
    obtain ⟨m₂, hscalar, hw₂⟩ := uuidv7StringBatchScalar_wrote ssse3 hspec le_rfl mem
    obtain rfl := hw.unique hw₁
    obtain rfl := hw.unique hw₂
    refine ⟨havx2', hscalar,
      fun host impl => stringBatch_of_agree _ _ host impl havx2' hscalar fun hzero => ?_,
      fun i hi buf => Vector.ext fun c hc => ?_⟩
    · rw [hzero] at hscalar
      exact (Option.some_inj.mp hscalar).symm
    · have hbyte : m (out + (i * 36 + c)) = _ :=
        ((hw _).1 ⟨by omega, by omega⟩).trans (hspec i hi c hc)
      rw [uuidv7Texts_of_getElem? (List.getElem?_eq_getElem hi), Uuidv7.bytes,
        ← hexEncodeLower_eq ssse3 buf ids[i].b, getD_toList _ hc] at hbyte
      rw [readBuffer, Vector.getElem_ofFn, show out + 36 * i + c = out + (i * 36 + c) by omega]
      exact hbyte
  · simp only [Set.mem_Ico]
    omega

end Chronoid
