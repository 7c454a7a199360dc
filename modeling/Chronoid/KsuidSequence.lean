import Chronoid.KsuidCompare
import Chronoid.Library.Machine

/-! A KSUID sequence over its whole life: the identifiers with the seed's first 18
bytes, counted upwards once each, and then nothing. -/

namespace Chronoid

structure KsuidSequence where
  seed : Ksuid
  count : Word32
  deriving DecidableEq, Repr

theorem countHigh_lt : 18 < 20 := by decide
theorem countLow_lt : 19 < 20 := by decide

def ksuidSequenceApplyCount (id : Ksuid) (n : Word16) : Ksuid :=
  ⟨(id.b.set 18 ((n >>> 8).setWidth 8) countHigh_lt).set 19 (n.setWidth 8) countLow_lt⟩

def ksuidSequenceInit (seed : Ksuid) : KsuidSequence := ⟨seed, 0#32⟩

structure KsuidSequenceNextResult where
  err : KsuidErr
  seq : KsuidSequence
  out : Ksuid
  deriving DecidableEq, Repr

def ksuidSequenceNext (s : KsuidSequence) (out : Ksuid) : KsuidSequenceNextResult :=
  if s.count > 65535#32 then ⟨.errExhausted, s, out⟩
  else ⟨.ok, { s with count := s.count + 1#32 },
    ksuidSequenceApplyCount s.seed (s.count.setWidth 16)⟩

def ksuidSequenceBounds (s : KsuidSequence) : Ksuid × Ksuid :=
  let lo := if s.count > 65535#32 then 65535#32 else s.count
  (ksuidSequenceApplyCount s.seed (lo.setWidth 16), ksuidSequenceApplyCount s.seed 65535#16)

inductive KsuidSequenceCall where
  | next (out : Ksuid)
  | bounds

def KsuidSequenceCall.isNext : KsuidSequenceCall → Bool
  | .next _ => true
  | .bounds => false

def ksuidSequenceStep (s : KsuidSequence) : KsuidSequenceCall → KsuidSequence × Option Ksuid
  | .next out =>
    let r := ksuidSequenceNext s out
    (r.seq, if r.err = .ok then some r.out else none)
  | .bounds => (s, none)

theorem applyCount_bytes (id : Ksuid) (n : Word16) :
    (ksuidSequenceApplyCount id n).bytes =
      id.bytes.take 18 ++ [(n >>> 8).setWidth 8, n.setWidth 8] := by
  have hlen : id.b.toList.length = 20 := by simp
  refine List.ext_getElem (by simp) fun i h h' => ?_
  simp only [Ksuid.length_bytes] at h
  rcases (by omega : i < 18 ∨ i = 18 ∨ i = 19) with hi | rfl | rfl
  · rw [List.getElem_append_left (by simp [hi])]
    simp [ksuidSequenceApplyCount, Ksuid.bytes, show ¬18 = i by omega, show ¬19 = i by omega]
  · simp [ksuidSequenceApplyCount, Ksuid.bytes]
  · simp [ksuidSequenceApplyCount, Ksuid.bytes]

theorem countBytes_value (n : Word16) :
    bytesValue [(n >>> 8).setWidth 8, n.setWidth 8] = n.toNat := by
  have hn := n.isLt
  simp only [bytesValue_cons, bytesValue_nil, List.length_cons, List.length_nil,
    BitVec.toNat_setWidth, BitVec.toNat_ushiftRight, Nat.shiftRight_eq_div_pow]
  omega

theorem prefix_value (id : Ksuid) : bytesValue (id.bytes.take 18) = id.value / 2 ^ 16 := by
  rw [bytesValue_take, id.length_bytes, Ksuid.value]
  norm_num

theorem applyCount_value (id : Ksuid) (n : Word16) :
    (ksuidSequenceApplyCount id n).value = id.value / 2 ^ 16 * 2 ^ 16 + n.toNat := by
  rw [Ksuid.value, applyCount_bytes, bytesValue_append, countBytes_value, prefix_value]
  norm_num

theorem Ksuid.prefix_eq_iff (a c : Ksuid) :
    a.bytes.take 18 = c.bytes.take 18 ↔ a.value / 2 ^ 16 = c.value / 2 ^ 16 := by
  rw [← prefix_value, ← prefix_value]
  exact ⟨congrArg _, bytesValue_inj (by simp)⟩

def ksuidSequenceId (seed : Ksuid) (k : ℕ) : Ksuid :=
  ksuidSequenceApplyCount seed (BitVec.ofNat 16 k)

theorem sequenceId_bytes (seed : Ksuid) {k : ℕ} (hk : k < 65536) :
    (ksuidSequenceId seed k).bytes =
      seed.bytes.take 18 ++ [BitVec.ofNat 8 (k / 256), BitVec.ofNat 8 k] := by
  have hhigh : ((BitVec.ofNat 16 k) >>> 8).setWidth 8 = BitVec.ofNat 8 (k / 256) := by
    apply BitVec.eq_of_toNat_eq
    simp only [BitVec.toNat_setWidth, BitVec.toNat_ushiftRight, BitVec.toNat_ofNat,
      Nat.shiftRight_eq_div_pow]
    omega
  have hlow : (BitVec.ofNat 16 k).setWidth 8 = BitVec.ofNat 8 k := by
    apply BitVec.eq_of_toNat_eq
    simp only [BitVec.toNat_setWidth, BitVec.toNat_ofNat]
    omega
  rw [ksuidSequenceId, applyCount_bytes, hhigh, hlow]

theorem sequenceId_value (seed : Ksuid) {k : ℕ} (hk : k < 65536) :
    (ksuidSequenceId seed k).value = seed.value / 2 ^ 16 * 2 ^ 16 + k := by
  rw [ksuidSequenceId, applyCount_value, BitVec.toNat_ofNat, Nat.mod_eq_of_lt hk]

theorem Ksuid.prefix_eq_iff_sequenceId (id seed : Ksuid) :
    id.bytes.take 18 = seed.bytes.take 18 ↔ ∃ k < 65536, id = ksuidSequenceId seed k := by
  rw [Ksuid.prefix_eq_iff]
  constructor
  · intro h
    have hk : id.value % 2 ^ 16 < 65536 := Nat.mod_lt _ (by norm_num)
    refine ⟨id.value % 2 ^ 16, hk, Ksuid.value_inj ?_⟩
    rw [sequenceId_value seed hk, ← h, Nat.div_add_mod']
  · rintro ⟨k, hk, rfl⟩
    rw [sequenceId_value seed hk]
    omega

theorem sequenceId_compare (simd : Simd) (seed : Ksuid) {j k : ℕ} (hj : j < 65536)
    (hk : k < 65536) :
    ksuidCompare simd (ksuidSequenceId seed j) (ksuidSequenceId seed k) = signOf (compare j k) := by
  rw [ksuidCompare_value, sequenceId_value seed hj, sequenceId_value seed hk,
    Positional.compare_add_left]

theorem next_below {s : KsuidSequence} (h : s.count.toNat < 65536) (out : Ksuid) :
    ksuidSequenceNext s out =
      ⟨.ok, { s with count := s.count + 1#32 }, ksuidSequenceId s.seed s.count.toNat⟩ := by
  have hle : ¬s.count > 65535#32 := by
    rw [gt_iff_lt, BitVec.lt_def]
    exact Nat.not_lt.mpr (Nat.le_of_lt_succ h)
  have hcast : s.count.setWidth 16 = BitVec.ofNat 16 s.count.toNat := rfl
  rw [ksuidSequenceNext, if_neg hle, hcast, ksuidSequenceId]

theorem next_exhausted {s : KsuidSequence} (h : 65536 ≤ s.count.toNat) (out : Ksuid) :
    ksuidSequenceNext s out = ⟨.errExhausted, s, out⟩ := by
  have hgt : s.count > 65535#32 := by
    rw [gt_iff_lt, BitVec.lt_def]
    exact h
  rw [ksuidSequenceNext, if_pos hgt]

theorem bounds_below {s : KsuidSequence} (h : s.count.toNat < 65536) :
    ksuidSequenceBounds s =
      (ksuidSequenceId s.seed s.count.toNat, ksuidSequenceId s.seed 65535) := by
  have hle : ¬s.count > 65535#32 := by
    rw [gt_iff_lt, BitVec.lt_def]
    exact Nat.not_lt.mpr (Nat.le_of_lt_succ h)
  simp only [ksuidSequenceBounds, if_neg hle]
  rfl

theorem ksuidSequence_enumerates (seed : Ksuid) :
    Machine.Enumerates ksuidSequenceStep (fun s => s.seed = seed) (fun s => s.count.toNat)
      KsuidSequenceCall.isNext (ksuidSequenceId seed) 65536 where
  keeps s c hs := by
    cases c with
    | bounds => exact hs
    | next out =>
      rcases Nat.lt_or_ge s.count.toNat 65536 with h | h
      · simp only [ksuidSequenceStep, next_below h]
        exact hs
      · simp only [ksuidSequenceStep, next_exhausted h]
        exact hs
  emits s c hs hask hlt := by
    cases c with
    | bounds => cases hask
    | next out =>
      have hcount : (s.count + 1#32).toNat = s.count.toNat + 1 := by
        rw [BitVec.toNat_add]
        exact Nat.mod_eq_of_lt (by simp; omega)
      simp only [ksuidSequenceStep, next_below hlt, hs]
      exact ⟨rfl, hcount⟩
  silent s c hs hask := by
    cases c with
    | bounds => exact ⟨rfl, rfl⟩
    | next out =>
      have hge : 65536 ≤ s.count.toNat := Nat.le_of_not_lt fun hlt => hask ⟨rfl, hlt⟩
      simp [ksuidSequenceStep, next_exhausted hge]

theorem mem_remaining_iff (simd : Simd) (seed : Ksuid) {c : ℕ} (hc : c < 65536) (id : Ksuid) :
    id ∈ (List.range' c (65536 - c)).map (ksuidSequenceId seed) ↔
      id.bytes.take 18 = seed.bytes.take 18 ∧ ksuidCompare simd (ksuidSequenceId seed c) id ≠ 1 ∧
        ksuidCompare simd id (ksuidSequenceId seed 65535) ≠ 1 := by
  have hsign (o : Ordering) : signOf o ≠ 1 ↔ o ≠ .gt := by cases o <;> decide
  simp only [List.mem_map, List.mem_range'_1, Ksuid.prefix_eq_iff_sequenceId]
  constructor
  · rintro ⟨k, ⟨hlow, hhigh⟩, rfl⟩
    have hk : k < 65536 := by omega
    rw [sequenceId_compare simd seed hc hk, sequenceId_compare simd seed hk (by decide),
      hsign, hsign, Nat.compare_ne_gt, Nat.compare_ne_gt]
    exact ⟨⟨k, hk, rfl⟩, hlow, Nat.le_of_lt_succ hk⟩
  · rintro ⟨⟨k, hk, rfl⟩, hlow, -⟩
    rw [sequenceId_compare simd seed hc hk, hsign, Nat.compare_ne_gt] at hlow
    exact ⟨k, ⟨hlow, by omega⟩, rfl⟩

theorem run_seed (seed : Ksuid) (calls : List KsuidSequenceCall) :
    (Machine.run ksuidSequenceStep (ksuidSequenceInit seed) calls).1.seed = seed :=
  Machine.run_invariant (ksuidSequence_enumerates seed).keeps rfl calls

theorem run_count (seed : Ksuid) (calls : List KsuidSequenceCall) :
    (Machine.run ksuidSequenceStep (ksuidSequenceInit seed) calls).1.count.toNat =
      min (calls.countP KsuidSequenceCall.isNext) 65536 := by
  have hpos := (ksuidSequence_enumerates seed).pos_run (s := ksuidSequenceInit seed) rfl
    (Nat.zero_le _) calls
  exact hpos.trans (by rw [show (ksuidSequenceInit seed).count.toNat = 0 from rfl, Nat.zero_add])

theorem emitted_ids (seed : Ksuid) (calls : List KsuidSequenceCall) :
    Machine.emitted ksuidSequenceStep (ksuidSequenceInit seed) calls =
      (List.range (min (calls.countP KsuidSequenceCall.isNext) 65536)).map
        (ksuidSequenceId seed) := by
  have heq := (ksuidSequence_enumerates seed).emitted_eq (s := ksuidSequenceInit seed) rfl
    (Nat.zero_le _) calls
  rw [run_count] at heq
  rw [heq, List.range_eq_range']
  rfl

theorem remaining_ids (simd : Simd) {s : KsuidSequence} (h : s.count.toNat < 65536)
    {later : List KsuidSequenceCall}
    (hlater : 65536 ≤ s.count.toNat + later.countP KsuidSequenceCall.isNext) :
    (Machine.emitted ksuidSequenceStep s later).head? = some (ksuidSequenceBounds s).1 ∧
      (Machine.emitted ksuidSequenceStep s later).getLast? = some (ksuidSequenceBounds s).2 ∧
      ∀ id, id ∈ Machine.emitted ksuidSequenceStep s later ↔
        id.bytes.take 18 = s.seed.bytes.take 18 ∧
          ksuidCompare simd (ksuidSequenceBounds s).1 id ≠ 1 ∧
          ksuidCompare simd id (ksuidSequenceBounds s).2 ≠ 1 := by
  have henum := ksuidSequence_enumerates s.seed
  have hend : (Machine.run ksuidSequenceStep s later).1.count.toNat = 65536 := by
    rw [henum.pos_run rfl h.le]
    exact Nat.min_eq_right hlater
  have hrest : Machine.emitted ksuidSequenceStep s later =
      (List.range' s.count.toNat (65536 - s.count.toNat)).map (ksuidSequenceId s.seed) := by
    have heq := henum.emitted_eq rfl h.le later
    rwa [hend] at heq
  rw [hrest, bounds_below h]
  refine ⟨?_, ?_, mem_remaining_iff simd s.seed h⟩
  · rw [List.head?_map, List.head?_range', if_neg (by omega)]
    rfl
  · rw [List.getLast?_map, List.getLast?_range', if_neg (by omega),
      show s.count.toNat + (65536 - s.count.toNat) - 1 = 65535 by omega]
    rfl

/-- After any calls, the next one emits the identifier its number asks for as long as there
is one, and afterwards nothing changes; what has been emitted is the first identifiers in
increasing order, and what will be is what lies between the bounds. -/
theorem ksuid_sequence_whole_run (simd : Simd) (seed : Ksuid) (calls : List KsuidSequenceCall) :
    let s := (Machine.run ksuidSequenceStep (ksuidSequenceInit seed) calls).1
    let ids := Machine.emitted ksuidSequenceStep (ksuidSequenceInit seed) calls
    let count := calls.countP KsuidSequenceCall.isNext
    let bounds := ksuidSequenceBounds s
    (∀ out, if count < 65536 then
        (ksuidSequenceNext s out).err = .ok ∧ (ksuidSequenceNext s out).out.bytes =
          seed.bytes.take 18 ++ [BitVec.ofNat 8 (count / 256), BitVec.ofNat 8 count]
      else ksuidSequenceNext s out = ⟨.errExhausted, s, out⟩) ∧
    ids.map Ksuid.bytes = (List.range (min count 65536)).map (fun k =>
      seed.bytes.take 18 ++ [BitVec.ofNat 8 (k / 256), BitVec.ofNat 8 k]) ∧
    ids.Pairwise (fun a c => ksuidCompare simd a c = -1) ∧
    (count < 65536 → (∀ out, (ksuidSequenceNext s out).out = bounds.1) ∧
      ∀ later, 65536 ≤ count + later.countP KsuidSequenceCall.isNext →
        let rest := Machine.emitted ksuidSequenceStep s later
        rest.head? = some bounds.1 ∧ rest.getLast? = some bounds.2 ∧
          ∀ id, id ∈ rest ↔ id.bytes.take 18 = seed.bytes.take 18 ∧
            ksuidCompare simd bounds.1 id ≠ 1 ∧ ksuidCompare simd id bounds.2 ≠ 1) := by
  intro s ids count bounds
  have hseed : s.seed = seed := run_seed seed calls
  have hcount : s.count.toNat = min count 65536 := run_count seed calls
  have hids : ids = (List.range (min count 65536)).map (ksuidSequenceId seed) :=
    emitted_ids seed calls
  have hbelow {k : ℕ} (hk : k ∈ List.range (min count 65536)) : k < 65536 := by
    rw [List.mem_range] at hk
    omega
  refine ⟨fun out => ?_, ?_, ?_, fun hlt => ⟨fun out => ?_, fun later hlater => ?_⟩⟩
  · split_ifs with hlt
    · have hs : s.count.toNat = count := by omega
      rw [next_below (by omega), hs, hseed]
      exact ⟨rfl, sequenceId_bytes seed hlt⟩
    · exact next_exhausted (by omega) out
  · rw [hids, List.map_map]
    exact List.map_congr_left fun k hk => sequenceId_bytes seed (hbelow hk)
  · rw [hids, List.pairwise_map]
    refine List.pairwise_lt_range.imp_of_mem fun hj hk hjk => ?_
    rw [sequenceId_compare simd seed (hbelow hj) (hbelow hk), Nat.compare_eq_lt.mpr hjk]
    rfl
  · have hs : s.count.toNat < 65536 := by omega
    simp only [bounds, next_below hs, bounds_below hs]
  · have hremaining := @remaining_ids simd s (by omega) later (by omega)
    rwa [hseed] at hremaining

end Chronoid
