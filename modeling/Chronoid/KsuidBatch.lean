import Chronoid.Avx2Lanes
import Chronoid.KsuidText
import Chronoid.Library.Store

/-! Bulk encoding of KSUIDs: the scalar loop, and the AVX2 kernel that divides the
numbers of eight identifiers at once, a lane to each. -/

namespace Chronoid

open Positional (value fixed)

abbrev Memory := ℕ → Byte

def ksuidFormatAt (id : Ksuid) (out : ℕ) (mem : Memory) : Option Memory :=
  (ksuidFormat id (readBuffer 27 fun i => mem (out + i))).map fun text =>
    Store.writeList mem out text.toList

def ksuidStringBatchScalar (ids : List Ksuid) (out n : ℕ) (mem : Memory) : Option Memory :=
  (List.range n).foldlM (fun mem i => ids[i]?.bind fun id =>
    ksuidFormatAt id (out + i * 27) mem) mem

/-- The kernel's own copy of the alphabet, zero-filled to 64. -/
def kAvx2B62Alphabet : List Byte := kB62Alphabet ++ [0#8]

/-- Eight consecutive identifiers; reading past the array has no value. -/
def loadGroup (ids : List Ksuid) (base : ℕ) : Option (Vector Ksuid 8) :=
  if h : base + 8 ≤ ids.length then some (Vector.ofFn fun lane => ids[base + lane.val]) else none

def packLimbs (group : Vector Ksuid 8) (off : ℕ) (h : off + 4 ≤ 8) : List M256i :=
  List.ofFn fun j : Fin 5 => Vector.ofFn fun lane : Fin 4 =>
    (be32Load group[off + lane.val].b (j.val * 4) (by omega)).setWidth 64

def batchMag : M256i := mm256Set1Epi64x ksuidDiv62M

/-- One limb of the inner loop over a pack: the quotients so far and the remainder. -/
def divLimb (acc : List M256i × M256i) (limb : M256i) : List M256i × M256i :=
  let r := ksuidDivmod62Avx2 (mm256OrSi256 limb (mm256SlliEpi64 acc.2 32)) batchMag
  (acc.1 ++ [r.1], r.2)

def divPass (limbs : List M256i) : List M256i × M256i :=
  limbs.foldl divLimb ([], mm256SetzeroSi256)

def scatter (out base col : ℕ) (rems : Vector Word64 8) (mem : Memory) : Option Memory :=
  (List.finRange 8).foldlM (fun mem lane => (kAvx2B62Alphabet[rems[lane].toNat]?).map fun c =>
    Function.update mem (out + ((base + lane.val) * 27 + col)) c) mem

def columnLoop (out base : ℕ) : ℕ → List M256i → List M256i → Memory → Option Memory
  | 0, _, _, mem => some mem
  | col + 1, lo, hi, mem =>
    let rlo := divPass lo
    let rhi := divPass hi
    (scatter out base col (rlo.2 ++ rhi.2) mem).bind fun mem =>
      columnLoop out base col rlo.1 rhi.1 mem

/-- `bulk` is `n & ~7`. -/
def ksuidStringBatchAvx2 (ids : List Ksuid) (out n : ℕ) (mem : Memory) : Option Memory :=
  let bulk := n - n % 8
  ((List.range (bulk / 8)).foldlM (fun mem i => (loadGroup ids (8 * i)).bind fun group =>
      columnLoop out (8 * i) 27 (packLimbs group 0 (by decide)) (packLimbs group 4 (by decide))
        mem) mem).bind fun mem =>
    if bulk < n then ksuidStringBatchScalar (ids.drop bulk) (out + bulk * 27) (n - bulk) mem
    else some mem

def lane (k : Fin 4) (limbs : List M256i) : List ℕ := limbs.map fun limb => limb[k].toNat

theorem lane_append (k : Fin 4) (xs ys : List M256i) : lane k (xs ++ ys) = lane k xs ++ lane k ys :=
  List.map_append

theorem orLane {limb rem : Word64} (hlimb : limb.toNat < 2 ^ 32) (hrem : rem.toNat < 62) :
    (limb ||| rem <<< 32).toNat = limb.toNat + rem.toNat * 2 ^ 32 := by
  rw [BitVec.toNat_or, BitVec.toNat_shiftLeft, Nat.mod_eq_of_lt (by rw [Nat.shiftLeft_eq]; omega),
    Nat.or_comm, ← Nat.shiftLeft_add_eq_or_of_lt hlimb, Nat.shiftLeft_eq, Nat.add_comm]

def laneState (k : Fin 4) (acc : List M256i × M256i) : List ℕ × ℕ := (lane k acc.1, acc.2[k].toNat)

theorem laneState_divLimb (k : Fin 4) {acc : List M256i × M256i} {limb : M256i}
    (hlimb : limb[k].toNat < 2 ^ 32) (hrem : acc.2[k].toNat < 62) :
    laneState k (divLimb acc limb) =
      Positional.fixedDivStep (2 ^ 32) 62 (laneState k acc) limb[k].toNat := by
  obtain ⟨hquot, hmod⟩ := ksuidDivmod62Avx2_getElem
    (mm256OrSi256 limb (mm256SlliEpi64 acc.2 32)) k.isLt
  have hvalue : (mm256OrSi256 limb (mm256SlliEpi64 acc.2 32))[k.val].toNat =
      limb[k].toNat + acc.2[k].toNat * 2 ^ 32 := by
    rw [← orLane hlimb hrem]
    simp [mm256OrSi256, mm256SlliEpi64]
  rw [hvalue] at hquot hmod
  simp only [laneState, divLimb, batchMag, lane_append, Positional.fixedDivStep, Prod.mk.injEq]
  exact ⟨congrArg (fun q => lane k acc.1 ++ [q]) hquot, hmod⟩

theorem laneState_divPass_eq_foldl (k : Fin 4) {limbs : List M256i}
    (h : ∀ d ∈ lane k limbs, d < 2 ^ 32) :
    laneState k (divPass limbs) =
      (lane k limbs).foldl (Positional.fixedDivStep (2 ^ 32) 62) ([], 0) := by
  induction limbs using List.reverseRecOn with
  | nil => simp [divPass, laneState, lane, mm256SetzeroSi256]
  | append_singleton limbs limb ih =>
    rw [lane_append] at h ⊢
    have hlimb : limb[k].toNat < 2 ^ 32 := h _ (List.mem_append_right _ (by simp [lane]))
    have hlimbs : ∀ d ∈ lane k limbs, d < 2 ^ 32 := fun d hd => h d (List.mem_append_left _ hd)
    have hrem : (divPass limbs).2[k].toNat < 62 := by
      have hh := ih hlimbs
      rw [Positional.foldl_fixedDivStep (by decide) (by decide) hlimbs] at hh
      rw [show (divPass limbs).2[k].toNat = _ from (Prod.mk.inj hh).2]
      exact Nat.mod_lt _ (by decide)
    rw [divPass, List.foldl_concat, ← divPass, laneState_divLimb k hlimb hrem, ih hlimbs,
      List.foldl_append]
    rfl

/-- What a pack holds: lane `k` the five limbs of the number `v k`. -/
def Holds (v : Fin 4 → ℕ) (limbs : List M256i) : Prop :=
  ∀ k, limbs.length = 5 ∧ (∀ d ∈ lane k limbs, d < 2 ^ 32) ∧ value (2 ^ 32) (lane k limbs) = v k

theorem Holds.divPass {v : Fin 4 → ℕ} {limbs : List M256i} (h : Holds v limbs) :
    Holds (fun k => v k / 62) (divPass limbs).1 ∧ ∀ k, (divPass limbs).2[k].toNat = v k % 62 := by
  have hstate (k : Fin 4) : laneState k (Chronoid.divPass limbs) =
      (fixed (2 ^ 32) 5 (v k / 62), v k % 62) := by
    obtain ⟨hlen, hlt, hvalue⟩ := h k
    rw [laneState_divPass_eq_foldl k hlt,
      Positional.foldl_fixedDivStep (by decide) (by decide) hlt, hvalue, lane,
      List.length_map, hlen]
  refine ⟨fun k => ?_, fun k => (Prod.mk.inj (hstate k)).2⟩
  have hlane : lane k (Chronoid.divPass limbs).1 = fixed (2 ^ 32) 5 (v k / 62) :=
    (Prod.mk.inj (hstate k)).1
  have hroom : v k / 62 < (2 ^ 32) ^ 5 := by
    obtain ⟨hlen, hlt, hvalue⟩ := h k
    have hh := Positional.value_lt (by decide) hlt
    rw [hvalue, lane, List.length_map, hlen] at hh
    exact (Nat.div_le_self _ _).trans_lt hh
  refine ⟨?_, ?_, ?_⟩
  · simpa [lane] using congrArg List.length hlane
  · rw [hlane]
    exact fun d hd => Positional.fixed_lt (by decide) hd
  · rw [hlane, Positional.value_fixed, Nat.mod_eq_of_lt hroom]

theorem holds_packLimbs (group : Vector Ksuid 8) (off : ℕ) (h : off + 4 ≤ 8) :
    Holds (fun k => group[off + k.val].value) (packLimbs group off h) := by
  intro k
  have hlane : lane k (packLimbs group off h) =
      (payloadLimbs group[off + k.val].b).map BitVec.toNat := by
    have hwide (x : Word32) : (x.setWidth 64).toNat = x.toNat := by bv_omega
    simp [lane, packLimbs, payloadLimbs, List.ofFn_succ, hwide, -BitVec.toNat_setWidth]
  refine ⟨by simp [packLimbs], ?_, ?_⟩
  · rw [hlane]
    exact toNat_lt_of_mem
  · rw [hlane, value_payloadLimbs]
    rfl

end Chronoid
