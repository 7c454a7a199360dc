import Chronoid.KsuidCompare
import Chronoid.KsuidNew

/-! Reading the time and the payload of a KSUID back. The bytes are a pair of them, and byte
order is the order of the pairs. -/

namespace Chronoid

theorem timestamp_le : 0 + 4 ≤ 20 := by decide

def ksuidTimestamp (id : Ksuid) : Word32 := be32Load id.b 0 timestamp_le

def ksuidTimeUnix (id : Ksuid) : Word64 := (ksuidTimestamp id).setWidth 64 + ksuidEpochSeconds

def ksuidPayload (id : Ksuid) : Vector Byte 16 := Vector.ofFn fun i => id.b[4 + i.val]

/-- The order of times, and within one second that of the payload bytes. -/
def ksuidPartsOrder (a b : Ksuid) : Ordering :=
  (compare (ksuidTimeUnix a).toInt (ksuidTimeUnix b).toInt).then
    (List.compareLex compare ((ksuidPayload a).toList.map BitVec.toNat)
      ((ksuidPayload b).toList.map BitVec.toNat))

variable {a b id : Ksuid} {t : Word64}

theorem toList_ksuidPayload (id : Ksuid) : (ksuidPayload id).toList = id.bytes.drop 4 := by
  apply List.ext_getElem
  · simp
  · intro i hi _
    simp [ksuidPayload, Ksuid.bytes]

theorem toNat_ksuidTimestamp (id : Ksuid) :
    (ksuidTimestamp id).toNat = bytesValue (id.bytes.take 4) := by
  have hhead : id.bytes.take 4 = [id.b[0], id.b[0 + 1], id.b[0 + 2], id.b[0 + 3]] := by
    apply List.ext_getElem
    · simp
    · intro i hi _
      have hi : i < 4 := by
        rw [List.length_take] at hi
        omega
      rcases (by omega : i = 0 ∨ i = 1 ∨ i = 2 ∨ i = 3) with rfl | rfl | rfl | rfl <;>
        simp [Ksuid.bytes]
  rw [ksuidTimestamp, toNat_be32Load, hhead]

theorem toInt_ksuidTimeUnix (id : Ksuid) :
    (ksuidTimeUnix id).toInt = (ksuidTimestamp id).toNat + 1400000000 := by
  have hlt := (ksuidTimestamp id).isLt
  have hnat : (ksuidTimeUnix id).toNat = (ksuidTimestamp id).toNat + 1400000000 := by
    rw [ksuidTimeUnix, ksuidEpochSeconds, BitVec.toNat_add, BitVec.toNat_setWidth,
      BitVec.toNat_ofNat]
    omega
  rw [BitVec.toInt_eq_toNat_of_lt (by omega), hnat]
  rfl

theorem ksuidTimeUnix_inRange (id : Ksuid) : KsuidTimeInRange (ksuidTimeUnix id).toInt := by
  have hlt := (ksuidTimestamp id).isLt
  rw [toInt_ksuidTimeUnix, KsuidTimeInRange]
  omega

theorem Ksuid.ext_parts (htime : ksuidTimestamp a = ksuidTimestamp b)
    (hpayload : ksuidPayload a = ksuidPayload b) : a = b := by
  have hhead : a.bytes.take 4 = b.bytes.take 4 := by
    apply bytesValue_inj (by simp)
    rw [← toNat_ksuidTimestamp, htime, toNat_ksuidTimestamp]
  have htail : a.bytes.drop 4 = b.bytes.drop 4 := by
    rw [← toList_ksuidPayload, hpayload, toList_ksuidPayload]
  apply Ksuid.value_inj
  rw [Ksuid.value, Ksuid.value, ← List.take_append_drop 4 a.bytes, hhead, htail,
    List.take_append_drop]

theorem bytesValue_be32Store (v : Word32) : bytesValue (be32Store v).toList = v.toNat := by
  have hlt := v.isLt
  simp only [be32Store, Vector.toList_mk, bytesValue_cons, bytesValue_nil, List.length_cons,
    List.length_nil, BitVec.toNat_setWidth, BitVec.toNat_ushiftRight, Nat.shiftRight_eq_div_pow]
  omega

theorem bytes_memcpyAt_parts (out : Ksuid) (head : Vector Byte 4) (payload : Vector Byte 16) :
    (Ksuid.mk (memcpyAt (memcpyAt out.b 0 head 0 4) 4 payload 0 16)).bytes =
      head.toList ++ payload.toList := by
  apply List.ext_getElem
  · simp
  · intro i hi _
    have hi : i < 20 := by simpa using hi
    simp only [Ksuid.bytes, Vector.getElem_toList]
    by_cases hlow : i < 4
    · rw [memcpyAt_out _ _ _ hi (.inl hlow), memcpyAt_in _ _ _ hi (by omega) (by omega),
        List.getElem_append_left (by simpa using hlow)]
      simp [hlow]
    · rw [memcpyAt_in _ _ _ hi (by omega) (by omega),
        List.getElem_append_right (by simpa using hlow)]
      have htail : i - 4 < 16 := by omega
      simp [htail]

theorem fromParts_made (out : Ksuid) (payload : Vector Byte 16) (ht : KsuidTimeInRange t.toInt) :
    ∃ id, ksuidFromParts out t payload = ⟨.ok, id, false⟩ ∧ ksuidTimeUnix id = t ∧
      ksuidPayload id = payload := by
  have hno : BitVec.ssubOverflow t ksuidEpochSeconds = false := by
    rw [ssubOverflow_epoch_iff]
    have hlow := ht.1
    omega
  rw [ksuidFromParts, if_neg (by simp)]
  simp only [if_neg (mt (corrected_out_iff t).mp (not_not.mpr ht)), hno]
  refine ⟨_, rfl, ?_, ?_⟩
  · have hbytes :=
      bytes_memcpyAt_parts out (be32Store ((t - ksuidEpochSeconds).setWidth 32)) payload
    generalize Ksuid.mk _ = id at *
    apply BitVec.eq_of_toInt_eq
    rw [toInt_ksuidTimeUnix, toNat_ksuidTimestamp, hbytes, List.take_left' (by simp),
      bytesValue_be32Store]
    have hepoch : ksuidEpochSeconds.toNat = 1400000000 := by decide
    have hnat : t.toInt = t.toNat := by
      apply BitVec.toInt_eq_toNat_of_lt
      have hmsb := BitVec.toInt_eq_toNat_cond t
      have hlow := ht.1
      split_ifs at hmsb <;> omega
    rw [KsuidTimeInRange, hnat] at ht
    rw [BitVec.toNat_setWidth, BitVec.toNat_sub, hepoch, hnat]
    omega
  · apply Vector.toList_inj.mp
    rw [toList_ksuidPayload, bytes_memcpyAt_parts, List.drop_left' (by simp)]

theorem compare_toInt_ksuidTimeUnix (a b : Ksuid) :
    compare (ksuidTimeUnix a).toInt (ksuidTimeUnix b).toInt =
      compare (ksuidTimestamp a).toNat (ksuidTimestamp b).toNat := by
  rw [toInt_ksuidTimeUnix, toInt_ksuidTimeUnix]
  rcases Nat.lt_trichotomy (ksuidTimestamp a).toNat (ksuidTimestamp b).toNat with h | h | h
  · rw [compare_lt_iff_lt.mpr h, compare_lt_iff_lt]
    omega
  · rw [compare_eq_iff_eq.mpr h, compare_eq_iff_eq]
    omega
  · rw [compare_gt_iff_gt.mpr h, compare_gt_iff_gt]
    omega

theorem ksuidCompare_parts (simd : Simd) (a b : Ksuid) :
    ksuidCompare simd a b = signOf (ksuidPartsOrder a b) := by
  rw [ksuidCompare_eq, ksuidPartsOrder, compare_toInt_ksuidTimeUnix,
    ← memcmp_eq_compareLex (by simp), toNat_ksuidTimestamp, toNat_ksuidTimestamp,
    toList_ksuidPayload, toList_ksuidPayload, ← memcmp_eq_compare (by simp),
    ← memcmp_append (by simp), List.take_append_drop, List.take_append_drop]

/-- KSUIDs are the pairs of a time in range and a payload, in the order of the pairs. -/
theorem ksuid_layout :
    (∀ (out : Ksuid) (t : Word64) (payload : Vector Byte 16), KsuidTimeInRange t.toInt →
      ∃ id, ksuidFromParts out t payload = ⟨.ok, id, false⟩ ∧ ksuidTimeUnix id = t ∧
        ksuidPayload id = payload) ∧
    (∀ out id : Ksuid, KsuidTimeInRange (ksuidTimeUnix id).toInt ∧
      ksuidFromParts out (ksuidTimeUnix id) (ksuidPayload id) = ⟨.ok, id, false⟩) ∧
    (∀ simd a b, ksuidCompare simd a b = signOf (ksuidPartsOrder a b)) ∧
    ∀ simd a b, (ksuidTimeUnix a).toInt < (ksuidTimeUnix b).toInt → ksuidCompare simd a b = -1 := by
  refine ⟨fun out t payload ht => fromParts_made out payload ht, fun out id => ?_,
    ksuidCompare_parts, ?_⟩
  · have hrange := ksuidTimeUnix_inRange id
    obtain ⟨id', hmade, htime, hpayload⟩ := fromParts_made out (ksuidPayload id) hrange
    have hstamp : ksuidTimestamp id' = ksuidTimestamp id := by
      have hint := congrArg BitVec.toInt htime
      rw [toInt_ksuidTimeUnix, toInt_ksuidTimeUnix] at hint
      apply BitVec.eq_of_toNat_eq
      omega
    obtain rfl := Ksuid.ext_parts hstamp hpayload
    exact ⟨hrange, hmade⟩
  · intro simd a b h
    rw [ksuidCompare_parts, ksuidPartsOrder, compare_lt_iff_lt.mpr h]
    rfl

/-- The last second of the range, above every time that is negative as a 32-bit number. -/
theorem ksuid_layout_last_second :
    ∃ id, ksuidFromParts ⟨Vector.replicate 20 0#8⟩ 5694967295#64 (Vector.replicate 16 0xFF#8) =
        ⟨.ok, id, false⟩ ∧
      ksuidTimeUnix id = 5694967295#64 ∧ ksuidPayload id = Vector.replicate 16 0xFF#8 :=
  ksuid_layout.1 _ _ _ (by decide)

end Chronoid
