import Chronoid.HexEncode

/-! The AVX2 hexadecimal pass: the SSSE3 encoder's steps in each 128-bit lane of a 256-bit
register, a UUID to a lane. -/

namespace Chronoid

/-- A 256-bit register as its two 128-bit lanes of bytes, the low one first in memory. The
byte shuffles and interleaves work inside a lane. -/
structure M256 where
  low : M128
  high : M128

def M256.lanewise (f : M128 → M128 → M128) (a b : M256) : M256 := ⟨f a.low b.low, f a.high b.high⟩

def mm256LoaduSi256 (p : Vector Byte 32) : M256 :=
  ⟨Vector.ofFn fun i => p[i.val], Vector.ofFn fun i => p[16 + i.val]⟩
def mm256Broadcastsi128Si256 (a : M128) : M256 := ⟨a, a⟩
def mm256Set1Epi8 (x : Byte) : M256 := ⟨mmSet1Epi8 x, mmSet1Epi8 x⟩
def mm256AndSi256Bytes (a b : M256) : M256 := a.lanewise mmAndSi128 b
def mm256SrliEpi16 (a : M256) (count : ℕ) : M256 :=
  ⟨mmSrliEpi16 a.low count, mmSrliEpi16 a.high count⟩
def mm256ShuffleEpi8 (a idx : M256) : M256 := a.lanewise mmShuffleEpi8 idx
def mm256UnpackloEpi8 (a b : M256) : M256 := a.lanewise mmUnpackloEpi8 b
def mm256UnpackhiEpi8 (a b : M256) : M256 := a.lanewise mmUnpackhiEpi8 b
def mm256Castsi256Si128 (a : M256) : M128 := a.low
def mm256Extracti128Si256 (a : M256) (imm : Bool) : M128 := if imm then a.high else a.low

def uuidv7Hex32Avx2 (out64 : Vector Byte 64) (in32 : Vector Byte 32) : Vector Byte 64 :=
  let v := mm256LoaduSi256 in32
  let lut := mm256Broadcastsi128Si256 kHexLowerLut
  let maskLow := mm256Set1Epi8 0x0F#8
  let hiNibbles := mm256AndSi256Bytes (mm256SrliEpi16 v 4) maskLow
  let loNibbles := mm256AndSi256Bytes v maskLow
  let asciiHi := mm256ShuffleEpi8 lut hiNibbles
  let asciiLo := mm256ShuffleEpi8 lut loNibbles
  let loHalf := mm256UnpackloEpi8 asciiHi asciiLo
  let hiHalf := mm256UnpackhiEpi8 asciiHi asciiLo
  let out64 := memcpyAt out64 0 (mm256Castsi256Si128 loHalf) 0 16
  let out64 := memcpyAt out64 16 (mm256Castsi256Si128 hiHalf) 0 16
  let out64 := memcpyAt out64 32 (mm256Extracti128Si256 loHalf true) 0 16
  memcpyAt out64 48 (mm256Extracti128Si256 hiHalf true) 0 16

/-- The splice mirrors that of the SSSE3 encoder; `hex32` is read through a pointer. -/
def uuidv7DashSplice (out36 : Vector Byte 36) (hex32 : ℕ → Byte) : Vector Byte 36 :=
  spliceHyphens out36 (Vector.ofFn fun i => hex32 i)

def hexDigits (v : M128) : Vector Byte 32 :=
  let maskLow := mmSet1Epi8 0x0F#8
  let asciiHi := mmShuffleEpi8 kHexLowerLut (mmAndSi128 (mmSrliEpi16 v 4) maskLow)
  let asciiLo := mmShuffleEpi8 kHexLowerLut (mmAndSi128 v maskLow)
  mmUnpackloEpi8 asciiHi asciiLo ++ mmUnpackhiEpi8 asciiHi asciiLo

theorem hexEncodeLowerSsse3_eq (out : Vector Byte 36) (v : M128) :
    hexEncodeLowerSsse3 out v = spliceHyphens out (hexDigits v) := rfl

theorem mm256LoaduSi256_append (a b : M128) : mm256LoaduSi256 (a ++ b) = ⟨a, b⟩ := by
  have hlow : (mm256LoaduSi256 (a ++ b)).low = a := by
    ext1 i hi
    rw [mm256LoaduSi256, Vector.getElem_ofFn]
    exact Vector.getElem_append_left hi
  have hhigh : (mm256LoaduSi256 (a ++ b)).high = b := by
    ext1 i hi
    rw [mm256LoaduSi256, Vector.getElem_ofFn]
    refine (Vector.getElem_append_right (by omega) (Nat.le_add_right 16 i)).trans ?_
    simp only [Nat.add_sub_cancel_left]
  calc mm256LoaduSi256 (a ++ b)
    _ = ⟨(mm256LoaduSi256 (a ++ b)).low, (mm256LoaduSi256 (a ++ b)).high⟩ := rfl
    _ = ⟨a, b⟩ := by rw [hlow, hhigh]

theorem four_stores (out64 : Vector Byte 64) (a b c d : M128) :
    memcpyAt (memcpyAt (memcpyAt (memcpyAt out64 0 a 0 16) 16 b 0 16) 32 c 0 16) 48 d 0 16 =
      (a ++ b) ++ (c ++ d) := by
  ext1 p hp
  rcases (by omega : p < 16 ∨ (16 ≤ p ∧ p < 32) ∨ (32 ≤ p ∧ p < 48) ∨ 48 ≤ p) with h | h | h | h
  · rw [memcpyAt_out _ _ _ hp (by omega), memcpyAt_out _ _ _ hp (by omega),
      memcpyAt_out _ _ _ hp (by omega), memcpyAt_in _ _ _ hp (by omega) (by omega),
      getD_toList _ (by omega), Vector.getElem_append_left (by omega), Vector.getElem_append_left h]
    simp only [Nat.zero_add, Nat.sub_zero]
  · rw [memcpyAt_out _ _ _ hp (by omega), memcpyAt_out _ _ _ hp (by omega),
      memcpyAt_in _ _ _ hp (by omega) (by omega), getD_toList _ (by omega),
      Vector.getElem_append_left (by omega), Vector.getElem_append_right (by omega) (by omega)]
    simp only [Nat.zero_add]
  · rw [memcpyAt_out _ _ _ hp (by omega), memcpyAt_in _ _ _ hp (by omega) (by omega),
      getD_toList _ (by omega), Vector.getElem_append_right (by omega) (by omega),
      Vector.getElem_append_left (by omega)]
    simp only [Nat.zero_add]
  · rw [memcpyAt_in _ _ _ hp (by omega) (by omega), getD_toList _ (by omega),
      Vector.getElem_append_right (by omega) (by omega),
      Vector.getElem_append_right (by omega) (by omega)]
    simp only [Nat.zero_add, Nat.sub_sub]

theorem uuidv7Hex32Avx2_append (out64 : Vector Byte 64) (a b : M128) :
    uuidv7Hex32Avx2 out64 (a ++ b) = hexDigits a ++ hexDigits b := by
  simp only [uuidv7Hex32Avx2, mm256LoaduSi256_append, four_stores]
  rfl

theorem uuidv7DashSplice_eq (out36 : Vector Byte 36) {hex32 : ℕ → Byte} {digits : Vector Byte 32}
    (h : ∀ i < 32, hex32 i = digits.toList.getD i 0#8) :
    uuidv7DashSplice out36 hex32 = spliceHyphens out36 digits := by
  have hdigits : Vector.ofFn (fun i : Fin 32 => hex32 i) = digits := by
    ext1 i hi
    rw [Vector.getElem_ofFn, h i hi, getD_toList _ hi]
  rw [uuidv7DashSplice, hdigits]

end Chronoid
