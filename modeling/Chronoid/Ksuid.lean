import Chronoid.Bytes

/-! The 20-byte KSUID and its error codes. -/

namespace Chronoid

structure Ksuid where
  b : Vector Byte 20
  deriving DecidableEq, Repr

inductive KsuidErr where
  | ok
  | errSize
  | errStrSize
  | errStrValue
  | errPayloadSize
  | errRng
  | errExhausted
  | errTimeRange
  deriving DecidableEq, Repr

def Ksuid.bytes (id : Ksuid) : List Byte := id.b.toList

@[simp] theorem Ksuid.length_bytes (id : Ksuid) : id.bytes.length = 20 := by simp [Ksuid.bytes]

def Ksuid.value (id : Ksuid) : ℕ := bytesValue id.bytes

theorem Ksuid.value_lt (id : Ksuid) : id.value < 2 ^ 160 := by
  have hh := bytesValue_lt id.bytes
  rwa [id.length_bytes, show 256 ^ 20 = 2 ^ 160 by norm_num] at hh

theorem Ksuid.value_inj {a c : Ksuid} (h : a.value = c.value) : a = c := by
  obtain ⟨a⟩ := a
  obtain ⟨c⟩ := c
  exact congrArg _ (Vector.toList_inj.mp (bytesValue_inj (by simp) h))

end Chronoid
