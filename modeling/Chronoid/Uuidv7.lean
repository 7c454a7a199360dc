import Chronoid.Bytes

/-! UUIDv7 values, their ordering and the random draws their generators make. -/

namespace Chronoid

structure Uuidv7 where
  b : Vector Byte 16
  deriving DecidableEq, Repr

inductive Uuidv7Err where
  | ok
  | errSize
  | errStrSize
  | errStrValue
  | errRng
  | errTimeRange
  deriving DecidableEq, Repr

def Uuidv7.bytes (id : Uuidv7) : List Byte := id.b.toList

@[simp] theorem Uuidv7.length_bytes (id : Uuidv7) : id.bytes.length = 16 := by simp [Uuidv7.bytes]

/-- Only the sign of the C result is specified, so the model returns the sign. -/
def uuidv7Compare (a b : Uuidv7) : Ordering := memcmp a.bytes b.bytes

theorem uuidv7Compare_lt_iff {a b : Uuidv7} :
    uuidv7Compare a b = .lt ↔ bytesValue a.bytes < bytesValue b.bytes :=
  memcmp_lt_iff (by simp)

theorem uuidv7Compare_ne_of_lt {a b : Uuidv7} (h : uuidv7Compare a b = .lt) : a ≠ b := by
  rintro rfl
  simp [uuidv7Compare, memcmp_self] at h

def uuidv7MaxUnixMs : Int := 2 ^ 48 - 1

/-- What one `chronoid_internal_fill_random` call does: its return code, zero for
success, and the bytes it leaves in the buffer, which it may scribble on failure too. -/
structure Fill where
  ret : Int
  bytes : ℕ → Byte

def Fill.buf (f : Fill) (n : ℕ) : Vector Byte n := Vector.ofFn fun i => f.bytes i

abbrev RandomSource := ℕ → Fill

end Chronoid
