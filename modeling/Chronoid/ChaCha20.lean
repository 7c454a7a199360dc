import Chronoid.Bytes
import Chronoid.Library.BlockStream

/-! The ChaCha20 block function, and its keystream as a stream of blocks. -/

namespace Chronoid

abbrev ChaChaState := Vector Word32 16

def rotl32 (x : Word32) (n : ℕ) : Word32 := x <<< n ||| x >>> (32 - n)

theorem word_lt (i : Fin 16) : i.val < 16 := i.isLt

def quarterStep (x : ChaChaState) (a b d : Fin 16) (n : ℕ) : ChaChaState :=
  let x := x.set a.val (x.get a + x.get b) (word_lt a)
  x.set d.val (rotl32 (x.get d ^^^ x.get a) n) (word_lt d)

def quarterRound (x : ChaChaState) (a b c d : Fin 16) : ChaChaState :=
  let x := quarterStep x a b d 16
  let x := quarterStep x c d b 12
  let x := quarterStep x a b d 8
  quarterStep x c d b 7

def doubleRound (x : ChaChaState) : ChaChaState :=
  let x := quarterRound x 0 4 8 12
  let x := quarterRound x 1 5 9 13
  let x := quarterRound x 2 6 10 14
  let x := quarterRound x 3 7 11 15
  let x := quarterRound x 0 5 10 15
  let x := quarterRound x 1 6 11 12
  let x := quarterRound x 2 7 8 13
  quarterRound x 3 4 9 14

@[irreducible] def chacha20Keystream (state : ChaChaState) : Vector Byte 64 :=
  let x := doubleRound^[10] state
  Vector.ofFn fun k : Fin 64 =>
    ((x[k.val / 4] + state[k.val / 4]) >>> (8 * (k.val % 4))).setWidth 8

def countUp (state : ChaChaState) (i : Fin 16) : ChaChaState :=
  state.set i.val (state.get i + 1#32) (word_lt i)

/-- The block counter counts up, and carries into the nonce. -/
@[irreducible] def chacha20Advance (state : ChaChaState) : ChaChaState :=
  let state := countUp state 12
  if state.get 12 = 0#32 then countUp state 13 else state

def chacha20Block (state : ChaChaState) : Vector Byte 64 × ChaChaState :=
  (chacha20Keystream state, chacha20Advance state)

def chacha : BlockStream.Generator ChaChaState Byte where
  block s := (chacha20Block s).1.toList
  advance s := (chacha20Block s).2
  size := 64
  size_pos := by decide
  length_block s := by simp

theorem chacha_block (s : ChaChaState) : chacha.block s = (chacha20Block s).1.toList := rfl

theorem chacha_advance (s : ChaChaState) : chacha.advance s = (chacha20Block s).2 := rfl

end Chronoid
