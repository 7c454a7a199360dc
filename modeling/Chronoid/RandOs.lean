import Chronoid.Bytes

/-! The entropy sources of a POSIX system, tried one after the other. The system answers from
tapes, one a system call, and a call that outlives its tape has not returned. -/

namespace Chronoid

inductive Errno where
  | eintr
  | other (code : ℕ)
  deriving DecidableEq

/-- What `getrandom` or `read` returns: -1 with an error, or the number of bytes written. -/
inductive IoAnswer where
  | error (e : Errno)
  | count (k : ℕ)
  deriving DecidableEq

def IoAnswer.Fits (want : ℕ) : IoAnswer → Prop
  | .error _ => True
  | .count k => k ≤ want

/-- An answer, by the number of bytes that is asked for. -/
structure IoReply where
  answer : ℕ → IoAnswer
  fits : ∀ want, (answer want).Fits want

inductive Source where
  | getrandom
  | getentropy
  | urandom
  deriving DecidableEq

/-- A system call with its answer; `off` is the place in the buffer it was pointed at. -/
inductive SysCall where
  | getrandom (off len : ℕ) (a : IoAnswer)
  | getentropy (off len : ℕ) (a : Option Errno)
  | openUrandom (a : Except Errno ℕ)
  | read (fd off len : ℕ) (a : IoAnswer)
  | close (fd : ℕ)

structure OsScript where
  getrandom : List IoReply
  getentropy : List (Option Errno)
  openUrandom : List (Except Errno ℕ)
  read : List IoReply

structure OsBuild where
  haveGetrandom : Bool
  haveGetentropy : Bool

structure OsRun where
  ret : Int
  calls : List SysCall

def OsRun.prepend (c : SysCall) (r : OsRun) : OsRun := { r with calls := c :: r.calls }

def randomViaGetrandom (n : ℕ) : ℕ → List IoReply → Option OsRun
  | off, [] => if off < n then none else some ⟨0, []⟩
  | off, reply :: script =>
    if off < n then
      let r := reply.answer (n - off)
      let call := SysCall.getrandom off (n - off) r
      match r with
      | .error .eintr => (randomViaGetrandom n off script).map (OsRun.prepend call)
      | .error (.other _) => some ⟨-1, [call]⟩
      | .count k => (randomViaGetrandom n (off + k) script).map (OsRun.prepend call)
    else some ⟨0, []⟩

def randomViaGetentropy (n : ℕ) : ℕ → List (Option Errno) → Option OsRun
  | off, [] => if off < n then none else some ⟨0, []⟩
  | off, r :: script =>
    if off < n then
      let chunk := if n - off > 256 then 256 else n - off
      let call := SysCall.getentropy off chunk r
      match r with
      | some _ => some ⟨-1, [call]⟩
      | none => (randomViaGetentropy n (off + chunk) script).map (OsRun.prepend call)
    else some ⟨0, []⟩

def openUrandom : List (Except Errno ℕ) → Option (Option ℕ × List SysCall)
  | [] => none
  | r :: script =>
    match r with
    | .error .eintr => (openUrandom script).map fun o => (o.1, .openUrandom r :: o.2)
    | .error (.other _) => some (none, [.openUrandom r])
    | .ok fd => some (some fd, [.openUrandom r])

def readUrandom (fd n : ℕ) : ℕ → List IoReply → Option OsRun
  | off, [] => if off < n then none else some ⟨0, []⟩
  | off, reply :: script =>
    if off < n then
      let r := reply.answer (n - off)
      let call := SysCall.read fd off (n - off) r
      match r with
      | .error .eintr => (readUrandom fd n off script).map (OsRun.prepend call)
      | .error (.other _) => some ⟨-1, [call]⟩
      | .count k =>
        if k = 0 then some ⟨-1, [call]⟩
        else (readUrandom fd n (off + k) script).map (OsRun.prepend call)
    else some ⟨0, []⟩

def randomViaUrandom (n : ℕ) (s : OsScript) : Option OsRun :=
  (openUrandom s.openUrandom).bind fun o =>
    match o.1 with
    | none => some ⟨-1, o.2⟩
    | some fd => (readUrandom fd n 0 s.read).map fun r => ⟨r.ret, o.2 ++ r.calls ++ [.close fd]⟩

def tryFirst (first next : Option OsRun) : Option OsRun :=
  first.bind fun r =>
    if r.ret = 0 then some r else next.map fun r' => ⟨r'.ret, r.calls ++ r'.calls⟩

def osRandomBytes (b : OsBuild) (n : ℕ) (s : OsScript) : Option OsRun :=
  if n = 0 then some ⟨0, []⟩
  else
    let urandom := randomViaUrandom n s
    let getentropy :=
      if b.haveGetentropy then tryFirst (randomViaGetentropy n 0 s.getentropy) urandom else urandom
    if b.haveGetrandom then tryFirst (randomViaGetrandom n 0 s.getrandom) getentropy else getentropy

def OsBuild.sources (b : OsBuild) : List Source :=
  (if b.haveGetrandom then [.getrandom] else []) ++
    ((if b.haveGetentropy then [.getentropy] else []) ++ [.urandom])

namespace SysCall

def source : SysCall → Source
  | getrandom .. => .getrandom
  | getentropy .. => .getentropy
  | openUrandom .. | read .. | close .. => .urandom

def piece : SysCall → Option (ℕ × ℕ)
  | getrandom off _ (.count k) => some (off, k)
  | getentropy off len none => some (off, len)
  | read _ off _ (.count k) => some (off, k)
  | _ => none

def Fails : SysCall → Prop
  | getrandom _ _ (.error (.other _)) => True
  | getentropy _ _ (some _) => True
  | openUrandom (.error (.other _)) => True
  | read _ _ _ (.error (.other _)) => True
  | read _ _ _ (.count 0) => True
  | _ => False

def Interrupted : SysCall → Prop
  | getrandom _ _ (.error .eintr) => True
  | openUrandom (.error .eintr) => True
  | read _ _ _ (.error .eintr) => True
  | _ => False

def Retries : SysCall → SysCall → Prop
  | getrandom off len _, getrandom off' len' _ => off = off' ∧ len = len'
  | openUrandom _, openUrandom _ => True
  | read fd off len _, read fd' off' len' _ => fd = fd' ∧ off = off' ∧ len = len'
  | _, _ => False

def opened : SysCall → Option ℕ
  | openUrandom (.ok fd) => some fd
  | _ => none

def closed : SysCall → Option ℕ
  | close fd => some fd
  | _ => none

end SysCall

def pieces (calls : List SysCall) : List (ℕ × ℕ) := calls.filterMap SysCall.piece

/-- Pieces laid end to end from `lo` to `hi`. -/
def Tiles (hi : ℕ) : ℕ → List (ℕ × ℕ) → Prop
  | lo, [] => lo = hi
  | lo, p :: ps => p.1 = lo ∧ Tiles hi (lo + p.2) ps

/-- An interrupted call is made again at once. -/
def RetriesInterrupted (calls : List SysCall) : Prop :=
  ∀ xs c ys, calls = xs ++ c :: ys → c.Interrupted → ∃ d zs, ys = d :: zs ∧ c.Retries d

/-- A descriptor that was opened is the only one, is the one read from, and is closed once, by the
last of the calls. -/
def ClosesOnce (calls : List SysCall) : Prop :=
  (calls.filterMap SysCall.opened = [] ∧ calls.filterMap SysCall.closed = []) ∨
    ∃ fd before, calls = before ++ [.close fd] ∧ before.filterMap SysCall.opened = [fd] ∧
      before.filterMap SysCall.closed = [] ∧ ∀ fd' off len a, .read fd' off len a ∈ before →
        fd' = fd

theorem retriesInterrupted_nil : RetriesInterrupted [] := by
  intro xs c ys h
  simp at h

theorem RetriesInterrupted.cons {c : SysCall} {calls : List SysCall} (h : RetriesInterrupted calls)
    (hc : c.Interrupted → ∃ d zs, calls = d :: zs ∧ c.Retries d) :
    RetriesInterrupted (c :: calls) := by
  intro xs d ys hsplit hd
  cases xs with
  | nil =>
    obtain ⟨rfl, rfl⟩ := List.cons.inj hsplit
    exact hc hd
  | cons x xs => exact h xs d ys (List.cons.inj hsplit).2 hd

theorem RetriesInterrupted.append {xs ys : List SysCall} (hx : RetriesInterrupted xs)
    (hy : RetriesInterrupted ys) : RetriesInterrupted (xs ++ ys) := by
  induction xs with
  | nil => exact hy
  | cons x xs ih =>
    have htail : RetriesInterrupted xs :=
      fun us c vs h => hx (x :: us) c vs (by rw [h, List.cons_append])
    apply (ih htail).cons
    intro hint
    obtain ⟨d, zs, rfl, hd⟩ := hx [] x xs rfl hint
    exact ⟨d, zs ++ ys, rfl, hd⟩

theorem pieces_cons (c : SysCall) (calls : List SysCall) :
    pieces (c :: calls) = c.piece.toList ++ pieces calls := by
  rw [pieces, List.filterMap_cons]
  cases c.piece <;> rfl

theorem pieces_append (xs ys : List SysCall) : pieces (xs ++ ys) = pieces xs ++ pieces ys :=
  List.filterMap_append ..

theorem pieces_eq_nil {calls : List SysCall} (h : ∀ c ∈ calls, c.piece = none) :
    pieces calls = [] :=
  List.filterMap_eq_nil_iff.mpr h

end Chronoid
