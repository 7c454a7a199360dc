import Chronoid.Library.Tape
import Chronoid.RandOsFill

/-! When the entropy sources return. A loop over a source goes on for as long as the system keeps
interrupting it or gives it nothing, and no longer. -/

namespace Chronoid

open Tape (upTo Settles)

def IoAnswer.taken : IoAnswer → ℕ
  | .error _ => 0
  | .count k => k

/-- The loop that all sources share: it ends with the answers that stop it, and when it has its
bytes. -/
def askUntil (call : ℕ → IoAnswer → SysCall) (stops : IoAnswer → Bool) (n : ℕ) :
    ℕ → List IoReply → Option OsRun
  | off, [] => if off < n then none else some ⟨0, []⟩
  | off, reply :: tape =>
    if off < n then
      let a := reply.answer (n - off)
      if stops a then some ⟨-1, [call off a]⟩
      else (askUntil call stops n (off + a.taken) tape).map (OsRun.prepend (call off a))
    else some ⟨0, []⟩

/-- A call that asks for something gets bytes or an answer that ends the loop. -/
def IoReply.Moves (stops : IoAnswer → Bool) (r : IoReply) : Prop :=
  ∀ want, 0 < want → stops (r.answer want) = true ∨ 0 < (r.answer want).taken

section Loop

variable {call : ℕ → IoAnswer → SysCall} {stops : IoAnswer → Bool} {n off : ℕ}

theorem askUntil_of_le (h : n ≤ off) (tape : List IoReply) :
    askUntil call stops n off tape = some ⟨0, []⟩ := by
  cases tape <;> rw [askUntil, if_neg (not_lt.mpr h)]

theorem askUntil_append {xs : List IoReply} (ys : List IoReply) {r : OsRun}
    (h : askUntil call stops n off xs = some r) :
    askUntil call stops n off (xs ++ ys) = some r := by
  induction xs generalizing off r with
  | nil =>
    rw [askUntil] at h
    split_ifs at h with hoff
    rw [List.nil_append, askUntil_of_le (not_lt.mp hoff), h]
  | cons x xs ih =>
    rw [List.cons_append, askUntil]
    rw [askUntil] at h
    split_ifs at h ⊢ with hoff
    · simp only at h ⊢
      split_ifs at h ⊢
      · exact h
      · obtain ⟨r', hr', hmap⟩ := Option.map_eq_some_iff.mp h
        rw [ih hr', Option.map_some, hmap]
    · exact h

theorem askUntil_cons (h : off < n) (reply : IoReply) {tape : List IoReply}
    (hnext : stops (reply.answer (n - off)) = false →
      ∃ r, askUntil call stops n (off + (reply.answer (n - off)).taken) tape = some r) :
    ∃ r, askUntil call stops n off (reply :: tape) = some r := by
  rw [askUntil, if_pos h]
  cases hs : stops (reply.answer (n - off)) with
  | true => exact ⟨_, if_pos hs⟩
  | false =>
    obtain ⟨r, hr⟩ := hnext hs
    exact ⟨_, by rw [if_neg (by simp [hs]), hr, Option.map_some]⟩

theorem askUntil_returns (call : ℕ → IoAnswer → SysCall) (off : ℕ) {xs ys : List IoReply}
    (h : List.Sublist xs ys) (hmoves : ∀ x ∈ xs, x.Moves stops)
    (hn : n ≤ off + xs.length) : ∃ r, askUntil call stops n off ys = some r := by
  by_cases hoff : n ≤ off
  · exact ⟨_, askUntil_of_le hoff ys⟩
  induction h generalizing off with
  | slnil =>
    rw [List.length_nil] at hn
    omega
  | @cons xs ys y hsub ih =>
    refine askUntil_cons (not_le.mp hoff) y fun _ => ?_
    by_cases hnext : n ≤ off + (y.answer (n - off)).taken
    · exact ⟨_, askUntil_of_le hnext ys⟩
    · exact ih _ hmoves (by omega) hnext
  | @cons_cons xs ys y hsub ih =>
    refine askUntil_cons (not_le.mp hoff) y fun hs => ?_
    have htaken := (hmoves y List.mem_cons_self (n - off) (by omega)).resolve_left (by simp [hs])
    rw [List.length_cons] at hn
    by_cases hnext : n ≤ off + (y.answer (n - off)).taken
    · exact ⟨_, askUntil_of_le hnext ys⟩
    · exact ih _ (fun x hx => hmoves x (List.mem_cons_of_mem y hx)) (by omega) hnext

/-- With bytes or an end coming up again and again, the loop is over after some prefix of the
tape. -/
theorem askUntil_settles (call : ℕ → IoAnswer → SysCall) {tape : ℕ → IoReply}
    (h : ∀ m, ∃ k, m ≤ k ∧ (tape k).Moves stops) (n : ℕ) :
    Settles fun m => askUntil call stops n 0 (upTo tape m) := by
  obtain ⟨m, xs, hsub, hlen, hmoves⟩ := Tape.exists_sublist h n
  obtain ⟨r, hr⟩ := askUntil_returns call 0 hsub hmoves (hlen.ge.trans_eq (Nat.zero_add _).symm)
  exact Tape.settles_of_prefix hr fun _ ys _ hxs => askUntil_append ys hxs

end Loop

def IoAnswer.isError : IoAnswer → Bool
  | .error _ => true
  | .count _ => false

def IoAnswer.isFailure : IoAnswer → Bool
  | .error (.other _) => true
  | _ => false

def IoAnswer.isFailedRead : IoAnswer → Bool
  | .error (.other _) => true
  | .count 0 => true
  | _ => false

/-- `getentropy` fills its chunk or fails. -/
def entropyReply (a : Option Errno) : IoReply where
  answer want :=
    match a with
    | some e => .error e
    | none => .count (if want > 256 then 256 else want)
  fits want := by
    cases a with
    | some e => trivial
    | none =>
      simp only [IoAnswer.Fits]
      split_ifs <;> omega

theorem randomViaGetrandom_eq (n off : ℕ) (tape : List IoReply) : randomViaGetrandom n off tape =
    askUntil (fun off a => .getrandom off (n - off) a) IoAnswer.isFailure n off tape := by
  induction tape generalizing off with
  | nil => rfl
  | cons reply tape ih =>
    rw [randomViaGetrandom, askUntil]
    cases reply.answer (n - off) with
    | error e => cases e <;> simp [IoAnswer.isFailure, IoAnswer.taken, ih]
    | count k => simp [IoAnswer.isFailure, IoAnswer.taken, ih]

theorem readUrandom_eq (fd n off : ℕ) (tape : List IoReply) : readUrandom fd n off tape =
    askUntil (fun off a => .read fd off (n - off) a) IoAnswer.isFailedRead n off tape := by
  induction tape generalizing off with
  | nil => rfl
  | cons reply tape ih =>
    rw [readUrandom, askUntil]
    cases reply.answer (n - off) with
    | error e => cases e <;> simp [IoAnswer.isFailedRead, IoAnswer.taken, ih]
    | count k => cases k <;> simp [IoAnswer.isFailedRead, IoAnswer.taken, ih]

theorem randomViaGetentropy_eq (n off : ℕ) (tape : List (Option Errno)) :
    randomViaGetentropy n off tape =
    askUntil (entropyCall n) IoAnswer.isError n off (tape.map entropyReply) := by
  induction tape generalizing off with
  | nil => rfl
  | cons a tape ih =>
    rw [randomViaGetentropy, List.map_cons, askUntil]
    cases a <;> simp [IoAnswer.isError, IoAnswer.taken, entropyReply, entropyCall, ih]

/-- What the system will answer to every source, however long it is asked. -/
structure OsTapes where
  getrandom : ℕ → IoReply
  getentropy : ℕ → Option Errno
  openUrandom : ℕ → Except Errno ℕ
  read : ℕ → IoReply

def OsTapes.upTo (t : OsTapes) (m : ℕ) : OsScript :=
  ⟨Tape.upTo t.getrandom m, Tape.upTo t.getentropy m, Tape.upTo t.openUrandom m, Tape.upTo t.read m⟩

/-- No source is interrupted for ever, and none gives nothing for ever. -/
structure OsTapes.Fair (b : OsBuild) (t : OsTapes) : Prop where
  getrandom : b.haveGetrandom = true → ∀ m, ∃ k, m ≤ k ∧ (t.getrandom k).Moves IoAnswer.isFailure
  openUrandom : ∃ k, t.openUrandom k ≠ .error .eintr
  read : ∀ m, ∃ k, m ≤ k ∧ (t.read k).Moves IoAnswer.isFailedRead

theorem openUrandom_append {xs : List (Except Errno ℕ)} (ys : List (Except Errno ℕ))
    {o : Option ℕ × List SysCall}
    (h : openUrandom xs = some o) : openUrandom (xs ++ ys) = some o := by
  induction xs generalizing o with
  | nil => cases h
  | cons x xs ih =>
    match x, h with
    | .ok fd, h => exact h
    | .error (.other code), h => exact h
    | .error .eintr, h =>
      obtain ⟨o', ho', rfl⟩ := Option.map_eq_some_iff.mp h
      simp only [List.cons_append, openUrandom, ih ho', Option.map_some]

theorem openUrandom_returns {xs : List (Except Errno ℕ)} (h : ∃ x ∈ xs, x ≠ .error .eintr) :
    ∃ o, openUrandom xs = some o := by
  induction xs with
  | nil => simp at h
  | cons x xs ih =>
    match x, h with
    | .ok fd, _ => exact ⟨_, rfl⟩
    | .error (.other code), _ => exact ⟨_, rfl⟩
    | .error .eintr, h =>
      obtain ⟨o, ho⟩ := ih (by simpa using h)
      simp only [openUrandom, ho]
      exact ⟨_, rfl⟩

theorem openUrandom_settles {t : ℕ → Except Errno ℕ} (h : ∃ k, t k ≠ .error .eintr) :
    Settles fun m => openUrandom (upTo t m) := by
  obtain ⟨k, hk⟩ := h
  have hmem : t k ∈ upTo t (k + 1) := by simp [Tape.upTo_succ]
  obtain ⟨o, ho⟩ := openUrandom_returns ⟨t k, hmem, hk⟩
  exact Tape.settles_of_prefix ho fun _ ys _ hxs => openUrandom_append ys hxs

theorem map_upTo {α β : Type} (f : α → β) (t : ℕ → α) (m : ℕ) :
    (upTo t m).map f = upTo (fun k => f (t k)) m := by
  simp [upTo]

theorem randomViaUrandom_settles {b : OsBuild} {t : OsTapes} (h : t.Fair b) (n : ℕ) :
    Settles fun m => randomViaUrandom n (t.upTo m) := by
  refine (openUrandom_settles h.openUrandom).bind fun o => ?_
  obtain ⟨fd, calls⟩ := o
  cases fd with
  | none => exact Tape.settles_some _
  | some fd =>
    simp only [OsTapes.upTo, readUrandom_eq]
    exact (askUntil_settles _ h.read n).map _

theorem tryFirst_settles {first next : ℕ → Option OsRun} (hfirst : Settles first)
    (hnext : Settles next) : Settles fun m => tryFirst (first m) (next m) := by
  refine hfirst.bind fun r => ?_
  by_cases hret : r.ret = 0
  · simpa only [if_pos hret] using Tape.settles_some r
  · simpa only [if_neg hret] using hnext.map _

theorem randomViaGetentropy_settles (t : OsTapes) (n : ℕ) :
    Settles fun m => randomViaGetentropy n 0 (t.upTo m).getentropy := by
  simp only [OsTapes.upTo, randomViaGetentropy_eq, map_upTo]
  refine askUntil_settles _ (fun m => ⟨m, le_rfl, fun want hwant => ?_⟩) n
  cases t.getentropy m with
  | some e => exact .inl rfl
  | none =>
    refine .inr ?_
    simp only [entropyReply, IoAnswer.taken]
    split_ifs <;> omega

theorem osRandomBytes_settles {b : OsBuild} {t : OsTapes} (h : t.Fair b) (n : ℕ) :
    Settles fun m => osRandomBytes b n (t.upTo m) := by
  have hgetrandom (hb : b.haveGetrandom = true) :
      Settles fun m => randomViaGetrandom n 0 (t.upTo m).getrandom := by
    simp only [OsTapes.upTo, randomViaGetrandom_eq]
    exact askUntil_settles _ (h.getrandom hb) n
  have hgetentropy := randomViaGetentropy_settles t n
  have hurandom := randomViaUrandom_settles h n
  by_cases hn : n = 0
  · simpa only [osRandomBytes, if_pos hn] using Tape.settles_some _
  obtain ⟨haveGetrandom, haveGetentropy⟩ := b
  simp only [osRandomBytes, if_neg hn]
  cases haveGetrandom <;> cases haveGetentropy
  · exact hurandom
  · exact tryFirst_settles hgetentropy hurandom
  · exact tryFirst_settles (hgetrandom rfl) hurandom
  · exact tryFirst_settles (hgetrandom rfl) (tryFirst_settles hgetentropy hurandom)

/-- A loop that is only interrupted or given nothing is still at its first byte. -/
theorem askUntil_idle {call : ℕ → IoAnswer → SysCall} {stops : IoAnswer → Bool} {n off : ℕ}
    (hoff : off < n) {tape : List IoReply}
    (h : ∀ reply ∈ tape, stops (reply.answer (n - off)) = false ∧
      (reply.answer (n - off)).taken = 0) :
    askUntil call stops n off tape = none := by
  induction tape with
  | nil => rw [askUntil, if_pos hoff]
  | cons reply tape ih =>
    obtain ⟨hstops, htaken⟩ := h reply List.mem_cons_self
    rw [askUntil, if_pos hoff]
    simp only [hstops, Bool.false_eq_true, if_false, htaken, Nat.add_zero,
      ih fun r hr => h r (List.mem_cons_of_mem reply hr), Option.map_none]

/-- A call of `BCryptGenRandom`; its length is a `ULONG`. -/
structure BcryptCall where
  off : ℕ
  chunk : Word32
  status : Int

structure BcryptRun where
  ret : Int
  calls : List BcryptCall

def BcryptRun.prepend (c : BcryptCall) (r : BcryptRun) : BcryptRun :=
  { r with calls := c :: r.calls }

def randomViaBcrypt : ℕ → ℕ → List Int → Option BcryptRun
  | _, n, [] => if n > 0 then none else some ⟨0, []⟩
  | off, n, s :: script =>
    if n > 0 then
      let chunk : Word32 := if n > 0xffffffff then 0xffffffff#32 else BitVec.ofNat 32 n
      let call : BcryptCall := ⟨off, chunk, s⟩
      if s ≠ 0 then some ⟨-1, [call]⟩
      else (randomViaBcrypt (off + chunk.toNat) (n - chunk.toNat) script).map
        (BcryptRun.prepend call)
    else some ⟨0, []⟩

/-- The Windows build, which has no other source. -/
def osRandomBytesWindows (n : ℕ) (script : List Int) : Option BcryptRun :=
  if n = 0 then some ⟨0, []⟩ else randomViaBcrypt 0 n script

def BcryptCall.piece (c : BcryptCall) : ℕ × ℕ := (c.off, c.chunk.toNat)

/-- The buffer is full, or the last call failed, with all before it filled. -/
inductive BcryptFill (hi : ℕ) : ℕ → BcryptRun → Prop
  | full : BcryptFill hi hi ⟨0, []⟩
  | failed {c : BcryptCall} (hc : 0 < c.chunk.toNat) (hinside : c.off + c.chunk.toNat ≤ hi)
      (hs : c.status ≠ 0) : BcryptFill hi c.off ⟨-1, [c]⟩
  | filled {c : BcryptCall} {r : BcryptRun} (hc : 0 < c.chunk.toNat) (hs : c.status = 0)
      (hr : BcryptFill hi (c.off + c.chunk.toNat) r) : BcryptFill hi c.off (r.prepend c)

theorem bcryptChunk {n : ℕ} (hn : 0 < n) :
    (if n > 0xffffffff then 0xffffffff#32 else BitVec.ofNat 32 n : Word32).toNat =
      min n 0xffffffff := by
  split_ifs with h
  · rw [Nat.min_eq_right h.le]
    rfl
  · rw [BitVec.toNat_ofNat, Nat.mod_eq_of_lt (by omega), Nat.min_eq_left (by omega)]

/-- As many statuses as the buffer has chunks are enough. -/
theorem randomViaBcrypt_fill {script : List Int} (off n : ℕ)
    (h : (n + 0xfffffffe) / 0xffffffff ≤ script.length) :
    ∃ r, randomViaBcrypt off n script = some r ∧ BcryptFill (off + n) off r ∧
      r.calls.length ≤ (n + 0xfffffffe) / 0xffffffff := by
  induction script generalizing off n with
  | nil =>
    obtain rfl : n = 0 := by
      rw [List.length_nil] at h
      omega
    exact ⟨⟨0, []⟩, rfl, .full, Nat.zero_le _⟩
  | cons s script ih =>
    rcases Nat.eq_zero_or_pos n with rfl | hn
    · exact ⟨⟨0, []⟩, rfl, .full, Nat.zero_le _⟩
    have hchunk := bcryptChunk hn
    simp only [randomViaBcrypt, if_pos hn]
    generalize (if n > 0xffffffff then 0xffffffff#32 else BitVec.ofNat 32 n : Word32) = chunk at *
    by_cases hs : s = 0
    · rw [List.length_cons] at h
      obtain ⟨r, hr, hfill, hlen⟩ := ih (off + chunk.toNat) (n - chunk.toNat) (by omega)
      have hend : off + chunk.toNat + (n - chunk.toNat) = off + n := by omega
      refine ⟨r.prepend ⟨off, chunk, s⟩, by rw [if_neg (by simp [hs]), hr, Option.map_some], ?_, ?_⟩
      · exact .filled (c := ⟨off, chunk, s⟩) (by simp only; omega) hs (hend ▸ hfill)
      · simp only [BcryptRun.prepend, List.length_cons]
        omega
    · refine ⟨_, if_pos hs, .failed (c := ⟨off, chunk, s⟩) ?_ ?_ hs, ?_⟩
      · simp only
        omega
      · simp only
        omega
      · simp only [List.length_singleton]
        omega

theorem BcryptFill.le {hi off : ℕ} {r : BcryptRun} (h : BcryptFill hi off r) : off ≤ hi := by
  induction h with
  | full => exact le_rfl
  | failed _ hinside _ => omega
  | filled _ _ _ ih => omega

theorem BcryptFill.complete {hi off : ℕ} {r : BcryptRun} (h : BcryptFill hi off r) :
    (∀ c ∈ r.calls, 0 < c.chunk.toNat ∧ c.off + c.chunk.toNat ≤ hi) ∧
      (r.ret = 0 ∧ (∀ c ∈ r.calls, c.status = 0) ∧ Tiles hi off (r.calls.map BcryptCall.piece) ∨
        r.ret = -1 ∧ ∃ before c, r.calls = before ++ [c] ∧ (∀ c' ∈ before, c'.status = 0) ∧
          c.status ≠ 0 ∧ Tiles c.off off (before.map BcryptCall.piece)) := by
  induction h with
  | full => exact ⟨by simp, .inl ⟨rfl, by simp, rfl⟩⟩
  | @failed c hc hinside hs =>
    exact ⟨by simpa using ⟨hc, hinside⟩, .inr ⟨rfl, [], c, rfl, by simp, hs, rfl⟩⟩
  | @filled c r hc hs hr ih =>
    obtain ⟨hcalls, hend⟩ := ih
    refine ⟨fun d hd => ?_, ?_⟩
    · rcases List.mem_cons.mp hd with rfl | hd
      · exact ⟨hc, hr.le⟩
      · exact hcalls d hd
    · rcases hend with ⟨hret, hok, htiles⟩ | ⟨hret, before, d, hsplit, hok, hfail, htiles⟩
      · refine .inl ⟨hret, fun d hd => ?_, rfl, htiles⟩
        rcases List.mem_cons.mp hd with rfl | hd
        · exact hs
        · exact hok d hd
      · refine .inr ⟨hret, c :: before, d, by simp [BcryptRun.prepend, hsplit], fun e he => ?_,
          hfail, rfl, htiles⟩
        rcases List.mem_cons.mp he with rfl | he
        · exact hs
        · exact hok e he

/-- On a POSIX system a fill is over after finitely many answers, whatever sources are compiled in,
if no source is interrupted or given nothing for ever; an endless row of such answers to `getrandom`
does hold it up, an empty one too, although it fails a read of `/dev/urandom`. On Windows it is over
after one call for each chunk of a `ULONG`, with the buffer full or at the first call that
failed. -/
theorem os_random_returns :
    (∀ (b : OsBuild) (n : ℕ) (t : OsTapes), t.Fair b →
      ∃ m r, ∀ k, m ≤ k → osRandomBytes b n (t.upTo k) = some r) ∧
    (∀ (b : OsBuild) (n : ℕ) (s : OsScript), b.haveGetrandom = true → 0 < n →
      (∀ reply ∈ s.getrandom, ∀ want, reply.answer want = .error .eintr ∨
        reply.answer want = .count 0) →
      osRandomBytes b n s = none) ∧
    ∀ (n : ℕ) (script : List Int), (n + 0xfffffffe) / 0xffffffff ≤ script.length →
      ∃ r, osRandomBytesWindows n script = some r ∧ r.calls.length ≤ (n + 0xfffffffe) / 0xffffffff ∧
        (∀ c ∈ r.calls, 0 < c.chunk.toNat ∧ c.off + c.chunk.toNat ≤ n) ∧
        (r.ret = 0 ∧ (∀ c ∈ r.calls, c.status = 0) ∧ Tiles n 0 (r.calls.map BcryptCall.piece) ∨
          r.ret = -1 ∧ ∃ before c, r.calls = before ++ [c] ∧ (∀ c' ∈ before, c'.status = 0) ∧
            c.status ≠ 0 ∧ Tiles c.off 0 (before.map BcryptCall.piece)) := by
  refine ⟨fun b n t h => osRandomBytes_settles h n, fun b n s hb hn hidle => ?_,
    fun n script h => ?_⟩
  · have hstuck : randomViaGetrandom n 0 s.getrandom = none := by
      rw [randomViaGetrandom_eq]
      refine askUntil_idle hn fun reply hreply => ?_
      rcases hidle reply hreply (n - 0) with ha | ha <;> rw [ha] <;> exact ⟨rfl, rfl⟩
    simp only [osRandomBytes, if_neg hn.ne', hb, if_true, tryFirst, hstuck, Option.bind_none]
  · obtain ⟨r, hr, hfill, hlen⟩ := randomViaBcrypt_fill 0 n h
    rw [Nat.zero_add] at hfill
    refine ⟨r, ?_, hlen, hfill.complete⟩
    rw [osRandomBytesWindows]
    split_ifs with hn
    · subst hn
      cases script <;> exact hr
    · exact hr

end Chronoid
