import Chronoid.Generators
import Chronoid.GenPrint
import Chronoid.Library.EmitLoop

/-! The `chronoid-gen` program: it makes identifiers, or reads those on its command line, and prints
them one after the other. -/

namespace Chronoid

/-- What stands in the locals of one pass before they are written. -/
structure GenLocals where
  ksuid : Ksuid
  uuidv7 : Uuidv7
  ksuidBuf : Vector Byte 27
  uuidv7Buf : Vector Byte 36
  decoded : Vector Byte 20
  hexInner : Vector Byte 16
  hexTmp : Vector Byte 16

/-- What the program runs on: the width of a `long`, the kernels it was built with, the calendar,
the random source, and the clocks and locals by pass. -/
structure GenEnv where
  longMax : ℕ
  simd : Simd
  ssse3 : Bool
  time : TimeText
  src : RandomSource
  clock : ℕ → Option Word64
  nowMs : ℕ → Int
  locals : ℕ → GenLocals

structure GenRun where
  exit : ℕ
  out : List Byte
  err : Option GenError

/-- A mode returns 0 if its loop gets through, and `status` if a pass of it fails. -/
def GenRun.ofLoop (status : ℕ) (r : List Byte × Option GenError) : GenRun :=
  ⟨if r.2.isSome then status else 0, r.1, r.2⟩

def KsuidErr.code : KsuidErr → Int
  | .ok => 0
  | .errSize => -1
  | .errStrSize => -2
  | .errStrValue => -3
  | .errPayloadSize => -4
  | .errRng => -5
  | .errExhausted => -6
  | .errTimeRange => -7

def Uuidv7Err.code : Uuidv7Err → Int
  | .ok => 0
  | .errSize => -1
  | .errStrSize => -2
  | .errStrValue => -3
  | .errRng => -5
  | .errTimeRange => -7

def usage (argv0 : List Byte) : List Byte :=
  text "usage: " ++ argv0 ++ text " [-n N] [-f FORMAT] [--format=ID] [-v] [ID ...]\n" ++
    text "  -n N        number of IDs to generate when no args given (default 1)\n" ++
    text "  -f FORMAT   output projection: one of string, inspect, time,\n" ++
    text "              timestamp, payload, raw (default: string)\n" ++
    text "              -f payload is KSUID-only; UUIDv7 has no equivalent\n" ++
    text "              field, so combining -f payload with a UUIDv7 is an\n" ++
    text "              error. Use -f raw for the 16-byte image or -f inspect\n" ++
    text "              for rand_a / rand_b.\n" ++
    text "  --format=ID ID format for generation: one of ksuid, uuidv7\n" ++
    text "              (default: ksuid)\n" ++
    text "  -v          prefix each line with the ID and ': '\n" ++
    text "  -h          show this help\n" ++
    text "When ID arguments are supplied they are parsed and formatted; the -n\n" ++
    text "flag is ignored. Positional args are auto-detected by length: 27 chars\n" ++
    text "= KSUID, 36 chars = UUIDv7. A mismatch between --format and a\n" ++
    text "positional argument's detected format is an error.\n"

/-- The text of an error as it goes to the error output. -/
def GenError.message (argv0 : List Byte) : GenError → List Byte
  | .unknownIdFormat val => text "unknown id format: " ++ val ++ text "\n"
  | .unknownOption a => text "unknown option: " ++ a.bytes ++ text "\n" ++ usage argv0
  | .missingArgument flag => text "missing argument for -" ++ [flag] ++ text "\n" ++ usage argv0
  | .invalidCount val => text "invalid -n value: " ++ val.bytes ++ text "\n"
  | .unknownFormat val => text "unknown format: " ++ val.bytes ++ text "\n"
  | .payloadUnsupported =>
    text "-f payload is not supported for UUIDv7; use -f raw for the\n" ++
      text "16-byte image or -f inspect for rand_a / rand_b.\n"
  | .uuidv7NewFailed e => text "chronoid_uuidv7_new failed (err " ++ decimalInt e.code ++ text ")\n"
  | .ksuidNewFailed e => text "chronoid_ksuid_new failed (err " ++ decimalInt e.code ++ text ")\n"
  | .badLength a =>
    text "could not parse " ++ a.bytes ++ text ": expected 27 (KSUID) or 36 (UUIDv7) chars, got " ++
      decimal a.bytes.length ++ text "\n"
  | .formatMismatch idformat a detected =>
    text "format mismatch: --format=" ++
      (if idformat = .uuidv7 then text "uuidv7" else text "ksuid") ++
      text " but " ++ a.bytes ++ text " looks like a " ++
      (if detected = .uuidv7 then text "UUIDv7" else text "KSUID") ++ text " (" ++
      decimal a.bytes.length ++ text " chars)\n"
  | .uuidv7ParseFailed a e =>
    text "could not parse " ++ a.bytes ++ text " (err " ++ decimalInt e.code ++ text ")\n"
  | .ksuidParseFailed a e =>
    text "could not parse " ++ a.bytes ++ text " (err " ++ decimalInt e.code ++ text ")\n"

/-- One pass of generation mode; `k` draws were made before it. -/
def generateOne (env : GenEnv) (o : GenOptions) (k i : ℕ) : Except GenError (List Byte × ℕ) :=
  let l := env.locals i
  match o.idformat with
  | .uuidv7 =>
    let r := uuidv7New env.src k (env.nowMs i) l.uuidv7
    if r.err ≠ .ok then .error (.uuidv7NewFailed r.err)
    else .ok (printOneUuidv7 env.time env.ssse3 l.uuidv7Buf o.format r.out o.verbose, r.draws)
  | .ksuid =>
    let r := ksuidNew env.src k (env.clock i) l.ksuid
    if r.err ≠ .ok then .error (.ksuidNewFailed r.err)
    else .ok (printOneKsuid env.time l.ksuidBuf o.format r.out o.verbose, r.draws)

def generate (env : GenEnv) (o : GenOptions) : GenRun :=
  .ofLoop 2 (EmitLoop.run (generateOne env o) 0 (List.range o.count))

/-- One pass of parse mode, the pass number `i`. -/
def parseOne (env : GenEnv) (o : GenOptions) (i : ℕ) (a : CString) :
    Except GenError (List Byte × ℕ) :=
  let l := env.locals i
  let len := a.bytes.length
  let detected := if len = 27 then some IdFormat.ksuid else if len = 36 then some .uuidv7 else none
  match detected with
  | none => .error (.badLength a)
  | some detected =>
    if o.idformatExplicit = true ∧ detected ≠ o.idformat then
      .error (.formatMismatch o.idformat a detected)
    else if o.format = .payload ∧ detected = .uuidv7 then .error .payloadUnsupported
    else
      match detected with
      | .uuidv7 =>
        let r := uuidv7Parse l.hexInner l.hexTmp l.uuidv7 a.at len
        if r.1 ≠ .ok then .error (.uuidv7ParseFailed a r.1)
        else .ok (printOneUuidv7 env.time env.ssse3 l.uuidv7Buf o.format r.2 o.verbose, i + 1)
      | .ksuid =>
        let r := ksuidParse env.simd l.decoded l.ksuid a.at len
        if r.1 ≠ .ok then .error (.ksuidParseFailed a r.1)
        else .ok (printOneKsuid env.time l.ksuidBuf o.format r.2 o.verbose, i + 1)

def parseArgs (env : GenEnv) (o : GenOptions) (args : List CString) : GenRun :=
  .ofLoop 1 (EmitLoop.run (parseOne env o) 0 args)

/-- The program, on the words after its name. -/
def genMain (env : GenEnv) (argv0 : List Byte) (args : List CString) : GenRun :=
  match scanOptions env.longMax .default args with
  | .fails e => ⟨1, [], some e⟩
  | .help => ⟨0, usage argv0, none⟩
  | .ready o args =>
    if args = [] ∧ o.format = .payload ∧ o.idformat = .uuidv7 then ⟨1, [], some .payloadUnsupported⟩
    else if args = [] then generate env o
    else parseArgs env o args

theorem ofLoop_eq_none {status : ℕ} {r : List Byte × Option GenError} {out : List Byte} :
    GenRun.ofLoop status r = ⟨0, out, none⟩ ↔ r = (out, none) := by
  rcases r with ⟨out', _ | e⟩ <;> simp [GenRun.ofLoop]

theorem ofLoop_eq_some {status : ℕ} {r : List Byte × Option GenError} {out : List Byte}
    {e : GenError} : GenRun.ofLoop status r = ⟨status, out, some e⟩ ↔ r = (out, some e) := by
  rcases r with ⟨out', _ | e'⟩ <;> simp [GenRun.ofLoop]

theorem ofLoop_exit {status : ℕ} (h : status ≠ 0) {r : List Byte × Option GenError} :
    (GenRun.ofLoop status r).exit = 0 ↔ r.2 = none := by
  rcases r with ⟨out, _ | e⟩ <;> simp [GenRun.ofLoop, h]

end Chronoid
