import Chronoid.GenOptions
import Chronoid.KsuidParts
import Chronoid.Uuidv7Parts
import Chronoid.Uuidv7Text

/-! What `chronoid-gen` writes about one identifier, by output format. -/

namespace Chronoid

open Positional (numeral)

def newline : Byte := 0x0a#8

/-- What is written of a buffer that a zero byte ends. -/
def cText (buf : List Byte) : List Byte := buf.takeWhile (· ≠ 0#8)

/-- The calendar of the platform: the texts of a time in seconds, where the conversion to the broken
down time and its formatting succeed. -/
structure TimeText where
  localTime : Int → Option (List Byte)
  utcTime : Int → Option (List Byte)

def hexUpperDigit (d : ℕ) : Byte := (text "0123456789ABCDEF").getD d 0#8

def fputsHexUpper (bytes : List Byte) : List Byte :=
  bytes.flatMap fun b : Byte =>
    [hexUpperDigit (b >>> 4 &&& 0xf#8).toNat, hexUpperDigit (b &&& 0xf#8).toNat]

def decimalInt (n : Int) : List Byte :=
  if n < 0 then charByte '-' :: decimal n.natAbs else decimal n.natAbs

/-- A numeral with zeros in front of it, up to `width` digits. -/
def padded (b width v : ℕ) : List ℕ :=
  List.replicate (width - (numeral b v).length) 0 ++ numeral b v

def fputsTimeLocal (time : TimeText) (unixSeconds : Int) : List Byte :=
  (time.localTime unixSeconds).getD (decimalInt unixSeconds)

def fputsTimeUtcMs (time : TimeText) (unixMs : Int) : List Byte :=
  let secs := unixMs.tdiv 1000
  let ms := unixMs.tmod 1000
  let r := if ms < 0 then (secs - 1, ms + 1000) else (secs, ms)
  match time.utcTime r.1 with
  | none => decimalInt unixMs
  | some buf =>
    buf ++ text "." ++ ((padded 10 3 r.2.toNat).map fun d => 0x30#8 + BitVec.ofNat 8 d) ++
      text " +0000 UTC"

/-- The string the caller's buffer holds after formatting; `none` never comes of it. -/
def ksuidString (buf : Vector Byte 27) (id : Ksuid) : List Byte :=
  cText ((ksuidFormat id buf).elim [] Vector.toList)

def printString (buf : Vector Byte 27) (id : Ksuid) : List Byte := ksuidString buf id ++ [newline]

def printInspect (time : TimeText) (buf : Vector Byte 27) (id : Ksuid) : List Byte :=
  text "\nREPRESENTATION:\n\n  String: " ++ ksuidString buf id ++ text "\n     Raw: " ++
    fputsHexUpper id.bytes ++
    text "\n\nCOMPONENTS:\n\n       Time: " ++ fputsTimeLocal time (ksuidTimeUnix id).toInt ++
    text "\n  Timestamp: " ++ decimal (ksuidTimestamp id).toNat ++
    text "\n    Payload: " ++ fputsHexUpper (ksuidPayload id).toList ++ text "\n\n"

def printTime (time : TimeText) (id : Ksuid) : List Byte :=
  fputsTimeLocal time (ksuidTimeUnix id).toInt ++ [newline]

def printTimestamp (id : Ksuid) : List Byte := decimal (ksuidTimestamp id).toNat ++ [newline]

def printPayload (id : Ksuid) : List Byte := (ksuidPayload id).toList

def printRaw (id : Ksuid) : List Byte := id.bytes

def printOneKsuid (time : TimeText) (buf : Vector Byte 27) (format : OutputFormat) (id : Ksuid)
    (verbose : Bool) : List Byte :=
  (if verbose then ksuidString buf id ++ text ": " else []) ++
    match format with
    | .string => printString buf id
    | .inspect => printInspect time buf id
    | .time => printTime time id
    | .timestamp => printTimestamp id
    | .payload => printPayload id
    | .raw => printRaw id

def uuidv7String (ssse3 : Bool) (buf : Vector Byte 36) (id : Uuidv7) : List Byte :=
  cText (uuidv7Format ssse3 id buf).toList

def printStringUuidv7 (ssse3 : Bool) (buf : Vector Byte 36) (id : Uuidv7) : List Byte :=
  uuidv7String ssse3 buf id ++ [newline]

def printInspectUuidv7 (time : TimeText) (ssse3 : Bool) (buf : Vector Byte 36) (id : Uuidv7) :
    List Byte :=
  let randA12 : Word16 := (id.b.get 6 &&& 0x0f#8).setWidth 16 <<< 8 ||| (id.b.get 7).setWidth 16
  text "\nREPRESENTATION:\n\n  String: " ++ uuidv7String ssse3 buf id ++ text "\n     Raw: " ++
    fputsHexUpper id.bytes ++ text "\n\nCOMPONENTS:\n\n       Time: " ++
      fputsTimeUtcMs time (uuidv7UnixMs id) ++
    text "\n  Timestamp: " ++ decimalInt (uuidv7UnixMs id) ++
    text "\n    Version: " ++ decimal (uuidv7Version id).toNat ++
    text "\n    Variant: 0b" ++ decimal (uuidv7Variant id >>> 1 &&& 1#8).toNat ++
    decimal (uuidv7Variant id &&& 1#8).toNat ++ text " (RFC 4122 / 9562)\n     rand_a: 0x" ++
    (padded 16 3 randA12.toNat).map hexUpperDigit ++ text "\n     rand_b: " ++
    fputsHexUpper (id.bytes.drop 8) ++ text "\n\n"

def printTimeUuidv7 (time : TimeText) (id : Uuidv7) : List Byte :=
  fputsTimeUtcMs time (uuidv7UnixMs id) ++ [newline]

def printTimestampUuidv7 (id : Uuidv7) : List Byte := decimalInt (uuidv7UnixMs id) ++ [newline]

def printRawUuidv7 (id : Uuidv7) : List Byte := id.bytes

/-- There is no payload to print of a UUIDv7. -/
def printOneUuidv7 (time : TimeText) (ssse3 : Bool) (buf : Vector Byte 36) (format : OutputFormat)
    (id : Uuidv7) (verbose : Bool) : List Byte :=
  (if verbose then uuidv7String ssse3 buf id ++ text ": " else []) ++
    match format with
    | .string => printStringUuidv7 ssse3 buf id
    | .inspect => printInspectUuidv7 time ssse3 buf id
    | .time => printTimeUuidv7 time id
    | .timestamp => printTimestampUuidv7 id
    | .raw => printRawUuidv7 id
    | .payload => []

theorem base62Char_ne_nul :
    ∀ d < 62, base62Char d ≠ 0#8 ∧ base62Char d ≠ newline ∧ base62Char d ≠ charByte '-' := by
  decide +kernel

theorem hexLower_ne_nul :
    ∀ d < 16, hexLower d ≠ 0#8 ∧ hexLower d ≠ newline ∧ hexLower d ≠ charByte '-' := by
  decide +kernel

def uuidv7Text (id : Uuidv7) : List Byte := hexText (nibbles id.bytes)

theorem base62Text_printable {v : ℕ} {c : Byte} (h : c ∈ base62Text v) :
    c ≠ 0#8 ∧ c ≠ newline ∧ c ≠ charByte '-' := by
  obtain ⟨d, hd, rfl⟩ := List.mem_map.mp h
  exact base62Char_ne_nul d (Positional.fixed_lt (by decide) hd)

theorem uuidv7Text_printable {id : Uuidv7} {c : Byte} (h : c ∈ uuidv7Text id) :
    c ≠ 0#8 ∧ c ≠ newline := by
  have hdigit {c : Byte} (hc : c ∈ (nibbles id.bytes).map hexLower) : c ≠ 0#8 ∧ c ≠ newline := by
    obtain ⟨d, hd, rfl⟩ := List.mem_map.mp hc
    have hh := hexLower_ne_nul d (nibbles_lt _ d hd)
    exact ⟨hh.1, hh.2.1⟩
  have hhyphen : hyphen ≠ 0#8 ∧ hyphen ≠ newline := by decide
  simp only [uuidv7Text, hexText, List.mem_append, List.mem_cons] at h
  rcases h with h | rfl | h | rfl | h | rfl | h | rfl | h
  · exact hdigit (List.mem_of_mem_take h)
  · exact hhyphen
  · exact hdigit (List.mem_of_mem_drop (List.mem_of_mem_take h))
  · exact hhyphen
  · exact hdigit (List.mem_of_mem_drop (List.mem_of_mem_take h))
  · exact hhyphen
  · exact hdigit (List.mem_of_mem_drop (List.mem_of_mem_take h))
  · exact hhyphen
  · exact hdigit (List.mem_of_mem_drop h)

theorem cText_of_no_nul {buf : List Byte} (h : ∀ c ∈ buf, c ≠ 0#8) : cText buf = buf :=
  List.takeWhile_eq_self_iff.mpr fun c hc => decide_eq_true (h c hc)

theorem ksuidString_eq (buf : Vector Byte 27) (id : Ksuid) :
    ksuidString buf id = base62Text id.value := by
  obtain ⟨s, hs, htext⟩ := ksuidFormat_eq id buf
  rw [ksuidString, hs, Option.elim_some, htext]
  exact cText_of_no_nul fun c hc => (base62Text_printable hc).1

theorem uuidv7String_eq (ssse3 : Bool) (buf : Vector Byte 36) (id : Uuidv7) :
    uuidv7String ssse3 buf id = uuidv7Text id := by
  have htext : (uuidv7Format ssse3 id buf).toList = uuidv7Text id :=
    hexEncodeLower_eq ssse3 buf id.b
  rw [uuidv7String, htext]
  exact cText_of_no_nul fun c hc => (uuidv7Text_printable hc).1

end Chronoid
