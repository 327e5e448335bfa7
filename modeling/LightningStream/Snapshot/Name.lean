import LightningStream.Base.Bytes

/-!
# Snapshot file names

A snapshot is stored under `name__instance__timestamp__generation.pb.gz`, with
any number of extra items after the generation. `parseName` takes such a name
apart. Two things it consults lie outside the file name: the registered
extensions and the time package's reading of the timestamp.
-/

namespace LightningStream.Snapshot

/-- A point in time, in nanoseconds since the UNIX epoch. -/
abbrev Time : Type := ℤ

/-- A duration in nanoseconds. -/
abbrev Duration : Type := ℤ

/-- The zero `time.Time`, 1 January of year 1. -/
def zeroTime : Time := -62135596800 * 10 ^ 9

/-- `Time.Sub` saturates at the limits of a 64 bit duration. -/
def Time.sub (a b : Time) : Duration := max (-2 ^ 63) (min (2 ^ 63 - 1) (a - b))

/-- The bytes of an ASCII text. -/
def ascii (s : String) : Bytes := s.toList.map (fun c => UInt8.ofNat c.toNat)

def kindSnapshot : Bytes := ascii "snapshot"

def defaultExtension : Bytes := ascii "pb.gz"

/-- `len(timeFormat)` for `20060102-150405.000000000`. -/
def timeFormatLen : ℕ := 25

/-- The position of the dot in `timeFormat`. -/
def dotIndex : ℕ := 15

/-- What `ParseName` consults besides the name. -/
structure Naming where
  /-- `registeredExtensions`: the kind of an extension. -/
  registeredExtensions : Bytes → Option Bytes
  /-- `time.Parse` with `timeFormat`. -/
  timeParse : Bytes → Option Time

structure NameInfo where
  fullName : Bytes
  baseName : Bytes
  extension : Bytes
  kind : Bytes
  syncerName : Bytes
  instanceID : Bytes
  generationID : Bytes
  timestampString : Bytes
  timestamp : Time
  extra : List Bytes
deriving DecidableEq, Repr

inductive NameErr
  | noDot
  | unknownExtension
  | notEnoughParts
  | timestampFormat
  | timestampParse
deriving DecidableEq, Repr

/-- `strings.Cut(s, ".")`. -/
def cutDot : Bytes → Option (Bytes × Bytes)
  | [] => none
  | c :: rest =>
      if c = 46 then some ([], rest)
      else (cutDot rest).map (fun p => (c :: p.1, p.2))

/-- `strings.Split(s, "__")`. -/
def splitDunder : Bytes → List Bytes
  | [] => [[]]
  | [c] => [[c]]
  | c :: d :: rest =>
      if c = 95 ∧ d = 95 then [] :: splitDunder rest
      else match splitDunder (d :: rest) with
        | [] => [[c]]
        | p :: ps => (c :: p) :: ps

def parseName (nm : Naming) (name : Bytes) : Except NameErr NameInfo :=
  match cutDot name with
  | none => .error .noDot
  | some (basename, ext) =>
      match nm.registeredExtensions ext with
      | none => .error .unknownExtension
      | some kind =>
          match splitDunder basename with
          | syncerName :: instanceID :: tss :: generationID :: extra =>
              if tss.length ≠ timeFormatLen ∨ tss.getD dotIndex 0 ≠ 45 then
                .error .timestampFormat
              else match nm.timeParse (tss.set dotIndex 46) with
                | none => .error .timestampParse
                | some ts => .ok ⟨name, basename, ext, kind, syncerName, instanceID,
                    generationID, tss, ts, extra⟩
          | _ => .error .notEnoughParts

theorem parseName_fullName {nm : Naming} {name : Bytes} {ni : NameInfo}
    (h : parseName nm name = .ok ni) : ni.fullName = name := by
  unfold parseName at h
  repeat' split at h
  all_goals first | cases h; rfl | cases h

/-! ## The calendar reading of timestamps -/

/-- The value of a run of decimal digits. -/
def digits (b : Bytes) : Option ℕ :=
  b.foldl (fun acc c => acc.bind fun n =>
    if 48 ≤ c ∧ c ≤ 57 then some (10 * n + (c.toNat - 48)) else none) (some 0)

/-- Days from the UNIX epoch to a date of the Gregorian calendar. -/
def daysFromCivil (y m d : ℤ) : ℤ :=
  let y := if m ≤ 2 then y - 1 else y
  let era := y / 400
  let yoe := y - era * 400
  let doy := (153 * (if m > 2 then m - 3 else m + 9) + 2) / 5 + d - 1
  era * 146097 + (yoe * 365 + yoe / 4 - yoe / 100 + doy) - 719468

/-- The time a timestamp of nothing but digits in its fields denotes. A sample to run examples
on: `time.Parse` also checks the separators and the ranges of the fields, and it refuses
what this reads as a day beyond the end of a month. -/
def readTimestamp (b : Bytes) : Option Time := do
  let year ← digits (b.take 4)
  let month ← digits ((b.drop 4).take 2)
  let day ← digits ((b.drop 6).take 2)
  let hour ← digits ((b.drop 9).take 2)
  let minute ← digits ((b.drop 11).take 2)
  let second ← digits ((b.drop 13).take 2)
  let nano ← digits (b.drop 16)
  some ((((daysFromCivil year month day * 24 + hour) * 60 + minute) * 60 + second) *
    10 ^ 9 + nano)

/-- The extension registered at start, with the calendar reading. -/
def defaultNaming : Naming where
  registeredExtensions := fun ext => if ext = defaultExtension then some kindSnapshot else none
  timeParse := readTimestamp

/-- The example of the layout itself. -/
example : readTimestamp (ascii "20060102-150405.000000007") =
    some (1136214245 * 10 ^ 9 + 7) := by decide

end LightningStream.Snapshot
