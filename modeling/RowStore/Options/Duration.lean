import RowStore.Text.Blank
import RowStore.Text.Numeral

/-!
# Durations

* `Duration` : seconds and nanoseconds;
* `Duration.write` : its parts that are not zero, from years to nanoseconds;
* `Duration.read` : a list of numbers with units, added up;
* `OptionsError` : why a text cannot be read.

Seconds are counted in 64 bits; a sum or product beyond them is refused.
-/

namespace RowStore

/-- Why options, or a span of time among them, cannot be read. -/
inductive OptionsError where
  /-- The text is not written like them, or a number in it goes beyond the counters. -/
  | malformed
  /-- Nanoseconds come to exactly one second, while the seconds are at their bound. -/
  | carry
deriving DecidableEq

def OptionsError.orMalformed {α : Type} : Option α → Except OptionsError α
  | some a => .ok a
  | none => .error malformed

/-- A span of time. -/
structure Duration where
  /-- Whole seconds. -/
  seconds : Nat
  /-- Nanoseconds beyond them. -/
  nanos : Nat
deriving DecidableEq

inductive TimeUnit where
  | nanosecond
  | microsecond
  | millisecond
  | second
  | minute
  | hour
  /-- A day of 24 hours. -/
  | day
  | week
  /-- A month of 30.44 days. -/
  | month
  /-- A year of 365.25 days. -/
  | year
deriving DecidableEq

namespace TimeUnit

def named? : String → Option TimeUnit
  | "nanos" | "nsec" | "ns" => some nanosecond
  | "usec" | "us" | "µs" => some microsecond
  | "millis" | "msec" | "ms" => some millisecond
  | "seconds" | "second" | "secs" | "sec" | "s" => some second
  | "minutes" | "minute" | "min" | "mins" | "m" => some minute
  | "hours" | "hour" | "hr" | "hrs" | "h" => some hour
  | "days" | "day" | "d" => some day
  | "weeks" | "week" | "wk" | "wks" | "w" => some week
  | "months" | "month" | "M" => some month
  | "years" | "year" | "yr" | "yrs" | "y" => some year
  | _ => none

def seconds : TimeUnit → Nat
  | second => 1
  | minute => 60
  | hour => 3600
  | day => 86400
  | week => 604800
  | month => 2630016
  | year => 31557600
  | _ => 0

def nanos : TimeUnit → Nat
  | nanosecond => 1
  | microsecond => 1000
  | millisecond => 1000000
  | _ => 0

/-- What a fraction of a unit is counted in: seconds and nanoseconds, one of them zero. -/
def fine : TimeUnit → Nat × Nat
  | microsecond => (0, 1000)
  | millisecond => (0, 1000000)
  | second => (0, 1000000000)
  | minute => (0, 60000000000)
  | u => (u.seconds, 0)

end TimeUnit

namespace Duration

open OptionsError

def limit : Nat := UInt64.size

def bounded? (n : Nat) : Option Nat := if n < limit then some n else none

/-- The part `n / whole` of a unit; it has to come out even. -/
def share? (n whole unit : Nat) : Option Nat := do
  let product ← bounded? (n * unit)
  if product % whole = 0 then some (product / whole) else none

def add (d : Duration) (seconds nanos : Nat) : Except OptionsError Duration := do
  let nanos ← orMalformed (bounded? (d.nanos + nanos))
  let seconds ← orMalformed (bounded? (d.seconds + seconds))
  match bounded? (seconds + nanos / 1000000000) with
  | some seconds => pure ⟨seconds, nanos % 1000000000⟩
  | none => throw (if nanos = 1000000000 then carry else malformed)

/-! ## Numbers with units -/

/-- A number with a unit. -/
structure Part where
  whole : Nat
  /-- The digits of its decimal fraction. -/
  fraction : List Char
  unit : TimeUnit

/-- Adds a number of units: first the whole number, then the fraction. -/
def addPart (d : Duration) (p : Part) : Except OptionsError Duration := do
  let seconds ← orMalformed (bounded? (p.whole * p.unit.seconds))
  let nanos ← orMalformed (bounded? (p.whole * p.unit.nanos))
  let d ← d.add seconds nanos
  if p.fraction.isEmpty then pure d
  else if p.unit = .nanosecond then throw malformed
  else
    let n := Nat.ofDigitChars 10 p.fraction 0
    let share (unit : Nat) := orMalformed (share? n (Nat.pow 10 p.fraction.length) unit)
    d.add (← share p.unit.fine.1) (← share p.unit.fine.2)

def isUnitChar (c : Char) : Bool := c.isAlpha || c == 'µ'

def isNumberChar (c : Char) : Bool := c.isDigit || Text.isBlank c

/-- The digits of a decimal fraction after a number, and what follows it.  A point has to be followed
by a digit, and not by more of them than the counters hold. -/
def splitFraction? : List Char → Option (List Char × List Char)
  | '.' :: cs => do
    let digits := (cs.takeWhile isNumberChar).filter Char.isDigit
    let _ ← bounded? (Nat.pow 10 digits.length)
    if digits.isEmpty then none else some (digits, cs.dropWhile isNumberChar)
  | cs => some ([], cs)

/-- A number with a unit, from its first digit on, and what follows it: the end, a blank or the next
number. -/
def readPart? (cs : List Char) : Option (Part × List Char) := do
  if !(cs.head?.any Char.isDigit) then none
  let whole := cs.takeWhile isNumberChar
  let n ← bounded? (Nat.ofDigitChars 10 (whole.filter Char.isDigit) 0)
  let (fraction, rest) ← splitFraction? (cs.dropWhile isNumberChar)
  let unit ← TimeUnit.named? (String.ofList (rest.takeWhile isUnitChar))
  let rest := rest.dropWhile isUnitChar
  if rest.head?.all isNumberChar then some (⟨n, fraction, unit⟩, rest) else none

/-- The span that a list of numbers with units adds up to, beyond `d`. -/
def readParts (fuel : Nat) (d : Duration) (cs : List Char) : Except OptionsError Duration :=
  match fuel, cs.dropWhile Text.isBlank with
  | _, [] => pure d
  | 0, _ => throw malformed
  | fuel + 1, cs => do
    let (part, rest) ← orMalformed (readPart? cs)
    readParts fuel (← d.addPart part) rest

/-- The span that a text denotes: a list of numbers with units, or a bare zero. -/
def read (s : String) : Except OptionsError Duration :=
  if s = "0" then pure ⟨0, 0⟩
  else if s.toList.all Text.isBlank then throw malformed
  else readParts s.length ⟨0, 0⟩ s.toList

/-! ## The text of a span -/

def part (n : Nat) (unit : String) : List String := if n = 0 then [] else [toString n ++ unit]

def pluralPart (n : Nat) (unit : String) : List String :=
  part n (if n = 1 then unit else unit ++ "s")

/-- The text of a span: its parts that are not zero. -/
def write (d : Duration) : String :=
  if d.seconds = 0 ∧ d.nanos = 0 then "0s"
  else
    let ofYear := d.seconds % 31557600
    let ofMonth := ofYear % 2630016
    let ofDay := ofMonth % 86400
    " ".intercalate
      (pluralPart (d.seconds / 31557600) "year"
        ++ pluralPart (ofYear / 2630016) "month"
        ++ pluralPart (ofMonth / 86400) "day"
        ++ part (ofDay / 3600) "h"
        ++ part (ofDay % 3600 / 60) "m"
        ++ part (ofDay % 60) "s"
        ++ part (d.nanos / 1000000) "ms"
        ++ part (d.nanos / 1000 % 1000) "us"
        ++ part (d.nanos % 1000) "ns")

end Duration

end RowStore
