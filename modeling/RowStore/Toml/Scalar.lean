import RowStore.Binary64.Reader

/-!
# Numbers and dates in configuration files

* `isInteger`, `isFloat`, `isMoment` : a word is an integer of 64 bits, a floating-point number, a
  date or a time;
* `isScalar` : one of these.

Only whether a word has one of these forms is of interest: no option is a number or a date.
-/

namespace RowStore.Toml

/-- Digits of a kind, with single underscores between them; the digits alone. -/
def splitDigits? (isDigit : Char → Bool) : List Char → Option (List Char)
  | [] => none
  | [c] => if isDigit c then some [c] else none
  | c :: '_' :: cs => if isDigit c then (splitDigits? isDigit cs).map (c :: ·) else none
  | c :: cs => if isDigit c then (splitDigits? isDigit cs).map (c :: ·) else none

/-- The digits of a decimal integer: no leading zero but zero itself. -/
def decimalDigits? (cs : List Char) : Option (List Char) :=
  match splitDigits? Char.isDigit cs with
  | some ('0' :: _ :: _) => none
  | digits => digits

def isOctal (c : Char) : Bool := '0' ≤ c && c ≤ '7'

def isBinary (c : Char) : Bool := c == '0' || c == '1'

def isHex (c : Char) : Bool :=
  c.isDigit || ('a' ≤ c && c ≤ 'f') || ('A' ≤ c && c ≤ 'F')

def digitValue (c : Char) : Nat :=
  if c.isDigit then c.toNat - '0'.toNat else c.toLower.toNat - 'a'.toNat + 10

/-- The least natural number that no integer of 64 bits is, `2 ^ 63`. -/
def integerLimit : Nat := 0x8000000000000000

def fitsBase (base : Nat) (digits : List Char) : Bool :=
  digits.foldl (fun n c => base * n + digitValue c) 0 < integerLimit

def isInteger : List Char → Bool
  | '0' :: 'x' :: cs => ((splitDigits? isHex cs).map (fitsBase 16)).getD false
  | '0' :: 'o' :: cs => ((splitDigits? isOctal cs).map (fitsBase 8)).getD false
  | '0' :: 'b' :: cs => ((splitDigits? isBinary cs).map (fitsBase 2)).getD false
  | cs =>
    let (negative, body) := Binary64.splitSign cs
    match decimalDigits? body with
    | none => false
    | some digits => Nat.ofDigitChars 10 digits 0 < integerLimit + if negative then 1 else 0

def isExponent : List Char → Bool
  | c :: cs => (c == 'e' || c == 'E') &&
      (splitDigits? Char.isDigit (Binary64.splitSign cs).2).isSome
  | [] => false

def isFloatTail : List Char → Bool
  | '.' :: cs =>
    let digits := cs.takeWhile fun c => c.isDigit || c == '_'
    let rest := cs.dropWhile fun c => c.isDigit || c == '_'
    (splitDigits? Char.isDigit digits).isSome && (rest.isEmpty || isExponent rest)
  | cs => isExponent cs

/-- The word is a floating-point number; one that is too great is none. -/
def isFloat (cs : List Char) : Bool :=
  let body := (Binary64.splitSign cs).2
  if body = ['i', 'n', 'f'] ∨ body = ['n', 'a', 'n'] then true
  else
    let whole := body.takeWhile fun c => c.isDigit || c == '_'
    let rest := body.dropWhile fun c => c.isDigit || c == '_'
    (decimalDigits? whole).isSome && isFloatTail rest &&
      Binary64.read? (String.ofList (cs.filter (· != '_'))) != some (Binary64.infinity false)

/-! ## Dates and times -/

/-- A number of exactly `count` digits within bounds, and what follows it. -/
def readField? (count least greatest : Nat) (cs : List Char) : Option (Nat × List Char) :=
  let digits := cs.take count
  if digits.length = count ∧ digits.all Char.isDigit then
    let n := Nat.ofDigitChars 10 digits 0
    if least ≤ n ∧ n ≤ greatest then some (n, cs.drop count) else none
  else none

def daysOfMonth (year month : Nat) : Nat :=
  if month = 2 then
    if year % 4 = 0 ∧ (year % 100 ≠ 0 ∨ year % 400 = 0) then 29 else 28
  else if month = 4 ∨ month = 6 ∨ month = 9 ∨ month = 11 then 30 else 31

def expect? (c : Char) : List Char → Option (List Char)
  | d :: cs => if d = c then some cs else none
  | [] => none

def skipDate? (cs : List Char) : Option (List Char) := do
  let (year, cs) ← readField? 4 0 9999 cs
  let cs ← expect? '-' cs
  let (month, cs) ← readField? 2 1 12 cs
  let cs ← expect? '-' cs
  let (_, cs) ← readField? 2 1 (daysOfMonth year month) cs
  pure cs

def skipSecondFraction? : List Char → Option (List Char)
  | '.' :: c :: cs => if c.isDigit then some (cs.dropWhile Char.isDigit) else none
  | '.' :: [] => none
  | cs => some cs

def skipTime? (cs : List Char) : Option (List Char) := do
  let (_, cs) ← readField? 2 0 23 cs
  let cs ← expect? ':' cs
  let (_, cs) ← readField? 2 0 59 cs
  let cs ← expect? ':' cs
  let (_, cs) ← readField? 2 0 60 cs
  skipSecondFraction? cs

def isOffset : List Char → Bool
  | [] | ['Z'] | ['z'] => true
  | sign :: cs =>
    (sign == '+' || sign == '-') &&
      (do
        let (_, cs) ← readField? 2 0 23 cs
        let cs ← expect? ':' cs
        let (_, cs) ← readField? 2 0 59 cs
        pure cs.isEmpty).getD false

/-- The word is a date, a time of day, or both. -/
def isMoment (cs : List Char) : Bool :=
  skipTime? cs == some [] ||
    match skipDate? cs with
    | some [] => true
    | some (mark :: rest) =>
      (mark == 'T' || mark == 't' || mark == ' ') && ((skipTime? rest).map isOffset).getD false
    | none => false

def isScalar (cs : List Char) : Bool := isInteger cs || isFloat cs || isMoment cs

end RowStore.Toml
