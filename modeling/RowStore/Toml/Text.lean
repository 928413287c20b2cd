import RowStore.Text.Numeral

/-!
# Texts and gaps in configuration files

* `skipSpaces`, `skipGap`, `lineEnd?` : spaces, spaces over several lines, the end of a line;
* `readBasic?`, `readLiteral?` and their forms over several lines : the four kinds of quoted text.

Every reader takes the characters that follow and yields what it read with those that remain.
-/

namespace RowStore.Toml

def isSpace (c : Char) : Bool := c == ' ' || c == '\t'

/-- A character that comments and texts may hold: a tab, or anything that is no control character of
ASCII. -/
def isPlain (c : Char) : Bool := c == '\t' || (0x20 ≤ c.toNat && c.toNat ≠ 0x7f)

def skipSpaces (cs : List Char) : List Char := cs.dropWhile isSpace

def skipGap (inComment : Bool) : List Char → Option (List Char)
  | [] => some []
  | '\n' :: cs => skipGap false cs
  | '\r' :: '\n' :: cs => skipGap false cs
  | c :: cs =>
    if inComment then (if isPlain c then skipGap true cs else none)
    else if isSpace c then skipGap false cs
    else if c = '#' then skipGap true cs
    else some (c :: cs)

/-- What follows a line end; the end of the file is one. -/
def newline? : List Char → Option (List Char)
  | [] => some []
  | '\n' :: cs => some cs
  | '\r' :: '\n' :: cs => some cs
  | _ => none

/-- What follows the rest of a line, which holds nothing but spaces and a comment. -/
def lineEnd? (cs : List Char) : Option (List Char) :=
  match skipSpaces cs with
  | '#' :: cs => newline? (cs.dropWhile isPlain)
  | cs => newline? cs

/-! ## Quoted texts -/

def hexDigit? (c : Char) : Option Nat :=
  if c.isDigit then some (c.toNat - '0'.toNat)
  else if 'a' ≤ c ∧ c ≤ 'f' then some (c.toNat - 'a'.toNat + 10)
  else if 'A' ≤ c ∧ c ≤ 'F' then some (c.toNat - 'A'.toNat + 10)
  else none

/-- The character with a code point of `count` hexadecimal digits. -/
def readCodePoint? (count : Nat) (cs : List Char) : Option Char := do
  let digits ← (cs.take count).mapM hexDigit?
  if digits.length < count then none
  let n := digits.foldl (fun n d => 16 * n + d) 0
  if n.isValidChar then some (Char.ofNat n) else none

def escaped? : Char → Option Char
  | 'b' => some '\x08'
  | 't' => some '\t'
  | 'n' => some '\n'
  | 'f' => some '\x0c'
  | 'r' => some '\r'
  | '"' => some '"'
  | '\\' => some '\\'
  | _ => none

/-- The character after a backslash, with the number of characters it takes. -/
def readEscape? : List Char → Option (Char × Nat)
  | 'u' :: cs => (readCodePoint? 4 cs).map (·, 5)
  | 'U' :: cs => (readCodePoint? 8 cs).map (·, 9)
  | c :: _ => (escaped? c).map (·, 1)
  | [] => none

/-- The rest of a text between quotation marks on one line.  `skip` characters belong to an escape
that was read already. -/
def readBasic? (skip : Nat) : List Char → Option (List Char × List Char)
  | [] => none
  | c :: cs =>
    match skip with
    | skip + 1 => readBasic? skip cs
    | 0 =>
      if c = '"' then some ([], cs)
      else if c = '\\' then
        match readEscape? cs with
        | some (e, taken) => (readBasic? taken cs).map fun r => (e :: r.1, r.2)
        | none => none
      else if isPlain c then (readBasic? 0 cs).map fun r => (c :: r.1, r.2)
      else none

def readLiteral? (cs : List Char) : Option (List Char × List Char) :=
  match cs.dropWhile fun c => isPlain c && c != '\'' with
  | '\'' :: rest => some (cs.takeWhile fun c => isPlain c && c != '\'', rest)
  | _ => none

/-- The number of characters before the next one that belongs to no space and no line end. -/
def gapLength : List Char → Nat
  | '\r' :: '\n' :: cs => gapLength cs + 2
  | c :: cs => if isSpace c || c == '\n' then gapLength cs + 1 else 0
  | [] => 0

/-- The length of the gap after a backslash that ends its line; none if the line goes on. -/
def foldedLength? (cs : List Char) : Option Nat :=
  match skipSpaces cs with
  | '\n' :: _ | '\r' :: '\n' :: _ => some (gapLength cs)
  | _ => none

def markRun (mark : Char) (cs : List Char) : Nat := ((cs.take 5).takeWhile (· == mark)).length

/-- The rest of a text over several lines, up to three marks.  Up to two more marks before them belong
to the text, and every line ends in a line feed there.  Escapes are read where `escapes` is set. -/
def readLong? (mark : Char) (escapes : Bool) (skip : Nat) :
    List Char → Option (List Char × List Char)
  | [] => none
  | c :: cs =>
    match skip with
    | skip + 1 => readLong? mark escapes skip cs
    | 0 =>
      let run := markRun mark (c :: cs)
      if 3 ≤ run then some (List.replicate (run - 3) mark, (c :: cs).drop run)
      else if escapes && c == '\\' then
        match foldedLength? cs, readEscape? cs with
        | some taken, _ => readLong? mark escapes taken cs
        | none, some (e, taken) => (readLong? mark escapes taken cs).map fun r => (e :: r.1, r.2)
        | none, none => none
      else if isPlain c || c == '\n' then
        (readLong? mark escapes 0 cs).map fun r => (c :: r.1, r.2)
      else if c == '\r' && cs.head? == some '\n' then readLong? mark escapes 0 cs
      else none

/-- What follows a line end right after the opening marks. -/
def skipFirstNewline : List Char → List Char
  | '\n' :: cs => cs
  | '\r' :: '\n' :: cs => cs
  | cs => cs

def readString? : List Char → Option (String × List Char)
  | '"' :: '"' :: '"' :: cs => (readLong? '"' true 0 (skipFirstNewline cs)).map pack
  | '\'' :: '\'' :: '\'' :: cs => (readLong? '\'' false 0 (skipFirstNewline cs)).map pack
  | '"' :: cs => (readBasic? 0 cs).map pack
  | '\'' :: cs => (readLiteral? cs).map pack
  | _ => none
where
  /-- The text of the characters read. -/
  pack (r : List Char × List Char) : String × List Char := (String.ofList r.1, r.2)

end RowStore.Toml
