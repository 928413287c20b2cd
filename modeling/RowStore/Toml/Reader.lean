import RowStore.Toml.Scalar
import RowStore.Toml.Text
import RowStore.Toml.Tree

/-!
# Reading configuration files

* `readKey?` : dotted keys;
* `readValue?` : a value;
* `read?` : the tree of a file.

Values stand in at most `depthLimit` arrays and inline tables, and dotted keys have at most as many
parts.  The amounts of fuel are bounds on the number of characters; every step takes one.
-/

namespace RowStore.Toml

/-- How many arrays and inline tables may stand around a value, and how many parts a key may have. -/
def depthLimit : Nat := 79

def isBare (c : Char) : Bool := c.isAlphanum || c == '-' || c == '_'

def readSimpleKey? (cs : List Char) : Option (String × List Char) :=
  match cs with
  | '"' :: _ | '\'' :: _ =>
    if markRun '"' cs < 3 ∧ markRun '\'' cs < 3 then readString? cs else none
  | _ =>
    match cs.takeWhile isBare with
    | [] => none
    | key => some (String.ofList key, cs.dropWhile isBare)

/-- Up to `parts` keys with points between them: those before the last, and the last. -/
def readKey? (parts : Nat) (cs : List Char) : Option ((List String × String) × List Char) :=
  match parts with
  | 0 => none
  | parts + 1 => do
    let (key, rest) ← readSimpleKey? cs
    match skipSpaces rest with
    | '.' :: rest =>
      let ((path, last), rest) ← readKey? parts (skipSpaces rest)
      pure ((key :: path, last), rest)
    | _ => pure (([], key), rest)

def isWordChar (c : Char) : Bool :=
  c.isAlphanum || c == '+' || c == '-' || c == '_' || c == '.' || c == ':'

/-- The length of a word; one space may stand between a date and a time. -/
def wordLength (cs : List Char) : Nat :=
  let length := (cs.takeWhile isWordChar).length
  match cs.drop length with
  | ' ' :: c :: rest =>
    if length = 10 ∧ isMoment (cs.take 10) ∧ c.isDigit then
      11 + ((c :: rest).takeWhile isWordChar).length
    else length
  | _ => length

def readWord? (cs : List Char) : Option (Toml × List Char) :=
  let length := wordLength cs
  let word := cs.take length
  let rest := cs.drop length
  if word = "true".toList then some (.boolean true, rest)
  else if word = "false".toList then some (.boolean false, rest)
  else if isScalar word then some (.scalar, rest)
  else none

mutual

/-- A value that holds others up to `depth` levels deep. -/
def readValue? (fuel depth : Nat) (cs : List Char) : Option (Toml × List Char) :=
  match fuel with
  | 0 => none
  | fuel + 1 =>
    match cs, depth with
    | '"' :: _, _ | '\'' :: _, _ => (readString? cs).map fun r => (.string r.1, r.2)
    | '[' :: _, 0 | '{' :: _, 0 => none
    | '[' :: cs, depth + 1 => (readItems? fuel depth cs).map fun r => (.array r.1, r.2)
    | '{' :: cs, depth + 1 =>
      match skipSpaces cs with
      | '}' :: cs => some (.table .inline [], cs)
      | cs => (readPairs? fuel depth cs []).map fun r => (.table .inline r.1, r.2)
    | cs, _ => readWord? cs

def readItems? (fuel depth : Nat) (cs : List Char) : Option (List Toml × List Char) :=
  match fuel with
  | 0 => none
  | fuel + 1 => do
    match ← skipGap false cs with
    | ']' :: cs => pure ([], cs)
    | cs =>
      let (item, cs) ← readValue? fuel depth cs
      match ← skipGap false cs with
      | ',' :: cs =>
        let (items, cs) ← readItems? fuel depth cs
        pure (item :: items, cs)
      | ']' :: cs => pure ([item], cs)
      | _ => none

def readPairs? (fuel depth : Nat) (cs : List Char) (entries : Entries) :
    Option (Entries × List Char) :=
  match fuel with
  | 0 => none
  | fuel + 1 => do
    let ((path, key), cs) ← readKey? depthLimit cs
    let cs ← expect? '=' (skipSpaces cs)
    let (node, cs) ← readValue? fuel depth (skipSpaces cs)
    let entries ← put path key node entries
    match skipSpaces cs with
    | ',' :: cs => readPairs? fuel depth (skipSpaces cs) entries
    | '}' :: cs => pure (entries, cs)
    | _ => none

end

/-- Reads a header after its brackets: the keys, and what follows the closing brackets. -/
def readHeader? (closing : List Char) (cs : List Char) :
    Option ((List String × String) × List Char) := do
  let (keys, cs) ← readKey? depthLimit (skipSpaces cs)
  let cs := skipSpaces cs
  if closing.isPrefixOf cs then pure (keys, cs.drop closing.length) else none

/-- Reads one line that is not blank, and what follows its content. -/
def readEntry? (d : Document) (cs : List Char) : Option (Document × List Char) :=
  match cs with
  | '[' :: '[' :: cs => do
    let ((path, key), cs) ← readHeader? [']', ']'] cs
    pure (← d.openItem path key, cs)
  | '[' :: cs => do
    let ((path, key), cs) ← readHeader? [']'] cs
    pure (← d.openTable path key, cs)
  | cs => do
    let ((path, key), cs) ← readKey? depthLimit cs
    let cs ← expect? '=' (skipSpaces cs)
    let (node, cs) ← readValue? (2 * cs.length + 2) depthLimit (skipSpaces cs)
    pure (← d.put path key node, cs)

def readLines? (fuel : Nat) (d : Document) (cs : List Char) : Option Document :=
  match fuel with
  | 0 => none
  | fuel + 1 => do
    match ← skipGap false cs with
    | [] => pure d
    | cs =>
      let (d, cs) ← readEntry? d cs
      readLines? fuel d (← lineEnd? cs)

def skipMark : List Char → List Char
  | c :: cs => if c.toNat = 0xfeff then cs else c :: cs
  | [] => []

def read? (s : String) : Option Entries := do
  let d ← readLines? (s.length + 1) {} (skipMark s.toList)
  d.close

end RowStore.Toml
