/-!
# Collations

* `Collation` : how texts are compared;
* `Collation.compare` : the order it gives.
-/

namespace RowStore

/-- How texts are compared. -/
inductive Collation where
  /-- By code point. -/
  | binary
  /-- By code point, after ASCII capitals are made small. -/
  | ignoreCase
deriving DecidableEq

namespace Collation

def key : Collation → String → String
  | binary, s => s
  | ignoreCase, s => String.ofList (s.toList.map Char.toLower)

protected def compare (c : Collation) (a b : String) : Ordering :=
  Ord.compare (c.key a) (c.key b)

def name : Collation → String
  | binary => "binary"
  | ignoreCase => "ignore-case"

def named? : String → Option Collation
  | "binary" => some binary
  | "ignore-case" => some ignoreCase
  | _ => none

end Collation

end RowStore
