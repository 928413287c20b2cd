import RowStore.Numbering
import RowStore.ObjectId
import RowStore.Row
import RowStore.Value.Convert

/-!
# Expressions

* `Expr` : literals, columns, the next number of a sequence, sums and comparisons;
* `Expr.eval` : the value of an expression on a row, or on none;
* `Expr.sql` : its text;
* `Expr.sequences`, `Expr.dependencies` : the sequences it draws from.

A sum or a comparison with NULL is NULL.  Other operands are first converted to their common type.
-/

namespace RowStore

/-- The relations that a comparison can ask for. -/
inductive CompareOp where
  | equal
  | notEqual
  | less
  | lessOrEqual
  | greater
  | greaterOrEqual
deriving DecidableEq

namespace CompareOp

/-- The relation holds between two values that stand in the given order. -/
def holds : CompareOp → Ordering → Bool
  | equal, o => o == .eq
  | notEqual, o => o != .eq
  | less, o => o == .lt
  | lessOrEqual, o => o != .gt
  | greater, o => o == .gt
  | greaterOrEqual, o => o != .lt

def sign : CompareOp → String
  | equal => "="
  | notEqual => "<>"
  | less => "<"
  | lessOrEqual => "<="
  | greater => ">"
  | greaterOrEqual => ">="

def all : List CompareOp := [equal, notEqual, less, lessOrEqual, greater, greaterOrEqual]

def signed? (s : String) : Option CompareOp := all.find? (·.sign == s)

end CompareOp

/-- An expression over the columns of a row. -/
inductive Expr where
  | literal (v : Value)
  /-- The column at a place. -/
  | column (place : Nat) (name : String)
  /-- The next number of a sequence. -/
  | nextValue (sequence : SequenceRef)
  | add (left right : Expr)
  | compare (op : CompareOp) (left right : Expr)
deriving DecidableEq

namespace Expr

def sql : Expr → String
  | literal v => v.sql
  | column _ name => Text.identifier name
  | nextValue s => "NEXT VALUE FOR " ++ Text.identifier s.name
  | add a b => "(" ++ a.sql ++ " + " ++ b.sql ++ ")"
  | compare op a b => "(" ++ a.sql ++ " " ++ op.sign ++ " " ++ b.sql ++ ")"

def sequences : Expr → List SequenceRef
  | literal _ => []
  | column .. => []
  | nextValue s => [s]
  | add a b => a.sequences ++ b.sequences
  | compare _ a b => a.sequences ++ b.sequences

def dependencies (e : Expr) : List ObjectId :=
  e.sequences.map fun s => ⟨.sequence, s.id⟩

/-- The sum of two values of one type.  A sum of 32-bit integers that does not fit is one of 64
bits. -/
def sum : Value → Value → Except StoreError Value
  | .int a, .int b =>
    match fit32? (a.toInt + b.toInt) with
    | some n => .ok (.int n)
    | none => .ok (.bigInt (Int64.ofInt (a.toInt + b.toInt)))
  | .bigInt a, .bigInt b =>
    match fit64? (a.toInt + b.toInt) with
    | some n => .ok (.bigInt n)
    | none =>
      .error (.dataConversion (toString a.toInt ++ " + " ++ toString b.toInt) .bigInt)
  | .double a, .double b => .ok (.double (a.add b))
  | a, _ => .error (.unsupported ("addition of " ++ a.dataType.name ++ " values"))

/-- Applies an operation of one type to two values: NULL with NULL, otherwise on their counterparts
in the common type. -/
def lifted (op : Value → Value → Except StoreError Value) (a b : Value) :
    Except StoreError Value := do
  if a.isNull || b.isNull then
    return .null
  let type ← DataType.common a.dataType b.dataType
  op (← a.convertTo type) (← b.convertTo type)

/-- The value of an expression on a row; without a row, columns are NULL. -/
def eval (row : Option Row) : Expr → Action Numbering Value
  | literal v => pure v
  | column place name =>
    match row with
    | none => pure .null
    | some r =>
      match r.value? place with
      | some v => pure v
      | none => Action.refuse (.columnNotFound name)
  | nextValue s => do
    let n ← Numbering.draw s
    pure (.bigInt (Int64.ofInt n))
  | add a b => do
    let x ← a.eval row
    let y ← b.eval row
    Action.ofExcept (lifted sum x y)
  | compare op a b => do
    let x ← a.eval row
    let y ← b.eval row
    Action.ofExcept (lifted (fun v w => .ok (.boolean (op.holds (v.compare w)))) x y)

end Expr

end RowStore
