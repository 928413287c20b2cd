import RowStore.Action

/-!
# Sequences

* `SequenceRule` : bounds, step and start of a sequence; `SequenceRule.identity` : that of an
  identity column;
* `Sequence` : a rule and how far it has come; `Sequence.create` checks the rule;
* `Sequence.draw?` : hands out the next number;
* `Sequence.observe` : steps past a number that was supplied from outside.
-/

namespace RowStore

structure SequenceRule where
  /-- Its number in the catalog. -/
  id : Nat
  name : String
  start : Int
  /-- The distance from one number to the next. -/
  increment : Int
  least : Int
  greatest : Int
  /-- Past one bound the sequence goes on from the other. -/
  cycles : Bool
  /-- The sequence was made for an identity column. -/
  belongsToTable : Bool
deriving DecidableEq

namespace SequenceRule

/-- The rule of an identity column: `start`, `start + 1` and so on. -/
def identity (id : Nat) (name : String) (start : Int) : SequenceRule where
  id := id
  name := name
  start := start
  increment := 1
  least := min start 1
  greatest := Int64.maxValue.toInt
  cycles := false
  belongsToTable := true

def inBounds (r : SequenceRule) (v : Int) : Bool := r.least ≤ v && v ≤ r.greatest

/-- What is wrong with a rule, if anything; the first of several faults. -/
def fault? (r : SequenceRule) : Option String :=
  if r.increment = 0 then some "increment must be non-zero"
  else if r.greatest ≤ r.least then
    some ("max value " ++ toString r.greatest ++ " must be greater than min value "
      ++ toString r.least)
  else if !r.inBounds r.start then
    some ("start value " ++ toString r.start ++ " is out of bounds [" ++ toString r.least ++ ", "
      ++ toString r.greatest ++ "]")
  else none

/-- The number after `v` when the sequence goes round at its bounds. -/
def successor (r : SequenceRule) (v : Int) : Int :=
  let next := v + r.increment
  let span := r.greatest - r.least + 1
  if 0 < r.increment then
    if r.greatest < next then r.least + (next - r.greatest - 1) % span else next
  else if next < r.least then r.greatest - (r.least - next - 1) % span
  else next

end SequenceRule

/-- A sequence: its rule and how far it has come. -/
structure Sequence where
  /-- What it hands out. -/
  rule : SequenceRule
  /-- The number to be handed out next; stale once the sequence is exhausted. -/
  next : Int
  /-- The number handed out or stepped past last. -/
  current : Option Int
  /-- There is no further number. -/
  exhausted : Bool
deriving DecidableEq

namespace Sequence

def create (r : SequenceRule) : Except StoreError Sequence :=
  match r.fault? with
  | some what => .error (.internal ("sequence `" ++ r.name ++ "`: " ++ what))
  | none => .ok ⟨r, r.start, none, false⟩

/-- Steps past the number `v`. -/
def advance (s : Sequence) (v : Int) : Sequence :=
  let s := { s with current := some v }
  if s.rule.inBounds (v + s.rule.increment) then { s with next := v + s.rule.increment }
  else if s.rule.cycles then { s with next := s.rule.successor v }
  else { s with exhausted := true }

def draw? (s : Sequence) : Option (Int × Sequence) :=
  if s.exhausted then none else some (s.next, s.advance s.next)

/-- The number `v` is the next one or lies beyond it. -/
def reaches (s : Sequence) (v : Int) : Bool :=
  if 0 < s.rule.increment then s.next ≤ v else v ≤ s.next

/-- Steps past a number that was supplied from outside, so that it is not handed out later. -/
def observe (s : Sequence) (v : Int) : Sequence :=
  if s.reaches v && s.rule.inBounds v then s.advance v else s

end Sequence

end RowStore
