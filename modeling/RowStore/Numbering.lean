import RowStore.OrderedMap
import RowStore.Sequence
import RowStore.Value.Basic

/-!
# Numbering

* `SequenceRef` : a sequence as expressions and columns name it;
* `Numbering` : the sequences of a store and the identity value a session drew last;
* `Numbering.draw`, `Numbering.observe` : the next number of a sequence, and stepping past one.
-/

namespace RowStore

/-- A sequence, by number and name. -/
structure SequenceRef where
  /-- Its number in the catalog. -/
  id : Nat
  name : String
deriving DecidableEq

/-- The sequences, and the identity value drawn last. -/
structure Numbering where
  sequences : OrderedMap Nat Sequence := ∅
  /-- The identity value drawn last. -/
  lastIdentity : Option Value := none

namespace Numbering

def draw (ref : SequenceRef) : Action Numbering Int := do
  let numbering ← get
  match numbering.sequences.find? ref.id with
  | none => Action.refuse (.internal ("sequence `" ++ ref.name ++ "` does not exist"))
  | some s =>
    match s.draw? with
    | none => Action.refuse (.sequenceExhausted ref.name)
    | some (v, s) =>
      set { numbering with sequences := numbering.sequences.insert ref.id s }
      pure v

/-- Steps a sequence past a number. -/
def observe (ref : SequenceRef) (v : Int) : Action Numbering Unit :=
  modify fun numbering =>
    { numbering with sequences := numbering.sequences.adjust ref.id (·.observe v) }

def remember (v : Value) : Action Numbering Unit :=
  modify ({ · with lastIdentity := some v })

end Numbering

end RowStore
