import RowStore.Error

/-!
# Actions

* `Action σ α` : changes a state `σ` and either yields an `α` or fails; what was changed before a
  failure stays changed;
* `Action.refuse` : fails for a cause;
* `Action.slot` : the content of a place that must exist;
* `Action.within` : an action on a part of a larger state.
-/

namespace RowStore

/-- A step on a state that yields a result or a fault.  A fault keeps the state it arose in. -/
abbrev Action (σ α : Type) := EStateM Fault σ α

namespace Action

variable {σ τ α : Type}

def refuse (cause : StoreError) : Action σ α := throw (.error cause)

def ofExcept : Except StoreError α → Action σ α
  | .ok x => pure x
  | .error cause => refuse cause

def slot : Option α → Action σ α
  | some x => pure x
  | none => throw .outOfRange

/-- Runs an action on the part `get` of a larger state, which `set` puts back. -/
def within (get : τ → σ) (set : σ → τ → τ) (act : Action σ α) : Action τ α := fun t =>
  match act (get t) with
  | .ok x s => .ok x (set s t)
  | .error fault s => .error fault (set s t)

end Action

end RowStore
