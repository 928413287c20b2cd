import RowStore.Proofs.Action
import RowStore.Store.Mutation

/-!
# What a session does, step by step

* `Script` : actions on the store, one after the other, between which other sessions may act;
* `Script.step`, `Script.takeLock` : scripts of one step;
* `Script.run` : what a script does while no other session acts, with a lemma for each way in which
  scripts are put together.
-/

namespace RowStore
open RowStore.Action RowStore.Store

/-- What a session does, one step after the other.  What comes next depends on what came of a step. -/
inductive Script (α : Type) : Type 1 where
  /-- It is done. -/
  | done (a : α)
  /-- It is refused. -/
  | fail (fault : Fault)
  /-- An action on the store. -/
  | act {β : Type} (a : Action Store β) (next : Except Fault β → Script α)
  /-- Takes the lock of a table, and may wait for that. -/
  | lock (t : Nat) (exclusive force : Bool) (next : Except Fault Unit → Script α)

namespace Script

variable {α β : Type}

protected def bind : Script α → (α → Script β) → Script β
  | done a, f => f a
  | fail fault, _ => fail fault
  | act a next, f => act a fun r => (next r).bind f
  | lock t exclusive force next, f => lock t exclusive force fun r => (next r).bind f

instance : Monad Script where
  pure := done
  bind := Script.bind

def ofResult : Except Fault α → Script α
  | .ok a => done a
  | .error fault => fail fault

def step (a : Action Store α) : Script α := act a ofResult

def takeLock (t : Nat) (exclusive force : Bool) : Script Unit := lock t exclusive force ofResult

def table (t : Nat) : Script Table := step do return (← get).table t

/-! ## While no other session acts -/

/-- Runs a script while no other session acts. -/
def run (u : Nat) : Script α → Action Store α
  | done a => pure a
  | fail fault => throw fault
  | act a next => fun s => (next (result a s)).run u (final a s)
  | lock t exclusive force next => fun s =>
    (next (result (Store.lock t u exclusive force) s)).run u (final (Store.lock t u exclusive force) s)

section Run
variable {u t : Nat}

@[simp] theorem run_pure (a : α) : (pure a : Script α).run u = pure a := rfl

@[simp] theorem run_fail (fault : Fault) : (fail fault : Script α).run u = throw fault := rfl

@[simp] theorem run_bind (x : Script α) (f : α → Script β) :
    (x >>= f).run u = x.run u >>= fun a => (f a).run u := by
  change (x.bind f).run u = _
  induction x with
  | done a => exact (pure_bind a fun a => (f a).run u).symm
  | fail fault => rfl
  | act a next ih =>
    funext s
    exact congrFun (ih (result a s)) (final a s)
  | lock t exclusive force next ih =>
    funext s
    exact congrFun (ih (result (Store.lock t u exclusive force) s)) _

theorem run_ofResult (a : Action Store α) (s : Store) :
    (ofResult (result a s)).run u (final a s) = a s := by
  unfold result final
  cases a s <;> rfl

@[simp] theorem run_step (a : Action Store α) : (step a).run u = a :=
  funext (run_ofResult a)

@[simp] theorem run_takeLock (exclusive force : Bool) :
    (takeLock t exclusive force).run u = Store.lock t u exclusive force :=
  funext (run_ofResult (Store.lock t u exclusive force))

@[simp] theorem run_table : (table t).run u = do return (← get).table t := run_step _

@[simp] theorem run_ite {p : Prop} [Decidable p] (x y : Script α) :
    (if p then x else y).run u = if p then x.run u else y.run u := apply_ite _ _ _ _

@[simp] theorem run_forM {γ : Type} (f : γ → Script Unit) (xs : List γ) :
    (xs.forM f).run u = xs.forM fun x => (f x).run u := by
  induction xs with
  | nil => rfl
  | cons x xs ih => exact (run_bind _ _).trans (congrArg _ (funext fun _ => ih))

end Run

end Script

end RowStore
