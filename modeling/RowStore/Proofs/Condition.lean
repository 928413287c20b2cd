import RowStore.Proofs.Action
import RowStore.Store.Firing

/-!
# Conditions on rows

* `Expr.eval_of_free` : an expression that draws from no sequence yields the same whatever the
  sequences are, and leaves them alone;
* `Expr.FalseOn` : it is false of a row;
* `Constraint.Condemns`, `Table.Passes` : a constraint, or a table, has a condition that is false of a
  row, or none;
* `not_condemns_of_checked` : a row that was checked is not condemned.
-/

namespace RowStore
open RowStore.Action RowStore.Store

namespace Expr
variable {e : Expr} {r : Row}

theorem eval_of_free (h : e.sequences = []) (row : Option Row) :
    ∃ came, e.eval row = ofExcept came := by
  induction e with
  | literal v => exact ⟨.ok v, rfl⟩
  | column place name =>
    unfold eval
    cases row with
    | none => exact ⟨.ok .null, rfl⟩
    | some r =>
      dsimp only
      split
      · rename_i v hv
        exact ⟨.ok v, rfl⟩
      · exact ⟨.error _, rfl⟩
  | nextValue ref => cases h
  | add x y hx hy | compare op x y hx hy =>
    obtain ⟨hxs, hys⟩ := List.append_eq_nil_iff.1 h
    obtain ⟨a, ha⟩ := hx hxs
    obtain ⟨b, hb⟩ := hy hys
    unfold eval
    rw [ha, hb]
    cases a with
    | error cause => exact ⟨.error cause, rfl⟩
    | ok v =>
      cases b with
      | error cause => exact ⟨.error cause, rfl⟩
      | ok w => exact ⟨_, rfl⟩

def FalseOn (e : Expr) (r : Row) : Prop :=
  ∃ n n' : Numbering, e.eval (some r) n = .ok (.boolean false) n'

/-- The key of a row does not matter. -/
theorem eval_withKey (e : Expr) (r : Row) (key : Option RowKey) :
    e.eval (some { r with key := key }) = e.eval (some r) := by
  induction e with
  | literal v | column place name | nextValue ref => rfl
  | add x y hx hy | compare op x y hx hy =>
    unfold eval
    rw [hx, hy]

/-- What draws from no sequence is false of a row however the sequences stand, or not at all. -/
theorem FalseOn.eval (h : e.FalseOn r) (hfree : e.sequences = []) :
    e.eval (some r) = pure (.boolean false) := by
  obtain ⟨came, he⟩ := eval_of_free hfree (some r)
  obtain ⟨n, n', hn⟩ := h
  rw [he] at hn ⊢
  cases came with
  | error cause => cases hn
  | ok v =>
    cases hn
    rfl

end Expr

/-- The constraint is a condition that draws from no sequence, is checked before a change, and is false
of a row. -/
def Constraint.Condemns (c : Constraint) (r : Row) : Prop :=
  ∃ e columns, c.rule = .condition e columns ∧ c.before = true ∧ e.sequences = [] ∧ e.FalseOn r

def Table.Passes (t : Table) (r : Row) : Prop := ∀ c ∈ t.constraints, ¬ c.Condemns r

theorem Table.Passes.withKey {t : Table} {r : Row} (h : t.Passes r) (key : Option RowKey) :
    t.Passes { r with key := key } := by
  rintro c hc ⟨e, columns, hrule, hbefore, hfree, n, n', hfalse⟩
  rw [e.eval_withKey] at hfalse
  exact h c hc ⟨e, columns, hrule, hbefore, hfree, n, n', hfalse⟩

/-- A check of a row does not succeed on one that is condemned. -/
theorem not_condemns_of_checked {c : Constraint} {rows u : Nat} {old : Option Row} {r : Row}
    {s s' : Store} (h : onChecks u (c.checkRow rows old (some r)) s = .ok () s') :
    ¬ c.Condemns r := by
  rintro ⟨e, columns, hrule, -, hfree, hfalse⟩
  have hrefused : c.checkRow rows old (some r) =
      refuse (.checkViolated c.name (e.sql ++ " on " ++ r.render)) := by
    unfold Constraint.checkRow
    rw [hrule]
    dsimp only
    unfold Constraint.checkCondition CheckState.onNumbering
    rw [hfalse.eval hfree]
    rfl
  rw [hrefused] at h
  cases h

end RowStore
