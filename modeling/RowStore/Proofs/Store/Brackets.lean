import RowStore.Proofs.Store.Onward

/-!
# What is fired around a change of a row

* `Table.Recording` : the triggers and constraints of a table do nothing but leave records, handle all
  changes or none, and refuse a value in a column;
* `Table.bracket`, `Table.handles`, `Table.refusal?` : what they record before or after a change, whether
  one handles it and what refuses it;
* `Store.Adds`, `Store.Fires` : a store that has records more, and the same rows and logs;
* `fireBeforeRow_eq`, `fireAfterRow_eq` : that is what comes before and after a change.
-/

namespace RowStore
open RowStore.Action

/-! ## Records around a change -/

/-- The members of a list up to the first that satisfies `p`, and with it. -/
def upTo {α : Type} (p : α → Bool) : List α → List α
  | [] => []
  | x :: xs => if p x then [x] else x :: upTo p xs

/-- What becomes of one row. -/
structure Edit where
  old : Option Row
  new : Option Row

/-- The triggers of a table leave a record and handle all changes or none.  Its constraints leave a record
and refuse a value in one of the columns, or nothing. -/
structure Table.Recording (table : Table) : Prop where
  triggers : ∀ x ∈ table.triggers, x.script = none
  constraints : ∀ c ∈ table.constraints, ∃ column rejected, c.rule = .recorded column rejected ∧
    column < table.columns.width

/-- The table only records, and a new row has a cell for each of its columns. -/
structure Table.Covers (table : Table) (e : Edit) : Prop extends table.Recording where
  width : ∀ r, e.new = some r → r.width = table.columns.width

def Constraint.rejects (c : Constraint) (new : Option Row) : Bool :=
  match c.rule, new with
  | .recorded column (some v), some r => r.value? column == some v
  | _, _ => false

def Constraint.violation (c : Constraint) (new : Option Row) : StoreError :=
  .checkViolated c.name ((new.map Row.render).getD "")

/-- What triggers record on a change of a row, until one has handled it. -/
def firedBy (triggers : List Trigger) : List FireRecord :=
  (upTo (·.insteadOf) triggers).map fun x => .row x.name x.before false

def checkedBy (constraints : List Constraint) (new : Option Row) : List FireRecord :=
  (upTo (·.rejects new) constraints).map fun c => .checked c.name

namespace Table

/-- The triggers on a change of a row, in the order in which they were attached. -/
def rowTriggers (table : Table) (before : Bool) (e : Edit) : List Trigger :=
  table.triggers.filter (·.firesOnRow (.of e.old e.new) before)

def phaseConstraints (table : Table) (before : Bool) : List Constraint :=
  table.constraints.filter (·.before == before)

def handles (table : Table) (before : Bool) (e : Edit) : Bool :=
  (table.rowTriggers before e).any (·.insteadOf)

/-- The constraints are checked, unless a trigger has handled the change before it was made. -/
def checks (table : Table) (before : Bool) (e : Edit) : Bool := !(before && table.handles before e)

/-- What is recorded before or after a change: the triggers up to the first that handles it, and then the
constraints up to the first that rejects the new row. -/
def bracket (table : Table) (before : Bool) (e : Edit) : List FireRecord :=
  firedBy (table.rowTriggers before e) ++
    if table.checks before e then checkedBy (table.phaseConstraints before) e.new else []

def refusal? (table : Table) (before : Bool) (e : Edit) : Option StoreError :=
  if table.checks before e then
    ((table.phaseConstraints before).find? (·.rejects e.new)).map (·.violation e.new)
  else none

end Table

namespace Store
variable {t u : Nat} {s s' s'' : Store} {e : Edit} {records records' : List FireRecord}

/-- The fire log has grown by some records.  Tables, with their rows, and the logs of sessions are what
they were. -/
structure Adds (records : List FireRecord) (s s' : Store) : Prop where
  fired : s'.fired = s.fired ++ records
  tables : s'.tables = s.tables
  logs : ∀ v, s'.undoLog v = s.undoLog v

/-- Nothing was drawn from sequences either. -/
structure Fires (records : List FireRecord) (s s' : Store) : Prop extends Adds records s s' where
  numbering : ∀ v, s'.numbering v = s.numbering v

theorem Adds.table (h : Adds records s s') (t : Nat) : s'.table t = s.table t := by
  unfold Store.table
  rw [h.tables]

theorem Adds.trans (h : Adds records s s') (h' : Adds records' s' s'') :
    Adds (records ++ records') s s'' where
  fired := by rw [h'.fired, h.fired, List.append_assoc]
  tables := h'.tables.trans h.tables
  logs v := (h'.logs v).trans (h.logs v)

theorem fires_nil (s : Store) : Fires [] s s :=
  ⟨⟨(List.append_nil _).symm, rfl, fun _ => rfl⟩, fun _ => rfl⟩

theorem Fires.trans (h : Fires records s s') (h' : Fires records' s' s'') :
    Fires (records ++ records') s s'' :=
  ⟨h.toAdds.trans h'.toAdds, fun v => (h'.numbering v).trans (h.numbering v)⟩

/-! ## Triggers -/

theorem fires_withFired (s : Store) (records : List FireRecord) :
    Fires records s { s with fired := s.fired ++ records } :=
  ⟨⟨rfl, rfl, fun _ => rfl⟩, fun _ => rfl⟩

theorem fireUntilHandled_eq {xs : List Trigger} (h : ∀ x ∈ xs, x.script = none) (old new : Option Row)
    (log : FireLog) : fireUntilHandled old new false xs log = .ok (xs.any (·.insteadOf))
      (log ++ firedBy xs) := by
  induction xs generalizing log with
  | nil => exact congrArg _ (List.append_nil log).symm
  | cons x xs ih =>
    obtain ⟨hx, hxs⟩ := List.forall_mem_cons.1 h
    have hfire : x.fireRow old new false log =
        .ok x.insteadOf (log ++ [.row x.name x.before false]) := by
      unfold Trigger.fireRow
      rw [hx]
      rfl
    rw [fireUntilHandled, bind_of_ok hfire, List.any_cons, firedBy, upTo]
    cases x.insteadOf with
    | true => rfl
    | false =>
      refine (ih hxs _).trans ?_
      rw [List.append_assoc]
      rfl

theorem fireTriggers_eq (h : (s.table t).Recording) (before : Bool) (e : Edit) :
    ∃ s', Fires (firedBy ((s.table t).rowTriggers before e)) s s' ∧
      fireTriggers t before e.old e.new false s = .ok ((s.table t).handles before e) s' := by
  have hscripts : ∀ x ∈ (s.table t).rowTriggers before e, x.script = none :=
    fun x hx => h.triggers x (List.mem_of_mem_filter hx)
  refine ⟨_, fires_withFired s _, ?_⟩
  unfold fireTriggers
  rw [get_bind]
  exact within_of_ok (fireUntilHandled_eq hscripts e.old e.new s.fired)

/-! ## Constraints -/

/-- A session that is given the numbers it has, and records, is otherwise what it was. -/
theorem fires_setNumbering (s : Store) (u : Nat) (records : List FireRecord) :
    Fires records s { s.setNumbering u (s.numbering u) with fired := s.fired ++ records } where
  fired := rfl
  tables := rfl
  logs := undoLog_setNumbering s u (s.numbering u)
  numbering v := by
    have hlast : ((s.setNumbering u (s.numbering u)).session v).lastIdentity =
        (s.session v).lastIdentity := by
      change ((s.setSession u _).session v).lastIdentity = _
      by_cases hv : v = u
      · subst hv
        rw [session_setSession]
        rfl
      · rw [session_setSession_of_ne s hv]
    exact congrArg (Numbering.mk s.sequences) hlast

/-- A constraint leaves its record, and refuses a row that it rejects. -/
theorem checkRow_eq {c : Constraint} {column : Nat} {rejected : Option Value}
    (hc : c.rule = .recorded column rejected) (rows : Nat) (old : Option Row) {new : Option Row}
    (hr : ∀ r, new = some r → column < r.width) (k : CheckState) : c.checkRow rows old new k =
      if c.rejects new then
        .error (.error (c.violation new)) { k with fired := k.fired ++ [.checked c.name] }
      else .ok () { k with fired := k.fired ++ [.checked c.name] } := by
  have hrecord : CheckState.record (.checked c.name) k =
      .ok () { k with fired := k.fired ++ [.checked c.name] } := rfl
  unfold Constraint.checkRow Constraint.rejects
  rw [hc]
  refine (bind_of_ok hrecord).trans ?_
  cases rejected with
  | none => cases new <;> rfl
  | some v =>
    cases new with
    | none => rfl
    | some r =>
      obtain ⟨x, hx⟩ : ∃ x, r.value? column = some x :=
        ⟨_, congrArg (Option.map _) (List.getElem?_eq_getElem (hr r rfl))⟩
      dsimp only
      simp only [Constraint.checkRejected, hx, slot, pure_bind]
      by_cases hxv : x = v <;> simp [hxv] <;> rfl

theorem onChecks_eq {c : Constraint} {column : Nat} {rejected : Option Value}
    (hc : c.rule = .recorded column rejected) (rows u : Nat) (old : Option Row) {new : Option Row}
    (hr : ∀ r, new = some r → column < r.width) (s : Store) : ∃ s', Fires [.checked c.name] s s' ∧
      onChecks u (c.checkRow rows old new) s =
        if c.rejects new then .error (.error (c.violation new)) s' else .ok () s' := by
  refine ⟨_, fires_setNumbering s u _, ?_⟩
  unfold onChecks within
  rw [checkRow_eq hc rows old hr]
  cases c.rejects new <;> rfl

/-- The constraints leave their records, up to the first that rejects the row. -/
theorem checkAll_eq {cs : List Constraint} {new : Option Row} (hcs : ∀ c ∈ cs, ∃ column rejected,
      c.rule = .recorded column rejected ∧ ∀ r, new = some r → column < r.width)
    (rows u : Nat) (old : Option Row) (s : Store) : ∃ s', Fires (checkedBy cs new) s s' ∧
      (cs.forM fun c => onChecks u (c.checkRow rows old new)) s =
        match cs.find? (·.rejects new) with
        | some c => .error (.error (c.violation new)) s'
        | none => .ok () s' := by
  induction cs generalizing s with
  | nil => exact ⟨s, fires_nil s, rfl⟩
  | cons c cs ih =>
    obtain ⟨⟨column, rejected, hc, hr⟩, hrest⟩ := List.forall_mem_cons.1 hcs
    obtain ⟨s₁, hf₁, hcheck⟩ := onChecks_eq hc rows u old hr s
    unfold checkedBy
    rw [upTo, List.find?_cons]
    cases hrej : c.rejects new with
    | true =>
      rw [hrej] at hcheck
      exact ⟨s₁, hf₁, bind_of_error hcheck⟩
    | false =>
      rw [hrej] at hcheck
      obtain ⟨s₂, hf₂, hchecks⟩ := ih hrest s₁
      exact ⟨s₂, hf₁.trans hf₂, (bind_of_ok hcheck).trans hchecks⟩

/-! ## Before and after a change -/

theorem checkConstraints_eq (h : (s.table t).Covers e) (before : Bool) (u : Nat) :
    ∃ s', Fires (checkedBy ((s.table t).phaseConstraints before) e.new) s s' ∧
      checkConstraints t u before e.old e.new s =
        match ((s.table t).phaseConstraints before).find? (·.rejects e.new) with
        | some c => .error (.error (c.violation e.new)) s'
        | none => .ok () s' := by
  unfold checkConstraints
  rw [get_bind]
  refine checkAll_eq (fun c hc => ?_) _ u e.old s
  obtain ⟨column, rejected, hrule, hcolumn⟩ := h.constraints c (List.mem_of_mem_filter hc)
  refine ⟨column, rejected, hrule, fun r hr => ?_⟩
  rw [h.width r hr]
  exact hcolumn

/-- What comes before a change is recorded in its bracket. -/
theorem fireBeforeRow_eq (h : (s.table t).Covers e) (u : Nat) :
    ∃ s', Fires ((s.table t).bracket true e) s s' ∧ fireBeforeRow t u e.old e.new s =
      match (s.table t).refusal? true e with
      | some cause => .error (.error cause) s'
      | none => .ok ((s.table t).handles true e) s' := by
  obtain ⟨s₁, hf₁, htriggers⟩ := fireTriggers_eq h.toRecording true e
  unfold fireBeforeRow Table.bracket Table.refusal? Table.checks
  rw [bind_of_ok htriggers]
  cases hh : (s.table t).handles true e with
  | true => exact ⟨s₁, by rwa [← List.append_nil (firedBy _)] at hf₁, rfl⟩
  | false =>
    have htable : s₁.table t = s.table t := hf₁.table t
    obtain ⟨s₂, hf₂, hchecks⟩ := checkConstraints_eq (htable ▸ h) true u
    rw [htable] at hf₂ hchecks
    refine ⟨s₂, hf₁.trans hf₂, ?_⟩
    change (checkConstraints t u true e.old e.new >>= fun _ => pure false) s₁ = _
    cases hfind : ((s.table t).phaseConstraints true).find? (·.rejects e.new) with
    | some c =>
      rw [hfind] at hchecks
      exact bind_of_error hchecks
    | none =>
      rw [hfind] at hchecks
      exact bind_of_ok hchecks

/-- What comes after a change is recorded in its bracket. -/
theorem fireAfterRow_eq (h : (s.table t).Covers e) (u : Nat) :
    ∃ s', Fires ((s.table t).bracket false e) s s' ∧ fireAfterRow t u e.old e.new false s =
      match (s.table t).refusal? false e with
      | some cause => .error (.error cause) s'
      | none => .ok () s' := by
  obtain ⟨s₁, hf₁, htriggers⟩ := fireTriggers_eq h.toRecording false e
  have htable : s₁.table t = s.table t := hf₁.table t
  obtain ⟨s₂, hf₂, hchecks⟩ := checkConstraints_eq (htable ▸ h) false u
  rw [htable] at hf₂ hchecks
  refine ⟨s₂, hf₁.trans hf₂, ?_⟩
  have hrefusal : (s.table t).refusal? false e =
      (((s.table t).phaseConstraints false).find? (·.rejects e.new)).map (·.violation e.new) := rfl
  unfold fireAfterRow
  rw [discard_eq, bind_assoc, bind_of_ok htriggers, hrefusal]
  change checkConstraints t u false e.old e.new s₁ = _
  rw [hchecks]
  cases ((s.table t).phaseConstraints false).find? (·.rejects e.new) <;> rfl

end Store
end RowStore
