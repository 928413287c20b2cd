import RowStore.Proofs.Store.Rounds

/-!
# What a call changes in the rows of a table

* `Engine.rowAfter` : what is stored under a key once rows have been removed and others stored;
* `Store.Exchanges` : that has been done in a table, and all of it was logged; `Exchanges.removeMore` and
  `Exchanges.storeMore` go on from there;
* `removeOld_exchanges`, `addAllNew_exchanges`, `updateRows_exchanges` : a replacement that is done;
* `Call.storing` : the changes of rows that a call makes, with `storing_makes` and `keeps_fired_storing`.
-/

namespace RowStore
open RowStore.Action

/-- What is stored under a key once some rows have been removed and then others stored. -/
def Engine.rowAfter (e : Engine) (olds news : List Row) (key : RowKey) : Option Row :=
  (news.reverse.find? (·.key == some key)).or
    (if olds.any (·.key == some key) then none else e.row? key)

/-- A row as it is stored: under its own key, if it has one. -/
def Row.StoredAs (r stored : Row) : Prop :=
  ∃ key, stored = { r with key := some key } ∧ (r.key = none ∨ r.key = some key)

theorem Row.StoredAs.width {r stored : Row} (h : r.StoredAs stored) : stored.width = r.width := by
  obtain ⟨key, rfl, -⟩ := h
  rfl

namespace Store
variable {t u : Nat} {s s' s'' : Store} {r stored : Row} {olds news olds' news' : List Row}

/-! ## Rows removed and stored -/

/-- Rows have been removed from a table and then others stored there, and all of that was logged.  Nothing
was fired, and nothing done to the other tables and logs. -/
structure Exchanges (t u : Nat) (olds news : List Row) (s s' : Store) : Prop where
  fired : s'.fired = s.fired
  table : s'.table t = { s.table t with engine := (s'.table t).engine }
  rows : ∀ key, (s'.table t).engine.row? key = (s.table t).engine.rowAfter olds news key
  log : s'.undoLog u = s.undoLog u ++ olds.map (⟨t, .deleted, ·⟩) ++ news.map (⟨t, .inserted, ·⟩)
  others : ∀ t' ≠ t, s'.table t' = s.table t'
  logs : ∀ v ≠ u, s'.undoLog v = s.undoLog v

theorem exchanges_nil (t u : Nat) (s : Store) : Exchanges t u [] [] s s where
  fired := rfl
  table := rfl
  rows _ := rfl
  log := by simp
  others _ _ := rfl
  logs _ _ := rfl

/-- Tables and logs of an exchange with another after it; only rows and the log of the session need a
look. -/
theorem Exchanges.trans (h : Exchanges t u olds news s s') (h' : Exchanges t u olds' news' s' s'')
    {olds'' news'' : List Row}
    (rows : ∀ key, (s'.table t).engine.rowAfter olds' news' key =
      (s.table t).engine.rowAfter olds'' news'' key)
    (log : olds.map (⟨t, .deleted, ·⟩) ++ news.map (⟨t, .inserted, ·⟩) ++
        olds'.map (⟨t, .deleted, ·⟩) ++ news'.map (⟨t, .inserted, ·⟩) =
      olds''.map (⟨t, .deleted, ·⟩ : Row → UndoRecord) ++ news''.map (⟨t, .inserted, ·⟩)) :
    Exchanges t u olds'' news'' s s'' where
  fired := h'.fired.trans h.fired
  table := by rw [h'.table, h.table]
  rows key := (h'.rows key).trans (rows key)
  log := by
    rw [h'.log, h.log]
    simp only [List.append_assoc] at log ⊢
    rw [log]
  others t' ht := (h'.others t' ht).trans (h.others t' ht)
  logs v hv := (h'.logs v hv).trans (h.logs v hv)

/-- More rows are removed before any is stored. -/
theorem Exchanges.removeMore (h : Exchanges t u olds [] s s') (h' : Exchanges t u olds' news s' s'') :
    Exchanges t u (olds ++ olds') news s s'' := by
  apply h.trans h'
  · intro key
    unfold Engine.rowAfter
    rw [h.rows, List.any_append]
    unfold Engine.rowAfter
    cases olds.any (·.key == some key) <;> cases olds'.any (·.key == some key) <;> rfl
  · simp

/-- More rows are stored. -/
theorem Exchanges.storeMore (h : Exchanges t u olds news s s') (h' : Exchanges t u [] news' s' s'') :
    Exchanges t u olds (news ++ news') s s'' := by
  apply h.trans h'
  · intro key
    unfold Engine.rowAfter
    rw [h.rows, List.reverse_append, List.find?_append, Option.or_assoc]
    rfl
  · simp

theorem exchanges_recorded {e : Engine} {record : UndoRecord}
    (rows : ∀ key, e.row? key = (s.table t).engine.rowAfter olds news key)
    (log : [record] = olds.map (⟨t, .deleted, ·⟩) ++ news.map (⟨t, .inserted, ·⟩)) :
    Exchanges t u olds news s ((s.setEngine t e).recorded u record) := by
  have htable : ((s.setEngine t e).recorded u record).table t = { s.table t with engine := e } :=
    table_setTable s t _
  constructor
  case fired => rfl
  case table => rw [htable]
  case rows =>
    intro key
    rw [htable, rows]
  case log =>
    rw [undoLog_recorded, log, List.append_assoc]
    rfl
  case others => exact fun t' ht => table_setEngine_of_ne s ht e
  case logs => exact fun v hv => undoLog_setSession_of_ne (s.setEngine t e) hv _

/-- A row is removed and logged. -/
theorem exchanges_removed (h : onTable t (Table.removeRow r) s = .ok () s') :
    Exchanges t u [r] [] s (s'.recorded u ⟨t, .deleted, r⟩) := by
  rw [onTable_removeRow] at h
  cases hr : Engine.removeRow r (s.table t).engine with
  | error fault e => cases (onEngine_of_error hr).symm.trans h
  | ok _ e =>
    cases (onEngine_of_ok hr).symm.trans h
    obtain ⟨key, stored, ixs, hkey, -, -, rfl⟩ := Engine.removeRow_eq_ok.1 hr
    apply exchanges_recorded
    · intro k
      unfold Engine.rowAfter
      by_cases hk : k = key
      · subst hk
        rw [Engine.row?_withoutRow_self]
        simp [hkey]
      · rw [Engine.row?_withoutRow_of_ne hk]
        simp [hkey, Ne.symm hk]
    · rfl

/-- A row is stored and logged. -/
theorem exchanges_added (h : onTable t (Table.addRow r) s = .ok stored s') : r.StoredAs stored ∧
    Exchanges t u [] [stored] s (s'.recorded u ⟨t, .inserted, stored⟩) := by
  cases hc : (s.table t).contested.any r.values.contains with
  | true => cases (onTable_addRow_contested hc).symm.trans h
  | false =>
    rw [onTable_addRow hc] at h
    cases ha : Engine.addRow r (s.table t).engine with
    | error fault e => cases (onEngine_of_error ha).symm.trans h
    | ok x e =>
      cases (onEngine_of_ok ha).symm.trans h
      obtain ⟨key, ixs, hkey, -, rfl, rfl⟩ := Engine.addRow_eq_ok.1 ha
      refine ⟨⟨key, rfl, ?_⟩, exchanges_recorded (fun k => ?_) rfl⟩
      · cases hr : r.key with
        | none => exact Or.inl rfl
        | some own =>
          right
          by_contra hne
          exact Engine.assigned?_ne_of_own hr (fun h => hne (congrArg some h)) hkey
      · unfold Engine.rowAfter
        by_cases hk : k = key
        · subst hk
          rw [Engine.row?_withRow_self]
          simp
        · rw [Engine.row?_withRow_of_ne hk]
          simp [Ne.symm hk]

/-! ## Replacements -/

section Replacements
variable {canceled : Nat → Bool} {savepoint steps polls n : Nat}

theorem poll_eq_ok (h : (Script.poll canceled steps polls).run u s = .ok n s') : s' = s := by
  unfold Script.poll at h
  split at h
  · split at h
    · cases h
    · cases h
      rfl
  · cases h
    rfl

/-- Old rows are removed, one after the other. -/
theorem removeOld_exchanges (h : (Script.removeOld t u canceled steps polls olds).run u s = .ok n s') :
    Exchanges t u olds [] s s' := by
  induction olds generalizing s steps polls with
  | nil =>
    cases h
    exact exchanges_nil t u _
  | cons r olds ih =>
    simp only [Script.removeOld, Script.run_bind, Script.run_step] at h
    obtain ⟨m, s₁, hpoll, h⟩ := bind_eq_ok.1 h
    rw [poll_eq_ok hpoll] at h
    obtain ⟨_, s₂, hremove, h⟩ := bind_eq_ok.1 h
    obtain ⟨_, s₃, hlog, h⟩ := bind_eq_ok.1 h
    cases hlog
    exact (exchanges_removed hremove).removeMore (ih h)

theorem addNew_eq_ok (h : (Script.addNew t u savepoint r).run u s = .ok stored s') :
    onTable t (Table.addRow r) s = .ok stored s' := by
  rw [Script.run_addNew] at h
  cases hadd : onTable t (Table.addRow r) s with
  | ok x s₁ =>
    rw [addNew_of_ok hadd] at h
    exact h
  | error fault s₁ =>
    obtain ⟨fault', hrefused⟩ := addNew_of_refused (u := u) savepoint hadd
    cases hrefused.symm.trans h

/-- New rows are stored, one after the other, and each is put in its place. -/
theorem addAllNew_exchanges {done : List Row × Nat} (before : List Row)
    (h : (Script.addAllNew t u savepoint canceled steps before.length (before ++ news) polls news).run u s =
      .ok done s') : ∃ stored, done.1 = before ++ stored ∧
    List.Forall₂ Row.StoredAs news stored ∧ Exchanges t u [] stored s s' := by
  -- the rows before the place are those that are stored already
  induction news generalizing s steps polls before with
  | nil =>
    cases h
    exact ⟨[], rfl, .nil, exchanges_nil t u _⟩
  | cons r news ih =>
    simp only [Script.addAllNew, Script.run_bind, Script.run_step] at h
    obtain ⟨m, s₁, hpoll, h⟩ := bind_eq_ok.1 h
    rw [poll_eq_ok hpoll] at h
    obtain ⟨x, s₂, hadd, h⟩ := bind_eq_ok.1 h
    obtain ⟨_, s₃, hlog, h⟩ := bind_eq_ok.1 h
    cases hlog
    obtain ⟨hx, hfirst⟩ := exchanges_added (addNew_eq_ok hadd)
    have hrows : (before ++ r :: news).set before.length x = before ++ [x] ++ news := by simp
    have hplace : before.length + 1 = (before ++ [x]).length := by simp
    rw [hrows, hplace] at h
    obtain ⟨stored, hdone, hsame, hrest⟩ := ih _ h
    refine ⟨x :: stored, ?_, .cons hx hsame, hfirst.storeMore hrest⟩
    rw [hdone, List.append_assoc]
    rfl

/-- A replacement that is done has removed the old rows and then stored the new ones. -/
theorem updateRows_exchanges {done : Unit × List Row × Nat}
    (h : Batch.run (updateRows t u canceled olds) news polls s = .ok done s') :
    List.Forall₂ Row.StoredAs news done.2.1 ∧ Exchanges t u olds done.2.1 s s' := by
  rw [Script.run_updateRows] at h
  obtain ⟨p, s₁, h, hpure⟩ := bind_eq_ok.1 h
  cases hpure
  simp only [Script.updateRows, Script.run_bind, Script.run_step, bind_assoc, pure_bind] at h
  rw [get_bind] at h
  obtain ⟨m, s₂, hremove, h⟩ := bind_eq_ok.1 h
  obtain ⟨stored, hdone, hsame, hadd⟩ := addAllNew_exchanges [] h
  rw [hdone]
  exact ⟨hsame, (removeOld_exchanges hremove).storeMore hadd⟩

/-! ## The fire log -/

section Fired
variable {α : Type}

theorem keeps_fired_onTable (act : Action Table α) : Keeps (·.fired) (onTable t act) := by
  apply keeps_within
  intros
  rfl

theorem keeps_fired_log (op : UndoOp) (r : Row) : Keeps (·.fired) (log t u op r) :=
  keeps_modify fun _ => rfl

theorem keeps_fired_rollbackTo (savepoint : Nat) : Keeps (·.fired) (rollbackTo u savepoint) := by
  refine keeps_get_bind fun s => Keeps.set_bind (fun _ => ?_) rfl
  exact Keeps.forM (fun _ => keeps_undo keeps_fired_onTable keeps_fired_onTable) _

theorem keeps_fired_retreat (savepoint : Nat) (fault : Fault) :
    Keeps (·.fired) (retreat t u savepoint fault) := by
  unfold retreat
  split
  · apply Keeps.get_bind
    intro s
    exact Keeps.bind (keeps_modify fun _ => rfl) fun _ => keeps_fired_rollbackTo savepoint
  · exact keeps_pure ()

theorem keeps_fired_addNew (savepoint : Nat) (r : Row) :
    Keeps (·.fired) (addNew t u savepoint r) := by
  intro s
  cases hadd : onTable t (Table.addRow r) s with
  | ok stored s₁ =>
    rw [final_of_ok (addNew_of_ok hadd)]
    exact (keeps_fired_onTable _).of_ok hadd
  | error fault s₁ =>
    obtain ⟨fault', hrefused⟩ := addNew_of_refused (u := u) savepoint hadd
    rw [final_of_error hrefused, keeps_fired_retreat]
    exact (keeps_fired_onTable _).of_error hadd

theorem keeps_fired_poll (canceled : Nat → Bool) (steps polls : Nat) :
    Keeps (·.fired) ((Script.poll canceled steps polls).run u) := by
  unfold Script.poll
  simp only [Script.run_ite]
  exact Keeps.ite (Keeps.ite (fun _ => rfl) (keeps_pure _)) (keeps_pure _)

theorem keeps_fired_removeOld (canceled : Nat → Bool) (steps polls : Nat) (olds : List Row) :
    Keeps (·.fired) ((Script.removeOld t u canceled steps polls olds).run u) := by
  induction olds generalizing steps polls with
  | nil => exact keeps_pure polls
  | cons r olds ih =>
    simp only [Script.removeOld, Script.run_bind, Script.run_step]
    exact (keeps_fired_poll canceled _ _).bind fun _ => (keeps_fired_onTable _).bind fun _ =>
      (keeps_fired_log _ _).bind fun _ => ih _ _

theorem keeps_fired_addAllNew (savepoint : Nat) (canceled : Nat → Bool) (steps place : Nat)
    (rows : List Row) (polls : Nat) (news : List Row) :
    Keeps (·.fired) ((Script.addAllNew t u savepoint canceled steps place rows polls news).run u) := by
  induction news generalizing steps place rows polls with
  | nil => exact keeps_pure (rows, polls)
  | cons r news ih =>
    simp only [Script.addAllNew, Script.run_bind, Script.run_step, Script.run_addNew]
    exact (keeps_fired_poll canceled _ _).bind fun _ => (keeps_fired_addNew _ _).bind fun _ =>
      (keeps_fired_log _ _).bind fun _ => ih _ _ _ _

theorem keeps_fired_updateRows (canceled : Nat → Bool) (olds news : List Row) (polls : Nat) :
    Keeps (·.fired) (Batch.run (updateRows t u canceled olds) news polls) := by
  rw [Script.run_updateRows]
  refine Keeps.bind ?_ fun _ => keeps_pure _
  simp only [Script.updateRows, Script.run_bind, Script.run_step, bind_assoc, pure_bind]
  apply Keeps.get_bind
  intro s
  exact (keeps_fired_removeOld canceled _ _ _).bind fun _ => keeps_fired_addAllNew _ canceled _ _ _ _ _

end Fired

end Replacements

/-! ## Calls -/

/-- A row is stored, or one is removed, and that is logged.  Yields the change as it was made. -/
def makeOne (t u : Nat) : Edit → Action Store Edit
  | ⟨none, some r⟩ => do
    let stored ← onTable t (Table.addRow r)
    log t u .inserted stored
    pure ⟨none, some stored⟩
  | ⟨some r, none⟩ => do
    onTable t (Table.removeRow r)
    log t u .deleted r
    pure ⟨some r, none⟩
  | e => pure e

end Store

def olds (edits : List Edit) : List Row := edits.filterMap (·.old)

def news (edits : List Edit) : List Row := edits.filterMap (·.new)

/-- The same change, with its new row as it is stored. -/
structure Edit.MadeAs (asked made : Edit) : Prop where
  old : made.old = asked.old
  new : Option.Rel Row.StoredAs asked.new made.new

def remade (left : List Edit) (stored : List Row) : List Edit :=
  List.zipWith (fun old new => ⟨some old, some new⟩) (olds left) stored

namespace Call
open Store

/-- The changes of rows that are left are made.  Yields them as they were made. -/
def storing (u : Nat) (left : List Edit) : Call → Action Store (List Edit)
  | lock .. => pure left
  | insert t _ | delete t _ => left.mapM (makeOne t u)
  | update t canceled _ => do
    let done ← Batch.run (updateRows t u canceled (olds left)) (news left) 0
    pure (remade left done.2.1)

def Leaves : Call → List Edit → Prop
  | lock .., left => left = []
  | insert .., left | delete .., left => left = [] ∨ ∃ e, left = [e] ∧ (e.old = none ∨ e.new = none)
  | update .., left => ∃ pairs : List (Row × Row), left = pairs.map .ofPair

end Call

namespace Store
variable {t u : Nat} {s s' : Store} {call : Call} {left made : List Edit} {e m : Edit}

theorem keeps_fired_makeOne (e : Edit) : Keeps (·.fired) (makeOne t u e) := by
  obtain ⟨_ | old, _ | new⟩ := e
  · exact keeps_pure _
  · exact (keeps_fired_onTable _).bind fun _ => (keeps_fired_log _ _).bind fun _ => keeps_pure _
  · exact (keeps_fired_onTable _).bind fun _ => (keeps_fired_log _ _).bind fun _ => keeps_pure _
  · exact keeps_pure _

/-- Nothing is fired while rows are changed, whatever becomes of it. -/
theorem keeps_fired_storing (u : Nat) (left : List Edit) (call : Call) :
    Keeps (·.fired) (call.storing u left) := by
  cases call with
  | lock t exclusive force => exact keeps_pure left
  | insert t r => exact Keeps.mapM keeps_fired_makeOne left
  | delete t r => exact Keeps.mapM keeps_fired_makeOne left
  | update t canceled pairs =>
    exact (keeps_fired_updateRows canceled _ _ 0).bind fun _ => keeps_pure _

/-- The changes that were left have been made. -/
structure Makes (t u : Nat) (left made : List Edit) (s s' : Store) : Prop
    extends Exchanges t u (olds made) (news made) s s' where
  made : List.Forall₂ Edit.MadeAs left made

theorem makes_nil (t u : Nat) (s : Store) : Makes t u [] [] s s := ⟨exchanges_nil t u s, .nil⟩

theorem makeOne_makes (one : e.old = none ∨ e.new = none) (h : makeOne t u e s = .ok m s') :
    Makes t u [e] [m] s s' := by
  obtain ⟨_ | old, _ | new⟩ := e
  · cases h
    exact ⟨exchanges_nil t u _, .cons ⟨rfl, .none⟩ .nil⟩
  · obtain ⟨stored, s₁, hadd, h⟩ := bind_eq_ok.1 h
    cases h
    obtain ⟨hstored, hexchange⟩ := exchanges_added (u := u) hadd
    exact ⟨hexchange, .cons ⟨rfl, .some hstored⟩ .nil⟩
  · obtain ⟨_, s₁, hremove, h⟩ := bind_eq_ok.1 h
    cases h
    exact ⟨exchanges_removed hremove, .cons ⟨rfl, .none⟩ .nil⟩
  · rcases one with h | h <;> cases h

theorem mapM_makeOne_makes (atMost : left = [] ∨ ∃ e, left = [e] ∧ (e.old = none ∨ e.new = none))
    (h : left.mapM (makeOne t u) s = .ok made s') : Makes t u left made s s' := by
  rcases atMost with rfl | ⟨e, rfl, one⟩
  · cases h
    exact makes_nil t u _
  · rw [List.mapM_cons] at h
    obtain ⟨m, s₁, hmake, h⟩ := bind_eq_ok.1 h
    cases h
    exact makeOne_makes one hmake

theorem olds_ofPair (pairs : List (Row × Row)) : olds (pairs.map .ofPair) = pairs.map (·.1) := by
  unfold olds
  rw [List.filterMap_map]
  exact congrFun List.filterMap_eq_map pairs

theorem news_ofPair (pairs : List (Row × Row)) : news (pairs.map .ofPair) = pairs.map (·.2) := by
  unfold news
  rw [List.filterMap_map]
  exact congrFun List.filterMap_eq_map pairs

theorem remade_spec {pairs : List (Row × Row)} {stored : List Row}
    (h : List.Forall₂ Row.StoredAs (news (pairs.map .ofPair)) stored) :
    olds (remade (pairs.map .ofPair) stored) = olds (pairs.map .ofPair) ∧
      news (remade (pairs.map .ofPair) stored) = stored ∧
      List.Forall₂ Edit.MadeAs (pairs.map .ofPair) (remade (pairs.map .ofPair) stored) := by
  induction pairs generalizing stored with
  | nil =>
    cases h
    exact ⟨rfl, rfl, .nil⟩
  | cons pair pairs ih =>
    cases h with
    | cons hfirst hrest =>
      obtain ⟨holds, hnews, hmade⟩ := ih hrest
      refine ⟨?_, ?_, .cons ⟨rfl, .some hfirst⟩ hmade⟩
      · exact congrArg (pair.1 :: ·) holds
      · exact congrArg (_ :: ·) hnews

/-- Where the changes of a call are made, just those that were left have been made. -/
theorem storing_makes (target : call.target? = some t) (leaves : call.Leaves left)
    (h : call.storing u left s = .ok made s') : Makes t u left made s s' := by
  cases call with
  | lock t exclusive force => cases target
  | insert t r =>
    cases target
    exact mapM_makeOne_makes leaves h
  | delete t r =>
    cases target
    exact mapM_makeOne_makes leaves h
  | update t canceled pairs =>
    cases target
    obtain ⟨pairs, rfl⟩ := leaves
    obtain ⟨done, s₁, hrows, h⟩ := bind_eq_ok.1 h
    cases h
    obtain ⟨hstored, hexchange⟩ := updateRows_exchanges hrows
    obtain ⟨holds, hnews, hmade⟩ := remade_spec hstored
    refine ⟨?_, hmade⟩
    rw [holds, hnews]
    exact hexchange

end Store
end RowStore
