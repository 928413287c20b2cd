import RowStore.Proofs.Store.Cautious
import RowStore.Proofs.Store.Removal
import RowStore.Proofs.Store.Return

/-!
# What a change tells the log, step by step

* `Told` : since a log, a session has logged all that it did with the rows of a table;
* `Script.RemovesCopies` : the next step of a script, if it removes one of the rows that were given for
  that, is given a copy of the stored one; `Script.panics` : the script has run past an end;
* `Store.Shows`, `Store.Advances` : what there is before a step of a session, and after it;
* `Script.Ends` : whatever others do to the rows before each step, as long as the session can take back what it
  did, each step is a `Engine.Step`, and all is told at the end of the script;
* `ends_quiet`, `ends_remove`, `ends_add`, `ends_addNew` : the steps of a change, each with what follows;
* `Script.Faithful` : a script that is like that once it has the lock of its table;
* `faithful_script` : so are all changes of rows.
-/

namespace RowStore
open RowStore.Action RowStore.Store

variable {t u : Nat} {plain : Prop} {given : List Row} {log₀ log log' mine mine' : List UndoRecord}
  {e e' : Engine} {record : UndoRecord} {s s' : Store} {r stored : Row}

/-! ## What has been told -/

/-- The log has grown by what the session did in a table, of which the latest comes first. -/
structure Told (t : Nat) (log₀ log mine : List UndoRecord) : Prop where
  log : log = log₀ ++ mine.reverse
  table : ∀ q ∈ mine, q.table = t

theorem told_self (t : Nat) (log : List UndoRecord) : Told t log log [] :=
  ⟨(List.append_nil log).symm, fun _ hq => absurd hq List.not_mem_nil⟩

theorem Told.grown (h : Told t log₀ log mine) : Grown (·.table = t) log₀ log :=
  ⟨mine.reverse, h.log, fun q hq => h.table q (List.mem_reverse.1 hq)⟩

theorem Told.logged (h : Told t log₀ log mine) (ht : record.table = t) :
    Told t log₀ (log ++ [record]) (record :: mine) where
  log := by rw [h.log, List.reverse_cons, List.append_assoc]
  table := List.forall_mem_cons.2 ⟨ht, h.table⟩

section Grown
variable {n t' : Nat} {q : UndoRecord}

theorem recordsOf_of_grown (h : Grown (·.table = t) log₀ log) (hn : n ≤ log₀.length) (ht : t' ≠ t) :
    recordsOf t' (log.drop n) = recordsOf t' (log₀.drop n) := by
  obtain ⟨records, rfl, htable⟩ := h
  have hnone : recordsOf t' records = [] :=
    recordsOf_eq_nil fun r hr he => ht (he.symm.trans (htable r hr))
  rw [List.drop_append_of_le_length hn, recordsOf_append, hnone, List.append_nil]

theorem length_le_of_grown (h : Grown (·.table = t) log₀ log) (hn : n ≤ log₀.length) : n ≤ log.length := by
  obtain ⟨records, rfl, -⟩ := h
  rw [List.length_append]
  exact hn.trans (Nat.le_add_right _ _)

theorem mem_drop_of_grown (h : Grown (·.table = t) log₀ log) (hn : n ≤ log₀.length)
    (hq : q ∈ log₀.drop n) : q ∈ log.drop n := by
  obtain ⟨records, rfl, -⟩ := h
  rw [List.drop_append_of_le_length hn]
  exact List.mem_append_left _ hq

theorem mem_or_of_grown (h : Grown (·.table = t) log₀ log) (hn : n ≤ log₀.length)
    (hq : q ∈ log.drop n) : q ∈ log₀.drop n ∨ q.table = t := by
  obtain ⟨records, rfl, htable⟩ := h
  rw [List.drop_append_of_le_length hn] at hq
  exact (List.mem_append.1 hq).imp_right (htable q)

/-- What the session is to take back, with what it had logged before. -/
theorem Told.records (h : Told t log₀ log mine) (hn : n ≤ log₀.length) :
    (recordsOf t (log.drop n)).reverse = mine ++ (recordsOf t (log₀.drop n)).reverse := by
  rw [h.log, List.drop_append_of_le_length hn, recordsOf_append, recordsOf_reverse,
    recordsOf_of_forall h.table, List.reverse_append, List.reverse_reverse]

end Grown

/-! ## One step -/

namespace Store

/-- What there is before a step of a session that is to take back some changes of a table. -/
structure Shows (t u : Nat) (log mine : List UndoRecord) (s : Store) : Prop where
  log : s.undoLog u = log
  registered : s.detached.contains u = false
  table : s.tables.contains t = true
  full : (s.table t).engine.Full
  owes : ∃ start, (s.table t).engine.Owes mine start

/-- A step keeps all tables, lets the log grow only by records of one, and does one thing with its rows at
most. -/
structure Advances (t u : Nat) (plain : Prop) (log₀ mine mine' : List UndoRecord) (s s' : Store) : Prop where
  detached : s'.detached = s.detached
  tables : ∀ t', s.tables.contains t' = true → s'.tables.contains t' = true
  grown : Grown (·.table = t) log₀ (s'.undoLog u)
  follows : (s.table t).engine.Follows (s'.table t).engine
  step : (s.table t).engine.Step t plain (s'.table t).engine mine mine'

theorem advances_of_core (hc : s'.core u = s.core u) (hg : Grown (·.table = t) log₀ (s.undoLog u))
    (hf : (s.table t).engine.Full) : s.Advances t u plain log₀ mine mine s' where
  detached := congrArg (·.2.1) hc
  tables t' ht := by
    rw [show s'.tables = s.tables from congrArg Prod.fst hc]
    exact ht
  grown := by
    rw [show s'.undoLog u = s.undoLog u from congrArg (·.2.2) hc]
    exact hg
  follows := by
    rw [table_eq_of_core hc]
    exact .refl hf
  step := .same (by rw [table_eq_of_core hc])

theorem advances_setEngine (hg : Grown (·.table = t) log₀ (s.undoLog u))
    (he : (s.table t).engine.Follows e) (hs : (s.table t).engine.Step t plain e mine mine') :
    s.Advances t u plain log₀ mine mine' (s.setEngine t e) where
  detached := rfl
  tables _ ht := contains_setTable ht
  grown := hg
  follows := by
    rw [engine_setEngine]
    exact he
  step := by
    rw [engine_setEngine]
    exact hs

theorem advances_setSession {session : Session} (hg : Grown (·.table = t) log₀ session.undoLog)
    (he : (s.table t).engine.Full) : s.Advances t u plain log₀ mine mine (s.setSession u session) where
  detached := rfl
  tables _ ht := ht
  grown := by
    unfold undoLog
    rw [session_setSession]
    exact hg
  follows := .refl he
  step := .same rfl

/-- A row is added, or refused without a trace, unless the addition runs past an end. -/
theorem addRow_cases (hf : (s.table t).engine.Full) (hs : (s.table t).engine.Spares
      ((final (onTable t (Table.addRow r)) s).table t).engine)
    (hkey : plain → ∀ key, r.key = some key → Engine.Touched mine key) :
    (∃ stored e', onTable t (Table.addRow r) s = .ok stored (s.setEngine t e') ∧
      (s.table t).engine.Follows e' ∧
      (s.table t).engine.Step t plain e' mine (⟨t, .inserted, stored⟩ :: mine)) ∨
    ∃ fault e', onTable t (Table.addRow r) s = .error fault (s.setEngine t e') ∧
      (fault ≠ .outOfRange → (s.table t).engine.Follows e' ∧ e'.row? = (s.table t).engine.row?) := by
  cases hc : (s.table t).contested.any r.values.contains with
  | true => exact Or.inr ⟨_, _, onTable_addRow_contested hc, fun _ => ⟨.refl hf, rfl⟩⟩
  | false =>
    rw [final_congr (onTable_addRow hc)] at hs
    rw [onTable_addRow hc]
    cases ha : Engine.addRow r (s.table t).engine with
    | ok stored e' =>
      have hok := onEngine_of_ok ha
      rw [final_of_ok hok, engine_setEngine] at hs
      exact Or.inl ⟨stored, e', hok, hf.step_addRow hs ha hkey⟩
    | error fault e' =>
      have herror := onEngine_of_error ha
      rw [final_of_error herror, engine_setEngine] at hs
      refine Or.inr ⟨fault, e', herror, fun hne => ?_⟩
      cases fault with
      | outOfRange => exact absurd rfl hne
      | error cause => exact hf.follows_refused hs ha

/-- A copy of a stored row is removed, or refused. -/
theorem removeRow_cases (hf : (s.table t).engine.Full) (hc : (s.table t).engine.IsCopy r) :
    (∃ e' key, onTable t (Table.removeRow r) s = .ok () (s.setEngine t e') ∧ r.key = some key ∧
      (s.table t).engine.Follows e' ∧
      (s.table t).engine.Step t plain e' mine (⟨t, .deleted, r⟩ :: mine)) ∨
    ∃ fault, onTable t (Table.removeRow r) s = .error fault (s.setEngine t (s.table t).engine) := by
  rw [onTable_removeRow]
  cases hr : Engine.removeRow r (s.table t).engine with
  | ok _ e' =>
    obtain ⟨key, _, _, hkey, -⟩ := Engine.removeRow_eq_ok.1 hr
    exact Or.inl ⟨e', key, onEngine_of_ok hr, hkey, hf.step_removeRow hc hr⟩
  | error fault e' =>
    obtain ⟨-, rfl⟩ := hf.removeRow_eq_error hr
    exact Or.inr ⟨fault, onEngine_of_error hr⟩

end Store

/-! ## Many steps -/

namespace Script
variable {α β : Type} {Q : α → List UndoRecord → List UndoRecord → Prop}
  {Q' : β → List UndoRecord → List UndoRecord → Prop}

/-- If the next step of a script is to remove one of the given rows from a table, it is a copy of the
stored one. -/
def RemovesCopies (t : Nat) (given : List Row) (s : Store) (x : Script α) : Prop :=
  ∀ r ∈ given, ∀ next, x = act (onTable t (Table.removeRow r)) next → (s.table t).engine.IsCopy r

theorem RemovesCopies.of_bind {x : Script α} {f : α → Script β}
    (h : (x.bind f).RemovesCopies t given s) : x.RemovesCopies t given s := by
  rintro r hr next rfl
  exact h r hr _ rfl

/-- The script has run past an end. -/
def panics : Script α → Bool
  | fail .outOfRange => true
  | _ => false

theorem panics_of_bind {x : Script α} {f : α → Script β} (h : (x.bind f).panics = false) :
    x.panics = false := by
  cases x with
  | fail fault =>
    cases fault with
    | outOfRange => exact h
    | error cause => rfl
  | done | act | lock => rfl

/-- A script takes no lock.  Each of its steps does one thing at most with the rows of a table, and at its end
the log tells what was done, and `Q` holds if it is done.  Others may change the store before each step, as long
as the session can still take back what it has done.  The script does not run past an end, and a step that is to
remove one of the given rows counts only where that is a copy of the stored one. -/
def Ends (t u : Nat) (plain : Prop) (given : List Row) (log₀ : List UndoRecord)
    (Q : α → List UndoRecord → List UndoRecord → Prop) : Script α → List UndoRecord → List UndoRecord → Prop
  | done a, log, mine => Q a log mine
  | fail _, log, mine => Told t log₀ log mine
  | act a next, log, mine => ∀ s, s.Shows t u log mine → (act a next).RemovesCopies t given s →
    (s.table t).engine.Spares ((final a s).table t).engine → (next (result a s)).panics = false →
      ∃ mine', s.Advances t u plain log₀ mine mine' (final a s) ∧
        (next (result a s)).Ends t u plain given log₀ Q ((final a s).undoLog u) mine'
  | lock .., _, _ => False

theorem Ends.bind {x : Script α} {f : α → Script β} (h : x.Ends t u plain given log₀ Q log mine)
    (hf : ∀ a log mine, Q a log mine → (f a).Ends t u plain given log₀ Q' log mine) :
    (x >>= f).Ends t u plain given log₀ Q' log mine := by
  change (x.bind f).Ends t u plain given log₀ Q' log mine
  induction x generalizing log mine with
  | done a => exact hf a log mine h
  | fail fault => exact h
  | act a next ih =>
    intro s hs hcopies hspares hcalm
    obtain ⟨mine', hstep, hnext⟩ := h s hs hcopies.of_bind hspares (panics_of_bind hcalm)
    exact ⟨mine', hstep, ih _ hnext⟩
  | lock t' exclusive force next => exact h.elim

theorem Ends.mono {Q' : α → List UndoRecord → List UndoRecord → Prop} {x : Script α}
    (h : x.Ends t u plain given log₀ Q log mine) (hQ : ∀ a log mine, Q a log mine → Q' a log mine) :
    x.Ends t u plain given log₀ Q' log mine := by
  induction x generalizing log mine with
  | done a => exact hQ a log mine h
  | fail fault => exact h
  | act a next ih =>
    intro s hs hcopies hspares hcalm
    obtain ⟨mine', hstep, hnext⟩ := h s hs hcopies hspares hcalm
    exact ⟨mine', hstep, ih _ hnext⟩
  | lock t' exclusive force next => exact h.elim

/-- A step that changes nothing that matters, and what comes of it. -/
theorem ends_act {β : Type} {a : Action Store β} {next : Except Fault β → Script α} (hcore : Keeps (core u) a)
    (h : Told t log₀ log mine)
    (hnext : ∀ s, (next (result a s)).Ends t u plain given log₀ Q log mine) :
    (act a next).Ends t u plain given log₀ Q log mine := by
  rintro s ⟨rfl, -, -, hfull, -⟩ - - -
  refine ⟨mine, advances_of_core (hcore s) h.grown hfull, ?_⟩
  rw [undoLog_of_core hcore s]
  exact hnext s

theorem ends_quiet {P : α → Prop} {x : Script α} {f : α → Script β} (hx : x.Quiet t u P)
    (h : Told t log₀ log mine) (hf : ∀ a, P a → (f a).Ends t u plain given log₀ Q' log mine) :
    (x >>= f).Ends t u plain given log₀ Q' log mine := by
  change (x.bind f).Ends t u plain given log₀ Q' log mine
  induction x with
  | done a => exact hf a hx
  | fail fault => exact h
  | act a next ih => exact ends_act hx.2.1 h fun s => ih _ (hx.2.2 _)
  | lock t' exclusive force next => exact hx.elim

/-- A row is fitted, which leaves its key. -/
theorem ends_fitRow {f : Unit × Row → Script β} (h : Told t log₀ log mine)
    (hf : ∀ fitted : Unit × Row, fitted.2.key = r.key →
      (f fitted).Ends t u plain given log₀ Q' log mine) :
    (step (Draft.run (fitRow t u) r) >>= f).Ends t u plain given log₀ Q' log mine := by
  refine ends_act (keeps_run (keeps_fitRow t) r) h fun s => ?_
  cases hr : result (Draft.run (fitRow t u) r) s with
  | ok fitted => exact hf fitted (key_of_fitted hr)
  | error fault => exact h

section Steps
variable {f : Unit → Script β}

theorem ends_log {op : UndoOp} (h : Told t log₀ log mine)
    (hf : ∀ log', Told t log₀ log' (⟨t, op, r⟩ :: mine) →
      (f ()).Ends t u plain given log₀ Q' log' (⟨t, op, r⟩ :: mine)) :
    (step (Store.log t u op r) >>= f).Ends t u plain given log₀ Q' log (⟨t, op, r⟩ :: mine) := by
  rintro s ⟨rfl, -, -, hfull, -⟩ - - -
  have hlogged : Told t log₀ (s.undoLog u ++ [⟨t, op, r⟩]) (⟨t, op, r⟩ :: mine) := h.logged rfl
  refine ⟨_, advances_setSession hlogged.grown hfull, ?_⟩
  change (f ()).Ends t u plain given log₀ Q' ((s.recorded u ⟨t, op, r⟩).undoLog u) _
  rw [undoLog_recorded]
  exact hf _ hlogged

theorem ends_remove (h : Told t log₀ log mine) (hr : r ∈ given)
    (hf : ∀ log' key, r.key = some key → Told t log₀ log' (⟨t, .deleted, r⟩ :: mine) →
      (f ()).Ends t u plain given log₀ Q' log' (⟨t, .deleted, r⟩ :: mine)) :
    (step (onTable t (Table.removeRow r)) >>= fun _ => step (Store.log t u .deleted r) >>= f).Ends
      t u plain given log₀ Q' log mine := by
  rintro s ⟨rfl, -, -, hfull, -⟩ hcopies - -
  rcases removeRow_cases hfull (hcopies r hr _ rfl) with ⟨e', key, hok, hkey, hfollows, hstep⟩ | ⟨fault, herror⟩
  · rw [final_of_ok hok, result_of_ok hok]
    exact ⟨_, advances_setEngine h.grown hfollows hstep, ends_log h fun log' hlog => hf log' key hkey hlog⟩
  · rw [final_of_error herror, result_of_error herror]
    exact ⟨mine, advances_setEngine h.grown (.refl hfull) (.same rfl), h⟩

theorem ends_add {f : Row → Unit → Script β} (h : Told t log₀ log mine)
    (hkey : plain → ∀ key, r.key = some key → Engine.Touched mine key)
    (hf : ∀ stored log', Told t log₀ log' (⟨t, .inserted, stored⟩ :: mine) →
      (f stored ()).Ends t u plain given log₀ Q' log' (⟨t, .inserted, stored⟩ :: mine)) :
    (step (onTable t (Table.addRow r)) >>= fun stored =>
      step (Store.log t u .inserted stored) >>= f stored).Ends t u plain given log₀ Q' log mine := by
  rintro s ⟨rfl, -, -, hfull, -⟩ - hspares hcalm
  rcases addRow_cases hfull hspares hkey with ⟨stored, e', hok, hfollows, hstep⟩ | ⟨fault, e', herror, hsame⟩
  · rw [final_of_ok hok, result_of_ok hok]
    exact ⟨_, advances_setEngine h.grown hfollows hstep, ends_log h fun log' hlog => hf stored log' hlog⟩
  · rw [result_of_error herror] at hcalm
    obtain ⟨hfollows, hrows⟩ := hsame (by rintro rfl; cases hcalm)
    rw [final_of_error herror, result_of_error herror]
    exact ⟨mine, advances_setEngine h.grown hfollows (.same hrows), h⟩

end Steps

/-! ### Going back -/

theorem ends_undoAll {records : List UndoRecord} (ht : ∀ r ∈ records, r.table = t) :
    (records.forM fun r => step (undo u r)).Ends t u plain given log₀ (fun _ => Told t log₀) log₀ records := by
  induction records with
  | nil => exact told_self t log₀
  | cons record records ih =>
    rintro s ⟨rfl, hregistered, htable, hfull, start, howes⟩ - - -
    obtain rfl := ht record List.mem_cons_self
    obtain ⟨e', htaken, hfollows, hrows⟩ := hfull.takeBack howes
    have hok := undo_of_takeBack hregistered htable htaken
    rw [final_of_ok hok, result_of_ok hok]
    refine ⟨records, advances_setEngine (grown_self _) hfollows (.back hrows), ?_⟩
    exact ih fun r hr => ht r (List.mem_cons_of_mem _ hr)

/-- A change that goes back to where it began is told by the log that was. -/
theorem ends_rollbackTo (h : Told t log₀ log mine) :
    (rollbackTo u log₀.length).Ends t u plain given log₀ (fun _ => Told t log₀) log mine := by
  rintro s ⟨hlog, -, -, hfull, -⟩ - - -
  rw [h.log] at hlog
  have hundone : (s.undoLog u).drop log₀.length = mine.reverse := by
    rw [hlog, List.drop_left]
  have hleft : (s.undoLog u).take log₀.length = log₀ := by
    rw [hlog, List.take_left]
  have hcut : (s.cutLog u log₀.length).undoLog u = log₀ := (undoLog_cut s u _).trans hleft
  refine ⟨mine, advances_setSession (hleft.symm ▸ grown_self _) hfull, ?_⟩
  change (((s.undoLog u).drop log₀.length).reverse.forM fun r => step (undo u r)).Ends t u plain given log₀
    (fun _ => Told t log₀) ((s.cutLog u log₀.length).undoLog u) mine
  rw [hundone, hcut, List.reverse_reverse]
  exact ends_undoAll h.table

theorem ends_retreat (h : Told t log₀ log mine) (fault : Fault) :
    (retreat t u log₀.length fault).Ends t u plain given log₀ (fun _ => Told t log₀) log mine := by
  unfold retreat
  split
  · have hnote (table : String) : (step (do
        note (.updateUndone ((← get).table t).name log₀.length (.concurrentUpdate table)) :
          Action Store Unit)).Quiet t u Any := by
      refine quiet_step ?_ ?_
      · exact Keeps.get_bind fun _ => keeps_modify fun _ => rfl
      · exact Keeps.get_bind fun _ => keeps_modify fun _ => rfl
    exact ends_quiet (hnote _) h fun _ _ => ends_rollbackTo h
  · exact h

/-- A new row is added, or the replacement goes back if that meets a concurrent change. -/
theorem ends_addNew {f : Row → Unit → Script β} (h : Told t log₀ log mine)
    (hkey : plain → ∀ key, r.key = some key → Engine.Touched mine key)
    (hf : ∀ stored log', Told t log₀ log' (⟨t, .inserted, stored⟩ :: mine) →
      (f stored ()).Ends t u plain given log₀ Q' log' (⟨t, .inserted, stored⟩ :: mine)) :
    (addNew t u log₀.length r >>= fun stored =>
      step (Store.log t u .inserted stored) >>= f stored).Ends t u plain given log₀ Q' log mine := by
  rintro s ⟨rfl, -, -, hfull, -⟩ - hspares hcalm
  rcases addRow_cases hfull hspares hkey with ⟨stored, e', hok, hfollows, hstep⟩ | ⟨fault, e', herror, hsame⟩
  · rw [final_of_ok hok, result_of_ok hok]
    exact ⟨_, advances_setEngine h.grown hfollows hstep, ends_log h fun log' hlog => hf stored log' hlog⟩
  · rw [result_of_error herror] at hcalm
    obtain ⟨hfollows, hrows⟩ := hsame (by rintro rfl; cases hcalm)
    rw [final_of_error herror, result_of_error herror]
    refine ⟨mine, advances_setEngine h.grown hfollows (.same hrows), ?_⟩
    have hback : (retreat t u log₀.length fault >>= fun _ => fail fault : Script Row).Ends t u plain given log₀
        (fun _ _ _ => False) (s.undoLog u) mine :=
      (ends_retreat h fault).bind fun _ _ _ htold => htold
    exact hback.bind fun _ _ _ hfalse => hfalse.elim

/-! ### Replacements -/

theorem ends_removeOld (canceled : Nat → Bool) {old : List Row} (steps polls : Nat)
    (h : Told t log₀ log mine) (hold : ∀ r ∈ old, r ∈ given) :
    (removeOld t u canceled steps polls old).Ends t u plain given log₀ (fun _ log mine' =>
      Told t log₀ log mine' ∧ (∀ key, Engine.Touched mine key → Engine.Touched mine' key) ∧
        ∀ r ∈ old, ∀ key, r.key = some key → Engine.Touched mine' key) log mine := by
  induction old generalizing steps polls log mine with
  | nil => exact ⟨h, fun _ hk => hk, fun _ hr => absurd hr List.not_mem_nil⟩
  | cons r old ih =>
    obtain ⟨hr, hrest⟩ := List.forall_mem_cons.1 hold
    refine ends_quiet (quiet_poll canceled _ _) h fun _ _ => ?_
    refine ends_remove h hr fun log' key hkey hlog => ?_
    refine (ih _ _ hlog hrest).mono fun _ log'' mine' ⟨htold, hkept, hall⟩ => ?_
    refine ⟨htold, fun k hk => hkept k (Engine.touched_cons.2 (Or.inr hk)), ?_⟩
    refine List.forall_mem_cons.2 ⟨fun k hk => ?_, hall⟩
    exact hkept k (Engine.touched_cons.2 (Or.inl hk))

theorem ends_addAllNew (canceled : Nat → Bool) (steps place : Nat) (rows : List Row) (polls : Nat)
    {new : List Row} (h : Told t log₀ log mine)
    (hkeys : plain → ∀ r ∈ new, ∀ key, r.key = some key → Engine.Touched mine key) :
    (addAllNew t u log₀.length canceled steps place rows polls new).Ends t u plain given log₀
      (fun _ => Told t log₀) log mine := by
  induction new generalizing steps place rows polls log mine with
  | nil => exact h
  | cons r new ih =>
    refine ends_quiet (quiet_poll canceled _ _) h fun _ _ => ?_
    refine ends_addNew h (fun hplain => hkeys hplain r List.mem_cons_self) fun stored log' hlog => ?_
    refine ih _ _ _ _ hlog fun hplain r' hr' key hkey => Engine.touched_cons.2 (Or.inr ?_)
    exact hkeys hplain r' (List.mem_cons_of_mem _ hr') key hkey

theorem ends_updateRows (canceled : Nat → Bool) {old rows : List Row} (polls : Nat)
    (hold : ∀ r ∈ old, r ∈ given)
    (hkeys : ∀ r ∈ rows, ∃ r' ∈ old, r.key = r'.key) (log : List UndoRecord) :
    (updateRows t u canceled old rows polls).Ends t u plain given log (fun _ => Told t log) log [] := by
  rintro s ⟨rfl, -, -, hfull, -⟩ - - -
  refine ⟨[], advances_of_core rfl (grown_self _) hfull, ?_⟩
  refine (ends_removeOld canceled 0 polls (told_self t _) hold).bind fun _ _ _ ⟨htold, _, hall⟩ => ?_
  refine ends_addAllNew canceled old.length 0 rows _ htold fun _ r hr key hkey => ?_
  obtain ⟨r', hr', hsame⟩ := hkeys r hr
  exact hall r' hr' key (hsame.symm.trans hkey)

/-- The rows are fitted, which leaves them the keys of the old rows. -/
theorem ends_prepare {fires : Bool} {pairs : List (Row × Row)} (h : Told t log₀ log mine) :
    (prepare t u fires pairs).Ends t u plain given log₀ (fun left log' mine' => log' = log ∧ mine' = mine ∧
      left.map (·.1) ⊆ pairs.map (·.1) ∧ ∀ p ∈ left, p.2.key = p.1.key) log mine := by
  induction pairs with
  | nil => exact ⟨rfl, rfl, List.Subset.refl [], fun _ hp => absurd hp List.not_mem_nil⟩
  | cons pair rest ih =>
    obtain ⟨old, new⟩ := pair
    refine ends_fitRow h fun fitted hkey => ?_
    have hrest (handled : Bool) : (do
        let left ← prepare t u fires rest
        pure (if handled then left else (old, fitted.2) :: left) : Script (List (Row × Row))).Ends
          t u plain given log₀ (fun left log' mine' => log' = log ∧ mine' = mine ∧
            left.map (·.1) ⊆ ((old, new) :: rest).map (·.1) ∧ ∀ p ∈ left, p.2.key = p.1.key) log mine := by
      refine ih.bind fun left log' mine' ⟨hlog, hmine, hsub, hkeys⟩ => ⟨hlog, hmine, ?_⟩
      cases handled with
      | true => exact ⟨fun r hr => List.mem_cons_of_mem _ (hsub hr), hkeys⟩
      | false => exact ⟨List.cons_subset_cons _ hsub, List.forall_mem_cons.2 ⟨hkey, hkeys⟩⟩
    cases fires with
    | true => exact ends_quiet (quiet_fireBeforeRow _ _) h fun handled _ => hrest handled
    | false => exact hrest false

/-! ## Scripts that wait for their lock -/

/-- Once the script has the lock of the table, the log tells what it does.  It does not end without the lock,
but for a refusal. -/
def Faithful (t u : Nat) (plain : Prop) (given : List Row) : Script α → Prop
  | done _ => False
  | fail _ => True
  | act a next => ∀ s, (next (result a s)).Faithful t u plain given
  | lock _ _ _ next =>
    (∀ log, (next (.ok ())).Ends t u plain given log (fun _ => Told t log) log []) ∧
      ∀ fault, (next (.error fault)).Faithful t u plain given

theorem Faithful.bind {x : Script α} {f : α → Script β} (h : x.Faithful t u plain given)
    (hf : ∀ a log₀ log mine, Told t log₀ log mine →
      (f a).Ends t u plain given log₀ (fun _ => Told t log₀) log mine) :
    (x >>= f).Faithful t u plain given := by
  change (x.bind f).Faithful t u plain given
  induction x with
  | done a => exact h.elim
  | fail fault => trivial
  | act a next ih => exact fun s => ih _ (h s)
  | lock t' exclusive force next ih =>
    obtain ⟨hgranted, hrefused⟩ := h
    refine ⟨fun log => ?_, fun fault => ih _ (hrefused fault)⟩
    exact (hgranted log).bind fun a log' mine htold => hf a log log' mine htold

theorem faithful_beginChange {f : Unit → Script α}
    (hf : ∀ log, (f ()).Ends t u plain given log (fun _ => Told t log) log []) :
    (beginChange t >>= f).Faithful t u plain given := by
  intro s
  cases result checkWriting s with
  | ok _ => exact ⟨hf, fun _ => trivial⟩
  | error fault => trivial

section Changes

/-- What comes after a change of a row, and what the script yields. -/
theorem ends_after {p : Prop} [Decidable p] {x : Script Unit} (a : α) (hx : x.Quiet t u Any)
    (h : Told t log₀ log mine) :
    (if p then x >>= fun _ => pure a else pure a).Ends t u plain given log₀ (fun _ => Told t log₀)
      log mine := by
  split
  · exact ends_quiet hx h fun _ _ => h
  · exact h

theorem faithful_insert (r : Row) : (insert t u r).Faithful t u (r.key = none) given := by
  refine faithful_beginChange fun log => ?_
  have h : Told t log log [] := told_self t log
  refine ends_fitRow h fun fitted hfitted => ?_
  refine ends_quiet (quiet_table t) h fun table _ => ?_
  refine ends_quiet (quiet_fireBeforeRow _ _) h fun handled _ => ?_
  split
  · exact h
  · refine ends_add h (fun hkey key hk => ?_) fun stored log' hlog =>
      ends_after _ (quiet_fireAfterRow _ _) hlog
    cases (hfitted.trans hkey).symm.trans hk

theorem faithful_delete (r : Row) : (delete t u r).Faithful t u plain [r] := by
  refine faithful_beginChange fun log => ?_
  have h : Told t log log [] := told_self t log
  refine ends_quiet (quiet_table t) h fun table _ => ?_
  refine ends_quiet (quiet_fireBeforeRow _ _) h fun handled _ => ?_
  split
  · exact h
  · exact ends_remove h List.mem_cons_self fun log' _ _ hlog => ends_after _ (quiet_fireAfterRow _ _) hlog

theorem faithful_update (canceled : Nat → Bool) (pairs : List (Row × Row)) :
    (update t u canceled pairs).Faithful t u plain (pairs.map (·.1)) := by
  refine faithful_beginChange fun log => ?_
  have h : Told t log log [] := told_self t log
  refine ends_quiet (quiet_table t) h fun table _ => ?_
  refine (ends_prepare h).bind ?_
  rintro pending _ _ ⟨rfl, rfl, hold, hkeys⟩
  refine (ends_updateRows canceled 0 (fun r hr => hold hr) (fun r hr => ?_) _).bind
    fun replaced log' mine' hlog => ?_
  · obtain ⟨p, hp, rfl⟩ := List.mem_map.1 hr
    exact ⟨p.1, List.mem_map_of_mem hp, hkeys p hp⟩
  · exact ends_after _ (Quiet.forM fun _ => quiet_fireAfterRow _ _) hlog

end Changes

end Script

namespace Call

/-- The rows that a call is given to remove. -/
def oldRows : Call → List Row
  | .lock .. | .insert .. => []
  | .delete _ r => [r]
  | .update _ _ pairs => pairs.map (·.1)

/-- The call inserts no row under a key of its own. -/
def Keyless : Call → Prop
  | .insert _ r => r.key = none
  | .lock .. | .delete .. | .update .. => True

instance : (call : Call) → Decidable call.Keyless
  | .insert _ r => inferInstanceAs (Decidable (r.key = none))
  | .lock .. | .delete .. | .update .. => isTrue trivial

end Call

theorem Script.faithful_script {call : Call} (h : call.target? = some t) :
    (call.script u).Faithful t u call.Keyless call.oldRows := by
  cases call with
  | lock => cases h
  | insert t' r =>
    cases h
    exact (faithful_insert r).bind fun _ _ _ _ htold => htold
  | delete t' r =>
    cases h
    exact (faithful_delete r).bind fun _ _ _ _ htold => htold
  | update t' canceled pairs =>
    cases h
    exact (faithful_update canceled pairs).bind fun _ _ _ _ htold => htold

end RowStore
