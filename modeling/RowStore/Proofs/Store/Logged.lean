import RowStore.Proofs.Engine.Contents
import RowStore.Proofs.Store.Frame

/-!
# What a session logs, and the way back

* `Store.Ready` : a session can restore rows of tables whose indexes hold all rows;
* `Store.Alike` : another store with the same contents;
* `Store.Logged` : from one store to another a session has logged records, and undoing them leads back,
  from every store alike; `Logged.trans` takes two such ways together;
* `Logged.of_core`, `logged_add`, `logged_remove` : one step, and what it logs;
* `Logged.rollback` : the session goes back to the savepoint at which it began.
-/

namespace RowStore

/-- The key that a row is given on its way into a table; none if its own is taken, or if its values are
contested. -/
def Table.assigned? (t : Table) (r : Row) : Option RowKey :=
  if t.contested.any r.values.contains then none else t.engine.assigned? r

namespace Store

/-- The tables exist and their indexes hold all rows, which the session can restore. -/
structure Ready (among : Nat → Prop) (u : Nat) (s : Store) : Prop where
  full : ∀ t, among t → (s.table t).engine.Full
  tables : ∀ t, among t → s.tables.contains t = true
  attached : s.detached.contains u = false

/-- The second store has the contents of the first, and its tables are sound. -/
structure Alike (among : Nat → Prop) (s b : Store) : Prop where
  contents : ∀ t, (b.table t).engine.contents = (s.table t).engine.contents
  sound : ∀ t, among t → (b.table t).engine.Sound
  tables : ∀ t, among t → b.tables.contains t = true
  detached : b.detached = s.detached

section Alike
variable {among : Nat → Prop} {u t : Nat} {s s' b c : Store} {e e' : Engine}

theorem Ready.alike (h : Ready among u s) : Alike among s s where
  contents _ := rfl
  sound t ht := (h.full t ht).sound
  tables := h.tables
  detached := rfl

theorem Alike.trans (h : Alike among s b) (h' : Alike among b c) : Alike among s c where
  contents t := (h'.contents t).trans (h.contents t)
  sound := h'.sound
  tables := h'.tables
  detached := h'.detached.trans h.detached

theorem Ready.of_alike (h : Ready among u s) (ha : Alike among s b) : Ready among u b where
  full t ht := (h.full t ht).of_contents (ha.sound t ht) (ha.contents t)
  tables := ha.tables
  attached := ha.detached ▸ h.attached

/-- A store with the core of another is like it. -/
theorem Ready.alike_of_core (h : Ready among u s) (hc : s'.core u = s.core u) :
    Alike among s s' where
  contents t := by rw [table_eq_of_core hc]
  sound t ht := by
    rw [table_eq_of_core hc]
    exact (h.full t ht).sound
  tables t ht := by
    rw [show s'.tables = s.tables from congrArg Prod.fst hc]
    exact h.tables t ht
  detached := congrArg (fun c => c.2.1) hc

/-- Where two stores differ in one table, its contents can be put in place. -/
theorem Alike.setEngine (h : Alike among s' b) (others : ∀ t' ≠ t, s'.table t' = s.table t')
    (hd : s'.detached = s.detached) (he : e.Sound)
    (hc : e.contents = (s.table t).engine.contents) : Alike among s (b.setEngine t e) where
  contents t' := by
    by_cases ht : t' = t
    · rw [ht, engine_setEngine, hc]
    · rw [table_setEngine_of_ne _ ht, h.contents, others t' ht]
  sound t' ht' := by
    by_cases ht : t' = t
    · rw [ht, engine_setEngine]
      exact he
    · rw [table_setEngine_of_ne _ ht]
      exact h.sound t' ht'
  tables t' ht' := contains_setTable (h.tables t' ht')
  detached := h.detached.trans hd

theorem Alike.contents_setEngine (h : Alike among (s.setEngine t e) b) :
    (b.table t).engine.contents = e.contents := by
  rw [h.contents, engine_setEngine]

/-- The old contents can be put back in place. -/
theorem Alike.putBack (h : Alike among (s.setEngine t e') b) (he : e.Sound)
    (hc : e.contents = (s.table t).engine.contents) : Alike among s (b.setEngine t e) :=
  h.setEngine (fun _ hne => table_setEngine_of_ne s hne e') rfl he hc

theorem Ready.setEngine (h : Ready among u s) (he : e.Full) : Ready among u (s.setEngine t e) where
  full t' ht' := by
    by_cases ht : t' = t
    · rw [ht, engine_setEngine]
      exact he
    · rw [table_setEngine_of_ne _ ht]
      exact h.full t' ht'
  tables t' ht' := contains_setTable (h.tables t' ht')
  attached := h.attached

end Alike

/-! ## Logs -/

/-- From the first store to the second the session has logged the records.  From every store like the
second, undoing them, the latest first, leads to one like the first. -/
structure Logged (among : Nat → Prop) (u : Nat) (s s' : Store) (records : List UndoRecord) :
    Prop where
  ready : Ready among u s'
  log : (s'.session u).undoLog = (s.session u).undoLog ++ records
  back : ∀ b, Alike among s' b → ∃ b', records.reverse.forM (undo u) b = .ok () b' ∧
    Alike among s b' ∧ b'.sessions = b.sessions

section Logged
variable {among : Nat → Prop} {u t : Nat} {s s' s'' b : Store} {e e' : Engine}
  {records records' : List UndoRecord} {r stored : Row}

/-- A step that changes nothing in the contents or the log. -/
theorem Logged.of_alike (h : Ready among u s) (ha : Alike among s s')
    (hlog : (s'.session u).undoLog = (s.session u).undoLog) : Logged among u s s' [] where
  ready := h.of_alike ha
  log := by rw [hlog, List.append_nil]
  back b hb := ⟨b, rfl, ha.trans hb, rfl⟩

theorem Logged.of_core (h : Ready among u s) (hc : s'.core u = s.core u) :
    Logged among u s s' [] :=
  .of_alike h (h.alike_of_core hc) (congrArg (fun c => c.2.2) hc)

/-- An engine with the same contents in place of the old one. -/
theorem Logged.of_setEngine (h : Ready among u s) (he : e.Sound)
    (hc : e.contents = (s.table t).engine.contents) : Logged among u s (s.setEngine t e) [] :=
  .of_alike h (h.alike.setEngine (fun _ _ => rfl) rfl he hc) rfl

theorem Logged.trans (h : Logged among u s s' records) (h' : Logged among u s' s'' records') :
    Logged among u s s'' (records ++ records') where
  ready := h'.ready
  log := by rw [h'.log, h.log, List.append_assoc]
  back b hb := by
    obtain ⟨m, hm, ham, hsm⟩ := h'.back b hb
    obtain ⟨b', hb', hab', hsb'⟩ := h.back m ham
    refine ⟨b', ?_, hab', hsb'.trans hsm⟩
    have happ : forM (records'.reverse ++ records.reverse) (undo u) =
        (do forM records'.reverse (undo u); forM records.reverse (undo u)) := List.forM_append
    rw [List.reverse_append]
    exact (congrFun happ b).trans ((Action.bind_of_ok hm).trans hb')

theorem Ready.alike_setSession (h : Ready among u s) (session : Session) :
    Alike among s (s.setSession u session) where
  contents _ := rfl
  sound t ht := (h.full t ht).sound
  tables := h.tables
  detached := rfl

/-- A session that goes back to where its records begin finds the contents and the log of then. -/
theorem Logged.rollback (h : Logged among u s s' records) :
    ∃ b, rollbackTo u (s.session u).position s' = .ok () b ∧ Alike among s b ∧
      (b.session u).undoLog = (s.session u).undoLog := by
  obtain ⟨b, hb, ha, hs⟩ := h.back _ (h.ready.alike_setSession
    { s'.session u with undoLog := (s.session u).undoLog })
  have hsplit : (s'.session u).split (s.session u).position =
      (records, { s'.session u with undoLog := (s.session u).undoLog }) := by
    unfold Session.split Session.position
    rw [h.log, List.drop_left, List.take_left]
  refine ⟨b, ?_, ha, ?_⟩
  · unfold rollbackTo
    rw [Action.get_bind, hsplit]
    exact hb
  · have hsession : ∀ c : Store, b.sessions = c.sessions → b.session u = c.session u := by
      intro c hc
      unfold Store.session
      rw [hc]
    rw [hsession _ hs, session_setSession]

/-! ## One step -/

def recorded (s : Store) (u : Nat) (record : UndoRecord) : Store :=
  s.setSession u ((s.session u).log record)

theorem log_eq (s : Store) (t u : Nat) (op : UndoOp) (r : Row) :
    log t u op r s = .ok () (s.recorded u ⟨t, op, r⟩) := rfl

/-- A change of one table, logged with what takes it back. -/
theorem logged_recorded (h : Ready among u s) (he : e'.Full) {op : UndoOp}
    (hback : ∀ b, Alike among (s.setEngine t e') b → ∃ b', undo u ⟨t, op, r⟩ b = .ok () b' ∧
      Alike among s b' ∧ b'.sessions = b.sessions) :
    Logged among u s ((s.setEngine t e').recorded u ⟨t, op, r⟩) [⟨t, op, r⟩] := by
  have hr := h.setEngine (t := t) he
  have ha := hr.alike_setSession (((s.setEngine t e').session u).log ⟨t, op, r⟩)
  refine ⟨hr.of_alike ha, ?_, fun b hb => ?_⟩
  · unfold recorded
    rw [session_setSession]
    rfl
  · obtain ⟨b', hb', hab, hs⟩ := hback b (ha.trans hb)
    refine ⟨b', ?_, hab, hs⟩
    exact Action.bind_of_ok hb'

theorem undo_inserted (hu : b.detached.contains u = false) (ht : b.tables.contains t = true) :
    undo u ⟨t, .inserted, r⟩ b = onEngine t (Engine.removeRow r) b := by
  unfold undo
  rw [Action.get_bind, hu, ht]
  rfl

theorem undo_deleted (hu : b.detached.contains u = false) (ht : b.tables.contains t = true) :
    undo u ⟨t, .deleted, r⟩ b = discard (onEngine t (Engine.addRow r)) b := by
  unfold undo
  rw [Action.get_bind, hu, ht]
  rfl

/-- A row that was added and logged. -/
theorem logged_add (h : Ready among u s) (ht : among t)
    (hl : (s.table t).assigned? r ≠ some lastKey)
    (he : onTable t (Table.addRow r) s = .ok stored s') :
    Logged among u s (s'.recorded u ⟨t, .inserted, stored⟩) [⟨t, .inserted, stored⟩] := by
  cases hc : (s.table t).contested.any r.values.contains with
  | true => cases (onTable_addRow_contested hc).symm.trans he
  | false =>
    rw [onTable_addRow hc] at he
    rw [Table.assigned?, hc] at hl
    cases hadd : Engine.addRow r (s.table t).engine with
    | error fault e => cases (onEngine_of_error hadd).symm.trans he
    | ok x e =>
      have hfull := (h.full t ht).addRow hl fun _ herror => nomatch hadd.symm.trans herror
      cases (onEngine_of_ok hadd).symm.trans he
      rw [Action.final_of_ok hadd] at hfull
      refine logged_recorded h hfull fun b hb => ?_
      obtain ⟨back, hback, hsound, hcon⟩ :=
        (h.full t ht).sound.removeRow_of_added hadd (hb.sound t ht) hb.contents_setEngine
      refine ⟨b.setEngine t back, ?_, hb.putBack hsound hcon, rfl⟩
      rw [undo_inserted (hb.detached ▸ h.attached) (hb.tables t ht)]
      exact onEngine_of_ok hback

/-- A row that was not added. -/
theorem logged_add_refused (h : Ready among u s) (ht : among t)
    (hl : (s.table t).assigned? r ≠ some lastKey) {cause : StoreError}
    (he : onTable t (Table.addRow r) s = .error (.error cause) s') : Logged among u s s' [] := by
  cases hc : (s.table t).contested.any r.values.contains with
  | true =>
    cases (onTable_addRow_contested hc).symm.trans he
    exact .of_setEngine h (h.full t ht).sound rfl
  | false =>
    rw [onTable_addRow hc] at he
    rw [Table.assigned?, hc] at hl
    cases hadd : Engine.addRow r (s.table t).engine with
    | ok x e => cases (onEngine_of_ok hadd).symm.trans he
    | error first e =>
      cases (onEngine_of_error hadd).symm.trans he
      have hsound := (h.full t ht).sound.addRow hl fun _ herror => nomatch hadd.symm.trans herror
      rw [Action.final_of_error hadd] at hsound
      refine .of_setEngine h hsound ?_
      rcases (h.full t ht).sound.addRow_refused hadd with ⟨-, rfl⟩ | ⟨_, -, rfl⟩
      · rfl
      · exact Engine.contents_claimed _ r

/-- A row that was removed and logged. -/
theorem logged_remove (h : Ready among u s) (ht : among t)
    (hr : ∀ key stored, r.key = some key → (s.table t).engine.row? key = some stored → r = stored)
    (he : onTable t (Table.removeRow r) s = .ok () s') :
    Logged among u s (s'.recorded u ⟨t, .deleted, r⟩) [⟨t, .deleted, r⟩] := by
  rw [onTable_removeRow] at he
  have hfull := (h.full t ht).removeRow r
  cases hrem : Engine.removeRow r (s.table t).engine with
  | error fault e => cases (onEngine_of_error hrem).symm.trans he
  | ok _ e =>
    cases (onEngine_of_ok hrem).symm.trans he
    rw [Action.final_of_ok hrem] at hfull
    -- The row that was removed is the one that is put back.
    obtain ⟨key, stored, _, hk, hstored, -⟩ := Engine.removeRow_eq_ok.1 hrem
    obtain rfl := hr key stored hk hstored
    refine logged_recorded h hfull fun b hb => ?_
    obtain ⟨back, hback, hsound, hcon⟩ :=
      (h.full t ht).addRow_of_removed hstored hrem (hb.sound t ht) hb.contents_setEngine
    refine ⟨b.setEngine t back, ?_, hb.putBack hsound hcon, rfl⟩
    rw [undo_deleted (hb.detached ▸ h.attached) (hb.tables t ht)]
    exact Action.discard_eq_ok.2 ⟨_, onEngine_of_ok hback⟩

/-- A row that was not removed. -/
theorem logged_remove_refused (h : Ready among u s) (ht : among t) {fault : Fault}
    (he : onTable t (Table.removeRow r) s = .error fault s') : Logged among u s s' [] := by
  rw [onTable_removeRow] at he
  cases hrem : Engine.removeRow r (s.table t).engine with
  | ok _ e => cases (onEngine_of_ok hrem).symm.trans he
  | error first e =>
    cases (onEngine_of_error hrem).symm.trans he
    obtain ⟨-, rfl⟩ := (h.full t ht).removeRow_eq_error hrem
    exact .of_setEngine h (h.full t ht).sound rfl

end Logged

end Store
end RowStore
