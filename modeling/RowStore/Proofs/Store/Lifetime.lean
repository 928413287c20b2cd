import RowStore.Proofs.Store.Columns
import RowStore.Proofs.Store.Upkeep

/-!
# The life of a table

* `TableCall` : what is asked of a table; `Lifetime` : any number of such calls, as far as they are allowed;
* `Lifetime.keeps` : what every allowed call keeps up holds all along;
* `createTable_empty`, `table_setColumns`, `table_renameColumn` : what becomes of a table;
* `Table.Indexed` : a table has got an index; `addIndex_cases` : it gets one, or stays as it is;
* `Table.Sheds` : a table has let indexes go and columns have lost their marks, no more and no less than that
  asks for; `shedding_removeIndex`, `shedding_releaseIndex`, `shedding_dropColumnUses`;
* `Upkeep.at_call` : what is kept up while rows change holds after each call that changes them;
* `TableCall.becomes` : what other calls make of a table.
-/

namespace RowStore
open RowStore.Action RowStore.Store

/-! ## Calls -/

/-- What is asked of a table. -/
inductive TableCall where
  /-- Sets all columns; unresolved types are refused if types are checked. -/
  | setColumns (checkTypes : Bool) (columns : List Column)
  /-- Renames the column at a place. -/
  | renameColumn (place : Nat) (name : String)
  /-- Attaches an index, which holds the stored rows if `fill` is set. -/
  | addIndex (spec : IndexSpec) (fill : Bool)
  /-- Detaches an index. -/
  | removeIndex (id : Nat)
  /-- Drops an index, unless constraints use it, which then take it over. -/
  | releaseIndex (id : Nat)
  /-- Drops the constraints and indexes that use a column alone. -/
  | dropColumnUses (column : Nat)
  /-- A session inserts a row. -/
  | insert (u : Nat) (r : Row)
  /-- A session deletes the row stored under a row's key. -/
  | delete (u : Nat) (r : Row)
  /-- A session updates rows; `canceled n` says whether the statement is canceled at the `n`th look. -/
  | update (u : Nat) (canceled : Nat → Bool) (pairs : List (Row × Row))
  /-- A session asks for the default of a column. -/
  | defaultValue (u place : Nat)

namespace TableCall

def run (t : Nat) : TableCall → Action Store Unit
  | setColumns check columns => Store.setColumns t check columns
  | renameColumn place name => Store.renameColumn t place name
  | addIndex spec fill => Store.addIndex t spec fill
  | removeIndex id => discard (Store.removeIndex t id)
  | releaseIndex id => Store.releaseIndex t id
  | dropColumnUses column => Store.dropColumnUses t column
  | insert u r => (Change.insert t r).run u
  | delete u r => (Change.delete t r).run u
  | update u canceled pairs => (Change.update t canceled pairs).run u
  | defaultValue u place => discard (Store.defaultValue t u place)

end TableCall

/-- Any number of calls on a table, as far as they are allowed, whatever becomes of each.  In between,
anything may happen that leaves the table as it is. -/
inductive Lifetime (t : Nat) (allowed : Store → TableCall → Prop) (s₀ : Store) : Store → Prop where
  | start : Lifetime t allowed s₀ s₀
  | call {s : Store} (h : Lifetime t allowed s₀ s) (c : TableCall) (ok : allowed s c) :
    Lifetime t allowed s₀ (final (c.run t) s)
  | elsewhere {s s' : Store} (h : Lifetime t allowed s₀ s) (same : s'.table t = s.table t) :
    Lifetime t allowed s₀ s'

namespace Lifetime
variable {t : Nat} {allowed allowed' : Store → TableCall → Prop} {s₀ s : Store}

/-- What holds of the table at first and is kept up by each call that is allowed. -/
theorem keeps {P : Table → Prop} (h : Lifetime t allowed s₀ s) (h₀ : P (s₀.table t))
    (hcall : ∀ s c, allowed s c → P (s.table t) → P ((final (c.run t) s).table t)) : P (s.table t) := by
  induction h with
  | start => exact h₀
  | call h c ok ih => exact hcall _ c ok ih
  | elsewhere h same ih => rwa [same]

theorem mono (h : Lifetime t allowed s₀ s) (hi : ∀ s c, allowed s c → allowed' s c) :
    Lifetime t allowed' s₀ s := by
  induction h with
  | start => exact .start
  | call h c ok ih => exact ih.call c (hi _ c ok)
  | elsewhere h same ih => exact ih.elsewhere same

end Lifetime

/-! ## Columns and new indexes -/

section Structure
variable {t : Nat} {s s' : Store}

theorem table_setColumns (check : Bool) (columns : List Column) (s : Store) :
    (final (setColumns t check columns) s).table t = s.table t ∨
      ∃ cs, (final (setColumns t check columns) s).table t = { s.table t with columns := cs } ∧
        cs.list = columns.mapIdx fun i c => c.installed (s.table t).id i := by
  unfold final
  rw [setColumns_eq]
  cases hinstall : ColumnSet.install? (s.table t).id check columns with
  | error cause => exact Or.inl rfl
  | ok cs => exact Or.inr ⟨cs, table_putColumns s t cs, (ColumnSet.install?_inStep hinstall).2⟩

theorem table_renameColumn (place : Nat) (name : String) (s : Store) :
    (final (renameColumn t place name) s).table t = s.table t ∨
      ∃ cs, (final (renameColumn t place name) s).table t = { s.table t with columns := cs } ∧
        cs.list = (s.table t).columns.list.modify place ({ · with name := name }) := by
  unfold final
  rw [renameColumn_eq]
  cases hrename : (s.table t).columns.rename? place name with
  | error cause => exact Or.inl rfl
  | ok cs =>
    obtain ⟨-, c, -, rfl⟩ := ColumnSet.rename?_eq_ok.1 hrename
    exact Or.inr ⟨_, table_putColumns s t _, rfl⟩

/-- A new table has the columns that it is given, and neither constraints nor rows nor indexes. -/
theorem createTable_empty {spec : TableSpec} (h : createTable spec s = .ok () s') :
    (s'.table spec.id).constraints = [] ∧
      (s'.table spec.id).engine = { table := spec.id, name := spec.name } ∧
      (s'.table spec.id).columns.list = spec.columns.mapIdx fun i c => c.installed spec.id i := by
  unfold createTable at h
  rw [get_bind] at h
  unfold Table.create? at h
  cases hinstall : ColumnSet.install? spec.id true spec.columns with
  | error cause =>
    rw [hinstall] at h
    cases h
  | ok cs =>
    rw [hinstall] at h
    cases h
    change ((s.setTable spec.id _).table spec.id).constraints = [] ∧
      ((s.setTable spec.id _).table spec.id).engine = _ ∧
      ((s.setTable spec.id _).table spec.id).columns.list = _
    rw [table_setTable]
    exact ⟨rfl, rfl, (ColumnSet.install?_inStep hinstall).2⟩

/-- A table with a new index, which holds the stored rows if `fill` is set. -/
structure Table.Indexed (table : Table) (spec : IndexSpec) (fill : Bool) (table' : Table) : Prop where
  checked : spec.columns.forM (checkIndexColumn table spec.type.primaryKey) = .ok ()
  built : ∃ e, Engine.addIndex spec fill table.engine = .ok () e ∧ table' = { table with
    engine := e
    columns := if spec.type.primaryKey then table.columns.markPrimary true spec.columns else table.columns }

namespace Table
variable {table table' : Table}

/-- The columns of an index pass if they exist and, for a primary key, take no NULL. -/
theorem checked_iff {cs : List IndexColumn} {primaryKey : Bool} :
    cs.forM (checkIndexColumn table primaryKey) = .ok () ↔ ∀ c ∈ cs, ∃ column,
      table.columns.get? c.place = some column ∧ (primaryKey = true → column.nullable = false) := by
  induction cs with
  | nil => exact ⟨fun _ => nofun, fun _ => rfl⟩
  | cons first rest ih =>
    rw [List.forall_mem_cons, ← ih]
    show (checkIndexColumn table primaryKey first >>= fun _ =>
      rest.forM (checkIndexColumn table primaryKey)) = .ok () ↔ _
    unfold checkIndexColumn
    cases table.columns.get? first.place with
    | none => exact iff_of_false nofun fun ⟨⟨_, hc, _⟩, _⟩ => nomatch hc
    | some column =>
      dsimp only
      cases hnull : primaryKey && column.nullable with
      | true =>
        obtain ⟨rfl, hnullable⟩ := Bool.and_eq_true_iff.1 hnull
        refine iff_of_false nofun ?_
        rintro ⟨⟨_, hc, hfree⟩, -⟩
        cases hc
        cases hnullable.symm.trans (hfree rfl)
      | false =>
        refine ⟨fun h => ⟨⟨column, rfl, ?_⟩, h⟩, fun h => h.2⟩
        rintro rfl
        exact hnull

theorem get?_of_checked {cs : List IndexColumn} {primaryKey : Bool}
    (h : cs.forM (checkIndexColumn table primaryKey) = .ok ()) :
    ∀ c ∈ cs, ∃ column, table.columns.get? c.place = some column := by
  intro c hc
  obtain ⟨column, hcolumn, -⟩ := checked_iff.1 h c hc
  exact ⟨column, hcolumn⟩

theorem Indexed.specs {spec : IndexSpec} {fill : Bool} (h : table.Indexed spec fill table') :
    table'.engine.specs = table.engine.specs ++ [spec] ∧ spec.id ∉ table.engine.specs.map (·.id) := by
  obtain ⟨-, e, hadd, rfl⟩ := h
  exact Engine.specs_addIndex hadd

end Table

/-- An index is attached, or it is not for its columns, or not for what the engine asks. -/
theorem addIndex_cases (spec : IndexSpec) (fill : Bool) (s : Store) :
    (∃ s', addIndex t spec fill s = .ok () s' ∧ (s.table t).Indexed spec fill (s'.table t)) ∨
      ∃ fault s', addIndex t spec fill s = .error fault s' ∧ s'.table t = s.table t ∧
        ((spec.columns = [] ∨
            spec.columns.forM (checkIndexColumn (s.table t) spec.type.primaryKey) ≠ .ok ()) ∧
            (∃ cause, fault = .error cause) ∨
          spec.columns.forM (checkIndexColumn (s.table t) spec.type.primaryKey) = .ok () ∧
            ∃ e, Engine.addIndex spec fill (s.table t).engine = .error fault e) := by
  unfold addIndex
  rw [get_bind]
  dsimp only
  by_cases hempty : spec.columns.isEmpty = true
  · rw [if_pos hempty]
    exact Or.inr ⟨_, s, rfl, rfl, Or.inl ⟨Or.inl (List.isEmpty_iff.1 hempty), _, rfl⟩⟩
  · rw [if_neg hempty]
    cases hcheck : spec.columns.forM (checkIndexColumn (s.table t) spec.type.primaryKey) with
    | error cause => exact Or.inr ⟨_, s, rfl, rfl, Or.inl ⟨Or.inr nofun, cause, rfl⟩⟩
    | ok _ =>
      cases hadd : Engine.addIndex spec fill (s.table t).engine with
      | error fault e =>
        refine Or.inr ⟨fault, s.setEngine t e, ?_, ?_, Or.inr ⟨rfl, e, rfl⟩⟩
        · exact (bind_of_ok (a := ()) rfl).trans (bind_of_error (onEngine_of_error hadd))
        · obtain rfl := Engine.addIndex_eq_error hadd
          exact table_setTable s t _
      | ok _ e =>
        left
        -- once the engine has the index, what is left to do cannot fail
        have htail (built attached : TraceRecord) (b : Store) : ∃ b', (do
            note built
            if spec.type.primaryKey then
              modifyTable t fun table =>
                { table with columns := table.columns.markPrimary true spec.columns }
            note attached : Action Store Unit) b = .ok () b' ∧ b'.table t = { b.table t with
              columns := if spec.type.primaryKey then (b.table t).columns.markPrimary true spec.columns
                else (b.table t).columns } := by
          cases spec.type.primaryKey with
          | false => exact ⟨_, rfl, rfl⟩
          | true => exact ⟨_, rfl, table_setTable _ t _⟩
        obtain ⟨s', hend, htable⟩ := htail (.indexBuilt spec.name (s.table t).engine.name)
          (.indexAttached spec.name spec.id (s.table t).name) (s.setEngine t e)
        refine ⟨s', ?_, hcheck, e, hadd, ?_⟩
        · exact (bind_of_ok (a := ()) rfl).trans ((bind_of_ok (onEngine_of_ok hadd)).trans hend)
        · unfold Store.setEngine at htable
          rwa [table_setTable] at htable

end Structure

/-! ## Marks of primary keys -/

namespace ColumnSet

def kinds (cs : ColumnSet) : List (DataType × Bool) := cs.list.map fun c => (c.dataType, c.nullable)

theorem width_of_kinds {cs cs' : ColumnSet} (h : cs'.kinds = cs.kinds) : cs'.width = cs.width := by
  have hlength := congrArg List.length h
  unfold kinds at hlength
  rwa [List.length_map, List.length_map] at hlength

theorem kinds_of_renamed {cs cs' : ColumnSet} {place : Nat} {name : String}
    (h : cs'.list = cs.list.modify place ({ · with name := name })) : cs'.kinds = cs.kinds := by
  unfold kinds
  rw [h]
  refine List.ext_getElem? fun i => ?_
  rw [List.getElem?_map, List.getElem?_map, List.getElem?_modify, Option.map_eq_map, Option.map_map]
  congr 1
  funext c
  dsimp only [Function.comp]
  split <;> rfl

theorem get?_markPrimary (cs : ColumnSet) (mark : Bool) (marked : List IndexColumn) (i : Nat) :
    (cs.markPrimary mark marked).get? i = (cs.get? i).map fun c =>
      if marked.any (·.place == i) then { c with primaryKey := mark } else c := by
  induction marked generalizing cs with
  | nil => exact Option.map_id'.symm ▸ rfl
  | cons first rest ih =>
    have hget : (cs.alter first.place ({ · with primaryKey := mark })).get? i =
        (cs.get? i).map fun c => if first.place = i then { c with primaryKey := mark } else c :=
      List.getElem?_modify ..
    refine (ih _).trans ?_
    rw [hget, Option.map_map]
    congr 1
    funext c
    by_cases hfirst : first.place = i
    · simp [hfirst]
    · simp [hfirst]

theorem kinds_markPrimary (cs : ColumnSet) (mark : Bool) (marked : List IndexColumn) :
    (cs.markPrimary mark marked).kinds = cs.kinds := by
  refine List.ext_getElem? fun i => ?_
  unfold kinds
  rw [List.getElem?_map, List.getElem?_map]
  refine (congrArg (Option.map _) (get?_markPrimary cs mark marked i)).trans ?_
  rw [Option.map_map]
  congr 1
  funext c
  dsimp only [Function.comp]
  split <;> rfl

end ColumnSet

def IndexSpec.PrimaryOn (spec : IndexSpec) (place : Nat) : Prop :=
  spec.type.primaryKey = true ∧ spec.columns.any (·.place == place) = true

namespace Table

/-- The column at a place is marked as one of a primary key. -/
def Marked (table : Table) (place : Nat) : Prop :=
  ∃ c, table.columns.get? place = some c ∧ c.primaryKey = true

/-- A table has let indexes go, and columns have lost their marks: those of the primary keys that have gone,
and no others. -/
structure Sheds (table table' : Table) : Prop where
  engine : ∃ ixs, ixs.Sublist table.engine.indexes ∧ table'.engine = { table.engine with indexes := ixs }
  kinds : table'.columns.kinds = table.columns.kinds
  constraints : table'.constraints ⊆ table.constraints
  unmarked : ∀ place, table'.Marked place → table.Marked place ∧
    ∀ spec ∈ table.engine.specs, spec.PrimaryOn place → spec ∈ table'.engine.specs
  marked : ∀ place, (table.engine.specs.map (·.id)).Nodup →
    (∀ spec ∈ table.engine.specs, spec.PrimaryOn place → spec ∈ table'.engine.specs) →
      table.Marked place → table'.Marked place

namespace Sheds
variable {table table' table'' : Table}

theorem refl (table : Table) : table.Sheds table where
  engine := ⟨_, List.Sublist.refl _, rfl⟩
  kinds := rfl
  constraints := fun _ h => h
  unmarked _ h := ⟨h, fun _ hix _ => hix⟩
  marked _ _ _ h := h

theorem specs (h : table.Sheds table') : table'.engine.specs.Sublist table.engine.specs := by
  obtain ⟨ixs, hsub, he⟩ := h.engine
  rw [he]
  exact hsub.map _

theorem trans (h : table.Sheds table') (h' : table'.Sheds table'') : table.Sheds table'' where
  engine := by
    obtain ⟨ixs, hsub, he⟩ := h.engine
    obtain ⟨ixs', hsub', he'⟩ := h'.engine
    rw [he] at hsub' he'
    exact ⟨ixs', hsub'.trans hsub, he'⟩
  kinds := h'.kinds.trans h.kinds
  constraints := fun _ hc => h.constraints (h'.constraints hc)
  unmarked place hm := by
    obtain ⟨hm', hstay'⟩ := h'.unmarked place hm
    obtain ⟨hm'', hstay⟩ := h.unmarked place hm'
    exact ⟨hm'', fun ix hix hp => hstay' ix (hstay ix hix hp) hp⟩
  marked place hids hstay hm := by
    have hmid := h.marked place hids (fun ix hix hp => h'.specs.subset (hstay ix hix hp)) hm
    refine h'.marked place (hids.sublist (h.specs.map _)) (fun ix hix hp => ?_) hmid
    exact hstay ix (h.specs.subset hix) hp

end Sheds

def withoutIndex (table : Table) (id : Nat) : Table := { table with
  engine := { table.engine with indexes := table.engine.indexes.eraseP (·.spec.id == id) }
  columns := match table.engine.index? id with
    | some ix => if ix.spec.type.primaryKey then table.columns.markPrimary false ix.spec.columns
      else table.columns
    | none => table.columns }

theorem marked_withoutIndex {table : Table} {id place : Nat} {gone : TreeIndex}
    (h : table.engine.index? id = some gone) :
    (table.withoutIndex id).Marked place ↔ table.Marked place ∧ ¬ gone.spec.PrimaryOn place := by
  unfold Marked withoutIndex IndexSpec.PrimaryOn
  rw [h]
  dsimp only
  cases gone.spec.type.primaryKey with
  | false => simp
  | true =>
    simp only [if_true, ColumnSet.get?_markPrimary, Option.map_eq_some_iff, true_and]
    constructor
    · rintro ⟨_, ⟨c, hc, rfl⟩, hmark⟩
      split at hmark
      · cases hmark
      · rename_i hany
        exact ⟨⟨c, hc, hmark⟩, hany⟩
    · rintro ⟨⟨c, hc, hmark⟩, hany⟩
      exact ⟨c, ⟨c, hc, if_neg hany⟩, hmark⟩

theorem sheds_withoutIndex (table : Table) (id : Nat) : table.Sheds (table.withoutIndex id) := by
  cases hgone : table.engine.index? id with
  | none =>
    have hsame : table.withoutIndex id = table := by
      have hp : ∀ ix ∈ table.engine.indexes, ¬ (ix.spec.id == id) = true := List.find?_eq_none.1 hgone
      unfold withoutIndex
      rw [hgone, List.eraseP_of_forall_not hp]
    rw [hsame]
    exact .refl table
  | some gone =>
    obtain ⟨hid, before, after, hixs, hbefore⟩ := List.find?_eq_some_iff_append.1 hgone
    have hspecs : table.engine.specs = before.map (·.spec) ++ gone.spec :: after.map (·.spec) := by
      unfold Engine.specs
      rw [hixs, List.map_append, List.map_cons]
    have hleft : (table.withoutIndex id).engine.specs = before.map (·.spec) ++ after.map (·.spec) := by
      have herase : table.engine.indexes.eraseP (·.spec.id == id) = before ++ after := by
        rw [hixs, List.eraseP_append_right _ fun ix hix => by simpa using hbefore ix hix]
        exact congrArg (before ++ ·) (List.eraseP_cons_of_pos hid)
      exact (congrArg (List.map _) herase).trans List.map_append
    exact {
      engine := ⟨_, List.eraseP_sublist, rfl⟩
      kinds := by
        unfold withoutIndex
        rw [hgone]
        dsimp only
        split
        · exact ColumnSet.kinds_markPrimary _ _ _
        · rfl
      constraints := fun _ h => h
      unmarked := fun place hm => by
        obtain ⟨hm, hgoes⟩ := (marked_withoutIndex hgone).1 hm
        refine ⟨hm, fun spec hspec hp => ?_⟩
        have hne : spec ≠ gone.spec := by
          rintro rfl
          exact hgoes hp
        rw [hspecs] at hspec
        rw [hleft]
        simpa [hne] using hspec
      marked := fun place hids hstay hm => by
        refine (marked_withoutIndex hgone).2 ⟨hm, fun hp => ?_⟩
        have hmem := hstay gone.spec (hspecs ▸ List.mem_append_right _ List.mem_cons_self) hp
        -- the numbers are distinct, so the index that goes is none of those that stay
        rw [hleft] at hmem
        rw [hspecs, List.map_append, List.map_cons, List.nodup_middle, ← List.map_append] at hids
        exact (List.nodup_cons.1 hids).1 (List.mem_map_of_mem hmem) }

end Table

/-! ## Indexes that go -/

section Sheds
variable {t : Nat} {s : Store}

theorem removeIndex_eq_ok (t id : Nat) (s : Store) : ∃ s',
    Store.removeIndex t id s = .ok ((s.table t).engine.index? id) s' ∧
      s'.table t = (s.table t).withoutIndex id := by
  unfold Store.removeIndex
  rw [get_bind]
  have hremove : onEngine t (Engine.removeIndex id) s = .ok ((s.table t).engine.index? id) _ :=
    onEngine_of_ok (Engine.removeIndex_eq _ id)
  rw [bind_of_ok hremove]
  cases hix : (s.table t).engine.index? id with
  | none =>
    refine ⟨_, rfl, ?_⟩
    unfold Table.withoutIndex Store.setEngine
    rw [hix, table_setTable]
  | some ix =>
    dsimp only
    unfold Table.withoutIndex
    rw [hix]
    dsimp only
    have htable := table_setTable s t { s.table t with engine :=
      { (s.table t).engine with indexes := (s.table t).engine.indexes.eraseP (·.spec.id == id) } }
    cases hpk : ix.spec.type.primaryKey with
    | false => exact ⟨_, rfl, htable⟩
    | true =>
      refine ⟨_, rfl, (table_setTable _ t _).trans ?_⟩
      exact congrArg (fun table : Table =>
        { table with columns := table.columns.markPrimary false ix.spec.columns }) htable

def Shedding {α : Type} (t : Nat) (act : Action Store α) : Prop :=
  ∀ s : Store, (s.table t).Sheds ((final act s).table t)

section Shedding
variable {α β : Type} {x : Action Store α} {f : α → Action Store β}

theorem Shedding.of_keeps (h : Keeps (·.table t) x) : Shedding t x := by
  intro s
  rw [show (final x s).table t = s.table t from h s]
  exact .refl _

theorem Shedding.bind (hx : Shedding t x) (hf : ∀ a, Shedding t (f a)) : Shedding t (x >>= f) := by
  intro s
  have hfirst := hx s
  cases h : x s with
  | ok a s' =>
    rw [final_of_ok h] at hfirst
    rw [final_bind_of_ok h]
    exact hfirst.trans (hf a s')
  | error fault s' =>
    rw [final_of_error h] at hfirst
    rwa [final_bind_of_error h]

theorem Shedding.get_bind {f : Store → Action Store β} (hf : ∀ s, Shedding t (f s)) :
    Shedding t (get >>= f) := fun s => hf s s

theorem Shedding.discard (hx : Shedding t x) : Shedding t (Functor.discard x) := by
  intro s
  rw [final_discard]
  exact hx s

theorem Shedding.forM {f : α → Action Store Unit} (hf : ∀ a, Shedding t (f a)) (xs : List α) :
    Shedding t (xs.forM f) := by
  induction xs with
  | nil => exact .of_keeps (keeps_pure ())
  | cons x xs ih => exact (hf x).bind fun _ => ih

end Shedding

theorem shedding_modifyCatalog (f : Catalog → Catalog) : Shedding t (modifyCatalog f) :=
  .of_keeps (keeps_modify fun _ => rfl)

theorem shedding_removeIndex (t id : Nat) : Shedding t (Store.removeIndex t id) := by
  intro s
  obtain ⟨s', hend, htable⟩ := removeIndex_eq_ok t id s
  rw [final_of_ok hend, htable]
  exact Table.sheds_withoutIndex _ _

theorem shedding_releaseIndex (t id : Nat) : Shedding t (Store.releaseIndex t id) := by
  have hhand (users : List Constraint) : Shedding t (handOver id users) := by
    refine Shedding.forM (fun c => Shedding.bind (.of_keeps ?_) fun _ => shedding_modifyCatalog _) users
    exact fun s => table_eq_of_core (u := 0) (keeps_onFired _ s) t
  refine Shedding.get_bind fun s => ?_
  cases (s.table t).constraints.filter (·.usesIndex id) with
  | nil => exact (shedding_modifyCatalog _).bind fun _ => (shedding_removeIndex t id).discard
  | cons c users => exact hhand (c :: users)

theorem shedding_removeConstraint (t id : Nat) : Shedding t (removeConstraint t id) := by
  intro s
  have hend : (final (removeConstraint t id) s).table t = { s.table t with
      constraints := (s.table t).constraints.eraseP (·.id == id) } := table_setTable s t _
  rw [hend]
  exact { Table.Sheds.refl (s.table t) with constraints := List.eraseP_subset }

theorem shedding_dropConstraint (t : Nat) (c : Constraint) : Shedding t (dropConstraint t c) :=
  (shedding_modifyCatalog _).bind fun _ => (shedding_removeConstraint t c.id).discard

theorem shedding_dropIndex (t : Nat) (ix : TreeIndex) : Shedding t (dropIndex t ix) := by
  refine Shedding.get_bind fun s => ?_
  split
  · exact (shedding_modifyCatalog _).bind fun _ => (shedding_removeIndex t ix.spec.id).discard
  · exact .of_keeps (keeps_pure ())

theorem shedding_dropColumnUses (t column : Nat) : Shedding t (Store.dropColumnUses t column) := by
  refine Shedding.get_bind fun s => ?_
  refine Shedding.bind (.of_keeps (keeps_ofExcept _)) fun constraints => ?_
  refine Shedding.bind (.of_keeps (keeps_ofExcept _)) fun indexes => ?_
  refine (Shedding.forM (shedding_dropConstraint t) constraints).bind fun _ => ?_
  exact Shedding.forM (shedding_dropIndex t) indexes

end Sheds

/-! ## Rows -/

namespace TableCall

def changesRows : TableCall → Bool
  | insert .. | delete .. | update .. => true
  | _ => false

/-- What the call is given to remove, and may have to put back, may be stored. -/
def Fed (K : Upkeep) (e : Engine) : TableCall → Prop
  | update _ _ pairs => ∀ r ∈ pairs.map (·.1), K.Fed e r
  | _ => True

end TableCall

/-- What is kept up of a table is so after every change of its rows. -/
theorem Upkeep.meets_call (K : Upkeep) {t : Nat} {c : TableCall} (hc : c.changesRows = true) :
    Meets (fun s => K.At t s ∧ c.Fed K (s.table t).engine) (c.run t) (fun _ => K.At t)
      fun fault s => K.At t s ∧ K.fine fault := by
  cases c with
  | insert u r => exact (safe_insert r).discard.pre fun _ h => h.1
  | delete u r => exact (safe_delete r).discard.pre fun _ h => h.1
  | update u canceled pairs =>
    exact (meets_update canceled pairs).bind fun _ => meets_pure fun _ h => h
  | setColumns | renameColumn | addIndex | removeIndex | releaseIndex | dropColumnUses | defaultValue =>
    cases hc

theorem Upkeep.at_call (K : Upkeep) {t : Nat} {c : TableCall} {s : Store} (hc : c.changesRows = true)
    (h : K.At t s) (hf : c.Fed K (s.table t).engine) : K.At t (final (c.run t) s) := by
  cases hr : c.run t s with
  | ok _ s' =>
    rw [final_of_ok hr]
    exact (K.meets_call hc).of_ok ⟨h, hf⟩ hr
  | error fault s' =>
    rw [final_of_error hr]
    exact ((K.meets_call hc).of_error ⟨h, hf⟩ hr).1

theorem keeps_table_defaultValue (t u place : Nat) : Keeps (·.table t) (Store.defaultValue t u place) := by
  have hnumbering {α : Type} (act : Action Numbering α) :
      Keeps (fun s : Store => s.table t) (onNumbering u act) := by
    refine keeps_within ?_ act
    intro n s
    rfl
  have hslot {α : Type} (x : Option α) : Keeps (fun s : Store => s.table t) (slot x) := by
    cases x <;> exact fun _ => rfl
  refine Keeps.get_bind fun s => (hslot _).bind fun c => ?_
  cases c.default with
  | some e => exact (hnumbering _).bind fun _ => keeps_ofExcept _
  | none => exact (hnumbering _).bind fun _ => (keeps_pure _).bind fun _ => keeps_ofExcept _

/-! ## What becomes of a table -/

namespace TableCall

/-- What a call that does not change rows makes of a table. -/
inductive Becomes (table : Table) : TableCall → Table → Prop where
  | same {c : TableCall} : Becomes table c table
  | columns {check : Bool} {columns : List Column} {cs : ColumnSet}
    (hlist : cs.list = columns.mapIdx fun i c => c.installed table.id i) :
    Becomes table (.setColumns check columns) { table with columns := cs }
  | renamed {place : Nat} {name : String} {cs : ColumnSet}
    (hlist : cs.list = table.columns.list.modify place ({ · with name := name })) :
    Becomes table (.renameColumn place name) { table with columns := cs }
  | indexed {spec : IndexSpec} {fill : Bool} {table' : Table} (hindexed : table.Indexed spec fill table') :
    Becomes table (.addIndex spec fill) table'
  | sheds {c : TableCall} {table' : Table} (hsheds : table.Sheds table') : Becomes table c table'

theorem becomes {t : Nat} {c : TableCall} (hc : c.changesRows = false) (s : Store) :
    Becomes (s.table t) c ((final (c.run t) s).table t) := by
  have hsame (h : (final (c.run t) s).table t = s.table t) :
      Becomes (s.table t) c ((final (c.run t) s).table t) := h ▸ .same
  cases c with
  | setColumns check columns =>
    rcases table_setColumns (t := t) check columns s with hend | ⟨cs, hend, hlist⟩
    · exact hsame hend
    · exact (congrArg (Becomes _ _) hend).mpr (.columns hlist)
  | renameColumn place name =>
    rcases table_renameColumn (t := t) place name s with hend | ⟨cs, hend, hlist⟩
    · exact hsame hend
    · exact (congrArg (Becomes _ _) hend).mpr (.renamed hlist)
  | addIndex spec fill =>
    rcases addIndex_cases (t := t) spec fill s with ⟨s', hend, hindexed⟩ | ⟨fault, s', hend, htable, -⟩
    · rw [show final ((addIndex spec fill).run t) s = s' from final_of_ok hend]
      exact .indexed hindexed
    · refine hsame ?_
      rw [show final ((addIndex spec fill).run t) s = s' from final_of_error hend, htable]
  | removeIndex id => exact .sheds ((shedding_removeIndex t id).discard s)
  | releaseIndex id => exact .sheds (shedding_releaseIndex t id s)
  | dropColumnUses column => exact .sheds (shedding_dropColumnUses t column s)
  | defaultValue u place => exact hsame ((keeps_table_defaultValue t u place).discard s)
  | insert | delete | update => cases hc

end TableCall

end RowStore
