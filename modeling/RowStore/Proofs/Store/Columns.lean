import RowStore.Proofs.ColumnSet
import RowStore.Proofs.Store.Frame
import RowStore.Store.Structure

/-!
# Columns, names and the row of NULLs stay in step

* `ColumnCall` : the calls that change the columns of a table, their names, marks or row of NULLs;
* `setColumns_eq`, `renameColumn_eq`, `nullRow_eq` : what becomes of each;
* `Formed` : the columns of a table are in step; `stays_addIndex`, `Formed.call` : every call keeps them so;
* `ColumnsAgree` : what a table in step shows;
* `columns_stay_in_step` : all of it after any calls, whatever becomes of them.
-/

namespace RowStore.Store
open RowStore.Action

variable {t place : Nat} {check : Bool} {name : String} {columns : List Column} {s s' : Store}

/-! ## Calls -/

/-- A call that may change the columns of a table. -/
inductive ColumnCall where
  /-- Sets all columns; unresolved types are refused if types are checked. -/
  | set (checkTypes : Bool) (columns : List Column)
  /-- Renames the column at a place. -/
  | rename (place : Nat) (name : String)
  /-- Asks for the row of NULLs. -/
  | nulls
  /-- Attaches an index, which may mark columns as those of a primary key. -/
  | index (spec : IndexSpec) (fill : Bool)
  /-- Detaches an index, which may take such marks away. -/
  | unindex (id : Nat)

/-- Makes a call that may change the columns of a table. -/
def ColumnCall.run (t : Nat) : ColumnCall → Action Store Unit
  | set check columns => setColumns t check columns
  | rename place name => renameColumn t place name
  | nulls => discard (nullRow t)
  | index spec fill => addIndex t spec fill
  | unindex id => discard (removeIndex t id)

/-- The store after some such calls, whatever became of each. -/
def afterCalls (t : Nat) (calls : List ColumnCall) (s : Store) : Store :=
  calls.foldl (fun s call => final (call.run t) s) s

/-! ## When they succeed -/

def putColumns (s : Store) (t : Nat) (cs : ColumnSet) : Store :=
  s.setTable t { s.table t with columns := cs }

theorem table_putColumns (s : Store) (t : Nat) (cs : ColumnSet) :
    (s.putColumns t cs).table t = { s.table t with columns := cs } := table_setTable s t _

theorem setColumns_eq (t : Nat) (check : Bool) (columns : List Column) (s : Store) :
    setColumns t check columns s =
      match ColumnSet.install? (s.table t).id check columns with
      | .ok cs => .ok () (final (note (.columnsSet (s.table t).name cs.width)) (s.putColumns t cs))
      | .error cause => .error (.error cause) s := by
  unfold setColumns
  rw [get_bind]
  cases ColumnSet.install? (s.table t).id check columns <;> rfl

theorem renameColumn_eq (t place : Nat) (name : String) (s : Store) :
    renameColumn t place name s =
      match (s.table t).columns.rename? place name with
      | .ok cs => .ok () (s.putColumns t cs)
      | .error cause => .error (.error cause) s := by
  unfold renameColumn
  rw [get_bind]
  cases (s.table t).columns.rename? place name <;> rfl

theorem nullRow_eq (t : Nat) (s : Store) : nullRow t s =
    .ok (s.table t).columns.nullRow.1 (s.putColumns t (s.table t).columns.nullRow.2) := rfl

theorem setColumns_eq_ok : setColumns t check columns s = .ok () s' ↔
    ∃ cs, ColumnSet.install? (s.table t).id check columns = .ok cs ∧
      s' = final (note (.columnsSet (s.table t).name cs.width)) (s.putColumns t cs) := by
  rw [setColumns_eq]
  cases ColumnSet.install? (s.table t).id check columns with
  | error cause => simp
  | ok cs => simp [eq_comm]

theorem renameColumn_eq_ok : renameColumn t place name s = .ok () s' ↔
    ∃ cs, (s.table t).columns.rename? place name = .ok cs ∧ s' = s.putColumns t cs := by
  rw [renameColumn_eq]
  cases (s.table t).columns.rename? place name with
  | error cause => simp
  | ok cs => simp [eq_comm]

/-- Columns that cannot be set leave the store as it was. -/
theorem eq_of_setColumns_error {fault : Fault}
    (h : setColumns t check columns s = .error fault s') : s' = s := by
  rw [setColumns_eq] at h
  split at h <;> cases h
  rfl

/-- A name that cannot be changed leaves the store as it was. -/
theorem eq_of_renameColumn_error {fault : Fault}
    (h : renameColumn t place name s = .error fault s') : s' = s := by
  rw [renameColumn_eq] at h
  split at h <;> cases h
  rfl

/-! ## Tables in step -/

/-- A table goes by its number, and its columns are in step. -/
structure Formed (t : Nat) (s : Store) : Prop where
  id : (s.table t).id = t
  columns : (s.table t).columns.InStep t

theorem createTable_formed {spec : TableSpec} (h : createTable spec s = .ok () s') :
    s'.Formed spec.id := by
  unfold createTable at h
  rw [get_bind] at h
  unfold Table.create? at h
  cases hinstall : ColumnSet.install? spec.id true spec.columns with
  | error cause =>
    rw [hinstall] at h
    cases h
  | ok cs =>
    rw [hinstall] at h
    cases h
    constructor
    · change ((s.setTable spec.id _).table spec.id).id = spec.id
      rw [table_setTable]
      rfl
    · change ((s.setTable spec.id _).table spec.id).columns.InStep spec.id
      rw [table_setTable]
      exact (ColumnSet.install?_inStep hinstall).1

theorem Formed.putColumns (h : s.Formed t) {cs : ColumnSet} (hcs : cs.InStep t) :
    (s.putColumns t cs).Formed t := by
  constructor
  · rw [table_putColumns]
    exact h.id
  · rw [table_putColumns]
    exact hcs

theorem stays_setColumns (check : Bool) (columns : List Column) :
    Stays (Formed t) (setColumns t check columns) := by
  intro s h
  unfold final
  rw [setColumns_eq]
  cases hinstall : ColumnSet.install? (s.table t).id check columns with
  | error cause => exact h
  | ok cs =>
    rw [h.id] at hinstall
    have hformed := h.putColumns (ColumnSet.install?_inStep hinstall).1
    exact ⟨hformed.id, hformed.columns⟩

theorem stays_renameColumn (place : Nat) (name : String) :
    Stays (Formed t) (renameColumn t place name) := by
  intro s h
  unfold final
  rw [renameColumn_eq]
  cases hrename : (s.table t).columns.rename? place name with
  | error cause => exact h
  | ok cs => exact h.putColumns (h.columns.renamed hrename).1

theorem stays_nullRow : Stays (Formed t) (nullRow t) :=
  fun _ h => h.putColumns h.columns.nullRow.2.1

/-- Rows and indexes do not matter. -/
theorem stays_onEngine {α : Type} (act : Action Engine α) : Stays (Formed t) (onEngine t act) := by
  intro s h
  unfold onEngine onTable
  rw [final_within, final_within]
  constructor
  · rw [table_setTable]
    exact h.id
  · rw [table_setTable]
    exact h.columns

theorem stays_note (record : TraceRecord) : Stays (Formed t) (note record) :=
  stays_modify fun _ h => ⟨h.id, h.columns⟩

theorem stays_mark (mark : Bool) (marked : List IndexColumn) : Stays (Formed t)
    (modifyTable t fun table => { table with columns := table.columns.markPrimary mark marked }) :=
  fun _ h => h.putColumns (h.columns.markPrimary mark marked)

theorem stays_addIndex (spec : IndexSpec) (fill : Bool) :
    Stays (Formed t) (addIndex t spec fill) := by
  unfold addIndex
  refine Stays.get_bind fun s => ?_
  have hlast := stays_note (t := t) (.indexAttached spec.name spec.id (s.table t).name)
  have hmarked := (stays_mark (t := t) true spec.columns).bind fun _ => hlast
  have hrest := (stays_ofExcept (P := Formed t)
      (spec.columns.forM (checkIndexColumn (s.table t) spec.type.primaryKey))).bind fun _ =>
    (stays_onEngine (Engine.addIndex spec fill)).bind fun _ =>
    (stays_note (.indexBuilt spec.name (s.table t).engine.name)).bind fun _ =>
    Stays.ite (p := spec.type.primaryKey = true) hmarked hlast
  exact Stays.ite ((stays_refuse _).bind fun _ => hrest) hrest s

theorem stays_removeIndex (id : Nat) : Stays (Formed t) (removeIndex t id) := by
  unfold removeIndex
  refine Stays.get_bind fun s => ?_
  refine (stays_onEngine (Engine.removeIndex id)).bind (fun found => ?_) s
  cases found with
  | none => exact stays_pure _
  | some ix =>
    have hrest := (stays_note (t := t) (.indexDetached id (s.table t).name)).bind fun _ =>
      stays_pure (some ix)
    exact (stays_note _).bind fun _ => Stays.ite ((stays_mark false _).bind fun _ => hrest) hrest

/-- Every call keeps the columns in step, whatever becomes of it. -/
theorem Formed.call (h : s.Formed t) (call : ColumnCall) : (final (call.run t) s).Formed t := by
  cases call with
  | set check columns => exact stays_setColumns check columns s h
  | rename place name => exact stays_renameColumn place name s h
  | nulls =>
    unfold ColumnCall.run
    rw [final_discard]
    exact stays_nullRow s h
  | index spec fill => exact stays_addIndex spec fill s h
  | unindex id =>
    unfold ColumnCall.run
    rw [final_discard]
    exact stays_removeIndex id s h

theorem Formed.afterCalls (h : s.Formed t) (calls : List ColumnCall) :
    (afterCalls t calls s).Formed t := by
  unfold Store.afterCalls
  induction calls generalizing s with
  | nil => exact h
  | cons call calls ih => exact ih (h.call call)

/-- The columns of a table are at their places and have distinct names, each is found by its name and by
no other, and the row of NULLs is as wide as there are columns. -/
structure ColumnsAgree (t : Nat) (s : Store) : Prop where
  placed : ∀ i c, (s.table t).columns.get? i = some c → c.place = i ∧ c.table = some (s.table t).id
  distinct : ((s.table t).columns.list.map Column.name).Nodup
  found : ∀ i c name, (s.table t).columns.get? i = some c →
    ((s.table t).columns.find? name s = .ok c s ↔ c.name = name)
  missing : ∀ name, (∀ c ∈ (s.table t).columns.list, c.name ≠ name) →
    (s.table t).columns.find? name s = .error (.error (.columnNotFound name)) s
  nulls : ∃ s', nullRow t s = .ok (Row.nulls (s.table t).columns.width) s'

theorem Formed.columnsAgree (h : s.Formed t) : s.ColumnsAgree t where
  placed := by
    rw [h.id]
    exact h.columns.placed
  distinct := h.columns.nodup_names
  found _ _ _ hc := h.columns.find?_eq_ok hc s
  missing _ hunused := h.columns.find?_of_unused hunused s
  nulls := by
    rw [nullRow_eq, h.columns.nullRow.1]
    exact ⟨_, rfl⟩

/-- Whatever calls have changed the columns of a table since it was created, their names, marks or row of
NULLs, and whatever became of them, columns, names and the row of NULLs agree.  Columns are set just if
no two names are equal and, where types are checked, all types are resolved; then the table has the given
ones.  A column is renamed just if it is there and no other has the name; then that name changes and no
other column does.  Where either fails, nothing changes at all. -/
theorem columns_stay_in_step {spec : TableSpec} {s₀ s₁ : Store}
    (h : createTable spec s₀ = .ok () s₁) (calls : List ColumnCall) :
    let t := spec.id
    let s := afterCalls t calls s₁
    s.ColumnsAgree t ∧
    (∀ check columns,
      ((∃ s', setColumns t check columns s = .ok () s') ↔
        (columns.map Column.name).Nodup ∧ (check = true → ∀ c ∈ columns, c.dataType ≠ .unknown)) ∧
      (∀ s', setColumns t check columns s = .ok () s' →
        (s'.table t).columns.list = columns.mapIdx fun i c => c.installed t i) ∧
      ∀ fault s', setColumns t check columns s = .error fault s' → s' = s) ∧
    ∀ place name,
      ((∃ s', renameColumn t place name s = .ok () s') ↔
        (∃ c, (s.table t).columns.get? place = some c) ∧
          ∀ i c, (s.table t).columns.get? i = some c → i ≠ place → c.name ≠ name) ∧
      (∀ s', renameColumn t place name s = .ok () s' →
        (s'.table t).columns.list =
          (s.table t).columns.list.modify place ({ · with name := name })) ∧
      ∀ fault s', renameColumn t place name s = .error fault s' → s' = s := by
  intro t s
  have hs : s.Formed t := (createTable_formed h).afterCalls calls
  refine ⟨hs.columnsAgree,
    fun check columns => ⟨?_, fun s' he => ?_, fun _ _ => eq_of_setColumns_error⟩,
    fun place name => ⟨?_, fun s' he => ?_, fun _ _ => eq_of_renameColumn_error⟩⟩
  · refine Iff.trans ⟨?_, ?_⟩ (@ColumnSet.install?_succeeds t check columns)
    · rintro ⟨s', he⟩
      obtain ⟨cs, hinstall, -⟩ := setColumns_eq_ok.1 he
      exact ⟨cs, hs.id ▸ hinstall⟩
    · rintro ⟨cs, hinstall⟩
      exact ⟨_, setColumns_eq_ok.2 ⟨cs, hs.id.symm ▸ hinstall, rfl⟩⟩
  · obtain ⟨cs, hinstall, rfl⟩ := setColumns_eq_ok.1 he
    rw [hs.id] at hinstall
    change ((s.putColumns t cs).table t).columns.list = _
    rw [table_putColumns]
    exact (ColumnSet.install?_inStep hinstall).2
  · rw [← hs.columns.rename?_succeeds]
    constructor
    · rintro ⟨s', he⟩
      obtain ⟨cs, hrename, -⟩ := renameColumn_eq_ok.1 he
      exact ⟨cs, hrename⟩
    · rintro ⟨cs, hrename⟩
      exact ⟨_, renameColumn_eq_ok.2 ⟨cs, hrename, rfl⟩⟩
  · obtain ⟨cs, hrename, rfl⟩ := renameColumn_eq_ok.1 he
    rw [table_putColumns]
    exact (hs.columns.renamed hrename).2

def twoColumns : TableSpec where
  id := 7
  name := "T"
  columns := [{ name := "ID", dataType := .int }, { name := "NAME", dataType := .text }]

/-- The names are exchanged by way of a third, after some calls that fail. -/
def exchangedNames : List ColumnCall :=
  [.nulls, .rename 0 "NAME",
    .set false [{ name := "A", dataType := .unknown }, { name := "A", dataType := .int }],
    .rename 5 "X", .rename 0 "KEY", .rename 1 "ID", .rename 0 "NAME"]

def created : Store := final (createTable twoColumns) {}

/-- After that the first column does not get the name of the second. -/
theorem exchanged_names_in_step : createTable twoColumns {} = .ok () created ∧
    (afterCalls 7 exchangedNames created).ColumnsAgree 7 ∧
    (((afterCalls 7 exchangedNames created).table 7).columns.list.map Column.name = ["NAME", "ID"]) ∧
    ¬ ∃ s', renameColumn 7 0 "ID" (afterCalls 7 exchangedNames created) = .ok () s' := by
  have hcreated : createTable twoColumns {} = .ok () created :=
    eq_ok_of_succeeds (show succeeds (createTable twoColumns) {} = true by decide +kernel)
  obtain ⟨hagree, -, hrename⟩ := columns_stay_in_step hcreated exchangedNames
  have hnames : ((afterCalls 7 exchangedNames created).table 7).columns.list.map Column.name =
      ["NAME", "ID"] := by decide +kernel
  obtain ⟨c, hc, hname⟩ : ∃ c,
      ((afterCalls 7 exchangedNames created).table 7).columns.get? 1 = some c ∧ c.name = "ID" := by
    have hsecond := congrArg (·[1]?) hnames
    rw [List.getElem?_map] at hsecond
    exact Option.map_eq_some_iff.1 hsecond
  refine ⟨hcreated, hagree, hnames, fun hdone => ?_⟩
  exact ((hrename 0 "ID").1.1 hdone).2 1 c hc Nat.one_ne_zero hname

end RowStore.Store
