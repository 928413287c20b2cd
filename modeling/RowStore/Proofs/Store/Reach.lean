import RowStore.Proofs.Store.Lifetime
import RowStore.Proofs.Store.Values

/-!
# Calls stay within rows and columns

* `IndexSpec.Within` : an index is on columns within a width;
* `Table.InReach` : the indexes of a table are within its columns and its stored rows;
* `Table.reach` : that they are so is kept up by changes of rows, which do not run past an end;
* `TableCall.Cautious` : what a call has to observe for that; `InReach.call`, `InReach.inRange` : then the
  table stays so, and the call does not run past an end;
* `calls_do_not_run_past_an_end` : no call does in the life of a table;
* `not_ordinary_calls_stay_in_range` : otherwise new columns may be too few for an index.
-/

namespace RowStore
open RowStore.Action RowStore.Store

/-! ## Indexes within a row -/

def IndexSpec.Within (spec : IndexSpec) (width : Nat) : Prop := ∀ c ∈ spec.columns, c.place < width

namespace Engine
variable {e e' : Engine} {r : Row} {specs : List IndexSpec} {fault : Fault}

/-- The indexes are the given ones, and every stored row has their columns. -/
structure Spans (specs : List IndexSpec) (e : Engine) : Prop where
  same : e.specs = specs
  stored : ∀ r ∈ e.rowList, ∀ spec ∈ specs, spec.Within r.width

theorem Spans.reads (h : e.Spans specs) (hr : ∀ spec ∈ specs, spec.Within r.width) :
    ∀ ix ∈ e.indexes, ix.Reads r := by
  intro ix hix
  exact hr ix.spec (h.same ▸ List.mem_map_of_mem hix)

theorem Spans.safe_addRow (hr : ∀ spec ∈ specs, spec.Within r.width) :
    Safe (Spans specs) (· ≠ .outOfRange) (addRow r) := by
  refine Stays.safe_of_faults (fun e he => ⟨(specs_addRow r e).trans he.same, fun x hx => ?_⟩) ?_
  · rcases mem_rowList_addRow hx with ⟨key, rfl⟩ | hold
    · exact hr
    · exact he.stored x hold
  · rintro e fault e' he h rfl
    rcases addRow_fault h with ⟨what, hf⟩ | ⟨ix, hix, key, hf⟩
    · cases hf
    · rcases TreeIndex.enter_fault hf with ⟨hnarrow, -⟩ | ⟨k, hk⟩
      · obtain ⟨k, hk⟩ := TreeIndex.exists_keyOf?_of_reads (he.reads hr ix hix)
        cases hnarrow.symm.trans hk
      · cases hk

theorem Spans.safe_removeRow (r : Row) : Safe (Spans specs) (· ≠ .outOfRange) (removeRow r) := by
  refine Stays.safe_of_faults (fun e he => ⟨(specs_removeRow r e).trans he.same,
    fun x hx => he.stored x (mem_rowList_removeRow hx)⟩) ?_
  rintro e fault e' he h rfl
  rcases missing_or_stored e r with hm | ⟨key, stored, hk, hr⟩
  · rw [removeRow_of_missing hm] at h
    cases h
  · have hwide := he.reads (he.stored stored (mem_rowList_of_row? hr))
    have hout : ∀ ix ∈ e.indexes, ∃ ix', ix.leave stored key = .ok ix' := by
      intro ix hix
      obtain ⟨k, hk⟩ := TreeIndex.exists_keyOf?_of_reads (hwide ix hix)
      exact ⟨_, TreeIndex.leave_eq_ok.2 ⟨k, hk, rfl⟩⟩
    obtain ⟨ixs, hixs⟩ := exists_forall₂ hout
    rw [removeRow_of_stored hk hr, leaveAll_eq_ok.2 hixs] at h
    cases h

/-- An index that cannot hold the given rows for want of a slot is on a column that one of them lacks. -/
theorem populate_in_reach {name : String} {rs : List Row} {ix : TreeIndex}
    (h : ∀ r ∈ rs, ix.Reads r) : populate name rs ix ≠ .error .outOfRange := by
  induction rs generalizing ix with
  | nil =>
    intro he
    cases he
  | cons r rs ih =>
    obtain ⟨hfirst, hrest⟩ := List.forall_mem_cons.1 h
    unfold populate
    cases r.key with
    | none =>
      intro he
      cases he
    | some key =>
      dsimp only
      cases he : ix.enter r key with
      | error fault =>
        intro hfault
        cases hfault
        rcases TreeIndex.enter_fault he with ⟨hnarrow, -⟩ | ⟨k, hk⟩
        · obtain ⟨k, hk⟩ := TreeIndex.exists_keyOf?_of_reads hfirst
          cases hnarrow.symm.trans hk
        · cases hk
      | ok entered =>
        refine ih fun x hx => ?_
        have hreads := hrest x hx
        unfold TreeIndex.Reads at hreads ⊢
        rwa [TreeIndex.spec_enter he]

theorem addIndex_in_reach {spec : IndexSpec} {fill : Bool} (h : ∀ r ∈ e.rowList, spec.Within r.width) :
    addIndex spec fill e ≠ .error .outOfRange e' := by
  intro he
  rcases addIndex_cases e spec fill with ⟨-, what, hrefused⟩ | ⟨-, hbuilt⟩
  · cases hrefused.symm.trans he
  · rw [hbuilt] at he
    cases hp : populate e.name (if fill then e.rowList else []) { spec := spec, tableName := e.name } with
    | ok ix =>
      rw [hp] at he
      cases he
    | error fault =>
      rw [hp] at he
      cases he
      refine populate_in_reach (fun r hr => ?_) hp
      cases fill with
      | true => exact h r hr
      | false => cases hr

end Engine

/-! ## Tables -/

/-- No column runs past an end, whatever the numbers are. -/
theorem Column.keeping_inRange (c : Column) : c.Keeping (fun _ => True) (· ≠ .outOfRange) where
  refused := Fault.error_ne_outOfRange
  default _ _ ref _ := (Numbering.inRange_draw ref).safe
  computed _ _ ref _ := (Numbering.inRange_draw ref).safe
  observed _ _ _ := (inRange_modify _).safe
  remembered _ := (inRange_modify _).safe

namespace Table
variable {table table' : Table}

/-- The table has no constraints, its indexes lie within its columns, and its stored rows have the columns of
the indexes. -/
structure InReach (table : Table) : Prop where
  plain : table.constraints = []
  columns : ∀ spec ∈ table.engine.specs, spec.Within table.columns.width
  stored : ∀ r ∈ table.engine.rowList, ∀ spec ∈ table.engine.specs, spec.Within r.width

/-- That a table stays so while its rows change, which does not run past an end. -/
def reach (table : Table) (h : table.InReach) : Upkeep where
  table := table
  holds := Engine.Spans table.engine.specs
  numbers _ := True
  good r := ∀ spec ∈ table.engine.specs, spec.Within r.width
  fine := (· ≠ .outOfRange)
  refused := Fault.error_ne_outOfRange
  fits := by
    have hfit : Safe (fun d : Draft Numbering => True ∧ d.row.width = table.columns.width)
        (· ≠ .outOfRange) (fitColumns 0 table.columns.list) :=
      safe_fitColumns (fun c _ => c.keeping_inRange) (Nat.zero_add _).le
    exact (hfit.post fun _ _ hd => ⟨trivial, fun spec hspec => hd.2.symm ▸ h.columns spec hspec⟩).fault
      fun _ _ hd => ⟨trivial, hd.2⟩
  checks c hc := by
    rw [h.plain] at hc
    cases hc
  adds _ hr := Engine.Spans.safe_addRow hr
  removes := Engine.Spans.safe_removeRow

/-! ### Changes of structure -/

theorem InReach.withColumns (h : table.InReach) {cs : ColumnSet}
    (hw : ∀ spec ∈ table.engine.specs, spec.Within cs.width) : { table with columns := cs }.InReach :=
  ⟨h.plain, hw, h.stored⟩

theorem InReach.sheds (h : table.InReach) (hs : table.Sheds table') : table'.InReach where
  plain := List.subset_nil.1 (h.plain ▸ hs.constraints)
  columns spec hspec := by
    rw [ColumnSet.width_of_kinds hs.kinds]
    exact h.columns spec (hs.specs.subset hspec)
  stored r hr spec hspec := by
    obtain ⟨ixs, -, he⟩ := hs.engine
    rw [he] at hr
    exact h.stored r hr spec (hs.specs.subset hspec)

theorem InReach.indexed (h : table.InReach) {spec : IndexSpec} {fill : Bool}
    (hi : table.Indexed spec fill table') (hr : ∀ r ∈ table.engine.rowList, spec.Within r.width) :
    table'.InReach := by
  have hspecs := hi.specs.1
  obtain ⟨hcheck, e, hadd, rfl⟩ := hi
  have hwidth : (if spec.type.primaryKey then table.columns.markPrimary true spec.columns
      else table.columns).width = table.columns.width := by
    split
    · exact ColumnSet.width_of_kinds (ColumnSet.kinds_markPrimary _ _ _)
    · rfl
  have hnew : spec.Within table.columns.width := by
    intro c hc
    obtain ⟨column, hcolumn⟩ := get?_of_checked hcheck c hc
    exact (List.getElem?_eq_some_iff.1 hcolumn).1
  obtain ⟨-, ix, -, rfl⟩ := Engine.addIndex_eq_ok hadd
  refine ⟨h.plain, fun other hother => ?_, fun r hmem other hother => ?_⟩
  · rw [hspecs] at hother
    dsimp only
    rw [hwidth]
    rcases List.mem_append.1 hother with hold | hlast
    · exact h.columns other hold
    · exact List.mem_singleton.1 hlast ▸ hnew
  · rw [hspecs] at hother
    rcases List.mem_append.1 hother with hold | hlast
    · exact h.stored r hmem other hold
    · exact List.mem_singleton.1 hlast ▸ hr r hmem

end Table

/-! ## Calls -/

section InRange
variable {t : Nat}

theorem inRange_modifyTable (f : Table → Table) : InRange (modifyTable t f) := by
  unfold modifyTable onTable
  exact (inRange_modify f).within

theorem inRange_setColumns (check : Bool) (columns : List Column) :
    InRange (setColumns t check columns) :=
  InRange.get_bind fun _ => (inRange_ofExcept _).bind fun _ => (inRange_modifyTable _).bind fun _ =>
    inRange_modify _

theorem inRange_renameColumn (place : Nat) (name : String) : InRange (renameColumn t place name) :=
  InRange.get_bind fun _ => (inRange_ofExcept _).bind fun _ => inRange_modifyTable _

theorem inRange_removeIndex (id : Nat) : InRange (removeIndex t id) := by
  intro s s' h
  obtain ⟨_, hend, -⟩ := removeIndex_eq_ok t id s
  cases hend.symm.trans h

theorem inRange_releaseIndex (id : Nat) : InRange (releaseIndex t id) := by
  have htake (c : Constraint) : InRange (onFired (c.takeIndex id)) := by
    refine InRange.within ?_
    unfold Constraint.takeIndex
    split
    · exact inRange_modify _
    · exact inRange_pure _
  refine InRange.get_bind fun s => ?_
  split
  · exact (inRange_modify _).bind fun _ => (inRange_removeIndex id).discard
  · exact InRange.forM (fun c => (htake c).bind fun _ => inRange_modify _) _

theorem inRange_removeConstraint (id : Nat) : InRange (removeConstraint t id) :=
  InRange.get_bind fun _ => (inRange_modifyTable _).bind fun _ => inRange_pure _

theorem inRange_dropColumnUses (column : Nat) : InRange (dropColumnUses t column) := by
  have hdropIndex (ix : TreeIndex) : InRange (dropIndex t ix) := by
    refine InRange.get_bind fun s => InRange.ite ?_ (inRange_pure ())
    exact (inRange_modify _).bind fun _ => (inRange_removeIndex _).discard
  refine InRange.get_bind fun s => (inRange_ofExcept _).bind fun _ => (inRange_ofExcept _).bind fun _ => ?_
  refine (InRange.forM (fun c => ?_) _).bind fun _ => InRange.forM hdropIndex _
  exact (inRange_modify _).bind fun _ => (inRange_removeConstraint c.id).discard

end InRange

section Calls
variable {t : Nat} {c : TableCall} {s s₀ s₁ : Store}

/-- A call leaves the columns of indexes in place: new columns reach as far as they do, a new index is on
columns that all stored rows have, and rows that an update is to replace, and may have to put back after a
concurrent change, have the columns of the indexes. -/
def TableCall.Cautious (t : Nat) (s : Store) : TableCall → Prop
  | setColumns _ columns => ∀ spec ∈ (s.table t).engine.specs, spec.Within columns.length
  | addIndex spec _ => ∀ r ∈ (s.table t).engine.rowList, spec.Within r.width
  | update _ _ pairs => (s.table t).contested.isSome = true → ∀ r ∈ pairs.map (·.1),
      (r.key.bind (s.table t).engine.row?).isSome = true →
        ∀ spec ∈ (s.table t).engine.specs, spec.Within r.width
  | defaultValue _ place => place < (s.table t).columns.width
  | _ => True

theorem Table.InReach.at (h : (s.table t).InReach) : ((s.table t).reach h).At t s :=
  ⟨rfl, ⟨rfl, h.stored⟩, trivial⟩

theorem Table.InReach.fed (h : (s.table t).InReach) (hc : c.Cautious t s) :
    c.Fed ((s.table t).reach h) (s.table t).engine := by
  cases c with
  | update u canceled pairs =>
    intro r hr hcontested key stored hkey hrow
    exact hc hcontested r hr (by rw [hkey, Option.bind_some, hrow]; rfl)
  | _ => trivial

theorem Table.InReach.changed (h : (s.table t).InReach) (hc : c.Cautious t s)
    (hrows : c.changesRows = true) : ((final (c.run t) s).table t).InReach := by
  have hend := ((s.table t).reach h).at_call hrows h.at (h.fed hc)
  rw [hend.table]
  have hspans : ((final (c.run t) s).table t).engine.Spans (s.table t).engine.specs := hend.engine
  exact ⟨h.plain, fun spec hspec => h.columns spec (hspans.same ▸ hspec),
    fun r hr spec hspec => hspans.stored r hr spec (hspans.same ▸ hspec)⟩

theorem Table.InReach.call (h : (s.table t).InReach) (hc : c.Cautious t s) :
    ((final (c.run t) s).table t).InReach := by
  cases hrows : c.changesRows with
  | true => exact h.changed hc hrows
  | false =>
    have hbecomes := TableCall.becomes (t := t) hrows s
    generalize (final (c.run t) s).table t = table' at hbecomes ⊢
    cases hbecomes with
    | same => exact h
    | @columns check columns cs hlist =>
      have hwidth : cs.width = columns.length := by
        unfold ColumnSet.width
        rw [hlist, List.length_mapIdx]
      exact h.withColumns fun spec hspec => hwidth.symm ▸ hc spec hspec
    | renamed hlist =>
      refine h.withColumns fun spec hspec => ?_
      rw [ColumnSet.width_of_kinds (ColumnSet.kinds_of_renamed hlist)]
      exact h.columns spec hspec
    | indexed hindexed => exact h.indexed hindexed hc
    | sheds hsheds => exact h.sheds hsheds

/-- A cautious call does not run past an end. -/
theorem Table.InReach.inRange (h : (s.table t).InReach) (hc : c.Cautious t s) :
    ∀ s', c.run t s ≠ .error .outOfRange s' := by
  have hrows (hrows : c.changesRows = true) : ∀ s', c.run t s ≠ .error .outOfRange s' := fun s' he =>
    ((((s.table t).reach h).meets_call hrows).of_error ⟨h.at, h.fed hc⟩ he).2 rfl
  cases c with
  | setColumns check columns => exact inRange_setColumns check columns s
  | renameColumn place name => exact inRange_renameColumn place name s
  | addIndex spec fill =>
    intro s' he
    rcases addIndex_cases (t := t) spec fill s with ⟨s'', hend, -⟩ | ⟨fault, s'', hend, -, hfault⟩
    · cases hend.symm.trans he
    · cases hend.symm.trans he
      rcases hfault with ⟨-, cause, hcause⟩ | ⟨-, e, hadd⟩
      · cases hcause
      · exact Engine.addIndex_in_reach hc hadd
  | removeIndex id => exact (inRange_removeIndex id).discard s
  | releaseIndex id => exact inRange_releaseIndex id s
  | dropColumnUses column => exact inRange_dropColumnUses column s
  | insert u r => exact hrows rfl
  | delete u r => exact hrows rfl
  | update u canceled pairs => exact hrows rfl
  | defaultValue u place =>
    intro s' he
    have hsafe : Safe (fun b : Store => b.table t = s.table t ∧ True) (· ≠ .outOfRange)
        (defaultValue t u place) :=
      safe_defaultValue (N := fun _ => True) (fun column _ => column.keeping_inRange) fun hnone =>
        absurd hc (Nat.not_lt.2 (List.getElem?_eq_none_iff.1 hnone))
    exact (hsafe.discard.of_error ⟨rfl, trivial⟩ he).2 rfl

theorem inReach_of_created {spec : TableSpec} (h : createTable spec s₀ = .ok () s₁) :
    (s₁.table spec.id).InReach := by
  obtain ⟨hplain, hempty, -⟩ := createTable_empty h
  refine ⟨hplain, fun ix hix => ?_, fun r hr => ?_⟩
  · rw [hempty] at hix
    cases hix
  · rw [hempty] at hr
    cases hr

/-- In the life of a table, from its creation on, no call reads or writes past an end, as long as all calls
leave the columns of indexes in place. -/
theorem calls_do_not_run_past_an_end {spec : TableSpec} (created : createTable spec s₀ = .ok () s₁)
    (h : Lifetime spec.id (TableCall.Cautious spec.id) s₁ s) (hc : c.Cautious spec.id s) :
    ∀ s', c.run spec.id s ≠ .error .outOfRange s' :=
  (h.keeps (inReach_of_created created) fun _ _ hc h => h.call hc).inRange hc

end Calls

/-! ## Indexes and new columns -/

instance (spec : IndexSpec) (width : Nat) : Decidable (spec.Within width) :=
  inferInstanceAs (Decidable (∀ c ∈ spec.columns, _))

instance (t : Nat) (s : Store) : (c : TableCall) → Decidable (c.Cautious t s)
  | .setColumns _ columns =>
    inferInstanceAs (Decidable (∀ spec ∈ (s.table t).engine.specs, spec.Within columns.length))
  | .addIndex spec _ => inferInstanceAs (Decidable (∀ r ∈ (s.table t).engine.rowList, spec.Within r.width))
  | .update _ _ pairs =>
    inferInstanceAs (Decidable ((s.table t).contested.isSome = true → ∀ r ∈ pairs.map (·.1),
      (r.key.bind (s.table t).engine.row?).isSome = true →
        ∀ spec ∈ (s.table t).engine.specs, spec.Within r.width))
  | .defaultValue _ place => inferInstanceAs (Decidable (place < (s.table t).columns.width))
  | .renameColumn .. | .removeIndex _ | .releaseIndex _ | .dropColumnUses _ | .insert .. | .delete .. =>
    isTrue trivial

/-- A table of two columns, in which rows with a zero meet concurrent changes. -/
def twoNumbers : TableSpec where
  id := 7
  name := "T"
  columns := [{ name := "A", dataType := .int }, { name := "B", dataType := .int }]
  contested := some (.int 0)

def ofSecond : IndexSpec := { id := 1, name := "BY_SECOND", columns := [⟨1, false⟩], type := .distinct }

/-- The first row, and a row that meets a concurrent change. -/
def contestedPair : Row × Row :=
  (⟨some 0, [some (.int 1), some (.int 2), some (.int 3)]⟩,
    ⟨none, [some (.int 0), some (.int 2), some (.int 3)]⟩)

/-- The second column gets an index and a third one comes, and a row is to be replaced by one that meets a
concurrent change. -/
theorem third_column_in_range : ∃ s, Lifetime 7 (TableCall.Cautious 7) (final (createTable twoNumbers) {}) s ∧
    ∀ s', (TableCall.update 1 (fun _ => false) [contestedPair]).run 7 s ≠ .error .outOfRange s' := by
  have hcreated : createTable twoNumbers {} = .ok () (final (createTable twoNumbers) {}) :=
    eq_ok_of_succeeds (by decide +kernel)
  have h : Lifetime 7 (TableCall.Cautious 7) (final (createTable twoNumbers) {}) _ := .start
  have h := h.call (.insert 1 ⟨none, [some (.int 1), some (.int 2)]⟩) (by decide +kernel)
  have h := h.call (.addIndex ofSecond true) (by decide +kernel)
  have h := h.call (.setColumns true (twoNumbers.columns ++ [{ name := "C", dataType := .int }]))
    (by decide +kernel)
  obtain ⟨s, h, hc⟩ : ∃ s, Lifetime 7 (TableCall.Cautious 7) (final (createTable twoNumbers) {}) s ∧
      (TableCall.update 1 (fun _ => false) [contestedPair]).Cautious 7 s := ⟨_, h, by decide +kernel⟩
  have hend := calls_do_not_run_past_an_end hcreated h hc
  exact ⟨s, h, hend⟩

/-- Calls by which columns, indexes and rows come and go, and keys before the last one. -/
def TableCall.Ordinary : TableCall → Prop
  | insert _ r | delete _ r => r.key ≠ some lastKey
  | update _ _ pairs => ∀ p ∈ pairs, p.1.key ≠ some lastKey ∧ p.2.key ≠ some lastKey
  | setColumns .. | renameColumn .. | addIndex .. | removeIndex _ => True
  | _ => False

/-- Once new columns do not reach as far as an index, a row that fits them is too short for the index. -/
theorem not_ordinary_calls_stay_in_range : ¬ ∀ (spec : TableSpec) (s₀ s₁ s : Store) (c : TableCall),
    createTable spec s₀ = .ok () s₁ → Lifetime spec.id (fun _ c => c.Ordinary) s₁ s → c.Ordinary →
      ∀ s', c.run spec.id s ≠ .error .outOfRange s' := by
  intro hall
  have hcreated : createTable twoNumbers {} = .ok () (final (createTable twoNumbers) {}) :=
    eq_ok_of_succeeds (by decide +kernel)
  have h : Lifetime 7 (fun _ c => c.Ordinary) (final (createTable twoNumbers) {}) _ := .start
  have h := h.call (.addIndex ofSecond true) trivial
  have h := h.call (.setColumns true [{ name := "A", dataType := .int }]) trivial
  obtain ⟨s, h, s', hend⟩ : ∃ s, Lifetime 7 (fun _ c => c.Ordinary) (final (createTable twoNumbers) {}) s ∧
      ∃ s', (TableCall.insert 1 ⟨none, [some (.int 1)]⟩).run 7 s = .error .outOfRange s' :=
    ⟨_, h, _, rfl⟩
  have hordinary : (TableCall.insert 1 ⟨none, [some (.int 1)]⟩).Ordinary := (Option.some_ne_none _).symm
  exact hall twoNumbers {} _ s _ hcreated h hordinary s' hend

end RowStore
