import RowStore.Proofs.Engine.Filling
import RowStore.Proofs.Store.Teardown

/-!
# Dropping what uses a column

* `Table.Assembled` : the tables that attaching and detaching lead to; `Assembled.distinct` and
  `Assembled.numbered` : their constraints have distinct numbers, and so have their indexes;
* `Table.constraintsOf`, `Table.indexesOf` : what uses a column; `Table.Blocked` : one of these uses others
  too;
* `lets_dropConstraints`, `lets_dropIndexes` : the two loops, each of which changes the list that it was
  made from;
* `columnUses_go_all_or_none` : nothing is dropped if the column is blocked, and all that uses it otherwise.

What is dropped is found by its number in what is left.  Numbers are distinct, so that is the same object.
-/

namespace RowStore

/-! ## Lists with distinct numbers -/

section Lists
variable {α : Type} {f : α → Nat} {l : List α}

theorem find?_of_nodup (h : (l.map f).Nodup) {x : α} (hx : x ∈ l) :
    l.find? (fun y => f y == f x) = some x := by
  cases hfind : l.find? (fun y => f y == f x) with
  | none => exact absurd (beq_self_eq_true (f x)) (List.find?_eq_none.1 hfind x hx)
  | some y =>
    have hy := List.mem_of_find?_eq_some hfind
    have hsame : f y = f x := by simpa using List.find?_some hfind
    rw [List.inj_on_of_nodup_map h hy hx hsame]

theorem eraseP_eq_filter (h : (l.map f).Nodup) (n : Nat) :
    l.eraseP (fun y => f y == n) = l.filter (fun y => f y ≠ n) := by
  induction l with
  | nil => rfl
  | cons x l ih =>
    obtain ⟨hx, hl⟩ := List.nodup_cons.1 h
    by_cases hn : f x = n
    · have hrest : l.filter (fun y => f y ≠ n) = l := by
        refine List.filter_eq_self.2 fun y hy => decide_eq_true ?_
        exact fun hyn => hx (List.mem_map.2 ⟨y, hy, hyn.trans hn.symm⟩)
      rw [List.eraseP_cons_of_pos (by simpa using hn), List.filter_cons_of_neg (by simpa using hn),
        hrest]
    · rw [List.eraseP_cons_of_neg (by simpa using hn), List.filter_cons_of_pos (by simpa using hn),
        ih hl]

/-- The members whose numbers are not among those of some members are the others. -/
theorem filter_number_notMem (h : (l.map f).Nodup) (p : α → Bool) :
    l.filter (fun y => f y ∉ (l.filter p).map f) = l.filter (fun y => !p y) := by
  refine List.filter_congr fun y hy => ?_
  have hmem : f y ∈ (l.filter p).map f ↔ p y = true := by
    constructor
    · intro hin
      obtain ⟨x, hx, hsame⟩ := List.mem_map.1 hin
      obtain ⟨hx, hp⟩ := List.mem_filter.1 hx
      rwa [← List.inj_on_of_nodup_map h hx hy hsame]
    · exact fun hp => List.mem_map_of_mem (List.mem_filter.2 ⟨hy, hp⟩)
  rw [Bool.eq_iff_iff, decide_eq_true_eq, hmem]
  simp

end Lists

/-! ## Tables -/

namespace Table
variable {table table' : Table}

/-- The tables that come about: new ones, and what attaching and detaching constraints, changes of the
engine and changes of anything else make of them. -/
inductive Assembled : Table → Prop where
  | new {table : Table} (hc : table.constraints = []) (hi : table.engine.indexes = []) :
    Assembled table
  | attach {table table' : Table} (h : Assembled table) (c : Constraint)
    (hc : table.attachConstraint? c = some table') : Assembled table'
  | detach {table : Table} (h : Assembled table) (id : Nat) :
    Assembled { table with constraints := (detachFirst (·.id == id) table.constraints).2 }
  | call {table : Table} (h : Assembled table) (c : Engine.Call) :
    Assembled { table with engine := Action.final c.run table.engine }
  | other {table table' : Table} (h : Assembled table) (hc : table'.constraints = table.constraints)
    (he : table'.engine = table.engine) : Assembled table'

theorem attachConstraint?_eq_some {c : Constraint} (h : table.attachConstraint? c = some table') :
    (∀ c' ∈ table.constraints, c'.id ≠ c.id) ∧
      table' = { table with constraints := table.constraints ++ [c] } := by
  unfold attachConstraint? at h
  split at h
  · cases h
  · rename_i hfree
    cases h
    refine ⟨fun c' hc' hsame => hfree ?_, rfl⟩
    exact List.any_eq_true.2 ⟨c', hc', by simpa using hsame⟩

theorem Assembled.distinct (h : table.Assembled) : (table.constraints.map Constraint.id).Nodup := by
  induction h with
  | new hc _ =>
    rw [hc]
    exact .nil
  | attach _ c hc ih =>
    obtain ⟨hfree, rfl⟩ := attachConstraint?_eq_some hc
    rw [List.map_append]
    refine ih.append (List.nodup_singleton _) fun id hid hnew => ?_
    obtain ⟨c', hc', rfl⟩ := List.mem_map.1 hid
    exact hfree c' hc' (List.mem_singleton.1 hnew)
  | detach _ id ih => exact ih.sublist (List.eraseP_sublist.map _)
  | call _ _ ih => exact ih
  | other _ hc _ ih =>
    rw [hc]
    exact ih

theorem Assembled.numbered (h : table.Assembled) :
    (table.engine.indexes.map (·.spec.id)).Nodup := by
  have hspecs (e : Engine) : e.indexes.map (·.spec.id) = e.specs.map (·.id) := List.map_map.symm
  rw [hspecs]
  induction h with
  | new _ hi =>
    unfold Engine.specs
    rw [hi]
    exact .nil
  | attach _ c hc ih =>
    obtain ⟨-, rfl⟩ := attachConstraint?_eq_some hc
    exact ih
  | detach _ _ ih => exact ih
  | @call table _ c ih =>
    rcases c.specs_cases table.engine with hsub | ⟨spec, -, hnew, heq⟩
    · exact ih.sublist (hsub.map _)
    · show ((Action.final c.run table.engine).specs.map (·.id)).Nodup
      rw [heq, List.map_append]
      exact ih.append (List.nodup_singleton _) fun id hid hlast =>
        hnew ((List.mem_singleton.1 hlast : id = spec.id) ▸ hid)
  | other _ _ he ih =>
    rw [he]
    exact ih

end Table

def TreeIndex.uses (ix : TreeIndex) (column : Nat) : Bool :=
  ix.sql?.isSome && ix.spec.columns.any (·.place == column)

namespace Table

/-- The constraints that look at a column, in the order in which they were attached. -/
def constraintsOf (table : Table) (column : Nat) : List Constraint :=
  table.constraints.filter (·.columns.contains column)

/-- The indexes that use a column, in the order in which they were attached. -/
def indexesOf (table : Table) (column : Nat) : List TreeIndex :=
  table.engine.indexes.filter (·.uses column)

/-- Something that uses the column has more than one column. -/
def Blocked (table : Table) (column : Nat) : Prop :=
  (∃ c ∈ table.constraintsOf column, 1 < c.columns.length) ∨
    ∃ ix ∈ table.indexesOf column, 1 < ix.spec.columns.length

instance (table : Table) (column : Nat) : Decidable (table.Blocked column) :=
  inferInstanceAs (Decidable (_ ∨ _))

def withoutUses (table : Table) (column : Nat) : Table :=
  { table.unindexed (table.indexesOf column) (table.engine.indexes.filter (!·.uses column)) with
    constraints := table.constraints.filter (!·.columns.contains column) }

end Table

namespace Store
open RowStore.Action

variable {t column : Nat} {s : Store}

/-! ## The check -/

/-- Members, unless one of them is shared, whose text is then reported. -/
def unshared {α : Type} (users : List α) (shared : α → Bool) (text : α → String) :
    Except StoreError (List α) :=
  match users.find? shared with
  | some x => .error (.columnIsReferenced (text x))
  | none => .ok users

theorem unshared_cases {α : Type} (users : List α) (shared : α → Bool) (text : α → String) :
    (∃ x ∈ users, shared x = true) ∧
        (∃ what, unshared users shared text = .error (.columnIsReferenced what)) ∨
      (¬ ∃ x ∈ users, shared x = true) ∧ unshared users shared text = .ok users := by
  unfold unshared
  cases hfind : users.find? shared with
  | some x =>
    exact .inl ⟨⟨x, List.mem_of_find?_eq_some hfind, List.find?_some hfind⟩, _, rfl⟩
  | none => exact .inr ⟨fun ⟨x, hx, hshared⟩ => List.find?_eq_none.1 hfind x hx hshared, rfl⟩

theorem constraintsOn_eq (table : Table) (column : Nat) : constraintsOn column table.constraints =
    unshared (table.constraintsOf column) (1 < ·.columns.length) Constraint.sql := by
  unfold constraintsOn unshared Table.constraintsOf
  dsimp only
  cases (table.constraints.filter (·.columns.contains column)).find? (1 < ·.columns.length) with
  | none => rfl
  | some c => rfl

theorem indexesOn_eq (table : Table) (column : Nat) : indexesOn column table.engine.indexes =
    unshared (table.indexesOf column) (1 < ·.spec.columns.length) (·.sql?.getD "") := by
  have huses : (fun ix : TreeIndex => ix.sql?.isSome && (ix.placeOf? column).isSome) =
      (·.uses column) := by
    funext ix
    unfold TreeIndex.placeOf? TreeIndex.uses
    rw [List.findIdx?_isSome]
  unfold indexesOn unshared Table.indexesOf
  rw [huses]
  dsimp only
  cases (table.engine.indexes.filter (·.uses column)).find? (1 < ·.spec.columns.length) with
  | none => rfl
  | some ix => rfl

/-! ## The loops -/

theorem lets_dropConstraint (c : Constraint) (s : Store) :
    Lets t (dropConstraint t c) s (s.catalog.recordAll (removalsOf .constraint Constraint.id [c]))
      { s.table t with constraints := (s.table t).constraints.eraseP (·.id == c.id) } := by
  refine (lets_modifyCatalog _ s).bind fun _ s₁ hc₁ ht₁ => ?_
  refine Lets.discard (Lets.get_bind ((lets_modifyTable _ s₁).bind fun _ s₂ hc₂ ht₂ => ?_))
  rw [hc₁] at hc₂
  rw [ht₁] at ht₂
  exact ⟨_, s₂, rfl, hc₂, ht₂, fun _ _ => rfl⟩

theorem lets_dropConstraints (h : ((s.table t).constraints.map Constraint.id).Nodup)
    (gone : List Constraint) :
    Lets t (gone.forM (dropConstraint t)) s
      (s.catalog.recordAll (removalsOf .constraint Constraint.id gone))
      { s.table t with
        constraints := (s.table t).constraints.filter (·.id ∉ gone.map Constraint.id) } := by
  induction gone generalizing s with
  | nil =>
    have hall : (s.table t).constraints.filter (·.id ∉ ([] : List Constraint).map Constraint.id) =
        (s.table t).constraints := List.filter_eq_self.2 fun c _ => decide_eq_true List.not_mem_nil
    rw [hall]
    exact s.catalog.recordAll_nil.symm ▸ lets_pure () s
  | cons c rest ih =>
    refine (lets_dropConstraint c s).bind fun _ s' hc ht => ?_
    have hrest := ih (s := s') (by rw [ht]; exact h.sublist (List.eraseP_sublist.map _))
    rw [hc, ht, Catalog.recordAll_recordAll, ← removalsOf_append] at hrest
    dsimp only at hrest
    rw [eraseP_eq_filter h, List.filter_filter] at hrest
    simpa [Bool.and_comm] using hrest

theorem lets_dropIndex {ix : TreeIndex} (h : (s.table t).engine.index? ix.spec.id = some ix) :
    Lets t (dropIndex t ix) s (s.catalog.recordAll (removalsOf .index (·.spec.id) [ix]))
      ((s.table t).unindexed [ix] ((s.table t).engine.indexes.eraseP (·.spec.id == ix.spec.id))) := by
  unfold dropIndex
  refine Lets.get_bind ?_
  rw [h, if_pos (show (some ix).isSome = true from rfl)]
  refine (lets_modifyCatalog _ s).bind fun _ s' hc ht => ?_
  rw [← ht] at h ⊢
  have hremoved := lets_removeIndex h
  rwa [hc] at hremoved

theorem lets_dropIndexes (h : ((s.table t).engine.indexes.map (·.spec.id)).Nodup)
    {gone : List TreeIndex} (hsub : gone ⊆ (s.table t).engine.indexes)
    (hgone : (gone.map (·.spec.id)).Nodup) :
    Lets t (gone.forM (dropIndex t)) s
      (s.catalog.recordAll (removalsOf .index (·.spec.id) gone))
      ((s.table t).unindexed gone
        ((s.table t).engine.indexes.filter (·.spec.id ∉ gone.map (·.spec.id)))) := by
  induction gone generalizing s with
  | nil =>
    have hall : (s.table t).engine.indexes.filter (·.spec.id ∉ ([] : List TreeIndex).map (·.spec.id)) =
        (s.table t).engine.indexes := List.filter_eq_self.2 fun ix _ => decide_eq_true List.not_mem_nil
    rw [hall]
    exact s.catalog.recordAll_nil.symm ▸ lets_pure () s
  | cons ix rest ih =>
    obtain ⟨hix, hsub⟩ := List.cons_subset.1 hsub
    obtain ⟨hnew, hgone⟩ := List.nodup_cons.1 hgone
    refine (lets_dropIndex (find?_of_nodup h hix)).bind fun _ s' hc ht => ?_
    -- the others are still there, since their numbers are not that of the one that has gone
    have hleft : rest ⊆ (s'.table t).engine.indexes := by
      intro other hother
      rw [ht]
      show other ∈ (s.table t).engine.indexes.eraseP (·.spec.id == ix.spec.id)
      rw [eraseP_eq_filter h]
      refine List.mem_filter.2 ⟨hsub hother, decide_eq_true fun hsame => hnew ?_⟩
      exact List.mem_map.2 ⟨other, hother, hsame⟩
    have hrest := ih (s := s') (by rw [ht]; exact h.sublist (List.eraseP_sublist.map _)) hleft hgone
    rw [hc, ht, Catalog.recordAll_recordAll, ← removalsOf_append] at hrest
    dsimp only [Table.unindexed] at hrest
    rw [eraseP_eq_filter h, List.filter_filter] at hrest
    simpa [Bool.and_comm, Table.unindexed, ColumnSet.unmarked] using hrest

theorem lets_dropUses (h : (s.table t).Assembled) (column : Nat) :
    Lets t (do
        ((s.table t).constraintsOf column).forM (dropConstraint t)
        ((s.table t).indexesOf column).forM (dropIndex t)) s
      (s.catalog.recordAll (removalsOf .constraint Constraint.id ((s.table t).constraintsOf column)
        ++ removalsOf .index (·.spec.id) ((s.table t).indexesOf column)))
      ((s.table t).withoutUses column) := by
  refine (lets_dropConstraints h.distinct _).bind fun _ s₁ hc₁ ht₁ => ?_
  have hengine : (s₁.table t).engine = (s.table t).engine := by rw [ht₁]
  have hsub : (s.table t).indexesOf column ⊆ (s₁.table t).engine.indexes := by
    rw [hengine]
    exact List.filter_subset_self _
  have hgone : (((s.table t).indexesOf column).map (·.spec.id)).Nodup :=
    h.numbered.sublist (List.filter_sublist.map _)
  have hdropped := lets_dropIndexes (hengine ▸ h.numbered) hsub hgone
  have hconstraints := filter_number_notMem h.distinct (·.columns.contains column)
  have hindexes := filter_number_notMem h.numbered (·.uses column)
  rw [hc₁, ht₁, Catalog.recordAll_recordAll] at hdropped
  unfold Table.constraintsOf Table.indexesOf Table.unindexed at hdropped
  dsimp only at hdropped
  rw [hindexes, hconstraints] at hdropped
  exact hdropped

/-! ## The result -/

/-- If something uses the column together with others, nothing happens.  Otherwise the constraints and then
the indexes that use it go, in the order in which they were attached, and the catalog hears of each once.
The other constraints and indexes stay, and so do the rows and all other tables. -/
theorem columnUses_go_all_or_none (h : (s.table t).Assembled) (column : Nat) :
    ((s.table t).Blocked column → ∃ what,
      dropColumnUses t column s = .error (.error (.columnIsReferenced what)) s) ∧
    (¬ (s.table t).Blocked column → ∃ s', dropColumnUses t column s = .ok () s' ∧
      s'.catalog = { s.catalog with
        events := s.catalog.events ++ (removalsOf .constraint Constraint.id ((s.table t).constraintsOf column)
          ++ removalsOf .index (·.spec.id) ((s.table t).indexesOf column)) } ∧
      s'.table t = (s.table t).withoutUses column ∧
      ∀ t' ≠ t, s'.table t' = s.table t') := by
  have hconstraints := unshared_cases ((s.table t).constraintsOf column) (1 < ·.columns.length)
    Constraint.sql
  have hindexes := unshared_cases ((s.table t).indexesOf column) (1 < ·.spec.columns.length)
    (·.sql?.getD "")
  rw [← constraintsOn_eq] at hconstraints
  rw [← indexesOn_eq] at hindexes
  simp only [decide_eq_true_eq] at hconstraints hindexes
  unfold dropColumnUses
  rw [get_bind]
  dsimp only
  rcases hconstraints with ⟨hshared, what, herr⟩ | ⟨hfree, hok⟩
  · rw [herr]
    exact ⟨fun _ => ⟨what, rfl⟩, fun hnot => absurd (.inl hshared) hnot⟩
  rw [hok]
  rcases hindexes with ⟨hshared, what, herr⟩ | ⟨hfree', hok'⟩
  · rw [herr]
    exact ⟨fun _ => ⟨what, rfl⟩, fun hnot => absurd (.inr hshared) hnot⟩
  rw [hok']
  refine ⟨fun hblocked => absurd hblocked (not_or.2 ⟨hfree, hfree'⟩), fun _ => ?_⟩
  obtain ⟨⟨⟩, s', hend, hcatalog, htable, hothers⟩ := lets_dropUses h column
  exact ⟨s', hend, hcatalog, htable, hothers⟩

/-- A table with a constraint on each of its first two columns, and with three indexes: one on the first
column, one on that column made for a constraint, and one on the second column and the third. -/
def threeColumns : Table :=
  { Table.empty 7 "T" with
    constraints := [⟨1, "C", true, .recorded 0 none⟩, ⟨2, "D", true, .recorded 1 none⟩]
    engine :=
      { table := 7
        name := "T"
        indexes := [⟨⟨3, "BY_FIRST", [⟨0, false⟩], .plain, none⟩, "T", ∅⟩,
          ⟨⟨4, "BACKING", [⟨0, false⟩], ⟨.tree, false, true, true⟩, none⟩, "T", ∅⟩,
          ⟨⟨5, "BY_OTHERS", [⟨1, false⟩, ⟨2, false⟩], .plain, none⟩, "T", ∅⟩] } }

theorem assembled_threeColumns : threeColumns.Assembled := by
  have h : (Table.empty 7 "T").Assembled := .new rfl rfl
  have h := h.attach ⟨1, "C", true, .recorded 0 none⟩ rfl
  have h := h.attach ⟨2, "D", true, .recorded 1 none⟩ rfl
  have h := h.call (.addIndex ⟨3, "BY_FIRST", [⟨0, false⟩], .plain, none⟩ true)
  have h := h.call (.addIndex ⟨4, "BACKING", [⟨0, false⟩], ⟨.tree, false, true, true⟩, none⟩ true)
  have h := h.call (.addIndex ⟨5, "BY_OTHERS", [⟨1, false⟩, ⟨2, false⟩], .plain, none⟩ true)
  exact h.other rfl rfl

/-- The first column is let go, but the second one is not. -/
theorem columnUses_of_three_columns :
    (∃ s', dropColumnUses 7 0 (setTable {} 7 threeColumns) = .ok () s' ∧
      s'.catalog.events = [.removeSchemaObject ⟨.constraint, 1⟩, .removeSchemaObject ⟨.index, 3⟩] ∧
      (s'.table 7).constraints.map Constraint.id = [2] ∧
      (s'.table 7).engine.indexes.map (·.spec.id) = [4, 5]) ∧
    ∃ what, dropColumnUses 7 1 (setTable {} 7 threeColumns) =
      .error (.error (.columnIsReferenced what)) (setTable {} 7 threeColumns) := by
  have hassembled : ((setTable {} 7 threeColumns).table 7).Assembled := by
    rw [table_setTable]
    exact assembled_threeColumns
  obtain ⟨-, hfirst⟩ := columnUses_go_all_or_none hassembled 0
  obtain ⟨hsecond, -⟩ := columnUses_go_all_or_none hassembled 1
  refine ⟨?_, hsecond (by decide +kernel)⟩
  obtain ⟨s', hend, hcatalog, htable, -⟩ := hfirst (by decide +kernel)
  refine ⟨s', hend, ?_, ?_, ?_⟩
  · rw [hcatalog]
    decide +kernel
  · rw [htable]
    decide +kernel
  · rw [htable]
    decide +kernel

end Store
end RowStore
