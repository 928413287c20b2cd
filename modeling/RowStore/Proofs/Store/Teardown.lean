import RowStore.Proofs.Engine.Upkeep
import RowStore.Proofs.Store.Frame
import RowStore.Store.Structure

/-!
# Tearing a table down

* `Table.removals` : the changes of the catalog for a table that is torn down, in order;
* `Table.bare` : the table without what was attached to it;
* `Catalog.cleared` : the catalog after those changes;
* `Store.Lets` : an action on a table is done, and what it leaves;
* `lets_children`, `lets_indexes`, `lets_rights`, `lets_sequences` : the loops of a teardown;
* `teardown_lets` : what it leaves all in all;
* `teardown_is_complete` : what the catalog hears, what stays, and what a second teardown does.

The loops over the catalog are folds of its changes (`lets_forM`).  The loop over the indexes takes the
first index away each time, since it goes over them in the order in which they are attached.
-/

namespace RowStore

/-! ## What is removed, and what stays -/

section Specification

def Catalog.recordAll (c : Catalog) (events : List CatalogEvent) : Catalog :=
  { c with events := c.events ++ events }

/-- A sequence goes with its table if that is not temporary and no other one uses it. -/
def Table.TakesAlong (table : Table) (c : Catalog) (q : SequenceRef) : Prop :=
  table.flags.temporary = false ∧ ∀ u ∈ c.sequenceUsers, u.1 = q.id → u.2 = table.id

instance (table : Table) (c : Catalog) : DecidablePred (table.TakesAlong c) :=
  fun _ => inferInstanceAs (Decidable (_ ∧ _))

def removalsOf {α : Type} (kind : ObjectKind) (id : α → Nat) (xs : List α) :
    List CatalogEvent :=
  xs.map fun x => .removeSchemaObject ⟨kind, id x⟩

/-- The changes of the catalog for a table that is torn down: one for each view, trigger, constraint,
index that a statement creates and right on the table, then the record of the table, and then one for
each sequence that goes with it. -/
def Table.removals (table : Table) (c : Catalog) : List CatalogEvent :=
  removalsOf .view View.id table.views
    ++ removalsOf .trigger Trigger.id table.triggers
    ++ removalsOf .constraint Constraint.id table.constraints
    ++ removalsOf .index (·.spec.id) (table.engine.indexes.filter (·.sql?.isSome))
    ++ (c.rightsOn table.id).map (fun r => CatalogEvent.removeDatabaseObject ⟨.right, r.id⟩)
    ++ [CatalogEvent.removeMeta table.id]
    ++ removalsOf .sequence SequenceRef.id (table.sequences.filter (table.TakesAlong c))

/-- Columns without the marks of primary keys on some indexes. -/
def ColumnSet.unmarked (cs : ColumnSet) (indexes : List TreeIndex) : ColumnSet :=
  indexes.foldl (fun cs ix =>
    if ix.spec.type.primaryKey then cs.markPrimary false ix.spec.columns else cs) cs

def Table.unindexed (table : Table) (gone others : List TreeIndex) : Table :=
  { table with
    engine := { table.engine with indexes := others }
    columns := table.columns.unmarked gone }

def Table.bare (table : Table) : Table :=
  { table.unindexed table.engine.indexes [] with
    views := [], triggers := [], constraints := [], sequences := [] }

def Catalog.cleared (c : Catalog) (table : Table) : Catalog :=
  { c with rights := c.rights.filter (·.table ≠ some table.id) }.recordAll (table.removals c)

theorem removalsOf_append {α : Type} (kind : ObjectKind) (id : α → Nat) (xs ys : List α) :
    removalsOf kind id (xs ++ ys) = removalsOf kind id xs ++ removalsOf kind id ys := List.map_append

theorem Catalog.recordAll_nil (c : Catalog) : c.recordAll [] = c :=
  congrArg (fun events => { c with events }) (List.append_nil c.events)

theorem Catalog.recordAll_recordAll (c : Catalog) (before after : List CatalogEvent) :
    (c.recordAll before).recordAll after = c.recordAll (before ++ after) := by
  unfold recordAll
  rw [List.append_assoc]

end Specification

/-! ## Changes of the catalog, one after another -/

namespace Catalog

variable {c : Catalog}

theorem foldl_record {α : Type} (event : α → CatalogEvent) (xs : List α) (c : Catalog) :
    xs.foldl (fun c x => c.record (event x)) c = c.recordAll (xs.map event) := by
  induction xs generalizing c with
  | nil => exact c.recordAll_nil.symm
  | cons x rest ih =>
    rw [List.foldl_cons, ih]
    exact c.recordAll_recordAll [event x] _

theorem foldl_removeRight (rs : List Right) (c : Catalog) :
    rs.foldl (fun c r => c.removeRight r.id) c =
      { c with rights := c.rights.filter fun r => r.id ∉ rs.map Right.id }.recordAll
        (rs.map fun r : Right => .removeDatabaseObject ⟨.right, r.id⟩) := by
  induction rs generalizing c with
  | nil => simp [recordAll]
  | cons r rest ih =>
    rw [List.foldl_cons, ih]
    simp only [removeRight, record, recordAll, List.filter_filter, List.map_cons, List.mem_cons, not_or,
      Bool.decide_and, Bool.and_comm, List.append_assoc, List.singleton_append, ne_eq]

/-- Where rights have distinct numbers, those on a table are the ones with the numbers of those. -/
theorem filter_notMem_rightsOn (h : (c.rights.map Right.id).Nodup) (table : Nat) :
    c.rights.filter (fun r => r.id ∉ (c.rightsOn table).map Right.id) =
      c.rights.filter (·.table ≠ some table) := by
  refine List.filter_congr fun r hr => decide_eq_decide.2 (not_congr ?_)
  constructor
  · intro hid
    obtain ⟨r', hr', hsame⟩ := List.mem_map.1 hid
    obtain ⟨hmem, htable⟩ := List.mem_filter.1 hr'
    rw [← List.inj_on_of_nodup_map h hmem hr hsame]
    exact of_decide_eq_true htable
  · intro htable
    exact List.mem_map_of_mem (List.mem_filter.2 ⟨hr, decide_eq_true htable⟩)

theorem otherUser?_eq_none {sequence table : Nat} :
    c.otherUser? sequence table = none ↔ ∀ u ∈ c.sequenceUsers, u.1 = sequence → u.2 = table := by
  unfold otherUser?
  simp only [Option.map_eq_none_iff, List.find?_eq_none, decide_eq_true_eq, not_and, not_not, ne_eq]

theorem foldl_takeAlong (table : Table) (qs : List SequenceRef) (c : Catalog) :
    qs.foldl (fun c q =>
        if table.TakesAlong c q then c.removeSchemaObject ⟨.sequence, q.id⟩ else c) c =
      c.recordAll (removalsOf .sequence SequenceRef.id (qs.filter (table.TakesAlong c))) := by
  induction qs generalizing c with
  | nil => exact c.recordAll_nil.symm
  | cons q rest ih =>
    rw [List.foldl_cons, ih, List.filter_cons]
    by_cases h : table.TakesAlong c q
    · rw [if_pos h, if_pos (decide_eq_true h)]
      -- the uses of sequences are the same after the removal
      exact c.recordAll_recordAll [_] _
    · rw [if_neg h, if_neg (by rwa [decide_eq_true_eq])]

theorem rightsOn_cleared (c : Catalog) (table : Table) :
    (c.cleared table).rightsOn table.id = [] := by
  refine List.filter_eq_nil_iff.2 fun r hr htable => ?_
  exact of_decide_eq_true (List.mem_filter.1 hr).2 (of_decide_eq_true htable)

end Catalog

namespace Table

/-- Of a bare table only its record is left to remove. -/
theorem removals_bare {table : Table} {c : Catalog} (h : c.rightsOn table.id = []) :
    table.bare.removals c = [.removeMeta table.id] := by
  unfold removals
  rw [show table.bare.id = table.id from rfl, h]
  rfl

theorem cleared_bare {table : Table} {c : Catalog} (h : c.rightsOn table.id = []) :
    c.cleared table.bare = c.recordAll [.removeMeta table.id] := by
  have hrights : c.rights.filter (·.table ≠ some table.id) = c.rights := by
    refine List.filter_eq_self.2 fun r hr => decide_eq_true fun htable => ?_
    exact List.filter_eq_nil_iff.1 h r hr (decide_eq_true htable)
  unfold Catalog.cleared
  rw [removals_bare h, show table.bare.id = table.id from rfl, hrights]

theorem children_bare {table : Table} {c : Catalog} (h : c.rightsOn table.id = []) :
    table.bare.children c = [⟨.index, Engine.scanId⟩] := by
  unfold children
  rw [show table.bare.id = table.id from rfl, h]
  rfl

end Table

namespace Store
open RowStore.Action

/-! ## Actions on a table and the catalog -/

variable {α β : Type} {t : Nat} {s s' : Store} {c c' : Catalog} {table table' : Table}

/-- An action is done, and leaves this catalog, this table, and the other tables as they are. -/
def Lets (t : Nat) (act : Action Store α) (s : Store) (c : Catalog) (table : Table) : Prop :=
  ∃ a s', act s = .ok a s' ∧ s'.catalog = c ∧ s'.table t = table ∧ ∀ t' ≠ t, s'.table t' = s.table t'

/-- What comes after a part that is known. -/
theorem Lets.after {x : Action Store α} {f : α → Action Store β} {a : α} (hx : x s = .ok a s')
    (hothers : ∀ t' ≠ t, s'.table t' = s.table t') (hf : Lets t (f a) s' c table) :
    Lets t (x >>= f) s c table := by
  obtain ⟨b, s₂, he, hc, ht, hothers₂⟩ := hf
  refine ⟨b, s₂, (bind_of_ok hx).trans he, hc, ht, fun t' h => ?_⟩
  rw [hothers₂ t' h, hothers t' h]

theorem Lets.bind {x : Action Store α} {f : α → Action Store β} (hx : Lets t x s c table)
    (hf : ∀ a s', s'.catalog = c → s'.table t = table → Lets t (f a) s' c' table') :
    Lets t (x >>= f) s c' table' := by
  obtain ⟨a, s', he, hc, ht, hothers⟩ := hx
  exact Lets.after he hothers (hf a s' hc ht)

theorem Lets.get_bind {f : Store → Action Store α} (h : Lets t (f s) s c table) :
    Lets t (get >>= f) s c table := h

theorem lets_pure (a : α) (s : Store) : Lets t (pure a) s s.catalog (s.table t) :=
  ⟨a, s, rfl, rfl, rfl, fun _ _ => rfl⟩

theorem Lets.discard {x : Action Store α} (h : Lets t x s c table) :
    Lets t (Functor.discard x) s c table := by
  rw [discard_eq]
  refine h.bind fun _ s' hc ht => ?_
  rw [← hc, ← ht]
  exact lets_pure () s'

theorem lets_modifyCatalog (f : Catalog → Catalog) (s : Store) :
    Lets t (modifyCatalog f) s (f s.catalog) (s.table t) :=
  ⟨(), _, rfl, rfl, rfl, fun _ _ => rfl⟩

theorem lets_modifyTable (f : Table → Table) (s : Store) :
    Lets t (modifyTable t f) s s.catalog (f (s.table t)) :=
  ⟨(), s.setTable t (f (s.table t)), rfl, rfl, table_setTable s t _,
    fun _ h => table_setTable_of_ne s h _⟩

theorem lets_note (record : TraceRecord) (s : Store) :
    Lets t (note record) s s.catalog (s.table t) :=
  ⟨(), _, rfl, rfl, rfl, fun _ _ => rfl⟩

/-- A loop whose turns change the catalog alone. -/
theorem lets_forM {act : α → Action Store Unit} {f : Catalog → α → Catalog}
    (hact : ∀ x s, Lets t (act x) s (f s.catalog x) (s.table t)) (xs : List α) (s : Store) :
    Lets t (xs.forM act) s (xs.foldl f s.catalog) (s.table t) := by
  induction xs generalizing s with
  | nil => exact lets_pure () s
  | cons x rest ih =>
    refine (hact x s).bind fun _ s' hc ht => ?_
    rw [List.foldl_cons, ← hc, ← ht]
    exact ih s'

/-! ## The loops of a teardown -/

theorem lets_children (kind : ObjectKind) (id : α → Nat) (xs : List α) (s : Store) :
    Lets t (xs.forM fun x => removeChild kind (id x)) s
      (s.catalog.recordAll (removalsOf kind id xs)) (s.table t) := by
  unfold removalsOf
  rw [← Catalog.foldl_record]
  exact lets_forM (fun x s => lets_modifyCatalog _ s) xs s

theorem lets_rights (rs : List Right) (s : Store) :
    Lets t (rs.forM fun r => modifyCatalog (·.removeRight r.id)) s
      ({ s.catalog with rights := s.catalog.rights.filter fun r => r.id ∉ rs.map Right.id }.recordAll
        (rs.map fun r : Right => .removeDatabaseObject ⟨.right, r.id⟩)) (s.table t) := by
  rw [← Catalog.foldl_removeRight]
  exact lets_forM (fun r s => lets_modifyCatalog (·.removeRight r.id) s) rs s

theorem lets_teardownSequence (table : Table) (q : SequenceRef) (s : Store) :
    Lets t (teardownSequence table q) s
      (if table.TakesAlong s.catalog q then s.catalog.removeSchemaObject ⟨.sequence, q.id⟩
        else s.catalog) (s.table t) := by
  have hcond : (!table.flags.temporary && (s.catalog.otherUser? q.id table.id).isNone) = true ↔
      table.TakesAlong s.catalog q := by
    rw [Bool.and_eq_true, Bool.not_eq_true', Option.isNone_iff_eq_none, Catalog.otherUser?_eq_none]
    exact Iff.rfl
  unfold teardownSequence
  refine Lets.get_bind ?_
  by_cases h : table.TakesAlong s.catalog q
  · rw [if_pos h, if_pos (hcond.2 h)]
    exact lets_modifyCatalog _ s
  · rw [if_neg h, if_neg (fun he => h (hcond.1 he))]
    exact lets_pure () s

theorem lets_sequences (table : Table) (qs : List SequenceRef) (s : Store) :
    Lets t (qs.forM (teardownSequence table)) s
      (s.catalog.recordAll
        (removalsOf .sequence SequenceRef.id (qs.filter (table.TakesAlong s.catalog)))) (s.table t) := by
  rw [← Catalog.foldl_takeAlong]
  exact lets_forM (lets_teardownSequence table) qs s

/-- An index is found under its number, and only its marks go with it. -/
theorem lets_removeIndex {id : Nat} {ix : TreeIndex} (h : (s.table t).engine.index? id = some ix) :
    Lets t (discard (removeIndex t id)) s s.catalog
      ((s.table t).unindexed [ix] ((s.table t).engine.indexes.eraseP (·.spec.id == id))) := by
  generalize hrest : (s.table t).engine.indexes.eraseP (·.spec.id == id) = rest
  have hfound : Engine.removeIndex id (s.table t).engine =
      .ok (some ix) { (s.table t).engine with indexes := rest } := by
    rw [Engine.removeIndex_eq, h, hrest]
  have hlast (s₂ : Store) (hc : s₂.catalog = s.catalog)
      (ht : s₂.table t = (s.table t).unindexed [ix] rest) :
      Lets t (do note (.indexDetached id (s.table t).name); pure (some ix)) s₂ s.catalog
        ((s.table t).unindexed [ix] rest) := by
    rw [← hc, ← ht]
    exact (lets_note _ s₂).bind fun _ s₃ hc₃ ht₃ => hc₃ ▸ ht₃ ▸ lets_pure _ s₃
  unfold removeIndex
  refine Lets.discard (Lets.get_bind (Lets.after (onEngine_of_ok hfound)
    (fun t' ht' => table_setEngine_of_ne s ht' _) ?_))
  refine (lets_note _ _).bind fun _ s₁ hc₁ ht₁ => ?_
  have hunmarked : s₁.table t = (s.table t).unindexed [] rest := ht₁.trans (table_setTable s t _)
  by_cases hprimary : ix.spec.type.primaryKey = true
  · rw [if_pos hprimary]
    refine (lets_modifyTable _ s₁).bind fun _ s₂ hc₂ ht₂ => hlast s₂ (hc₂.trans hc₁) (ht₂.trans ?_)
    rw [hunmarked]
    exact congrArg (fun cs => { (s.table t).unindexed [] rest with columns := cs }) (if_pos hprimary).symm
  · rw [if_neg hprimary]
    refine hlast s₁ hc₁ (hunmarked.trans ?_)
    exact congrArg (fun cs => { (s.table t).unindexed [] rest with columns := cs }) (if_neg hprimary).symm

theorem lets_removeFirst {ix : TreeIndex} {rest : List TreeIndex}
    (h : (s.table t).engine.indexes = ix :: rest) :
    Lets t (discard (removeIndex t ix.spec.id)) s s.catalog
      ((s.table t).unindexed [ix] rest) := by
  have hsame : (ix.spec.id == ix.spec.id) = true := beq_self_eq_true _
  have hfound : (s.table t).engine.index? ix.spec.id = some ix := by
    unfold Engine.index?
    rw [h, List.find?_cons, hsame]
  have hfirst := lets_removeIndex hfound
  rwa [h, List.eraseP_cons, hsame] at hfirst

theorem lets_teardownFirst {ix : TreeIndex} {rest : List TreeIndex}
    (h : (s.table t).engine.indexes = ix :: rest) :
    Lets t (teardownIndex t ix) s
      (s.catalog.recordAll (removalsOf .index (·.spec.id) ([ix].filter (·.sql?.isSome))))
      ((s.table t).unindexed [ix] rest) := by
  unfold teardownIndex
  cases hsql : ix.sql?.isSome with
  | false =>
    rw [List.filter_cons, hsql]
    refine (congrArg (Lets t _ s · _) s.catalog.recordAll_nil).mpr ?_
    exact lets_removeFirst h
  | true =>
    rw [List.filter_cons, hsql]
    refine (lets_modifyCatalog _ s).bind fun _ s' hc ht => ?_
    rw [← ht] at h ⊢
    have hfirst := lets_removeFirst h
    rwa [hc] at hfirst

theorem lets_indexes {l : List TreeIndex} (h : (s.table t).engine.indexes = l) :
    Lets t (l.forM (teardownIndex t)) s
      (s.catalog.recordAll (removalsOf .index (·.spec.id) (l.filter (·.sql?.isSome))))
      ((s.table t).unindexed l []) := by
  induction l generalizing s with
  | nil =>
    have hsame : (s.table t).unindexed [] [] = s.table t :=
      congrArg ((s.table t).unindexed []) h.symm
    rw [List.filter_nil, hsame]
    exact s.catalog.recordAll_nil.symm ▸ lets_pure () s
  | cons ix rest ih =>
    refine (lets_teardownFirst h).bind fun _ s' hc ht => ?_
    have hrest := ih (s := s') (by rw [ht]; rfl)
    rw [hc, ht, Catalog.recordAll_recordAll, ← removalsOf_append, ← List.filter_append] at hrest
    exact hrest

/-! ## A whole teardown -/

theorem teardown_lets (h : (s.catalog.rights.map Right.id).Nodup) (t : Nat) :
    Lets t (teardown t) s (s.catalog.cleared (s.table t)) (s.table t).bare := by
  refine Lets.get_bind ?_
  refine (lets_children .view View.id _ s).bind fun _ s₁ hc₁ ht₁ => ?_
  refine (lets_children .trigger Trigger.id _ s₁).bind fun _ s₂ hc₂ ht₂ => ?_
  refine (lets_children .constraint Constraint.id _ s₂).bind fun _ s₃ hc₃ ht₃ => ?_
  refine (lets_modifyTable _ s₃).bind fun _ s₄ hc₄ ht₄ => ?_
  rw [ht₃, ht₂, ht₁] at ht₄
  refine (lets_indexes (congrArg (·.engine.indexes) ht₄)).bind fun _ s₅ hc₅ ht₅ => ?_
  have hheard : s₅.catalog = s.catalog.recordAll
      (removalsOf .view View.id (s.table t).views
        ++ removalsOf .trigger Trigger.id (s.table t).triggers
        ++ removalsOf .constraint Constraint.id (s.table t).constraints
        ++ removalsOf .index (·.spec.id) ((s.table t).engine.indexes.filter (·.sql?.isSome))) := by
    rw [hc₅, hc₄, hc₃, hc₂, hc₁]
    simp only [Catalog.recordAll_recordAll]
  refine Lets.get_bind ((lets_rights _ s₅).bind fun _ s₆ hc₆ ht₆ => ?_)
  refine (lets_modifyCatalog _ s₆).bind fun _ s₇ hc₇ ht₇ => ?_
  refine (lets_sequences _ _ s₇).bind fun _ s₈ hc₈ ht₈ => ?_
  refine (lets_modifyTable _ s₈).bind fun _ s₉ hc₉ ht₉ => ?_
  have hcatalog : s₉.catalog = s.catalog.cleared (s.table t) := by
    have hrights := Catalog.filter_notMem_rightsOn h (s.table t).id
    rw [hc₉, hc₈, hc₇, hc₆, hheard]
    unfold Catalog.cleared Table.removals
    rw [← hrights]
    simp only [← Catalog.recordAll_recordAll]
    rfl
  have htable : s₉.table t = (s.table t).bare := by
    rw [ht₉, ht₈, ht₇, ht₆, ht₅, ht₄]
    rfl
  rw [← hcatalog, ← htable]
  exact lets_note _ s₉

/-- A table that is torn down, with any objects attached, loses all of them, and nothing else goes: the
catalog hears of each once, in order; rights on other tables, the rows and all other tables stay.  Torn
down again, it only has its record removed. -/
theorem teardown_is_complete (t : Nat) {s : Store} (h : (s.catalog.rights.map Right.id).Nodup) :
    ∃ s', teardown t s = .ok () s' ∧
      s'.catalog = { s.catalog with
        events := s.catalog.events ++ (s.table t).removals s.catalog
        rights := s.catalog.rights.filter (·.table ≠ some (s.table t).id) } ∧
      (s'.table t).children s'.catalog = [⟨.index, Engine.scanId⟩] ∧
      (s'.table t).engine = { (s.table t).engine with indexes := [] } ∧
      (∀ t' ≠ t, s'.table t' = s.table t') ∧
      ∃ s'', teardown t s' = .ok () s'' ∧
        s''.catalog = { s'.catalog with
          events := s'.catalog.events ++ [.removeMeta (s.table t).id] } ∧
        ∀ t', s''.table t' = s'.table t' := by
  obtain ⟨⟨⟩, s', he, hc, ht, hothers⟩ := teardown_lets h t
  have hcleared : s'.catalog.rightsOn (s.table t).id = [] := by
    rw [hc]
    exact Catalog.rightsOn_cleared _ _
  have hagain : (s'.catalog.rights.map Right.id).Nodup := by
    rw [hc]
    exact h.sublist (List.filter_sublist.map _)
  obtain ⟨⟨⟩, s'', he', hc', ht', hothers'⟩ := teardown_lets hagain t
  rw [ht] at hc' ht'
  refine ⟨s', he, hc, ?_, ?_, hothers, s'', he', ?_, fun t' => ?_⟩
  · rw [ht]
    exact Table.children_bare hcleared
  · rw [ht]
    rfl
  · rw [hc']
    exact Table.cleared_bare hcleared
  · by_cases heq : t' = t
    · rw [heq, ht', ht]
      rfl
    · exact hothers' t' heq

/-- A table with objects of each kind: two views with one number, an index made for a constraint, and
two sequences, of which another table uses one. -/
def furnished : Table :=
  { Table.empty 7 "T" with
    engine := {
      table := 7
      name := "T"
      rows := OrderedMap.insert ∅ 1 ⟨some 1, [some (.int 5)]⟩
      indexes := [
        { spec := ⟨3, "BY_ID", [⟨0, false⟩], .primary, none⟩, tableName := "T" },
        { spec := ⟨4, "BACKING", [⟨0, false⟩], ⟨.tree, false, true, true⟩, none⟩, tableName := "T" }] }
    views := [⟨2, "V", "SELECT"⟩, ⟨2, "V", "SELECT"⟩]
    triggers := [⟨5, "A", ⟨1⟩, true, true, false, none⟩]
    constraints := [⟨6, "C", true, .recorded 0 none⟩]
    sequences := [⟨8, "OWN"⟩, ⟨9, "SHARED"⟩] }

def granted : Catalog where
  rights := [⟨1, "ANN", some 7⟩, ⟨2, "BOB", some 8⟩, ⟨3, "BOB", some 7⟩, ⟨4, "EVE", none⟩]
  sequenceUsers := [(8, 7), (9, 8)]

def furnishedStore : Store := Store.setTable { catalog := granted } 7 furnished

theorem furnished_table_is_torn_down :
    ∃ s', teardown 7 furnishedStore = .ok () s' ∧
      s'.catalog.events = [
        .removeSchemaObject ⟨.view, 2⟩, .removeSchemaObject ⟨.view, 2⟩,
        .removeSchemaObject ⟨.trigger, 5⟩, .removeSchemaObject ⟨.constraint, 6⟩,
        .removeSchemaObject ⟨.index, 3⟩, .removeDatabaseObject ⟨.right, 1⟩,
        .removeDatabaseObject ⟨.right, 3⟩, .removeMeta 7, .removeSchemaObject ⟨.sequence, 8⟩] ∧
      s'.catalog.rights.map Right.id = [2, 4] := by
  obtain ⟨s', he, hc, -⟩ := teardown_is_complete 7
    (show (furnishedStore.catalog.rights.map Right.id).Nodup by decide)
  refine ⟨s', he, ?_, ?_⟩
  · rw [hc]
    decide +kernel
  · rw [hc]
    decide +kernel

end Store

end RowStore
