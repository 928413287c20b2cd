import RowStore.Proofs.Store.Lifetime

/-!
# Marks of primary keys

* `Table.Primary` : some attached primary key has the column at a place;
* `Table.Truthful` : marks are of attached primary keys; `Table.Complete` : their columns are marked;
* `TableCall.Peaceful` : a call does not detach one of several primary keys that share a column;
* `Truthful.call`, `Complete.call` : what a call keeps up;
* `marks_are_of_primary_keys` : columns are marked that some attached primary key has, and all of them as long
  as primary keys that share them go together;
* `not_primary_keys_are_marked` : otherwise a column of an attached primary key may lose its mark.
-/

namespace RowStore
open RowStore.Action RowStore.Store

namespace Table
variable {table table' : Table} {place : Nat}

/-- Some attached primary key has the column at a place. -/
def Primary (table : Table) (place : Nat) : Prop := ∃ spec ∈ table.engine.specs, spec.PrimaryOn place

def Numbered (table : Table) : Prop := (table.engine.specs.map (·.id)).Nodup

/-- If the column at a place is marked, then it is one of a primary key. -/
structure Truthful (place : Nat) (table : Table) : Prop where
  numbered : table.Numbered
  primary : table.Marked place → table.Primary place

/-- The column at a place is marked just if it is one of a primary key. -/
structure Complete (place : Nat) (table : Table) : Prop extends Truthful place table where
  marked : table.Primary place → table.Marked place

/-! ## What becomes of marks and primary keys -/

/-- The table has the marks and the indexes that it had. -/
structure Alike (table table' : Table) : Prop where
  specs : table'.engine.specs = table.engine.specs
  marks : ∀ place, table'.Marked place ↔ table.Marked place

theorem Alike.primary (h : table.Alike table') : table'.Primary place ↔ table.Primary place := by
  unfold Primary
  rw [h.specs]

theorem Alike.truthful (h : table.Alike table') (ht : table.Truthful place) : table'.Truthful place where
  numbered := by
    unfold Numbered
    rw [h.specs]
    exact ht.numbered
  primary hm := h.primary.2 (ht.primary ((h.marks place).1 hm))

theorem Alike.complete (h : table.Alike table') (hc : table.Complete place) : table'.Complete place where
  toTruthful := h.truthful hc.toTruthful
  marked hp := (h.marks place).2 (hc.marked (h.primary.1 hp))

theorem alike_refl (table : Table) : table.Alike table := ⟨rfl, fun _ => Iff.rfl⟩

theorem alike_of_renamed {cs : ColumnSet} {name : String}
    (h : cs.list = table.columns.list.modify place ({ · with name := name })) :
    table.Alike { table with columns := cs } := by
  refine ⟨rfl, fun i => ?_⟩
  unfold Marked ColumnSet.get?
  rw [h, List.getElem?_modify]
  cases table.columns.list[i]? with
  | none => simp
  | some c =>
    by_cases hi : place = i
    · simp [hi]
    · simp [hi]

/-- The marks of a table with a new index are those that it had, and those of the new primary key, if it is
one. -/
theorem Indexed.marked {spec : IndexSpec} {fill : Bool} (h : table.Indexed spec fill table') :
    table'.Marked place ↔ table.Marked place ∨ spec.PrimaryOn place := by
  obtain ⟨hcheck, e, -, rfl⟩ := h
  unfold Marked IndexSpec.PrimaryOn
  cases hpk : spec.type.primaryKey with
  | false => simp
  | true =>
    simp only [if_true, ColumnSet.get?_markPrimary, Option.map_eq_some_iff, true_and]
    constructor
    · rintro ⟨_, ⟨c, hc, rfl⟩, hmark⟩
      split at hmark
      · exact Or.inr ‹_›
      · exact Or.inl ⟨c, hc, hmark⟩
    · rintro (⟨c, hc, hmark⟩ | hany)
      · refine ⟨_, ⟨c, hc, rfl⟩, ?_⟩
        split
        · rfl
        · exact hmark
      · obtain ⟨ic, hic, hplace⟩ := List.any_eq_true.1 hany
        obtain ⟨c, hc⟩ := get?_of_checked hcheck ic hic
        rw [beq_iff_eq.1 hplace] at hc
        exact ⟨_, ⟨c, hc, rfl⟩, by rw [if_pos hany]⟩

theorem Indexed.primary {spec : IndexSpec} {fill : Bool} (h : table.Indexed spec fill table') :
    table'.Primary place ↔ table.Primary place ∨ spec.PrimaryOn place := by
  unfold Primary
  rw [h.specs.1]
  simp [or_and_right, exists_or]

theorem Indexed.truthful {spec : IndexSpec} {fill : Bool} (h : table.Indexed spec fill table')
    (ht : table.Truthful place) : table'.Truthful place where
  numbered := by
    unfold Numbered
    rw [h.specs.1, List.map_append]
    exact ht.numbered.append (List.nodup_singleton _) fun id hid hnew =>
      h.specs.2 ((List.mem_singleton.1 hnew : id = spec.id) ▸ hid)
  primary hm := h.primary.2 ((h.marked.1 hm).imp_left ht.primary)

theorem Indexed.complete {spec : IndexSpec} {fill : Bool} (h : table.Indexed spec fill table')
    (hc : table.Complete place) : table'.Complete place where
  toTruthful := h.truthful hc.toTruthful
  marked hp := h.marked.2 ((h.primary.1 hp).imp_left hc.marked)

theorem Sheds.truthful (h : table.Sheds table') (ht : table.Truthful place) : table'.Truthful place where
  numbered := ht.numbered.sublist (h.specs.map _)
  primary hm := by
    obtain ⟨hold, hstay⟩ := h.unmarked place hm
    obtain ⟨spec, hspec, hp⟩ := ht.primary hold
    exact ⟨spec, hstay spec hspec hp, hp⟩

/-- Where no primary key with the column at a place goes, or none is left, the mark is right again. -/
theorem Sheds.complete (h : table.Sheds table') (hc : table.Complete place)
    (hpeace : (∀ spec ∈ table.engine.specs, spec.PrimaryOn place → spec ∈ table'.engine.specs) ∨
      ¬ table'.Primary place) : table'.Complete place where
  toTruthful := h.truthful hc.toTruthful
  marked hp := by
    rcases hpeace with hstay | hnone
    · obtain ⟨spec, hspec, hon⟩ := hp
      exact h.marked place hc.numbered hstay (hc.marked ⟨spec, h.specs.subset hspec, hon⟩)
    · exact absurd hp hnone

end Table

/-! ## Calls -/

namespace TableCall
variable {t place : Nat} {c : TableCall} {s : Store}

def setsColumns : TableCall → Bool
  | setColumns .. => true
  | _ => false

/-- The call is about indexes, or about what uses a column. -/
def changesIndexes : TableCall → Bool
  | addIndex .. | removeIndex _ | releaseIndex _ | dropColumnUses _ => true
  | _ => false

/-- The call detaches no primary key with the column at a place, unless it is the last one. -/
def Peaceful (t place : Nat) (s : Store) (c : TableCall) : Prop :=
  (∀ spec ∈ (s.table t).engine.specs, spec.PrimaryOn place →
    spec ∈ ((final (c.run t) s).table t).engine.specs) ∨ ¬ ((final (c.run t) s).table t).Primary place

def shape (table : Table) : Upkeep where
  table := table
  holds e := e.specs = table.engine.specs
  numbers _ := True
  good _ := True
  fine _ := True
  refused _ := trivial
  fits := meets_trivial (fun _ _ => ⟨trivial, trivial⟩) fun _ _ => ⟨trivial, trivial⟩
  checks := table.safe_checks
  adds r _ := Stays.safe_of_any fun e he => (Engine.specs_addRow r e).trans he
  removes r := Stays.safe_of_any fun e he => (Engine.specs_removeRow r e).trans he

theorem alike_of_changesRows (hc : c.changesRows = true) (s : Store) :
    (s.table t).Alike ((final (c.run t) s).table t) := by
  have hat : (shape (s.table t)).At t s := ⟨rfl, rfl, trivial⟩
  have hfed : c.Fed (shape (s.table t)) (s.table t).engine := by
    cases c with
    | update u canceled pairs => exact fun _ _ _ _ _ _ _ => trivial
    | _ => trivial
  have hend := (shape (s.table t)).at_call hc hat hfed
  refine ⟨hend.engine, fun place => ?_⟩
  rw [hend.table]
  rfl

/-- Every call but one that sets columns leaves indexes and marks alone, attaches an index, or lets some
go. -/
theorem table_cases (hc : c.setsColumns = false) (s : Store) :
    (s.table t).Alike ((final (c.run t) s).table t) ∨
      (∃ spec fill, (s.table t).Indexed spec fill ((final (c.run t) s).table t)) ∨
      (s.table t).Sheds ((final (c.run t) s).table t) := by
  cases hrows : c.changesRows with
  | true => exact Or.inl (alike_of_changesRows hrows s)
  | false =>
    have hbecomes := becomes (t := t) hrows s
    generalize (final (c.run t) s).table t = table' at hbecomes ⊢
    cases hbecomes with
    | same => exact Or.inl (Table.alike_refl _)
    | columns => cases hc
    | renamed hlist => exact Or.inl (Table.alike_of_renamed hlist)
    | indexed hindexed => exact Or.inr (Or.inl ⟨_, _, hindexed⟩)
    | sheds hsheds => exact Or.inr (Or.inr hsheds)

end TableCall

section Calls
variable {t place : Nat} {c : TableCall} {s s₀ : Store}

theorem Table.Truthful.call (h : (s.table t).Truthful place) (hc : c.setsColumns = false) :
    ((final (c.run t) s).table t).Truthful place := by
  rcases TableCall.table_cases (t := t) hc s with halike | ⟨spec, fill, hindexed⟩ | hsheds
  · exact halike.truthful h
  · exact hindexed.truthful h
  · exact hsheds.truthful h

theorem Table.Complete.call (h : (s.table t).Complete place) (hc : c.setsColumns = false)
    (hp : c.Peaceful t place s) : ((final (c.run t) s).table t).Complete place := by
  rcases TableCall.table_cases (t := t) hc s with halike | ⟨spec, fill, hindexed⟩ | hsheds
  · exact halike.complete h
  · exact hindexed.complete h
  · exact hsheds.complete h hp

/-- From a table without marks or primary keys on, whatever is asked of it but for new columns, and whatever
becomes of that: a column is marked only if some attached primary key has it.  As long as no call detaches
one primary key with the column and leaves another, it is marked just if some attached primary key has it. -/
theorem marks_are_of_primary_keys (unmarked : ¬ (s₀.table t).Marked place)
    (none : ¬ (s₀.table t).Primary place) (numbered : (s₀.table t).Numbered)
    (h : Lifetime t (fun _ c => c.setsColumns = false) s₀ s) :
    ((s.table t).Marked place → (s.table t).Primary place) ∧
      (Lifetime t (fun s c => c.setsColumns = false ∧ c.Peaceful t place s) s₀ s →
        ((s.table t).Marked place ↔ (s.table t).Primary place)) := by
  have hstart : (s₀.table t).Complete place :=
    ⟨⟨numbered, fun hm => absurd hm unmarked⟩, fun hp => absurd hp none⟩
  constructor
  · exact (h.keeps hstart.toTruthful fun _ _ hc ht => ht.call hc).primary
  · intro h'
    have hend := h'.keeps hstart fun _ _ hc ht => ht.call hc.1 hc.2
    exact ⟨hend.primary, hend.marked⟩

end Calls

/-! ## Primary keys that share a column -/

instance (spec : IndexSpec) (place : Nat) : Decidable (spec.PrimaryOn place) :=
  inferInstanceAs (Decidable (_ ∧ _))

instance (table : Table) (place : Nat) : Decidable (table.Primary place) :=
  inferInstanceAs (Decidable (∃ spec ∈ table.engine.specs, _))

instance (table : Table) : Decidable table.Numbered := inferInstanceAs (Decidable (List.Nodup _))

instance (t place : Nat) (s : Store) (c : TableCall) : Decidable (c.Peaceful t place s) :=
  inferInstanceAs (Decidable ((∀ spec ∈ (s.table t).engine.specs, _ → _) ∨ _))

theorem Table.marked_iff {table : Table} {place : Nat} :
    table.Marked place ↔ (table.columns.get? place).map (·.primaryKey) = some true :=
  Option.map_eq_some_iff.symm

instance (table : Table) (place : Nat) : Decidable (table.Marked place) :=
  decidable_of_iff _ Table.marked_iff.symm

/-- A table with one column, which takes no NULL. -/
def singleColumn : Store :=
  final (createTable { id := 7, name := "T", columns := [Column.build "ID" .int [.notNull]] }) {}

def keyOfSingle (id : Nat) : IndexSpec :=
  { id := id, name := "KEY", columns := [⟨0, false⟩], type := .primary }

/-- A table gets a primary key, loses it, and gets another one. -/
theorem replaced_primary_key_is_marked : ∃ s,
    Lifetime 7 (fun s c => c.setsColumns = false ∧ c.Peaceful 7 0 s) singleColumn s ∧
      (s.table 7).Primary 0 ∧ (s.table 7).Marked 0 := by
  have h : Lifetime 7 (fun s c => c.setsColumns = false ∧ c.Peaceful 7 0 s) singleColumn _ := .start
  have h := h.call (.addIndex (keyOfSingle 1) true) (by decide +kernel)
  have h := h.call (.removeIndex 1) (by decide +kernel)
  have h := h.call (.insert 1 ⟨none, [some (.int 5)]⟩) (by decide +kernel)
  have h := h.call (.addIndex (keyOfSingle 2) true) (by decide +kernel)
  obtain ⟨s, h, hp⟩ : ∃ s, Lifetime 7 (fun s c => c.setsColumns = false ∧ c.Peaceful 7 0 s) singleColumn s ∧
      (s.table 7).Primary 0 := ⟨_, h, by decide +kernel⟩
  have hmarks := @marks_are_of_primary_keys 7 0 s singleColumn (by decide +kernel) (by decide +kernel)
    (by decide +kernel) (h.mono fun _ _ hc => hc.1)
  exact ⟨s, h, hp, (hmarks.2 h).2 hp⟩

/-- Once one of two primary keys of a column is detached, the column has lost its mark. -/
theorem not_primary_keys_are_marked : ¬ ∀ (t place : Nat) (s₀ s : Store),
    (∀ c ∈ (s₀.table t).columns.list, c.primaryKey = false) → (s₀.table t).engine.indexes = [] →
      Lifetime t (fun _ c => c.changesIndexes = true) s₀ s →
        ((s.table t).Marked place ↔ (s.table t).Primary place) := by
  intro hall
  have h : Lifetime 7 (fun _ c => c.changesIndexes = true) singleColumn _ := .start
  have h := h.call (.addIndex (keyOfSingle 1) true) rfl
  have h := h.call (.addIndex (keyOfSingle 2) true) rfl
  have h := h.call (.removeIndex 1) rfl
  have hmarks := hall 7 0 singleColumn _ (by decide +kernel) rfl h
  exact absurd (hmarks.2 (by decide +kernel)) (by decide +kernel)

end RowStore
