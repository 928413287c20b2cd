import RowStore.Proofs.Store.Lifetime
import RowStore.Proofs.Store.Values

/-!
# Sequences that a table depends on

* `ObjectSet.mem_insertAll`, `Table.mem_dependencies` : what is in the set of the dependencies of a table;
* `Column.Owns` : a column steps a sequence past the numbers written to it; `Column.Overrides` : a later
  clause has put another default in place of its next value;
* `Table.sparing` : a sequence that the table does not depend on, and no column owns, stays as it is while
  rows change; `find?_call` : so it does when a default is asked for;
* `Column.BuiltFrom.owns` : a column from the clauses of its definition that owns a sequence depends on it, or
  overrides it;
* `moved_sequences_are_dependencies` : each sequence that moves is one that the table depends on, or that some
  column owns and overrides;
* `not_moved_sequences_are_dependencies` : the latter is not among the dependencies.
-/

namespace RowStore
open RowStore.Action RowStore.Store

/-! ## Sets of objects -/

theorem ObjectKind.rank_inj {k k' : ObjectKind} : k.rank = k'.rank ↔ k = k' := by
  cases k <;> cases k' <;> decide

theorem ObjectId.compare_eq_iff {o p : ObjectId} : o.compare p = .eq ↔ o = p := by
  obtain ⟨k, n⟩ := o
  obtain ⟨k', n'⟩ := p
  unfold ObjectId.compare
  rw [Ordering.then_eq_eq, Nat.compare_eq_eq, Nat.compare_eq_eq, ObjectKind.rank_inj, mk.injEq]

namespace ObjectSet
variable {o p : ObjectId} {known : ObjectSet}

theorem mem_insertIn {ps : List ObjectId} : o ∈ insertIn p ps ↔ o = p ∨ o ∈ ps := by
  induction ps with
  | nil => simp [insertIn]
  | cons q ps ih =>
    unfold insertIn
    cases h : p.compare q with
    | lt => simp
    | eq =>
      obtain rfl := ObjectId.compare_eq_iff.1 h
      simp
    | gt =>
      dsimp only
      rw [List.mem_cons, ih, List.mem_cons]
      exact or_left_comm

theorem mem_insert : o ∈ known.insert p ↔ o = p ∨ o ∈ known := mem_insertIn

theorem mem_insertAll {os : List ObjectId} : o ∈ known.insertAll os ↔ o ∈ os ∨ o ∈ known := by
  induction os generalizing known with
  | nil => simp [insertAll]
  | cons p os ih =>
    refine (@ih (known.insert p)).trans ?_
    rw [mem_insert, List.mem_cons, or_assoc, or_left_comm]

end ObjectSet

/-- The dependencies of a table, but for the table itself. -/
theorem Table.mem_dependencies {table : Table} {q : Nat} : ⟨.sequence, q⟩ ∈ table.dependencies ∅ ↔
    (∃ ref ∈ table.sequences, ref.id = q) ∨ (∃ c ∈ table.columns.list, ⟨.sequence, q⟩ ∈ c.dependencies) ∨
      ∃ c ∈ table.constraints, ⟨.sequence, q⟩ ∈ c.dependencies := by
  have hempty (o : ObjectId) : o ∉ (∅ : ObjectSet) := List.not_mem_nil
  unfold dependencies
  rw [if_neg (hempty _), ObjectSet.mem_insert, ObjectSet.mem_insertAll, ObjectSet.mem_insertAll]
  simp only [hempty, or_false, ColumnSet.dependencies, List.mem_append, List.mem_flatMap, List.mem_map,
    ObjectId.mk.injEq, reduceCtorEq, false_and, false_or, true_and]
  exact or_comm

theorem Expr.mem_dependencies {e : Expr} {q : Nat} :
    ⟨.sequence, q⟩ ∈ e.dependencies ↔ ∃ ref ∈ e.sequences, ref.id = q := by
  unfold dependencies
  simp only [List.mem_map, ObjectId.mk.injEq, true_and]

/-! ## Columns from their clauses -/

namespace Column
variable {c : Column} {q : Nat} {ref : SequenceRef} {clauses after : List ColumnClause}

theorem mem_dependencies : ⟨.sequence, q⟩ ∈ c.dependencies ↔
    ∃ e, (c.default = some e ∨ c.computed = some e) ∧ ∃ ref ∈ e.sequences, ref.id = q := by
  have hpart (x : Option Expr) : ⟨.sequence, q⟩ ∈ (x.map Expr.dependencies).getD [] ↔
      ∃ e, x = some e ∧ ∃ ref ∈ e.sequences, ref.id = q := by
    cases x with
    | none => simp
    | some e => simp [Expr.mem_dependencies]
  unfold dependencies
  rw [List.mem_append, hpart, hpart]
  simp only [or_and_right, exists_or]

/-- The column steps the sequence past the numbers that are written to it. -/
def Owns (c : Column) (q : Nat) : Prop := ∃ ref, c.sequence = some ref ∧ ref.id = q

/-- What the column draws from, and steps, is what the clauses of a definition say. -/
def BuiltFrom (c : Column) (clauses : List ColumnClause) : Prop := ∃ name dataType,
  c.default = (build name dataType clauses).default ∧
    c.computed = (build name dataType clauses).computed ∧
      c.sequence = (build name dataType clauses).sequence

/-- The last identity clause of the column names the sequence, but a clause after it has put a default in place of
the next value, and that does not draw from the sequence. -/
def Overrides (c : Column) (q : Nat) : Prop := ∃ before ref after e,
  c.BuiltFrom (before ++ .identity ref :: after) ∧ ref.id = q ∧ (∀ ref', .identity ref' ∉ after) ∧
    .default e ∈ after ∧ c.default = some e ∧ ∀ ref ∈ e.sequences, ref.id ≠ q

/-- The sequence is that of the last clause that has one. -/
theorem identity_of_build {name : String} {dataType : DataType}
    (h : (build name dataType clauses).sequence = some ref) : ∃ before after,
      clauses = before ++ .identity ref :: after ∧ ∀ ref', .identity ref' ∉ after := by
  -- the last clause counts first, as a later sequence takes the place of an earlier one
  induction clauses using List.reverseRecOn with
  | nil => cases h
  | append_singleton init last ih =>
    unfold build at h
    rw [List.foldl_concat] at h
    cases last with
    | identity s =>
      cases h
      exact ⟨init, [], rfl, fun _ => List.not_mem_nil⟩
    | notNull | primaryKey | default | computed | selectivity | nullToDefault =>
      obtain ⟨before, after, rfl, hlast⟩ := ih h
      refine ⟨before, after ++ [_], List.append_assoc _ _ _, fun ref' hmem => ?_⟩
      rcases List.mem_append.1 hmem with hold | hnew
      · exact hlast ref' hold
      · cases List.mem_singleton.1 hnew

/-- Clauses without a sequence leave the default alone, or one of them is the default. -/
theorem default_of_later (h : ∀ ref, .identity ref ∉ after) : (after.foldl apply c).default = c.default ∨
    ∃ e, .default e ∈ after ∧ (after.foldl apply c).default = some e := by
  induction after generalizing c with
  | nil => exact Or.inl rfl
  | cons first rest ih =>
    rcases ih (c := c.apply first) fun ref hr => h ref (List.mem_cons_of_mem _ hr) with hsame | ⟨e, he, hd⟩
    · rw [List.foldl_cons, hsame]
      cases first with
      | default e => exact Or.inr ⟨e, List.mem_cons_self, rfl⟩
      | identity ref => exact absurd List.mem_cons_self (h ref)
      | notNull | primaryKey | computed | selectivity | nullToDefault => exact Or.inl rfl
    · exact Or.inr ⟨e, List.mem_cons_of_mem _ he, hd⟩

/-- A column that owns a sequence depends on it, or overrides it. -/
theorem BuiltFrom.owns (h : c.BuiltFrom clauses) (hown : c.Owns q) :
    ⟨.sequence, q⟩ ∈ c.dependencies ∨ c.Overrides q := by
  obtain ⟨name, dataType, hdefault, hcomputed, hsequence⟩ := id h
  obtain ⟨ref, hs, rfl⟩ := hown
  obtain ⟨before, after, rfl, hlast⟩ := identity_of_build (hsequence.symm.trans hs)
  have hbuild : build name dataType (before ++ .identity ref :: after) =
      after.foldl apply ((build name dataType before).apply (.identity ref)) := by
    unfold build
    rw [List.foldl_append, List.foldl_cons]
  rw [hbuild] at hdefault
  have hnext {e : Expr} (he : c.default = some e) (hdraws : ∃ ref' ∈ e.sequences, ref'.id = ref.id) :
      ⟨.sequence, ref.id⟩ ∈ c.dependencies := mem_dependencies.2 ⟨e, Or.inl he, hdraws⟩
  rcases default_of_later hlast with hsame | ⟨e, he, hd⟩
  · exact Or.inl (hnext (hdefault.trans hsame) ⟨ref, List.mem_cons_self, rfl⟩)
  · by_cases hdraws : ∃ ref' ∈ e.sequences, ref'.id = ref.id
    · exact Or.inl (hnext (hdefault.trans hd) hdraws)
    · refine Or.inr ⟨before, ref, after, e, h, rfl, hlast, he, hdefault.trans hd, fun ref' hr hid => ?_⟩
      exact hdraws ⟨ref', hr, hid⟩

end Column

/-! ## Sequences that stay as they are -/

section Sparing
variable {q : Nat} {x : Option Sequence}

theorem Numbering.safe_draw {ref : SequenceRef} (h : ref.id ≠ q) :
    Safe (fun n => n.sequences.find? q = x) (fun _ => True) (draw ref) := by
  refine Stays.safe_of_any (Stays.get_bind fun n hn => ?_)
  cases n.sequences.find? ref.id with
  | none => exact hn
  | some p =>
    dsimp only
    cases p.draw? with
    | none => exact hn
    | some drawn => exact (OrderedMap.find?_insert_of_ne _ h.symm _).trans hn

theorem Numbering.safe_observe {ref : SequenceRef} (h : ref.id ≠ q) (v : Int) :
    Safe (fun n => n.sequences.find? q = x) (fun _ => True) (observe ref v) := by
  refine meets_modify fun n hn => ?_
  unfold OrderedMap.adjust
  cases n.sequences.find? ref.id with
  | none => exact hn
  | some p => exact (OrderedMap.find?_insert_of_ne _ h.symm _).trans hn

theorem Expr.safe_eval_of_free {e : Expr} (h : ¬ ∃ ref ∈ e.sequences, ref.id = q) (row : Option Row) :
    Safe (fun n => n.sequences.find? q = x) (fun _ => True) (e.eval row) :=
  safe_eval (fun _ => trivial) row fun ref hr => Numbering.safe_draw fun hid => h ⟨ref, hr, hid⟩

theorem Column.keeping_of_free {c : Column} (hfree : ⟨.sequence, q⟩ ∉ c.dependencies) (hown : ¬ c.Owns q) :
    c.Keeping (fun n => n.sequences.find? q = x) fun _ => True where
  refused _ := trivial
  default e he ref hr :=
    Numbering.safe_draw fun hid => hfree (mem_dependencies.2 ⟨e, Or.inl he, ref, hr, hid⟩)
  computed e he ref hr :=
    Numbering.safe_draw fun hid => hfree (mem_dependencies.2 ⟨e, Or.inr he, ref, hr, hid⟩)
  observed ref hs v := Numbering.safe_observe (fun hid => hown ⟨ref, hs, hid⟩) v
  remembered _ := meets_modify fun _ hn => hn

theorem Constraint.safe_checkRow {c : Constraint} (h : ⟨.sequence, q⟩ ∉ c.dependencies) (rows : Nat)
    (old new : Option Row) :
    Safe (fun d => d.numbering.sequences.find? q = x) (fun _ => True) (c.checkRow rows old new) := by
  have hrecord (r : FireRecord) :
      Safe (fun d => d.numbering.sequences.find? q = x) (fun _ => True) (CheckState.record r) :=
    fun _ hd => hd
  unfold dependencies at h
  unfold checkRow
  cases hrule : c.rule with
  | condition e columns =>
    rw [hrule] at h
    cases new with
    | none => exact safe_pure ()
    | some r =>
      have heval : Safe (fun d => d.numbering.sequences.find? q = x) (fun _ => True)
          (CheckState.onNumbering (e.eval (some r))) :=
        (Expr.safe_eval_of_free (fun hd => h (Expr.mem_dependencies.2 hd)) (some r)).within
          (fun _ hd => hd) (fun _ _ _ _ hn => hn) fun _ _ _ _ hn => hn
      exact Safe.bind heval fun v => Safe.ite (safe_refuse (fun _ => trivial) _) (safe_pure ())
  | recorded column rejected =>
    refine Safe.bind (hrecord _) fun _ => ?_
    split
    · refine Safe.bind (Stays.safe_of_any (stays_slot _)) fun v => ?_
      exact Safe.ite (safe_refuse (fun _ => trivial) _) (safe_pure ())
    · exact safe_pure ()
  | scripted script =>
    exact Safe.bind (hrecord _) fun _ => Safe.ite (safe_refuse (fun _ => trivial) _) (safe_pure ())

/-- That a sequence stays as it is which the table does not depend on and no column owns. -/
def Table.sparing (table : Table) (q : Nat) (x : Option Sequence)
    (hfree : ⟨.sequence, q⟩ ∉ table.dependencies ∅) (hown : ∀ c ∈ table.columns.list, ¬ c.Owns q) :
    Upkeep where
  table := table
  holds _ := True
  numbers qs := qs.find? q = x
  good _ := True
  fine _ := True
  refused _ := trivial
  fits := by
    have hfit : Safe (fun d : Draft Numbering => d.state.sequences.find? q = x ∧
        d.row.width = table.columns.width) (fun _ => True) (fitColumns 0 table.columns.list) :=
      safe_fitColumns (fun c hc => Column.keeping_of_free (fun hd =>
        hfree (mem_dependencies.2 (Or.inr (Or.inl ⟨c, hc, hd⟩)))) (hown c hc)) (Nat.zero_add _).le
    exact (hfit.post fun _ _ hd => ⟨hd.1, trivial⟩).fault fun _ _ hd => ⟨hd.1.1, trivial⟩
  checks c hc rows old new := Constraint.safe_checkRow (fun hd =>
    hfree (mem_dependencies.2 (Or.inr (Or.inr ⟨c, hc, hd⟩)))) rows old new
  adds _ _ := meets_trivial (fun _ _ => trivial) fun _ _ => ⟨trivial, trivial⟩
  removes _ := meets_trivial (fun _ _ => trivial) fun _ _ => ⟨trivial, trivial⟩

end Sparing

/-! ## Calls -/

/-- The call writes rows, or asks for a default. -/
def TableCall.writesOrAsks : TableCall → Bool
  | insert .. | delete .. | update .. | defaultValue .. => true
  | _ => false

section Calls
variable {t q : Nat} {s : Store} {c : TableCall}

/-- A sequence stays as it is which the table does not depend on and no column owns. -/
theorem find?_call (hfree : ⟨.sequence, q⟩ ∉ (s.table t).dependencies ∅)
    (hown : ∀ column ∈ (s.table t).columns.list, ¬ column.Owns q) (hc : c.writesOrAsks = true) :
    (final (c.run t) s).sequences.find? q = s.sequences.find? q := by
  have hrows (hrows : c.changesRows = true) :
      (final (c.run t) s).sequences.find? q = s.sequences.find? q := by
    refine (((s.table t).sparing q (s.sequences.find? q) hfree hown).at_call hrows
      ⟨rfl, trivial, rfl⟩ ?_).numbers
    cases c with
    | update u canceled pairs => exact fun _ _ _ _ _ _ _ => trivial
    | _ => trivial
  cases c with
  | insert u r => exact hrows rfl
  | delete u r => exact hrows rfl
  | update u canceled pairs => exact hrows rfl
  | defaultValue u place =>
    have hdefault : Safe (fun b : Store => b.table t = s.table t ∧
        b.sequences.find? q = s.sequences.find? q) (fun _ => True) (Store.defaultValue t u place) :=
      safe_defaultValue (N := fun qs => qs.find? q = s.sequences.find? q)
        (fun column hcolumn => Column.keeping_of_free (fun hd =>
          hfree (Table.mem_dependencies.2 (Or.inr (Or.inl ⟨column, hcolumn, hd⟩)))) (hown column hcolumn))
        fun _ => trivial
    exact (hdefault.discard.final ⟨rfl, rfl⟩).2
  | setColumns | renameColumn | addIndex | removeIndex | releaseIndex | dropColumnUses => cases hc

/-- Each sequence that moves while rows are written, or a default is asked for, whatever becomes of that, is
one that the table depends on, or that a column has overridden. -/
theorem moved_sequences_are_dependencies (hc : c.writesOrAsks = true)
    (built : ∀ column ∈ (s.table t).columns.list, ∃ clauses, column.BuiltFrom clauses)
    (moved : (final (c.run t) s).sequences.find? q ≠ s.sequences.find? q) :
    ⟨.sequence, q⟩ ∈ (s.table t).dependencies ∅ ∨
      ∃ column ∈ (s.table t).columns.list, column.Overrides q := by
  by_contra hneither
  obtain ⟨hfree, hstands⟩ := not_or.1 hneither
  refine moved (find?_call hfree (fun column hcolumn hown => ?_) hc)
  obtain ⟨clauses, hbuilt⟩ := built column hcolumn
  rcases hbuilt.owns hown with hd | hoverrides
  · exact hfree (Table.mem_dependencies.2 (Or.inr (Or.inl ⟨column, hcolumn, hd⟩)))
  · exact hstands ⟨column, hcolumn, hoverrides⟩

/-- The columns of a new table come from the clauses that those it is given come from. -/
theorem built_of_created {spec : TableSpec} {s' : Store} (h : createTable spec s = .ok () s')
    (built : ∀ column ∈ spec.columns, ∃ clauses, column.BuiltFrom clauses) :
    ∀ column ∈ (s'.table spec.id).columns.list, ∃ clauses, column.BuiltFrom clauses := by
  intro column hcolumn
  rw [(createTable_empty h).2.2] at hcolumn
  obtain ⟨i, hi, rfl⟩ := List.mem_mapIdx.1 hcolumn
  obtain ⟨clauses, hbuilt⟩ := built _ (List.getElem_mem hi)
  exact ⟨clauses, hbuilt⟩

end Calls

/-! ## Identity columns -/

def counter : SequenceRef := ⟨1, "COUNTER"⟩

def counterRule : SequenceRule where
  id := 1
  name := "COUNTER"
  start := 1
  increment := 1
  least := 1
  greatest := 100
  cycles := false
  belongsToTable := true

/-- A new sequence and a new table of one column. -/
def createCounted (clauses : List ColumnClause) : Action Store Unit := do
  createSequence counterRule
  createTable { id := 7, name := "T", columns := [Column.build "ID" .int clauses] }

/-- The columns of such a table come from clauses. -/
theorem built_counted {clauses : List ColumnClause} {s : Store} (h : createCounted clauses {} = .ok () s) :
    ∀ column ∈ (s.table 7).columns.list, ∃ clauses, column.BuiltFrom clauses := by
  obtain ⟨_, s₁, -, hcreate⟩ := bind_eq_ok.1 h
  refine built_of_created hcreate fun column hcolumn => ?_
  cases List.mem_singleton.1 hcolumn
  exact ⟨clauses, "ID", .int, rfl, rfl, rfl⟩

/-- A row without a number draws one, and the table depends on the sequence. -/
theorem drawn_sequence_is_dependency : ∃ s, createCounted [.identity counter] {} = .ok () s ∧
    (final ((TableCall.insert 1 ⟨none, [none]⟩).run 7) s).sequences.find? 1 ≠ s.sequences.find? 1 ∧
      ⟨.sequence, 1⟩ ∈ (s.table 7).dependencies ∅ := by
  obtain ⟨s, hs, hmoved, hdefault⟩ : ∃ s, createCounted [.identity counter] {} = .ok () s ∧
      (final ((TableCall.insert 1 ⟨none, [none]⟩).run 7) s).sequences.find? 1 ≠ s.sequences.find? 1 ∧
        ∀ column ∈ (s.table 7).columns.list, column.default = some (.nextValue counter) :=
    ⟨_, eq_ok_of_succeeds (by decide +kernel), by decide +kernel, by decide +kernel⟩
  refine ⟨s, hs, hmoved, ?_⟩
  refine (moved_sequences_are_dependencies rfl (built_counted hs) hmoved).resolve_right ?_
  rintro ⟨column, hcolumn, before, ref, after, e, -, -, -, -, he, hfree⟩
  cases (hdefault column hcolumn).symm.trans he
  exact hfree counter List.mem_cons_self rfl

/-- Where another default has overridden the next value, a number that is written moves the sequence all the
same, and the table does not depend on it. -/
theorem not_moved_sequences_are_dependencies : ¬ ∀ (t q : Nat) (s : Store) (c : TableCall),
    c.writesOrAsks = true → (∀ column ∈ (s.table t).columns.list, ∃ clauses, column.BuiltFrom clauses) →
      (final (c.run t) s).sequences.find? q ≠ s.sequences.find? q →
        ⟨.sequence, q⟩ ∈ (s.table t).dependencies ∅ := by
  intro hall
  obtain ⟨s, hs, hmoved, hfree⟩ :
      ∃ s, createCounted [.identity counter, .default (.literal (.int 5))] {} = .ok () s ∧
        (final ((TableCall.insert 1 ⟨none, [some (.int 10)]⟩).run 7) s).sequences.find? 1 ≠
          s.sequences.find? 1 ∧ ⟨.sequence, 1⟩ ∉ (s.table 7).dependencies ∅ :=
    ⟨_, eq_ok_of_succeeds (by decide +kernel), by decide +kernel, by decide +kernel⟩
  exact hfree (hall 7 1 s _ rfl (built_counted hs) hmoved)

end RowStore
