import RowStore.Proofs.Engine.Refusals
import RowStore.Store.Mutation

/-!
# A row that is not stored

* `addRow_of_taken` : a row whose own key is stored already is refused before anything is done;
* `Sound.addRow_fault` : a row that is wide enough for the indexes is refused for its key, or as a duplicate;
* `Sound.addRow_leaves` : what a refusal leaves is what there was, but for the next key;
* `addRow_of_refused` : the row that was to be stored stays as it was passed;
* `refused_row_leaves_no_trace` : all of that, of every engine that calls lead to.

Up to the index that refuses it, the row has come to stand last among those of its values.  Taking it out
again moves the last one into its place, so that the others stay in their order.
-/

namespace RowStore.Engine
open RowStore.Action

variable {e e' : Engine} {r : Row} {fault : Fault}

/-! ## Rows that are refused -/

theorem addRow_of_taken (h : e.assigned? r = none) :
    ∃ key, r.key = some key ∧ (e.row? key).isSome = true ∧ addRow r e = .error (.error (.internal
      ("row key " ++ key.render ++ " already exists in `" ++ e.name ++ "`"))) e := by
  rw [assigned?_eq] at h
  cases hk : r.key with
  | none =>
    rw [hk] at h
    cases h
  | some key =>
    rw [hk] at h
    dsimp only at h
    split at h
    · rename_i hstored
      refine ⟨key, rfl, hstored, ?_⟩
      have hclaim := claimKey_eq e r
      rw [hk] at hclaim
      dsimp only at hclaim
      rw [if_pos hstored] at hclaim
      unfold addRow
      exact bind_of_error hclaim
    · cases h

/-- A row that is wide enough for the indexes is refused because its key is stored, or as a duplicate by one
of the indexes. -/
theorem Sound.addRow_fault (h : e.Sound) (hw : ∀ ix ∈ e.indexes, ix.Reads r)
    (run : Engine.addRow r e = .error fault e') :
    (∃ key, r.key = some key ∧ (e.row? key).isSome = true ∧ fault = .error (.internal
      ("row key " ++ key.render ++ " already exists in `" ++ e.name ++ "`"))) ∨
    ∃ ix ∈ e.indexes, ∃ k, ix.keyOf? r = some k ∧
      fault = .error (.duplicateKey ix.tableName ix.spec.name k.render) := by
  cases ha : e.assigned? r with
  | none =>
    obtain ⟨key, hk, hstored, htaken⟩ := addRow_of_taken ha
    cases htaken.symm.trans run
    exact Or.inl ⟨key, hk, hstored, rfl⟩
  | some key =>
    cases fault with
    | outOfRange => exact absurd run (h.not_outOfRange hw)
    | error cause =>
      obtain ⟨before, ix, after, k, hixs, -, -, hk, rfl⟩ := h.refuses ha run
      exact Or.inr ⟨ix, hixs ▸ List.mem_append_right _ List.mem_cons_self, k, hk, rfl⟩

/-! ## What a refusal leaves -/

/-- A refusal changes nothing but the next key, which never goes back unless it starts over. -/
theorem Sound.addRow_leaves (h : e.Sound) {cause : StoreError}
    (run : Engine.addRow r e = .error (.error cause) e') :
    e' = { e with nextKey := e'.nextKey } ∧
      (e.assigned? r ≠ some lastKey → e.nextKey ≤ e'.nextKey) := by
  rcases h.addRow_refused run with ⟨-, rfl⟩ | ⟨key, ha, rfl⟩
  · exact ⟨rfl, fun _ => UInt64.le_refl _⟩
  · refine ⟨rfl, fun hl => ?_⟩
    have hkey : key ≠ lastKey := fun hlast => hl (hlast ▸ ha)
    exact (lt_nextAfter ha hkey).2

/-- Where the engine of a table refuses a row, the row stays as it was passed, and nothing but that engine
changes. -/
theorem addRow_of_refused {s : Store} {t : Nat} (hplain : (s.table t).contested = none)
    (run : addRow r (s.table t).engine = .error fault e') :
    Store.addRow t ⟨s, r⟩ =
      .error fault ⟨s.setTable t { s.table t with engine := e' }, r⟩ := by
  have htable : Table.addRow r (s.table t) = .error fault { s.table t with engine := e' } := by
    have hfree : ¬ (none : Option Value).any r.values.contains = true := Bool.false_ne_true
    unfold Table.addRow
    rw [get_bind, hplain, if_neg hfree]
    exact within_of_error run
  unfold Store.addRow
  rw [get_bind]
  exact bind_of_error (within_of_error (within_of_error htable))

/-! ## The result -/

section Result
variable {table : Nat} {name : String} {history : List Event}

/-- A row that is wide enough for the indexes is refused only because its key is stored or as a duplicate.
Then the engine is what it was, indexes with the order of their entries included; only its next key may
have grown.  On a table, the refused row is left as it was passed. -/
theorem refused_row_leaves_no_trace (h : Reached table name history e)
    (hl : .assigned lastKey ∉ history) (hw : ∀ ix ∈ e.indexes, ix.Reads r)
    (run : addRow r e = .error fault e') :
    ((∃ key, r.key = some key ∧ (e.row? key).isSome = true ∧ fault = .error (.internal
      ("row key " ++ key.render ++ " already exists in `" ++ e.name ++ "`"))) ∨
    ∃ ix ∈ e.indexes, ∃ k, ix.keyOf? r = some k ∧
      fault = .error (.duplicateKey ix.tableName ix.spec.name k.render)) ∧
    e' = { e with nextKey := e'.nextKey } ∧
    (e.assigned? r ≠ some lastKey → e.nextKey ≤ e'.nextKey) ∧
    ∀ (s : Store) (t : Nat), (s.table t).engine = e → (s.table t).contested = none →
      Store.addRow t ⟨s, r⟩ =
        .error fault ⟨s.setTable t { s.table t with engine := e' }, r⟩ := by
  have hs := (h.agrees hl).sound
  cases fault with
  | outOfRange => exact absurd run (hs.not_outOfRange hw)
  | error cause =>
    obtain ⟨hsame, hgrown⟩ := hs.addRow_leaves run
    refine ⟨hs.addRow_fault hw run, hsame, hgrown, ?_⟩
    rintro s t rfl hplain
    exact addRow_of_refused hplain run

/-- The second index refuses a row that has come into the first one, among others with the same name. -/
theorem refused_by_second_index :
    let r : Row := ⟨none, [some (.int 1), some (.text "a")]⟩
    let byName : IndexSpec := ⟨1, "BY_NAME", [⟨1, false⟩], .plain, none⟩
    let byId : IndexSpec := ⟨2, "BY_ID", [⟨0, false⟩], .distinct, none⟩
    let e : Engine :=
      { table := 7
        name := "T"
        rows := ⟨[(0, ⟨some 0, [some (.int 1), some (.text "a")]⟩),
          (1, ⟨some 1, [some (.int 2), some (.text "a")]⟩)]⟩
        indexes := [⟨byName, "T", ⟨⟨[([.text "a"], [0, 1])]⟩⟩⟩,
          ⟨byId, "T", ⟨⟨[([.int 1], [0]), ([.int 2], [1])]⟩⟩⟩]
        nextKey := 2
        modification := 2 }
    ∃ history, Reached 7 "T" history e ∧ .assigned lastKey ∉ history ∧
      (∀ ix ∈ e.indexes, ix.Reads r) ∧
      ∃ e', addRow r e = .error (.error (.duplicateKey "T" "BY_ID" "( 1 )")) e' ∧
        e'.indexes = e.indexes ∧ e.nextKey ≤ e'.nextKey := by
  intro r byName byId e
  have h : Reached 7 "T" [.stored 1, .assigned 1, .stored 0, .assigned 0, .attached 2 true,
      .attached 1 true] e :=
    .done (.addRow ⟨none, [some (.int 2), some (.text "a")]⟩) (.done (.addRow r)
      (.done (.addIndex byId true) (.done (.addIndex byName true) .start rfl) rfl) rfl) rfl
  have hw : ∀ ix ∈ e.indexes, ix.Reads r := by decide
  have run : addRow r e = .error (.error (.duplicateKey "T" "BY_ID" "( 1 )"))
      (final (addRow r) e) := by rfl
  obtain ⟨-, hsame, hgrown, -⟩ := refused_row_leaves_no_trace h (by decide) hw run
  have hindexes : (final (addRow r) e).indexes = e.indexes := by rw [hsame]
  exact ⟨_, h, by decide, hw, _, run, hindexes, hgrown (by decide)⟩

end Result

end RowStore.Engine
