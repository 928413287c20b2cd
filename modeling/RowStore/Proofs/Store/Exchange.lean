import RowStore.Proofs.Engine.Distinct
import RowStore.Proofs.Store.Undo

/-!
# A replacement in two passes is one at once

* `Engine.replaced` : the stored rows, with old rows replaced by new ones at once;
* `Store.Plain` : a table takes rows as they are and has a full engine;
* `removeOld_of_stored` : stored rows are removed, whatever their order;
* `addAllNew_cases` : new rows are all added, if they are distinct from the others and from each other,
  and else one of them is refused as a duplicate;
* `updateRows_replaces_at_once` : so a replacement of stored rows comes to `replaced`, or is refused;
* `not_updateRows_replaces_anywhere` : but not where the keys of a table have started over.
-/

namespace RowStore

/-- The stored rows, with the old row of each pair replaced by its new one. -/
def Engine.replaced (e : Engine) (pairs : List (Row × Row)) : List Row :=
  e.rowList.filter (· ∉ pairs.map (·.1)) ++ pairs.map (·.2)

theorem Engine.mem_replaced {e : Engine} {pairs : List (Row × Row)} {r : Row} :
    r ∈ e.replaced pairs ↔
      (r ∈ e.rowList ∧ r ∉ pairs.map (·.1)) ∨ r ∈ pairs.map (·.2) := by
  rw [replaced, List.mem_append, List.mem_filter, decide_eq_true_eq]

theorem Engine.mem_replaced_of_perm {e : Engine} {pairs pairs' : List (Row × Row)}
    (h : pairs'.Perm pairs) (r : Row) : r ∈ e.replaced pairs' ↔ r ∈ e.replaced pairs := by
  rw [mem_replaced, mem_replaced, (h.map (·.1)).mem_iff, (h.map (·.2)).mem_iff]

namespace Store
open RowStore.Action

/-- The table takes rows as they are, and its full engine has indexes of certain kinds. -/
structure Plain (t : Nat) (specs : List IndexSpec) (s : Store) : Prop where
  full : (s.table t).engine.Full
  specs : (s.table t).engine.specs = specs
  uncontested : (s.table t).contested = none

variable {t u : Nat} {canceled : Nat → Bool} {specs : List IndexSpec}

/-- The rows of a table, stored and logged anew. -/
theorem Plain.recorded {s : Store} {e : Engine} (h : Plain t specs s) (hf : e.Full)
    (hs : e.specs = (s.table t).engine.specs) (record : UndoRecord) :
    Plain t specs ((s.setEngine t e).recorded u record) := by
  have htable : ((s.setEngine t e).recorded u record).table t = { s.table t with engine := e } :=
    table_setTable s t _
  refine ⟨?_, ?_, ?_⟩
  · rw [htable]
    exact hf
  · rw [htable]
    exact hs.trans h.specs
  · rw [htable]
    exact h.uncontested

theorem engine_recorded (s : Store) (e : Engine) (record : UndoRecord) :
    (((s.setEngine t e).recorded u record).table t).engine = e := engine_setEngine s t e

/-- A statement that is not canceled goes on. -/
theorem poll_of_live (live : ∀ n, canceled n = false) (step : Nat) (b : Batch) :
    ∃ polls, Batch.poll canceled step b = .ok () { b with polls := polls } := by
  unfold Batch.poll
  split
  · refine ⟨b.polls + 1, ?_⟩
    rw [get_bind, modify_bind, live]
    rfl
  · exact ⟨b.polls, rfl⟩

/-! ## The two passes -/

/-- Stored rows are removed, whatever their order. -/
theorem removeOld_of_stored {old : List Row} {b : Batch} (step : Nat) (live : ∀ n, canceled n = false)
    (h : Plain t specs b.store) (hold : ∀ r ∈ old, r ∈ (b.store.table t).engine.rowList)
    (once : old.Nodup) :
    ∃ b', removeOld t u canceled step old b = .ok () b' ∧ b'.rows = b.rows ∧ Plain t specs b'.store ∧
      ∀ r, r ∈ (b'.store.table t).engine.rowList ↔
        r ∈ (b.store.table t).engine.rowList ∧ r ∉ old := by
  induction old generalizing b step with
  | nil =>
    refine ⟨b, rfl, rfl, h, fun r => ?_⟩
    simp only [List.not_mem_nil, not_false_eq_true, and_true]
  | cons r old ih =>
    obtain ⟨polls, hp⟩ := poll_of_live live (step + 1) b
    obtain ⟨e, hrem, hfull, hspecs, hrows⟩ := h.full.removeRow_of_stored (hold r List.mem_cons_self)
    obtain ⟨hnew, hlater⟩ := List.nodup_cons.1 once
    have hr : onTable t (Table.removeRow r) b.store = .ok () (b.store.setEngine t e) := by
      rw [onTable_removeRow]
      exact onEngine_of_ok hrem
    rw [removeOld_of_ok hp hr]
    obtain ⟨b', hrun, hb', hplain, hmem⟩ := ih
      (b := ⟨(b.store.setEngine t e).recorded u ⟨t, .deleted, r⟩, b.rows, polls⟩) (step + 1)
      (h.recorded hfull hspecs _)
      (fun r' hr' => by
        rw [engine_recorded, hrows]
        exact ⟨hold r' (List.mem_cons_of_mem _ hr'), fun he => hnew (he ▸ hr')⟩)
      hlater
    refine ⟨b', hrun, hb', hplain, fun r' => ?_⟩
    rw [hmem, engine_recorded, hrows, List.mem_cons, not_or, and_assoc]

/-- New rows with keys of their own, none of them taken, are all added, or one is a duplicate. -/
theorem addAllNew_cases {rows : List Row} {b : Batch} (savepoint step place : Nat)
    (live : ∀ n, canceled n = false) (h : Plain t specs b.store)
    (keyed : ∀ r ∈ rows, ∃ key, r.key = some key ∧ key ≠ lastKey)
    (once : (rows.map (·.key)).Nodup)
    (free : ∀ r ∈ rows, ∀ r' ∈ (b.store.table t).engine.rowList, r'.key ≠ r.key)
    (wide : ∀ r ∈ rows, ∀ ix ∈ (b.store.table t).engine.indexes, ix.Reads r) :
    (((b.store.table t).engine.Distinct ((b.store.table t).engine.rowList ++ rows)) ∧
      ∃ b', addAllNew t u savepoint canceled step place rows b = .ok () b' ∧
        Plain t specs b'.store ∧ ∀ r, r ∈ (b'.store.table t).engine.rowList ↔
          r ∈ (b.store.table t).engine.rowList ++ rows) ∨
    ((¬ (b.store.table t).engine.Distinct ((b.store.table t).engine.rowList ++ rows)) ∧
      ∃ table index value b', addAllNew t u savepoint canceled step place rows b =
        .error (.error (.duplicateKey table index value)) b') := by
  induction rows generalizing b step place with
  | nil =>
    rw [List.append_nil]
    exact Or.inl ⟨h.full.distinct, b, rfl, h, fun _ => Iff.rfl⟩
  | cons r rows ih =>
    obtain ⟨polls, hp⟩ := poll_of_live live (step + 1) b
    obtain ⟨key, hkey, hl⟩ := keyed r List.mem_cons_self
    obtain ⟨hnew, hlater⟩ := List.nodup_cons.1 once
    have hwide := wide r List.mem_cons_self
    have hfree : (b.store.table t).engine.row? key = none :=
      h.full.sound.row?_eq_none_iff.2 (hkey ▸ free r List.mem_cons_self)
    have hplain : (b.store.table t).contested.any r.values.contains = false := by
      rw [h.uncontested]
      rfl
    by_cases hc : ∃ r' ∈ (b.store.table t).engine.rowList, (b.store.table t).engine.Clash r' r
    · -- The row is refused, and is one of two that clash.
      obtain ⟨table, index, value, e, he⟩ := h.full.addRow_of_clash hkey hfree hwide hc
      obtain ⟨r', hr', hclash⟩ := hc
      refine Or.inr ⟨fun hd => ?_, table, index, value, _,
        addAllNew_of_error hp ((onTable_addRow hplain).trans (onEngine_of_error he)) rfl⟩
      refine hd r' (List.mem_append_left _ hr') r (List.mem_append_right _ List.mem_cons_self) ?_ hclash
      rintro rfl
      exact free r' List.mem_cons_self r' hr' rfl
    · -- The row is stored, and the others come to a table that has one row more.
      obtain ⟨e, he, hfull, hspecs, hrows⟩ := h.full.addRow_of_free hkey hfree hl hwide hc
      have hadd : onTable t (Table.addRow r) b.store = .ok r (b.store.setEngine t e) :=
        (onTable_addRow hplain).trans (onEngine_of_ok he)
      rw [addAllNew_of_ok hp hadd]
      have hcases := ih
        (b := ⟨(b.store.setEngine t e).recorded u ⟨t, .inserted, r⟩, b.rows.set place r, polls⟩)
        (step + 1) (place + 1) (h.recorded hfull hspecs _)
        (fun r' hr' => keyed r' (List.mem_cons_of_mem _ hr')) hlater
        (fun r' hr' old hold => by
          rw [engine_recorded, hrows] at hold
          rcases hold with rfl | hold
          · exact fun he => hnew (List.mem_map.2 ⟨r', hr', he.symm⟩)
          · exact free r' (List.mem_cons_of_mem _ hr') old hold)
        (fun r' hr' => by
          rw [engine_recorded]
          exact Engine.reads_of_specs hspecs (wide r' (List.mem_cons_of_mem _ hr')))
      have hmem : ∀ r', r' ∈ e.rowList ++ rows ↔
          r' ∈ (b.store.table t).engine.rowList ++ r :: rows := by
        intro r'
        rw [List.mem_append, List.mem_append, List.mem_cons, hrows]
        exact or_assoc.trans or_left_comm
      simp only [engine_recorded, Engine.distinct_congr hspecs hmem, hmem] at hcases
      exact hcases

/-! ## Both together -/

section Whole
variable {b b' : Batch} {pairs pairs' : List (Row × Row)}

/-- A batch that replaces stored rows under their keys by others wide enough for the indexes. -/
structure Exchange (e : Engine) (pairs : List (Row × Row)) : Prop where
  stored : ∀ p ∈ pairs, p.1 ∈ e.rowList
  once : (pairs.map (·.1.key)).Nodup
  keys : ∀ p ∈ pairs, p.2.key = p.1.key
  wide : ∀ p ∈ pairs, ∀ ix ∈ e.indexes, ix.Reads p.2

theorem Exchange.perm {e : Engine} (h : Exchange e pairs) (hp : pairs'.Perm pairs) :
    Exchange e pairs' where
  stored p hm := h.stored p (hp.mem_iff.1 hm)
  once := (hp.map _).nodup_iff.2 h.once
  keys p hm := h.keys p (hp.mem_iff.1 hm)
  wide p hm := h.wide p (hp.mem_iff.1 hm)

theorem Exchange.nodup {e : Engine} (h : Exchange e pairs) : (pairs.map (·.1)).Nodup := by
  refine List.Nodup.of_map (·.key) ?_
  rw [List.map_map]
  exact h.once

theorem updateRows_cases (live : ∀ n, canceled n = false)
    (h : Plain t specs b.store) (hx : Exchange (b.store.table t).engine pairs)
    (hb : b.rows = pairs.map (·.2)) :
    (((b.store.table t).engine.Distinct ((b.store.table t).engine.replaced pairs)) ∧
      ∃ b', updateRows t u canceled (pairs.map (·.1)) b = .ok () b' ∧ Plain t specs b'.store ∧
        ∀ r, r ∈ (b'.store.table t).engine.rowList ↔
          r ∈ (b.store.table t).engine.replaced pairs) ∨
    ((¬ (b.store.table t).engine.Distinct ((b.store.table t).engine.replaced pairs)) ∧
      ∃ table index value b', updateRows t u canceled (pairs.map (·.1)) b =
        .error (.error (.duplicateKey table index value)) b') := by
  have hsound := h.full.sound
  have hold : ∀ r ∈ pairs.map (·.1), r ∈ (b.store.table t).engine.rowList := by
    intro r hr
    obtain ⟨p, hp, rfl⟩ := List.mem_map.1 hr
    exact hx.stored p hp
  obtain ⟨b₁, hrem, hrows, h₁, hmem⟩ :=
    removeOld_of_stored (u := u) 0 live h hold hx.nodup
  have hspecs : (b₁.store.table t).engine.specs = (b.store.table t).engine.specs :=
    h₁.specs.trans h.specs.symm
  rw [updateRows_of_removed hrem, hb]
  have hkeyed : ∀ r ∈ pairs.map (·.2), ∃ key, r.key = some key ∧ key ≠ lastKey := by
    intro r hr
    obtain ⟨p, hp, rfl⟩ := List.mem_map.1 hr
    obtain ⟨key, hkey⟩ := hsound.mem_rowList.1 (hx.stored p hp)
    exact ⟨key, (hx.keys p hp).trans (hsound.keyed key _ hkey), hsound.ne_lastKey hkey⟩
  have honce : ((pairs.map (·.2)).map (·.key)).Nodup := by
    rw [List.map_map]
    exact (List.map_congr_left hx.keys).symm ▸ hx.once
  -- What is left under the key of an old row would be that row.
  have hfree : ∀ r ∈ pairs.map (·.2), ∀ r' ∈ (b₁.store.table t).engine.rowList, r'.key ≠ r.key := by
    intro r hr r' hr' hk
    obtain ⟨p, hp, rfl⟩ := List.mem_map.1 hr
    obtain ⟨hstored, hnot⟩ := (hmem r').1 hr'
    obtain ⟨key, hkey⟩ := hsound.mem_rowList.1 (hx.stored p hp)
    have hk' : r'.key = some key := (hk.trans (hx.keys p hp)).trans (hsound.keyed key _ hkey)
    have hsame := (hsound.row?_eq_some_iff.2 ⟨hstored, hk'⟩).symm.trans hkey
    exact hnot (List.mem_map.2 ⟨p, hp, (Option.some.inj hsame).symm⟩)
  have hwide : ∀ r ∈ pairs.map (·.2), ∀ ix ∈ (b₁.store.table t).engine.indexes, ix.Reads r := by
    intro r hr
    obtain ⟨p, hp, rfl⟩ := List.mem_map.1 hr
    exact Engine.reads_of_specs hspecs (hx.wide p hp)
  have hreplaced : ∀ r, r ∈ (b₁.store.table t).engine.rowList ++ pairs.map (·.2) ↔
      r ∈ (b.store.table t).engine.replaced pairs := by
    intro r
    rw [List.mem_append, hmem, Engine.mem_replaced]
  have hcases := addAllNew_cases (u := u) (b.store.session u).position (pairs.map (·.1)).length 0 live
    h₁ hkeyed honce hfree hwide
  simp only [Engine.distinct_congr hspecs hreplaced, hreplaced] at hcases
  exact hcases

/-- A replacement of stored rows under their keys succeeds just when the rows that come of it are
distinct.  Then they are what is stored, in whatever order the pairs come; else a row is refused as a
duplicate. -/
theorem updateRows_replaces_at_once (regular : (b.store.table t).engine.Regular)
    (uncontested : (b.store.table t).contested = none)
    (exchange : Exchange (b.store.table t).engine pairs) (live : ∀ n, canceled n = false)
    (rows : b.rows = pairs.map (·.2)) :
    ((∃ b', updateRows t u canceled (pairs.map (·.1)) b = .ok () b') ↔
      (b.store.table t).engine.Distinct ((b.store.table t).engine.replaced pairs)) ∧
    (∀ b', updateRows t u canceled (pairs.map (·.1)) b = .ok () b' →
      (∀ key r, (b'.store.table t).engine.row? key = some r ↔
        r ∈ (b.store.table t).engine.replaced pairs ∧ r.key = some key) ∧
      ∀ pairs' : List (Row × Row), pairs'.Perm pairs → ∃ b'',
        updateRows t u canceled (pairs'.map (·.1)) { b with rows := pairs'.map (·.2) } = .ok () b'' ∧
          (b''.store.table t).engine.rows = (b'.store.table t).engine.rows) ∧
    ∀ fault b', updateRows t u canceled (pairs.map (·.1)) b = .error fault b' →
      ∃ table index value, fault = .error (.duplicateKey table index value) := by
  have h : Plain t (b.store.table t).engine.specs b.store := ⟨regular.full, rfl, uncontested⟩
  rcases updateRows_cases (u := u) live h exchange rows with
    ⟨hd, b₁, hrun, h₁, hmem⟩ | ⟨hd, table, index, value, b₁, hrun⟩
  · have hrows : ∀ key r, (b₁.store.table t).engine.row? key = some r ↔
        r ∈ (b.store.table t).engine.replaced pairs ∧ r.key = some key := by
      intro key r
      rw [h₁.full.sound.row?_eq_some_iff, hmem]
    refine ⟨iff_of_true ⟨b₁, hrun⟩ hd, ?_, ?_⟩
    · intro b' hb'
      cases hrun.symm.trans hb'
      refine ⟨hrows, fun pairs' hp => ?_⟩
      have hmem' := Engine.mem_replaced_of_perm (e := (b.store.table t).engine) hp
      rcases updateRows_cases (u := u) (b := { b with rows := pairs'.map (·.2) }) live h
          (exchange.perm hp) rfl with ⟨-, b₂, hrun₂, h₂, hmem₂⟩ | ⟨hd', -⟩
      · refine ⟨b₂, hrun₂, OrderedMap.ext h₂.full.sound.sorted h₁.full.sound.sorted fun key => ?_⟩
        refine Option.ext fun r => ?_
        refine Iff.trans ?_ (hrows key r).symm
        exact h₂.full.sound.row?_eq_some_iff.trans (and_congr_left' ((hmem₂ r).trans (hmem' r)))
      · exact absurd ((Engine.distinct_congr rfl hmem').2 hd) hd'
    · intro fault b' hb'
      cases hrun.symm.trans hb'
  · refine ⟨iff_of_false ?_ hd, ?_, ?_⟩
    · rintro ⟨b', hb'⟩
      cases hrun.symm.trans hb'
    · intro b' hb'
      cases hrun.symm.trans hb'
    · intro fault b' hb'
      cases hrun.symm.trans hb'
      exact ⟨table, index, value, rfl⟩

end Whole

/-- Two rows trade the values that a unique index tells apart; the other order does the same. -/
theorem traded_values_at_once :
    let pairs : List (Row × Row) := [(⟨some 0, [some (.int 1)]⟩, ⟨some 0, [some (.int 2)]⟩),
      (⟨some 1, [some (.int 2)]⟩, ⟨some 1, [some (.int 1)]⟩)]
    let b : Batch := ⟨storeOf twoRows none, pairs.map (·.2), 0⟩
    ∃ b', updateRows 7 1 (fun _ => false) (pairs.map (·.1)) b = .ok () b' ∧
      (b'.store.table 7).engine.row? 0 = some ⟨some 0, [some (.int 2)]⟩ := by
  intro pairs b
  have hx : Exchange (b.store.table 7).engine pairs := by
    refine ⟨?_, ?_, ?_, ?_⟩ <;> decide +kernel
  obtain ⟨hiff, hrows, -⟩ :=
    updateRows_replaces_at_once (t := 7) (u := 1) (b := b) regular_twoRows rfl hx (fun _ => rfl) rfl
  obtain ⟨b', hb'⟩ := hiff.2 (by decide +kernel)
  exact ⟨b', hb', ((hrows b' hb').1 0 _).2 (by decide +kernel)⟩

/-! ## Keys that have started over -/

/-- A row is added to a table whose index was attached while there were no rows. -/
theorem reached_addRow {e : Engine} {r : Row}
    (h : ∃ history, Engine.Reached 7 "T" history e ∧ Engine.Whole 1 history)
    (hs : succeeds (Engine.Call.addRow r).run e = true) :
    ∃ history, Engine.Reached 7 "T" history (final (Engine.Call.addRow r).run e) ∧
      Engine.Whole 1 history := by
  obtain ⟨history, hr, hw⟩ := h
  refine ⟨_, .done (.addRow r) hr (eq_ok_of_succeeds hs), ?_⟩
  rw [Engine.effects_addRow, Engine.claims_addRow]
  cases e.assigned? r with
  | none => exact hw
  | some key => exact hw

def indexed : Engine :=
  { table := 7
    name := "T"
    indexes := [⟨⟨1, "BY_ID", [⟨0, false⟩], .distinct, none⟩, "T", ∅⟩] }

/-- Three rows, the latest of which took the place of another, because the keys started over.  The index
still has the value of that one. -/
def overwritten : Engine :=
  final (Engine.Call.addRow ⟨none, [some (.int 4)]⟩).run
    (final (Engine.Call.addRow ⟨none, [some (.int 3)]⟩).run
      (final (Engine.Call.addRow ⟨some (lastKey - 1), [some (.int 2)]⟩).run
        (final (Engine.Call.addRow ⟨none, [some (.int 1)]⟩).run indexed)))

theorem reached_overwritten :
    ∃ history, Engine.Reached 7 "T" history overwritten ∧ Engine.Whole 1 history := by
  have hindexed : ∃ history, Engine.Reached 7 "T" history indexed ∧ Engine.Whole 1 history :=
    ⟨_, .done (.addIndex ⟨1, "BY_ID", [⟨0, false⟩], .distinct, none⟩ true) .start rfl, rfl⟩
  refine reached_addRow (reached_addRow (reached_addRow (reached_addRow hindexed ?_) ?_) ?_) ?_ <;>
    decide +kernel

/-- It is not enough that the indexes were whole when they were attached.  Where a row was given the last
key, an index can hold the values of a row that is gone, and refuse a new row that is distinct from all. -/
theorem not_updateRows_replaces_anywhere :
    ¬ ∀ (t u : Nat) (canceled : Nat → Bool) (b : Batch) (pairs : List (Row × Row)),
      (∃ table name history, Engine.Reached table name history (b.store.table t).engine ∧
        ∀ ix ∈ (b.store.table t).engine.indexes, Engine.Whole ix.spec.id history) →
      (b.store.table t).contested = none → Exchange (b.store.table t).engine pairs →
      (∀ n, canceled n = false) → b.rows = pairs.map (·.2) →
      ((∃ b', updateRows t u canceled (pairs.map (·.1)) b = .ok () b') ↔
        (b.store.table t).engine.Distinct ((b.store.table t).engine.replaced pairs)) := by
  intro h
  let pairs : List (Row × Row) := [(⟨some 0, [some (.int 4)]⟩, ⟨some 0, [some (.int 1)]⟩)]
  let b : Batch := ⟨storeOf overwritten none, pairs.map (·.2), 0⟩
  have hids : ∀ ix ∈ overwritten.indexes, ix.spec.id = 1 := by decide +kernel
  have hx : Exchange overwritten pairs := by
    refine ⟨?_, ?_, ?_, ?_⟩ <;> decide +kernel
  obtain ⟨history, hreached, hwhole⟩ := reached_overwritten
  have hiff := h 7 1 (fun _ => false) b pairs
    ⟨7, "T", history, hreached, fun ix hix => (hids ix hix).symm ▸ hwhole⟩ rfl hx (fun _ => rfl) rfl
  obtain ⟨b', hb'⟩ := hiff.2 (by decide +kernel)
  have hfails : succeeds (updateRows 7 1 (fun _ => false) (pairs.map (·.1))) b = false := by
    decide +kernel
  unfold Action.succeeds at hfails
  rw [hb'] at hfails
  cases hfails

end Store
end RowStore
