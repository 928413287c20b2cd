import RowStore.Proofs.Store.Changes

/-!
# A session can take back what it did

* `Store.Change` : the changes of rows by a session; `Change.Permitted` : what a client has to observe;
* `Store.Run` : any number of changes, whatever becomes of them;
* `rollback_restores` : after every run, the session can go back to the contents that were;
* `not_rollback_restores_from_anywhere` : it cannot where the keys of a table have started over;
* `conflict_leaves_no_trace` : a replacement that meets a concurrent change takes itself back.
-/

namespace RowStore.Store
open RowStore.Action

variable {among : Nat → Prop} {t u : Nat} {canceled : Nat → Bool} {s s' : Store}

/-! ## Runs -/

def batchRun {α : Type} (act : Action Batch α) (rows : List Row) : Action Store α := fun s =>
  match act ⟨s, rows, 0⟩ with
  | .ok x b => .ok x b.store
  | .error fault b => .error fault b.store

theorem final_batchRun {α : Type} (act : Action Batch α) (rows : List Row) (s : Store) :
    final (batchRun act rows) s = (final act ⟨s, rows, 0⟩).store := by
  unfold batchRun final
  dsimp only
  cases act ⟨s, rows, 0⟩ with
  | ok x b => rfl
  | error fault b => rfl

theorem final_draftRun {α : Type} (act : Action (Draft Store) α) (r : Row) (s : Store) :
    final (Draft.run act r) s = (final act ⟨s, r⟩).state := by
  unfold Draft.run final
  dsimp only
  cases act ⟨s, r⟩ with
  | ok x d => rfl
  | error fault d => rfl

theorem inRangeFrom_of_batchRun {α : Type} {act : Action Batch α} {rows : List Row} {s : Store}
    (h : (batchRun act rows).InRangeFrom s) : act.InRangeFrom ⟨s, rows, 0⟩ := by
  refine h.congr fun b hb => ⟨b.store, ?_⟩
  unfold batchRun
  rw [hb]

theorem inRangeFrom_of_draftRun {α : Type} {act : Action (Draft Store) α} {r : Row} {s : Store}
    (h : (Draft.run act r).InRangeFrom s) : act.InRangeFrom ⟨s, r⟩ := by
  refine h.congr fun d hd => ⟨d.state, ?_⟩
  unfold Draft.run
  rw [hd]

/-- A change of rows by a session. -/
inductive Change where
  /-- A row is inserted. -/
  | insert (t : Nat) (r : Row)
  /-- The row stored under a row's key is deleted. -/
  | delete (t : Nat) (r : Row)
  /-- Rows are updated; `canceled n` says whether the statement is canceled at the `n`th look. -/
  | update (t : Nat) (canceled : Nat → Bool) (pairs : List (Row × Row))
  /-- Rows are replaced, and nothing else is done. -/
  | updateRows (t : Nat) (canceled : Nat → Bool) (pairs : List (Row × Row))

namespace Change

def table : Change → Nat
  | insert t _ | delete t _ | update t _ _ | updateRows t _ _ => t

def run (u : Nat) : Change → Action Store Unit
  | insert t r => discard (Draft.run (Store.insert t u) r)
  | delete t r => discard (Store.delete t u r)
  | update t canceled pairs => discard (batchRun (Store.update t u canceled pairs) [])
  | updateRows t canceled pairs =>
    batchRun (Store.updateRows t u canceled (pairs.map (·.1))) (pairs.map (·.2))

/-- Old rows are copies of those stored under their keys, and no row is given the last key. -/
def Permitted (u : Nat) (s : Store) : Change → Prop
  | insert t r => ∀ begun d, beginInsert t u ⟨s, r⟩ = .ok begun d →
    (begun.1 && begun.2.1) = false → (d.state.table t).assigned? begun.2.2 ≠ some lastKey
  | delete t r => (s.table t).engine.IsCopy r
  | update t canceled pairs => (∀ p ∈ pairs, (s.table t).engine.IsCopy p.1) ∧
    ∀ begun b, beginUpdate t u pairs ⟨s, [], 0⟩ = .ok begun b →
      SparesLast t u canceled (begun.2.map (·.1)) b
  | updateRows t canceled pairs => (∀ p ∈ pairs, (s.table t).engine.IsCopy p.1) ∧
    SparesLast t u canceled (pairs.map (·.1)) ⟨s, pairs.map (·.2), 0⟩

theorem tells (c : Change) (ht : among c.table) (h : Ready among u s) (hp : c.Permitted u s)
    (hrange : (c.run u).InRangeFrom s) : Tells among u s (final (c.run u) s) := by
  cases c with
  | insert t r =>
    unfold run
    rw [final_discard, final_draftRun]
    exact insert_tells ht h hp (inRangeFrom_of_draftRun hrange.of_discard)
  | delete t r =>
    unfold run
    rw [final_discard]
    exact delete_tells ht h hp
  | update t canceled pairs =>
    unfold run
    rw [final_discard, final_batchRun]
    exact update_tells ht h hp.1 hp.2 (inRangeFrom_of_batchRun hrange.of_discard)
  | updateRows t canceled pairs =>
    unfold run
    rw [final_batchRun]
    refine updateRows_tells ht h ?_ hp.2 (inRangeFrom_of_batchRun hrange)
    intro r hr
    obtain ⟨p, hp', rfl⟩ := List.mem_map.1 hr
    exact hp.1 p hp'

end Change

/-- Any number of changes by a session, each of them done or refused for a cause.  In between, others may
do what leaves the tables and the log of the session alone. -/
inductive Run (among : Nat → Prop) (u : Nat) (s : Store) : Store → Prop where
  | refl : Run among u s s
  | done {s₁ s₂ : Store} (c : Change) (h : Run among u s s₁) (ht : among c.table)
      (hp : c.Permitted u s₁) (run : c.run u s₁ = .ok () s₂) : Run among u s s₂
  | refused {s₁ s₂ : Store} {cause : StoreError} (c : Change) (h : Run among u s s₁)
      (ht : among c.table) (hp : c.Permitted u s₁) (run : c.run u s₁ = .error (.error cause) s₂) :
      Run among u s s₂
  | other {s₁ s₂ : Store} (h : Run among u s s₁) (hc : s₂.core u = s₁.core u) : Run among u s s₂

/-- Whatever becomes of the changes, the log tells what was done. -/
theorem Run.tells (run : Run among u s s') (h : Ready among u s) : Tells among u s s' := by
  induction run with
  | refl => exact h.tells
  | done c _ ht hp hrun ih =>
    have hstep := c.tells ht ih.ready hp (inRangeFrom_of_ok hrun)
    rw [final_of_ok hrun] at hstep
    exact ih.trans hstep
  | refused c _ ht hp hrun ih =>
    have hstep := c.tells ht ih.ready hp (inRangeFrom_of_refused hrun)
    rw [final_of_error hrun] at hstep
    exact ih.trans hstep
  | other _ hc ih => exact ih.trans (ih.ready.tells_of_core hc)

/-! ## A small table -/

/-- Two rows that a unique index tells apart. -/
def twoRows : Engine :=
  { table := 7
    name := "T"
    rows := ⟨[(0, ⟨some 0, [some (.int 1)]⟩), (1, ⟨some 1, [some (.int 2)]⟩)]⟩
    indexes := [⟨⟨1, "BY_ID", [⟨0, false⟩], .distinct, none⟩, "T",
      ⟨⟨[([.int 1], [0]), ([.int 2], [1])]⟩⟩⟩]
    nextKey := 2
    modification := 2 }

theorem regular_twoRows : twoRows.Regular := by
  refine ⟨7, "T", [.stored 1, .assigned 1, .stored 0, .assigned 0, .attached 1 true], ?_,
    by decide, ?_⟩
  · exact .done (.addRow ⟨none, [some (.int 2)]⟩) (.done (.addRow ⟨none, [some (.int 1)]⟩)
      (.done (.addIndex ⟨1, "BY_ID", [⟨0, false⟩], .distinct, none⟩ true) .start rfl) rfl) rfl
  · intro ix hix
    cases List.mem_singleton.1 hix
    rfl

/-- A store with one table, which holds certain rows and perhaps has a contested value. -/
def storeOf (e : Engine) (contested : Option Value) : Store :=
  { tables := ⟨[(7, { Table.empty 7 "T" with
      engine := e
      contested := contested
      columns :=
        { list := [{ name := "ID", dataType := .int, table := some 7 }], places := ⟨[("ID", 0)]⟩ } })]⟩ }

/-- There is no other table than the one. -/
theorem table_of_single (h : s.tables.entries.map (·.1) = [7]) (ht : t ≠ 7) :
    s.table t = .empty t "" := by
  obtain ⟨⟨entries⟩, _⟩ := s
  obtain ⟨⟨key, table⟩, rest, rfl, rfl, hrest⟩ := List.map_eq_cons_iff.1 h
  obtain rfl := List.map_eq_nil_iff.1 hrest
  have hnone : (if compare t 7 = .eq then some table else none) = none :=
    if_neg fun he => ht (Std.LawfulEqCmp.eq_of_compare he)
  change Option.getD (if compare t 7 = .eq then some table else none) _ = _
  rw [hnone]
  rfl

theorem regular_storeOf {e : Engine} (h : e.Regular) (contested : Option Value) (t : Nat) :
    ((storeOf e contested).table t).engine.Regular := by
  by_cases ht : t = 7
  · subst ht
    exact h
  · rw [table_of_single rfl ht]
    exact ⟨t, "", [], .start, List.not_mem_nil, fun _ hix => absurd hix List.not_mem_nil⟩

theorem isCopy_twoRows :
    twoRows.IsCopy ⟨some 0, [some (.int 1)]⟩ ∧ twoRows.IsCopy ⟨some 1, [some (.int 2)]⟩ := by
  refine ⟨?_, ?_⟩
  · rintro key stored hk hr
    cases hk
    cases hr
    rfl
  · rintro key stored hk hr
    cases hk
    cases hr
    rfl

/-- Rows that bring keys of their own spare the last key. -/
theorem sparesLast_of_own {old : List Row} {b : Batch}
    (h : ∀ r ∈ b.rows, ∃ key, r.key = some key ∧ key ≠ lastKey) : SparesLast t u canceled old b := by
  intro k r b' hk _
  obtain ⟨key, hkey, hne⟩ := h r (List.mem_of_getElem? hk)
  unfold Table.assigned?
  split
  · exact fun he => by cases he
  · exact Engine.assigned?_ne_of_own hkey hne

/-! ## Going back -/

/-- After every run, a session can go back to a savepoint.  It finds its log, the stored rows and the
entries of all indexes as they were. -/
theorem rollback_restores (registered : s.detached.contains u = false)
    (tables : ∀ t, among t → s.tables.contains t = true ∧ (s.table t).engine.Regular)
    (run : Run among u s s') :
    ∃ b, rollbackTo u (s.session u).position s' = .ok () b ∧
      (s.session u).undoLog <+: (s'.session u).undoLog ∧
      (b.session u).undoLog = (s.session u).undoLog ∧
      ∀ t, (b.table t).engine.rows = (s.table t).engine.rows ∧
        (b.table t).engine.indexes.map TreeIndex.contents =
          (s.table t).engine.indexes.map TreeIndex.contents := by
  have h : Ready among u s :=
    ⟨fun t ht => (tables t ht).2.full, fun t ht => (tables t ht).1, registered⟩
  obtain ⟨records, hlogged⟩ := run.tells h
  obtain ⟨b, hb, ha, hlog⟩ := hlogged.rollback
  refine ⟨b, hb, ⟨records, hlogged.log.symm⟩, hlog, fun t => ?_⟩
  exact ⟨congrArg Prod.fst (ha.contents t), congrArg Prod.snd (ha.contents t)⟩

/-- Two rows trade the values that a unique index tells apart, and get them back. -/
theorem rollback_restores_traded_values :
    let s := storeOf twoRows none
    let trade : Change := .updateRows 7 (fun _ => false)
      [(⟨some 0, [some (.int 1)]⟩, ⟨some 0, [some (.int 2)]⟩),
        (⟨some 1, [some (.int 2)]⟩, ⟨some 1, [some (.int 1)]⟩)]
    ∃ s' b, trade.run 1 s = .ok () s' ∧ rollbackTo 1 0 s' = .ok () b ∧
      (b.table 7).engine.rows = twoRows.rows := by
  intro s trade
  have hdone : trade.run 1 s = .ok () (final (trade.run 1) s) :=
    eq_ok_of_succeeds (by decide +kernel)
  have hcopies : ∀ p ∈ [((⟨some 0, [some (.int 1)]⟩ : Row), (⟨some 0, [some (.int 2)]⟩ : Row)),
      (⟨some 1, [some (.int 2)]⟩, ⟨some 1, [some (.int 1)]⟩)], (s.table 7).engine.IsCopy p.1 := by
    simp only [List.forall_mem_cons]
    exact ⟨isCopy_twoRows.1, isCopy_twoRows.2, fun _ hp => absurd hp List.not_mem_nil⟩
  have hspares : SparesLast 7 1 (fun _ => false)
      [⟨some 0, [some (.int 1)]⟩, ⟨some 1, [some (.int 2)]⟩]
      ⟨s, [⟨some 0, [some (.int 2)]⟩, ⟨some 1, [some (.int 1)]⟩], 0⟩ := by
    refine sparesLast_of_own ?_
    simp only [List.forall_mem_cons]
    exact ⟨⟨0, rfl, by decide⟩, ⟨1, rfl, by decide⟩, fun _ hr => absurd hr List.not_mem_nil⟩
  have hrun : Run (Eq 7) 1 s _ := .done trade .refl rfl ⟨hcopies, hspares⟩ hdone
  obtain ⟨b, hb, -, -, hrows⟩ := rollback_restores rfl
    (fun t ht => ht ▸ ⟨rfl, regular_twoRows⟩) hrun
  exact ⟨_, b, hdone, hb, (hrows 7).1⟩

/-- Three rows, the latest of which was given the last key.  The next key has started over. -/
def startedOver : Engine :=
  (({ table := 7, name := "T" : Engine }.withRow ⟨none, [some (.int 1)]⟩ 0 []).withRow
    ⟨some (lastKey - 1), [some (.int 2)]⟩ (lastKey - 1) []).withRow ⟨none, [some (.int 3)]⟩ lastKey []

/-- A row is stored where there are no indexes. -/
theorem reached_withRow {e : Engine} {r : Row} {key : RowKey}
    (h : ∃ history, Engine.Reached 7 "T" history e) (hix : e.indexes = [])
    (ha : e.assigned? r = some key) :
    ∃ history, Engine.Reached 7 "T" history (e.withRow r key []) := by
  obtain ⟨history, h⟩ := h
  have hrun : e.addRow r = .ok { r with key := some key } (e.withRow r key []) := by
    refine Engine.addRow_eq_ok.2 ⟨key, [], ha, ?_, rfl, rfl⟩
    rw [hix]
    exact .nil
  exact ⟨_, .done (.addRow r) h (discard_eq_ok.2 ⟨_, hrun⟩)⟩

theorem reached_startedOver : ∃ history, Engine.Reached 7 "T" history startedOver := by
  refine reached_withRow (reached_withRow (reached_withRow ⟨[], .start⟩ rfl ?_) rfl ?_) rfl ?_
  · decide
  · decide +kernel
  · decide +kernel

/-- It is not enough that a run itself spares the last key.  Where a row was given it before, the next
insert takes the place of another row, which is lost when the insert is taken back. -/
theorem not_rollback_restores_from_anywhere :
    ¬ ∀ (among : Nat → Prop) (u : Nat) (s s' : Store), s.detached.contains u = false →
      (∀ t, among t → s.tables.contains t = true ∧ ∃ table name history,
        Engine.Reached table name history (s.table t).engine ∧
          ∀ ix ∈ (s.table t).engine.indexes, Engine.Whole ix.spec.id history) →
      Run among u s s' →
      ∃ b, rollbackTo u (s.session u).position s' = .ok () b ∧
        (b.session u).undoLog = (s.session u).undoLog ∧
        ∀ t, (b.table t).engine.rows = (s.table t).engine.rows ∧
          (b.table t).engine.indexes.map TreeIndex.contents =
            (s.table t).engine.indexes.map TreeIndex.contents := by
  intro h
  let s := storeOf startedOver none
  let change : Change := .insert 7 ⟨none, [some (.int 4)]⟩
  have hdone : change.run 1 s = .ok () (final (change.run 1) s) :=
    eq_ok_of_succeeds (by decide +kernel)
  have hspares : change.Permitted 1 s := by
    intro begun d hb _
    have hkey : (match beginInsert 7 1 ⟨s, ⟨none, [some (.int 4)]⟩⟩ with
        | .ok begun d => (d.state.table 7).assigned? begun.2.2 != some lastKey
        | .error _ _ => true) = true := by decide +kernel
    rw [hb] at hkey
    exact bne_iff_ne.1 hkey
  obtain ⟨history, hreached⟩ := reached_startedOver
  obtain ⟨b, hb, -, hrows⟩ := h (Eq 7) 1 s (final (change.run 1) s) rfl
    (fun t ht => ht ▸ ⟨rfl, 7, "T", history, hreached, fun _ hix => absurd hix List.not_mem_nil⟩)
    (.done change .refl rfl hspares hdone)
  have hlost : ((final (rollbackTo 1 0) (final (change.run 1) s)).table 7).engine.rows.size = 2 := by
    decide +kernel
  have hfound : (startedOver.rows).size = 3 := by decide +kernel
  change rollbackTo 1 0 _ = .ok () b at hb
  rw [final_of_ok hb, (hrows 7).1] at hlost
  exact absurd (hfound.symm.trans hlost) (by decide)

/-! ## A concurrent change -/

/-- A replacement that meets a concurrent change at some new row fails with just that, and leaves the log,
the stored rows and the entries of all indexes as they were. -/
theorem conflict_leaves_no_trace {old : List Row} {b b' : Batch} {k : Nat} {r : Row} {name : String}
    (registered : b.store.detached.contains u = false) (table : b.store.tables.contains t = true)
    (regular : (b.store.table t).engine.Regular)
    (copies : ∀ r ∈ old, (b.store.table t).engine.IsCopy r) (spares : SparesLast t u canceled old b)
    (row : b.rows[k]? = some r) (upTo : updateUpTo t u canceled old k b = .ok () b')
    (conflict : onTable t (Table.addRow r) b'.store = .error (.error (.concurrentUpdate name)) s') :
    ∃ b'', updateRows t u canceled old b = .error (.error (.concurrentUpdate name)) b'' ∧
      (b''.store.session u).undoLog = (b.store.session u).undoLog ∧
      ∀ t', (b''.store.table t').engine.rows = (b.store.table t').engine.rows ∧
        (b''.store.table t').engine.indexes.map TreeIndex.contents =
          (b.store.table t').engine.indexes.map TreeIndex.contents := by
  have h : Ready (Eq t) u b.store := by
    refine ⟨?_, ?_, registered⟩
    · rintro _ rfl
      exact regular.full
    · rintro _ rfl
      exact table
  obtain ⟨b'', hrun, hlogged⟩ := updateRows_of_contested rfl h copies spares row upTo conflict
  obtain ⟨_, hb, ha, -⟩ := hlogged.back b''.store hlogged.ready.alike
  cases hb
  refine ⟨b'', hrun, ?_, fun t' => ?_⟩
  · rw [hlogged.log, List.append_nil]
  · exact ⟨congrArg Prod.fst (ha.contents t'), congrArg Prod.snd (ha.contents t')⟩

/-- The second of two new rows is contested; both old rows are back then, and the first new one is gone. -/
theorem conflict_at_second_row :
    let old : List Row := [⟨some 0, [some (.int 1)]⟩, ⟨some 1, [some (.int 2)]⟩]
    let b : Batch :=
      ⟨storeOf twoRows (some (.int 13)), [⟨some 0, [some (.int 2)]⟩, ⟨some 1, [some (.int 13)]⟩], 0⟩
    ∃ b', updateRows 7 1 (fun _ => false) old b = .error (.error (.concurrentUpdate "T")) b' ∧
      (b'.store.session 1).undoLog = [] ∧ (b'.store.table 7).engine.rows = twoRows.rows := by
  intro old b
  have hup : updateUpTo 7 1 (fun _ => false) old 1 b =
      .ok () (final (updateUpTo 7 1 (fun _ => false) old 1) b) :=
    eq_ok_of_succeeds (by decide +kernel)
  have hcopies : ∀ r ∈ old, (b.store.table 7).engine.IsCopy r := by
    simp only [old, List.forall_mem_cons]
    exact ⟨isCopy_twoRows.1, isCopy_twoRows.2, fun _ hp => absurd hp List.not_mem_nil⟩
  have hspares : SparesLast 7 1 (fun _ => false) old b := by
    refine sparesLast_of_own ?_
    simp only [b, List.forall_mem_cons]
    exact ⟨⟨0, rfl, by decide⟩, ⟨1, rfl, by decide⟩, fun _ hr => absurd hr List.not_mem_nil⟩
  have hregular : (b.store.table 7).engine.Regular := regular_twoRows
  obtain ⟨b', hrun, hlog, hrows⟩ := conflict_leaves_no_trace rfl rfl hregular hcopies hspares
    rfl hup (onTable_addRow_contested (by decide +kernel))
  exact ⟨b', hrun, hlog, (hrows 7).1⟩

end RowStore.Store
