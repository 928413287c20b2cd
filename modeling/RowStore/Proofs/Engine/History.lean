import RowStore.Proofs.Engine.Upkeep

/-!
# Every history of an engine

* `Engine.Call` : a change of an engine; `Engine.Event` : what it means to rows and indexes;
* `Engine.Reached` : the engines that calls lead to, some done and some refused, with what happened;
* `Engine.Covers` : a row was stored while an index was attached, or was filled into it;
* `Engine.Whole` : an index was filled, or attached while there were no rows;
* `Reached.agrees` : rows, keys and indexes agree after every history that spares the last key;
* `indexes_agree_with_rows` : what every index holds and what it lacks;
* `uniqueness_is_exact` : which rows are refused and why.
-/

namespace RowStore.Engine

/-- A change of an engine. -/
inductive Call where
  /-- A row is added. -/
  | addRow (r : Row)
  /-- The row under a row's key is removed. -/
  | removeRow (r : Row)
  /-- All rows are removed. -/
  | truncate
  /-- An index is attached, and filled with the stored rows if that is asked for. -/
  | addIndex (spec : IndexSpec) (fill : Bool)
  /-- An index is detached. -/
  | removeIndex (id : Nat)

/-- What happens to rows and indexes. -/
inductive Event where
  /-- A row is given a key; whether it is stored is another matter. -/
  | assigned (key : RowKey)
  /-- A row is stored under a key. -/
  | stored (key : RowKey)
  /-- An index is attached.  It is whole if it was filled or there were no rows to fill it with. -/
  | attached (id : Nat) (whole : Bool)
deriving DecidableEq

namespace Call

def run : Call → Action Engine Unit
  | addRow r => discard (Engine.addRow r)
  | removeRow r => Engine.removeRow r
  | truncate => modify Engine.truncate
  | addIndex spec fill => Engine.addIndex spec fill
  | removeIndex id => discard (Engine.removeIndex id)

def claims (e : Engine) : Call → List Event
  | addRow r => (e.assigned? r).toList.map .assigned
  | _ => []

def effects (e : Engine) : Call → List Event
  | addRow r => (e.assigned? r).toList.map .stored
  | addIndex spec fill => [.attached spec.id (fill || e.rows.entries.isEmpty)]
  | _ => []

end Call

/-- The engines that a table comes to, with what has happened, the latest first.  A change is done or
refused for a cause. -/
inductive Reached (table : Nat) (name : String) : List Event → Engine → Prop where
  | start : Reached table name [] { table := table, name := name }
  | done {history : List Event} {e e' : Engine} (c : Call) (h : Reached table name history e)
      (run : c.run e = .ok () e') : Reached table name (c.effects e ++ (c.claims e ++ history)) e'
  | refused {history : List Event} {e e' : Engine} {cause : StoreError} (c : Call)
      (h : Reached table name history e) (run : c.run e = .error (.error cause) e') :
      Reached table name (c.claims e ++ history) e'

/-- The row stored under the key since was stored while the index was attached, or was filled into
it. -/
def Covers (id : Nat) (key : RowKey) : List Event → Prop
  | [] => False
  | .assigned _ :: earlier => Covers id key earlier
  | .stored k :: earlier => k = key ∨ Covers id key earlier
  | .attached i whole :: earlier => if i = id then whole = true else Covers id key earlier

def Whole (id : Nat) : List Event → Prop
  | [] => False
  | .assigned _ :: earlier => Whole id earlier
  | .stored _ :: earlier => Whole id earlier
  | .attached i whole :: earlier => if i = id then whole = true else Whole id earlier

/-- A whole index covers all rows. -/
theorem Whole.covers {id : Nat} {history : List Event} (h : Whole id history) (key : RowKey) :
    Covers id key history := by
  induction history with
  | nil => exact h
  | cons event earlier ih =>
    cases event with
    | assigned k => exact ih h
    | stored k => exact Or.inr (ih h)
    | attached i whole =>
      unfold Whole at h
      unfold Covers
      split at h
      · rename_i hi
        rwa [if_pos hi]
      · rename_i hi
        rw [if_neg hi]
        exact ih h

theorem claims_addRow (e : Engine) (r : Row) :
    (Call.addRow r).claims e = (e.assigned? r).toList.map .assigned := rfl

theorem effects_addRow (e : Engine) (r : Row) :
    (Call.addRow r).effects e = (e.assigned? r).toList.map .stored := rfl

/-- Only a row that is added can be given the last key. -/
theorem assigned_ne_lastKey {e : Engine} {r : Row}
    (h : .assigned lastKey ∉ (Call.addRow r).claims e) : e.assigned? r ≠ some lastKey := by
  intro ha
  rw [claims_addRow, ha] at h
  exact h (List.mem_singleton.2 rfl)

theorem covers_claims (c : Call) (e : Engine) (id : Nat) (key : RowKey) (history : List Event) :
    Covers id key (c.claims e ++ history) ↔ Covers id key history := by
  cases c with
  | addRow r =>
    rw [claims_addRow]
    cases e.assigned? r with
    | none => exact Iff.rfl
    | some k => exact Iff.rfl
  | _ => exact Iff.rfl

/-! ## Agreement after each change -/

/-- An engine is sound, and its indexes hold the rows that they cover. -/
structure Agrees (history : List Event) (e : Engine) : Prop where
  sound : e.Sound
  covered : ∀ ix ∈ e.indexes, ∀ key r, e.row? key = some r → Covers ix.spec.id key history →
    ix.Holds key

section Agreement
variable {history : List Event} {e e' : Engine}

theorem agrees_start (table : Nat) (name : String) :
    Agrees [] { table := table, name := name } where
  sound := sound_empty table name
  covered _ hix := absurd hix List.not_mem_nil

/-- A change that is refused leaves rows and indexes as they were. -/
theorem Agrees.refused (h : Agrees history e) (c : Call) (hl : .assigned lastKey ∉ c.claims e)
    {cause : StoreError} (run : c.run e = .error (.error cause) e') :
    Agrees (c.claims e ++ history) e' := by
  have same : e'.Sound ∧ e'.indexes = e.indexes ∧ e'.rows = e.rows := by
    cases c with
    | addRow r =>
      have hr : Engine.addRow r e = .error (.error cause) e' := Action.discard_eq_error.1 run
      have hsound := h.sound.addRow (assigned_ne_lastKey hl) fun _ he => nomatch hr.symm.trans he
      rw [Action.final_of_error hr] at hsound
      rcases h.sound.addRow_refused hr with ⟨-, rfl⟩ | ⟨_, -, rfl⟩
      · exact ⟨hsound, rfl, rfl⟩
      · exact ⟨hsound, rfl, rfl⟩
    | removeRow r =>
      obtain rfl := removeRow_refused run
      exact ⟨h.sound, rfl, rfl⟩
    | truncate => cases run
    | addIndex spec fill =>
      obtain rfl := addIndex_eq_error run
      exact ⟨h.sound, rfl, rfl⟩
    | removeIndex id =>
      cases (removeIndex_eq e id).symm.trans (Action.discard_eq_error.1 run)
  obtain ⟨hs, hixs, hrows⟩ := same
  refine ⟨hs, ?_⟩
  intro ix hix key r hr hc
  rw [covers_claims] at hc
  unfold row? at hr
  rw [hrows] at hr
  exact h.covered ix (hixs ▸ hix) key r hr hc

theorem Agrees.addRow {r stored : Row} (h : Agrees history e) (hl : e.assigned? r ≠ some lastKey)
    (run : Engine.addRow r e = .ok stored e') :
    Agrees ((Call.addRow r).effects e ++ ((Call.addRow r).claims e ++ history)) e' := by
  obtain ⟨key, ixs, ha, hin, -, rfl⟩ := addRow_eq_ok.1 run
  refine ⟨h.sound.withRow ha (fun hk => hl (hk ▸ ha)) hin, ?_⟩
  rw [effects_addRow, claims_addRow, ha]
  intro ix' hix' k r' hr hc
  obtain ⟨ix, hix, hspec, hholds⟩ := h.sound.holds_withRow hin hix'
  rw [hholds]
  rw [hspec] at hc
  rcases hc with rfl | hc
  · exact Or.inl rfl
  · by_cases hk : k = key
    · exact Or.inl hk
    · exact Or.inr (h.covered ix hix k r' ((row?_withRow_of_ne hk).symm.trans hr) hc)

theorem Agrees.removeRow {r : Row} (h : Agrees history e) (run : Engine.removeRow r e = .ok () e') :
    Agrees history e' := by
  obtain ⟨key, stored, ixs, -, hr, hout, rfl⟩ := removeRow_eq_ok.1 run
  refine ⟨h.sound.withoutRow hr hout, ?_⟩
  intro ix' hix' k r' hr' hc
  obtain ⟨ix, hix, hspec, hholds⟩ := h.sound.holds_withoutRow hr hout hix'
  obtain ⟨hk, hold⟩ := row?_of_withoutRow hr'
  rw [hholds]
  exact ⟨hk, h.covered ix hix k r' hold (hspec ▸ hc)⟩

theorem Agrees.addIndex {spec : IndexSpec} {fill : Bool} (h : Agrees history e)
    (run : Engine.addIndex spec fill e = .ok () e') :
    Agrees (.attached spec.id (fill || e.rows.entries.isEmpty) :: history) e' := by
  have hs := h.sound.addIndex spec fill
  rw [Action.final_of_ok run] at hs
  obtain ⟨ix, hspec, ht, hnew, hfill, rfl⟩ := h.sound.attached run
  refine ⟨hs, ?_⟩
  intro i hi key r hr hc
  unfold Covers at hc
  rcases List.mem_append.1 hi with hi | hi
  · rw [if_neg (hnew i hi).symm] at hc
    exact h.covered i hi key r hr hc
  · obtain rfl := List.mem_singleton.1 hi
    rw [if_pos (congrArg IndexSpec.id hspec.symm), Bool.or_eq_true] at hc
    rcases hc with hc | hc
    · exact hfill hc key r hr
    · have hm := (OrderedMap.mem_entries h.sound.sorted).2 hr
      rw [List.isEmpty_iff.1 hc] at hm
      cases hm

/-- A change that is done keeps rows and indexes in agreement. -/
theorem Agrees.done (h : Agrees history e) (c : Call) (hl : .assigned lastKey ∉ c.claims e)
    (run : c.run e = .ok () e') : Agrees (c.effects e ++ (c.claims e ++ history)) e' := by
  cases c with
  | addRow r =>
    obtain ⟨stored, hr⟩ := Action.discard_eq_ok.1 run
    exact h.addRow (assigned_ne_lastKey hl) hr
  | removeRow r => exact h.removeRow run
  | truncate =>
    cases run
    refine ⟨h.sound.truncate, ?_⟩
    intro ix hix key r hr
    cases hr
  | addIndex spec fill => exact h.addIndex run
  | removeIndex id =>
    obtain ⟨_, hr⟩ := Action.discard_eq_ok.1 run
    have hs := h.sound.removeIndex id
    rw [Action.final_of_ok hr] at hs
    cases (removeIndex_eq e id).symm.trans hr
    refine ⟨hs, ?_⟩
    intro ix hix
    exact h.covered ix (List.mem_of_mem_eraseP hix)

/-- After every history that spares the last key, rows, keys and indexes agree. -/
theorem Reached.agrees {table : Nat} {name : String} (h : Reached table name history e)
    (hl : .assigned lastKey ∉ history) : Agrees history e := by
  induction h with
  | start => exact agrees_start table name
  | done c _ run ih =>
    rw [List.mem_append, List.mem_append, not_or, not_or] at hl
    exact (ih hl.2.2).done c hl.2.1 run
  | refused c _ run ih =>
    rw [List.mem_append, not_or] at hl
    exact (ih hl.2).refused c hl.1 run

end Agreement

/-! ## What indexes hold and refuse -/

section Results
variable {table : Nat} {name : String} {history : List Event} {e : Engine}

/-- Rows carry the keys under which they are stored, all below the next one.  An index holds the values
of stored rows, at most once for each row, and exactly once for each that it covers. -/
theorem indexes_agree_with_rows (h : Reached table name history e)
    (hl : .assigned lastKey ∉ history) :
    (∀ key r, (key, r) ∈ e.rows.entries → r.key = some key ∧ key < e.nextKey) ∧
    ∀ ix ∈ e.indexes,
      (∀ p ∈ ix.entries, ∃ r, (p.2, r) ∈ e.rows.entries ∧ ix.keyOf? r = some p.1) ∧
      (∀ key, ix.entries.countP (·.2 = key) ≤ 1) ∧
      ∀ key r, (key, r) ∈ e.rows.entries → Covers ix.spec.id key history →
        ix.entries.countP (·.2 = key) = 1 := by
  obtain ⟨hs, hcovered⟩ := h.agrees hl
  simp only [OrderedMap.mem_entries hs.sorted]
  refine ⟨fun key r hr => ⟨hs.keyed key r hr, hs.below key r hr⟩, fun ix hix => ?_⟩
  have ht := hs.tracks ix hix
  refine ⟨ht.entry, ht.countP_le_one, ?_⟩
  intro key r hr hc
  exact ht.countP_eq_one (hcovered ix hix key r hr hc)

/-- A row comes into an index that was attached while there were none. -/
theorem indexes_agree_with_first_row :
    let r : Row := ⟨none, [some (.int 1)]⟩
    let spec : IndexSpec := ⟨1, "BY_ID", [⟨0, false⟩], .distinct, none⟩
    let ix : TreeIndex := ⟨spec, "T", ⟨⟨[([.int 1], [0])]⟩⟩⟩
    let e : Engine := ⟨7, "T", ⟨[(0, { r with key := some 0 })]⟩, [ix], 1, 1⟩
    Reached 7 "T" [.stored 0, .assigned 0, .attached 1 true] e ∧
      ix.entries.countP (·.2 = 0) = 1 := by
  intro r spec ix e
  have h : Reached 7 "T" [.stored 0, .assigned 0, .attached 1 true] e :=
    .done (.addRow r) (.done (.addIndex spec false) .start rfl) rfl
  obtain ⟨-, hix⟩ := indexes_agree_with_rows h (by decide)
  obtain ⟨-, -, hone⟩ := hix ix List.mem_cons_self
  exact ⟨h, hone 0 _ List.mem_cons_self (Or.inl rfl)⟩

/-- There is one first index with a property. -/
theorem first_unique {p : TreeIndex → Prop} {ix ix' : TreeIndex}
    {before before' after after' : List TreeIndex}
    (h : before ++ ix :: after = before' ++ ix' :: after') (hbefore : ∀ i ∈ before, ¬ p i)
    (hbefore' : ∀ i ∈ before', ¬ p i) (hix : p ix) (hix' : p ix') : ix = ix' := by
  classical
  have first : (before ++ ix :: after).find? (fun i => decide (p i)) = some ix :=
    List.find?_eq_some_iff_append.2 ⟨decide_eq_true hix, before, after, rfl, by simpa using hbefore⟩
  have first' : (before ++ ix :: after).find? (fun i => decide (p i)) = some ix' :=
    List.find?_eq_some_iff_append.2 ⟨decide_eq_true hix', before', after', h, by simpa using hbefore'⟩
  exact Option.some.inj (first.symm.trans first')

/-- In a unique index, entries with equal values have a NULL among them.  A row whose key is free is
refused just when a unique index holds its values, free of NULL, and the refusal names the first such
index. -/
theorem uniqueness_is_exact (h : Reached table name history e) (hl : .assigned lastKey ∉ history) :
    (∀ ix ∈ e.indexes, ix.spec.type.unique = true →
      ix.map.toList.Pairwise fun p q => p.1 = q.1 → p.1.any Value.isNull = true) ∧
    ∀ r, (∀ key, r.key = some key → e.row? key = none) →
      (∀ e', addRow r e ≠ .error .outOfRange e') →
      ((∃ fault e', addRow r e = .error fault e') ↔ ∃ ix ∈ e.indexes, ix.Refuses r) ∧
      ∀ before ix after, e.indexes = before ++ ix :: after → (∀ i ∈ before, ¬ i.Refuses r) →
        ix.Refuses r → ∃ k e', ix.keyOf? r = some k ∧
          addRow r e = .error (.error (.duplicateKey ix.tableName ix.spec.name k.render)) e' := by
  have hs := (h.agrees hl).sound
  refine ⟨fun ix hix hu => (hs.tracks ix hix).pairwise hu, fun r hfree hpanic => ?_⟩
  obtain ⟨key, ha⟩ := assigned?_of_free hfree
  cases he : addRow r e with
  | ok stored e' =>
    -- No index refuses the row.
    have hnot := hs.not_refuses he
    refine ⟨⟨?_, fun ⟨ix, hix, hr⟩ => absurd hr (hnot ix hix)⟩, ?_⟩
    · rintro ⟨_, _, hf⟩
      cases hf
    intro before ix after hixs _ hr
    exact absurd hr (hnot ix (hixs ▸ List.mem_append_right _ List.mem_cons_self))
  | error fault e' =>
    cases fault with
    | outOfRange => exact absurd he (hpanic e')
    | error cause =>
      obtain ⟨before, ix, after, k, hixs, hbefore, hr, hk, rfl⟩ := hs.refuses ha he
      refine ⟨⟨fun _ => ⟨ix, hixs ▸ List.mem_append_right _ List.mem_cons_self, hr⟩,
        fun _ => ⟨_, _, rfl⟩⟩, ?_⟩
      intro before' ix' after' hixs' hbefore' hr'
      obtain rfl := first_unique (hixs.symm.trans hixs') hbefore hbefore' hr hr'
      exact ⟨k, e', hk, rfl⟩

/-- A row that an index holds already is refused under another key. -/
theorem uniqueness_of_second_row :
    let r : Row := ⟨none, [some (.int 1)]⟩
    let spec : IndexSpec := ⟨1, "BY_ID", [⟨0, false⟩], .distinct, none⟩
    let ix : TreeIndex := ⟨spec, "T", ⟨⟨[([.int 1], [0])]⟩⟩⟩
    let e : Engine := ⟨7, "T", ⟨[(0, { r with key := some 0 })]⟩, [ix], 1, 1⟩
    Reached 7 "T" [.stored 0, .assigned 0, .attached 1 true] e ∧
      ∃ e', addRow r e = .error (.error (.duplicateKey "T" "BY_ID" "( 1 )")) e' := by
  intro r spec ix e
  have h : Reached 7 "T" [.stored 0, .assigned 0, .attached 1 true] e :=
    .done (.addRow r) (.done (.addIndex spec false) .start rfl) rfl
  have hr : ix.Refuses r := ⟨[.int 1], rfl, rfl, ([.int 1], 0), List.mem_cons_self, rfl⟩
  obtain ⟨-, hadd⟩ := uniqueness_is_exact h (by decide)
  obtain ⟨-, hfirst⟩ := hadd r (fun _ hk => by cases hk) (fun _ he => by cases he)
  obtain ⟨k, e', hk, he⟩ := hfirst [] ix [] rfl (fun _ hi => absurd hi List.not_mem_nil) hr
  cases hk
  exact ⟨h, e', he⟩

end Results

end RowStore.Engine
