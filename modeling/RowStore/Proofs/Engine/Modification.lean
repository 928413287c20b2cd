import RowStore.Proofs.Engine.History

/-!
# The counter of changes as a stamp of the rows

* `Call.ofRows` : a change of rows, as opposed to one of indexes;
* `Call.counted`, `Call.uncounted` : a change of rows that is done counts one; everything else leaves
  rows and counter alone;
* `Call.refused_keeps`, `Call.panicked_keeps` : a call that fails loses at most the row that it was to remove;
* `Engine.Point` : an engine on the way of a run, with the keys of the rows that were lost on the way;
* `Engine.Stamped` : the counter does not go back, and where it stands still only lost rows are gone;
* `Engine.Run` : the points that a run of calls passes through, and how many changes of rows it does;
* `modification_stamps_rows` : of two points of a run that have the same counter, the later one has the
  rows of the earlier one but for those lost in between.

A run passes through what failed calls leave behind as it does through what others do.  A removal that runs
past the end of a row has taken the row away and does not come to the counter.
-/

namespace RowStore.Engine

def Call.ofRows : Call → Bool
  | addRow _ => true
  | removeRow _ => true
  | truncate => true
  | addIndex _ _ => false
  | removeIndex _ => false

section Calls
variable {e e' : Engine} {c : Call}

/-! ## One call -/

/-- A change of rows that is done counts one. -/
theorem Call.counted (hc : c.ofRows = true) (run : c.run e = .ok () e') :
    e'.modification = e.modification + 1 := by
  cases c with
  | addRow r =>
    obtain ⟨stored, hr⟩ := Action.discard_eq_ok.1 run
    obtain ⟨key, ixs, -, -, -, rfl⟩ := addRow_eq_ok.1 hr
    rfl
  | removeRow r =>
    obtain ⟨key, stored, ixs, -, -, -, rfl⟩ := removeRow_eq_ok.1 run
    rfl
  | truncate =>
    cases run
    rfl
  | addIndex _ _ => cases hc
  | removeIndex _ => cases hc

/-- A change of indexes leaves rows and counter alone. -/
theorem Call.uncounted (hc : c.ofRows = false) (run : c.run e = .ok () e') :
    e'.modification = e.modification ∧ e'.rows = e.rows := by
  cases c with
  | addIndex spec fill =>
    obtain ⟨-, ix, -, rfl⟩ := addIndex_eq_ok run
    exact ⟨rfl, rfl⟩
  | removeIndex id =>
    obtain ⟨_, hr⟩ := Action.discard_eq_ok.1 run
    cases (removeIndex_eq e id).symm.trans hr
    exact ⟨rfl, rfl⟩
  | addRow _ => cases hc
  | removeRow _ => cases hc
  | truncate => cases hc

/-- The key of the row that the call takes away if it runs past an end. -/
def Call.loses : Call → List RowKey
  | removeRow r => r.key.toList
  | _ => []

def without (rows : OrderedMap RowKey Row) (keys : List RowKey) : OrderedMap RowKey Row :=
  keys.foldr (fun key rows => rows.erase key) rows

/-- A row that is not added leaves rows and counter alone, even where it was entered into some indexes. -/
theorem addRow_keeps {r : Row} {fault : Fault} (run : Engine.addRow r e = .error fault e') :
    e'.modification = e.modification ∧ e'.rows = e.rows := by
  rcases addRow_eq_error run with ⟨-, rfl, -⟩ | ⟨key, ixs, -, rfl, -⟩
  · exact ⟨rfl, rfl⟩
  · exact ⟨rfl, rfl⟩

/-- A call that is refused for a cause leaves rows and counter alone. -/
theorem Call.refused_keeps {cause : StoreError} (run : c.run e = .error (.error cause) e') :
    e'.modification = e.modification ∧ e'.rows = e.rows := by
  cases c with
  | addRow r => exact addRow_keeps (Action.discard_eq_error.1 run)
  | removeRow r =>
    obtain rfl := removeRow_refused run
    exact ⟨rfl, rfl⟩
  | truncate => cases run
  | addIndex spec fill =>
    obtain rfl := addIndex_eq_error run
    exact ⟨rfl, rfl⟩
  | removeIndex id =>
    cases (removeIndex_eq e id).symm.trans (Action.discard_eq_error.1 run)

/-- A call that runs past an end leaves the counter alone.  Only a removal takes a row away. -/
theorem Call.panicked_keeps (run : c.run e = .error .outOfRange e') :
    e'.modification = e.modification ∧ e'.rows = without e.rows c.loses := by
  cases c with
  | addRow r => exact addRow_keeps (Action.discard_eq_error.1 run)
  | removeRow r =>
    rcases removeRow_eq_error run with ⟨hf, -⟩ | ⟨key, stored, ixs, -, hk, -, -, rfl⟩
    · cases hf
    · refine ⟨rfl, ?_⟩
      change e.rows.erase key = without e.rows r.key.toList
      rw [hk]
      rfl
  | truncate => cases run
  | addIndex spec fill =>
    obtain rfl := addIndex_eq_error run
    exact ⟨rfl, rfl⟩
  | removeIndex id =>
    cases (removeIndex_eq e id).symm.trans (Action.discard_eq_error.1 run)

end Calls

/-! ## Stamps -/

/-- An engine on the way of a run. -/
structure Point where
  engine : Engine
  /-- The keys of the rows that were lost on the way, the latest first. -/
  lost : List RowKey := []

/-- The counter does not go back, and where it stands still only the rows lost in between are gone. -/
structure Stamped (p q : Point) : Prop where
  le : p.engine.modification ≤ q.engine.modification
  rows : ∃ since, q.lost = since ++ p.lost ∧
    (p.engine.modification = q.engine.modification → q.engine.rows = without p.engine.rows since)

section Points
variable {p q : Point} {e' : Engine} {c : Call}

theorem Stamped.refl (p : Point) : Stamped p p :=
  ⟨UInt64.le_refl _, [], rfl, fun _ => rfl⟩

theorem Stamped.trans {o : Point} (h : Stamped o p) (h' : Stamped p q) : Stamped o q := by
  obtain ⟨first, hfirst, hrows⟩ := h.rows
  obtain ⟨later, hlater, hrows'⟩ := h'.rows
  refine ⟨UInt64.le_trans h.le h'.le, later ++ first, ?_, fun he => ?_⟩
  · rw [hlater, hfirst, List.append_assoc]
  · -- The counter of the point between them is squeezed.
    have hle : p.engine.modification ≤ o.engine.modification := he ▸ h'.le
    have heq : o.engine.modification = p.engine.modification := UInt64.le_antisymm h.le hle
    rw [hrows' (heq.symm.trans he), hrows heq]
    exact List.foldr_append.symm

/-- A counter that goes up stamps the rows, whatever they are. -/
theorem Stamped.of_lt (h : p.engine.modification < e'.modification) : Stamped p ⟨e', p.lost⟩ :=
  ⟨UInt64.le_of_lt h, [], rfl, fun he => absurd he (UInt64.ne_of_lt h)⟩

/-- A counter that stands still stamps the rows if all that are gone are lost. -/
theorem Stamped.of_same (since : List RowKey) (h : e'.modification = p.engine.modification ∧
    e'.rows = without p.engine.rows since) : Stamped p ⟨e', since ++ p.lost⟩ :=
  ⟨UInt64.le_of_eq h.1.symm, since, rfl, fun _ => h.2⟩

/-! ## Runs -/

/-- The points that a run of calls passes through, the first one included, and the number of changes of
rows that it does.  A call is done, refused for a cause, or runs past an end. -/
inductive Run : Point → Nat → List Point → Prop where
  | stop (p : Point) : Run p 0 [p]
  | done {p : Point} {e' : Engine} {changes : Nat} {points : List Point} (c : Call)
      (run : c.run p.engine = .ok () e') (rest : Run ⟨e', p.lost⟩ changes points) :
      Run p (if c.ofRows then changes + 1 else changes) (p :: points)
  | refused {p : Point} {e' : Engine} {changes : Nat} {points : List Point} {cause : StoreError} (c : Call)
      (run : c.run p.engine = .error (.error cause) e') (rest : Run ⟨e', p.lost⟩ changes points) :
      Run p changes (p :: points)
  | panicked {p : Point} {e' : Engine} {changes : Nat} {points : List Point} (c : Call)
      (run : c.run p.engine = .error .outOfRange e')
      (rest : Run ⟨e', c.loses ++ p.lost⟩ changes points) : Run p changes (p :: points)

/-- A counter that is not at its end goes up. -/
theorem lt_of_counted {e : Engine} (h : e'.modification = e.modification + 1)
    (hn : e.modification.toNat + 1 < UInt64.size) :
    e.modification < e'.modification ∧ e'.modification.toNat = e.modification.toNat + 1 := by
  have hnat : e'.modification.toNat = e.modification.toNat + 1 := by
    rw [h, UInt64.toNat_add]
    exact Nat.mod_eq_of_lt hn
  exact ⟨UInt64.lt_iff_toNat_lt.2 (by omega), hnat⟩

/-- What stamps a point stamps those that the point stamps. -/
theorem stamped_cons {points : List Point} (h : Stamped p q)
    (rest : (∀ o ∈ points, Stamped q o) ∧ points.Pairwise Stamped) :
    (∀ o ∈ p :: points, Stamped p o) ∧ (p :: points).Pairwise Stamped := by
  obtain ⟨hfirst, hlater⟩ := rest
  have hpoints : ∀ o ∈ points, Stamped p o := fun o ho => h.trans (hfirst o ho)
  exact ⟨List.forall_mem_cons.2 ⟨Stamped.refl p, hpoints⟩, List.pairwise_cons.2 ⟨hpoints, hlater⟩⟩

/-- As long as the counter does not start over, the first point of a run stamps the others, and each of
them those after it. -/
theorem Run.stamped {changes : Nat} {points : List Point} (h : Run p changes points)
    (hn : p.engine.modification.toNat + changes < UInt64.size) :
    (∀ q ∈ points, Stamped p q) ∧ points.Pairwise Stamped := by
  induction h with
  | stop p =>
    refine ⟨fun q hq => ?_, List.pairwise_singleton _ _⟩
    obtain rfl := List.mem_singleton.1 hq
    exact Stamped.refl q
  | done c run _ ih =>
    cases hc : c.ofRows with
    | true =>
      rw [hc, if_pos rfl] at hn
      obtain ⟨hlt, hnat⟩ := lt_of_counted (c.counted hc run) (by omega)
      exact stamped_cons (Stamped.of_lt hlt) (ih (by dsimp only; omega))
    | false =>
      rw [hc, if_neg Bool.false_ne_true] at hn
      have hsame := c.uncounted hc run
      exact stamped_cons (Stamped.of_same [] hsame) (ih (hsame.1 ▸ hn))
  | refused c run _ ih =>
    have hsame := c.refused_keeps run
    exact stamped_cons (Stamped.of_same [] hsame) (ih (hsame.1 ▸ hn))
  | panicked c run _ ih =>
    have hsame := c.panicked_keeps run
    exact stamped_cons (Stamped.of_same _ hsame) (ih (hsame.1 ▸ hn))

end Points

/-- In a run of a new engine with fewer than `2 ^ 64` changes of rows the counter never goes back.  Of any two
points with the same counter the later one has the rows of the earlier one, without those that removals lost
in between by running past an end: the same rows if there were none. -/
theorem modification_stamps_rows {table : Nat} {name : String} {changes : Nat} {points : List Point}
    (h : Run { engine := { table := table, name := name } } changes points)
    (hn : changes < UInt64.size) :
    points.Pairwise fun p q => p.engine.modification ≤ q.engine.modification ∧
      ∃ since, q.lost = since ++ p.lost ∧ (p.engine.modification = q.engine.modification →
        q.engine.rows = without p.engine.rows since) := by
  have hstart : (0 : UInt64).toNat + changes < UInt64.size := by
    rw [UInt64.toNat_zero, Nat.zero_add]
    exact hn
  exact (h.stamped hstart).2.imp fun hs => ⟨hs.le, hs.rows⟩

/-- A row that the second index refuses after the first has taken it leaves the stamp and the rows. -/
theorem modification_stamps_refused_row :
    let a : Row := ⟨none, [some (.int 1), some (.text "a")]⟩
    let b : Row := ⟨none, [some (.int 1), some (.text "b")]⟩
    let byName : IndexSpec := ⟨1, "BY_NAME", [⟨1, false⟩], .plain, none⟩
    let byId : IndexSpec := ⟨2, "BY_ID", [⟨0, false⟩], .distinct, none⟩
    let start : Engine := { table := 7, name := "T" }
    let named := Action.final (Call.addIndex byName true).run start
    let indexed := Action.final (Call.addIndex byId true).run named
    let stored := Action.final (Call.addRow a).run indexed
    let refused := Action.final (Call.addRow b).run stored
    Run ⟨start, []⟩ 1 [⟨start, []⟩, ⟨named, []⟩, ⟨indexed, []⟩, ⟨stored, []⟩, ⟨refused, []⟩] ∧
      indexed.modification < stored.modification ∧
      stored.modification = refused.modification ∧ refused.rows = stored.rows := by
  intro a b byName byId start named indexed stored refused
  have hb : (Call.addRow b).run stored =
      .error (.error (.duplicateKey "T" "BY_ID" "( 1 )")) refused := rfl
  have h : Run ⟨start, []⟩ 1 [⟨start, []⟩, ⟨named, []⟩, ⟨indexed, []⟩, ⟨stored, []⟩, ⟨refused, []⟩] :=
    .done (.addIndex byName true) rfl (.done (.addIndex byId true) rfl (.done (.addRow a) rfl
      (.refused (.addRow b) hb (.stop ⟨refused, []⟩))))
  have hpairs := List.pairwise_iff_getElem.1 (modification_stamps_rows h (by decide))
  have hsame : stored.modification = refused.modification := rfl
  obtain ⟨-, since, hsince, hrows⟩ := hpairs 3 4 (by decide) (by decide) (by decide)
  obtain rfl : since = [] := (List.append_nil since).symm.trans hsince.symm
  exact ⟨h, by decide, hsame, hrows hsame⟩

/-- The counter alone does not stamp the rows: a removal that runs past the end of the row, in an index over a
column that the row does not have, takes the row away and does not count. -/
theorem not_modification_stamps_rows_by_itself :
    let r : Row := ⟨none, [some (.int 1)]⟩
    let beyond : IndexSpec := ⟨1, "BEYOND", [⟨1, false⟩], .plain, none⟩
    let start : Engine := { table := 7, name := "T" }
    let stored := Action.final (Call.addRow r).run start
    let indexed := Action.final (Call.addIndex beyond false).run stored
    let lost := Action.final (Call.removeRow { r with key := some 0 }).run indexed
    Run ⟨start, []⟩ 1 [⟨start, []⟩, ⟨stored, []⟩, ⟨indexed, []⟩, ⟨lost, [0]⟩] ∧
      stored.modification = lost.modification ∧ stored.row? 0 = some { r with key := some 0 } ∧
      lost.row? 0 = none := by
  intro r beyond start stored indexed lost
  have hlost : (Call.removeRow { r with key := some 0 }).run indexed = .error .outOfRange lost := rfl
  refine ⟨?_, rfl, rfl, rfl⟩
  exact .done (.addRow r) rfl (.done (.addIndex beyond false) rfl
    (.panicked (.removeRow { r with key := some 0 }) hlost (.stop ⟨lost, [0]⟩)))

end RowStore.Engine
