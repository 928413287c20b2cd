import RowStore.Proofs.Outcome
import RowStore.Proofs.Numbering
import RowStore.Store.Values

/-!
# Writing rows safely

* `Expr.safe_eval`, `Column.safe_fit` : what drawing and observing numbers does not leave, evaluating an
  expression and fitting a value do not leave either;
* `safe_fitColumns` : nor does fitting a row, which has a slot for each column;
* `safe_defaultValue` : nor does asking for the default of a column;
* `Numbering.inRange_draw` : drawing a number does not run past an end.
-/

namespace RowStore
open RowStore.Action

variable {N : Numbering → Prop} {fine : Fault → Prop} {c : Column}

/-! ## Expressions -/

theorem Numbering.inRange_draw (ref : SequenceRef) : InRange (draw ref) := by
  refine InRange.get_bind fun n => ?_
  cases n.sequences.find? ref.id with
  | none => exact inRange_refuse _
  | some q =>
    dsimp only
    cases q.draw? with
    | none => exact inRange_refuse _
    | some drawn => exact (inRange_modify _).bind fun _ => inRange_pure _

/-- The sequences of an expression are all that counts for its evaluation. -/
theorem Expr.safe_eval (hf : ∀ cause, fine (.error cause)) (row : Option Row) {e : Expr}
    (h : ∀ ref ∈ e.sequences, Safe N fine (Numbering.draw ref)) : Safe N fine (e.eval row) := by
  induction e with
  | literal v => exact safe_pure v
  | column place name =>
    unfold eval
    cases row with
    | none => exact safe_pure _
    | some r =>
      dsimp only
      split
      · exact safe_pure _
      · exact safe_refuse hf _
  | nextValue ref => exact Safe.bind (h ref List.mem_cons_self) fun _ => safe_pure _
  | add x y hx hy =>
    refine Safe.bind (hx fun ref hr => h ref (List.mem_append_left _ hr)) fun _ => ?_
    exact Safe.bind (hy fun ref hr => h ref (List.mem_append_right _ hr)) fun _ => safe_ofExcept hf _
  | compare op x y hx hy =>
    refine Safe.bind (hx fun ref hr => h ref (List.mem_append_left _ hr)) fun _ => ?_
    exact Safe.bind (hy fun ref hr => h ref (List.mem_append_right _ hr)) fun _ => safe_ofExcept hf _

/-! ## Columns -/

/-- What a column does to the numbers does not leave a condition: drawing for its expressions, stepping its
sequence past a number, and remembering one. -/
structure Column.Keeping (N : Numbering → Prop) (fine : Fault → Prop) (c : Column) : Prop where
  refused : ∀ cause, fine (.error cause)
  default : ∀ e, c.default = some e → ∀ ref ∈ e.sequences, Safe N fine (Numbering.draw ref)
  computed : ∀ e, c.computed = some e → ∀ ref ∈ e.sequences, Safe N fine (Numbering.draw ref)
  observed : ∀ ref, c.sequence = some ref → ∀ v, Safe N fine (Numbering.observe ref v)
  remembered : ∀ v, Safe N fine (Numbering.remember v)

namespace Column

theorem Keeping.safe_evalDefault (h : c.Keeping N fine) : Safe N fine c.evalDefault := by
  unfold evalDefault
  cases hd : c.default with
  | none => exact safe_pure _
  | some e =>
    refine Safe.bind (Expr.safe_eval h.refused none (h.default e hd)) fun v =>
      Safe.bind (safe_ofExcept h.refused _) fun w => ?_
    exact Safe.ite (Safe.bind (h.remembered w) fun _ => safe_pure w) (safe_pure w)

theorem Keeping.safe_observe (h : c.Keeping N fine) (v : Value) : Safe N fine (c.observe v) := by
  unfold observe
  split
  · rename_i ref n hs _
    exact h.observed ref hs n
  · exact safe_pure _

theorem Keeping.safe_replaceNull (h : c.Keeping N fine) (v : Value) : Safe N fine (c.replaceNull v) :=
  Safe.ite (Safe.bind h.safe_evalDefault fun _ => safe_pure _) (safe_pure _)

theorem Keeping.safe_accept (h : c.Keeping N fine) (v : Value) : Safe N fine (c.accept v) := by
  refine Safe.ite (Safe.ite (safe_pure _) (safe_refuse h.refused _)) (Safe.ite ?_ ?_)
  · exact Safe.bind (h.safe_observe v) fun _ => safe_pure _
  · exact Safe.bind (safe_ofExcept h.refused _) fun w => Safe.bind (h.safe_observe w) fun _ => safe_pure _

theorem Keeping.safe_fit (h : c.Keeping N fine) (given : Option Value) : Safe N fine (c.fit given) := by
  have hrest {x : Action Numbering Value} (hx : Safe N fine x)
      {write : Value → Fitted → Fitted → Action Numbering Fitted}
      (hwrite : ∀ first second third, Safe N fine (write first second third)) : Safe N fine (do
        let first ← x
        let second ← c.replaceNull first
        let third ← c.accept (second.value (some first))
        write first second third) :=
    Safe.bind hx fun first => Safe.bind (h.safe_replaceNull first) fun second =>
      Safe.bind (h.safe_accept _) fun _ => hwrite _ _ _
  unfold fit
  cases given with
  | some v =>
    refine hrest (safe_pure v) fun _ _ _ => ?_
    split <;> exact safe_pure _
  | none =>
    refine hrest h.safe_evalDefault fun _ _ _ => ?_
    split <;> exact safe_pure _

end Column

/-! ## Rows -/

theorem safe_fitColumn {place width : Nat} (h : c.Keeping N fine) (hw : place < width) :
    Safe (fun d : Draft Numbering => N d.state ∧ d.row.width = width) fine (fitColumn place c) := by
  have hstate {α : Type} {act : Action Numbering α} (ha : Safe N fine act) :
      Safe (fun d : Draft Numbering => N d.state ∧ d.row.width = width) fine (Draft.onState act) :=
    ha.within (fun _ hd => hd.1) (fun _ _ _ hd hn => ⟨hn, hd.2⟩) fun _ _ _ hd hn => ⟨⟨hn.1, hd.2⟩, hn.2⟩
  have hset (v : Value) : Safe (fun d : Draft Numbering => N d.state ∧ d.row.width = width) fine
      (Draft.modifyRow (·.set place v)) :=
    fun _ hd => ⟨hd.1, List.length_set.trans hd.2⟩
  refine Meets.get_bind fun d hd => Meets.pre (P := fun d => N d.state ∧ d.row.width = width) ?_ fun _ he =>
    he ▸ hd
  cases hc : c.computed with
  | some e =>
    exact Safe.bind (hstate (Expr.safe_eval h.refused _ (h.computed e hc))) fun v =>
      Safe.bind (hstate (h.safe_fit (some v))) fun fitted => hset _
  | none =>
    have hslot : Safe (fun d : Draft Numbering => N d.state ∧ d.row.width = width) fine
        (slot d.row.slots[place]?) := by
      have hlt : place < d.row.slots.length := by
        rw [← Row.width, hd.2]
        exact hw
      rw [List.getElem?_eq_getElem hlt]
      exact safe_pure _
    refine Safe.bind hslot fun given => Safe.bind (hstate (h.safe_fit given)) fun fitted => ?_
    cases fitted with
    | unchanged => exact safe_pure ()
    | replaced v => exact hset v

theorem safe_fitColumns {place width : Nat} {columns : List Column} (h : ∀ c ∈ columns, c.Keeping N fine)
    (hw : place + columns.length ≤ width) :
    Safe (fun d : Draft Numbering => N d.state ∧ d.row.width = width) fine (fitColumns place columns) := by
  induction columns generalizing place with
  | nil => exact safe_pure ()
  | cons c rest ih =>
    obtain ⟨hfirst, hrest⟩ := List.forall_mem_cons.1 h
    rw [List.length_cons] at hw
    exact Safe.bind (safe_fitColumn hfirst (by omega)) fun _ => ih hrest (by omega)

/-! ## Default values -/

theorem safe_defaultValue {N : OrderedMap Nat Sequence → Prop} {t u place : Nat} {table : Table}
    (h : ∀ c ∈ table.columns.list, c.Keeping (fun n => N n.sequences) fine)
    (hplace : table.columns.get? place = none → fine .outOfRange) :
    Safe (fun s => s.table t = table ∧ N s.sequences) fine (Store.defaultValue t u place) := by
  refine Meets.get_bind fun s hs => ?_
  refine Meets.pre (P := fun s => s.table t = table ∧ N s.sequences) ?_ fun _ he => he ▸ hs
  rw [hs.1]
  cases hc : table.columns.get? place with
  | none => exact meets_throw fun _ hs => ⟨hs, hplace hc⟩
  | some c =>
    have hfound : (slot (some c) : Action Store Column) = pure c := rfl
    have hk := h c (List.mem_of_getElem? hc)
    have hnumbering {α : Type} {act : Action Numbering α}
        (ha : Safe (fun n => N n.sequences) fine act) :
        Safe (fun s => s.table t = table ∧ N s.sequences) fine (Store.onNumbering u act) :=
      ha.within (fun _ hs => hs.2) (fun _ _ _ hs hn => ⟨hs.1, hn⟩) fun _ _ _ hs hn => ⟨⟨hs.1, hn.1⟩, hn.2⟩
    rw [hfound, pure_bind]
    cases hd : c.default with
    | some e =>
      refine Safe.bind (hnumbering (Expr.safe_eval hk.refused none (hk.default e hd))) fun v => ?_
      exact safe_ofExcept hk.refused _
    | none =>
      refine Safe.bind (hnumbering (hk.safe_fit none)) fun fitted => ?_
      exact Safe.bind (safe_pure _) fun v => safe_ofExcept hk.refused _

end RowStore
