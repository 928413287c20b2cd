import RowStore.Proofs.Action
import RowStore.Proofs.OrderedMap
import RowStore.Proofs.Sequence
import RowStore.Store.Values

/-!
# What writing a row does to sequences

* `Sequence.AllOnward` : each sequence is as far as it was, or further;
* `stays_draw`, `stays_eval`, `stays_fit`, `stays_fitColumns` : so are they after a value is drawn, an
  expression evaluated, a cell or a row fitted, whether that is done or refused.
-/

namespace RowStore

namespace Sequence
variable {a b c : OrderedMap Nat Sequence}

/-- Each sequence has gone on from where it was, or is still there. -/
def AllOnward (a b : OrderedMap Nat Sequence) : Prop :=
  ∀ id q, a.find? id = some q → ∃ q', b.find? id = some q' ∧ q.Onward q'

theorem allOnward_refl (a : OrderedMap Nat Sequence) : AllOnward a a :=
  fun _ q h => ⟨q, h, .refl⟩

theorem AllOnward.trans (h : AllOnward a b) (h' : AllOnward b c) : AllOnward a c := by
  intro id q hq
  obtain ⟨q', hq', ho⟩ := h id q hq
  obtain ⟨q'', hq'', ho'⟩ := h' id q' hq'
  exact ⟨q'', hq'', ho.trans ho'⟩

theorem AllOnward.step (h : AllOnward a b) {id : Nat} {q q' : Sequence} (hq : b.find? id = some q)
    (hs : q.Step q') : AllOnward a (b.insert id q') := by
  intro id' p hp
  obtain ⟨p', hp', ho⟩ := h id' p hp
  by_cases hid : id' = id
  · subst hid
    cases hq.symm.trans hp'
    exact ⟨q', OrderedMap.find?_insert_self _ _ _, ho.tail hs⟩
  · exact ⟨p', (OrderedMap.find?_insert_of_ne _ hid _).trans hp', ho⟩

end Sequence

open RowStore.Action RowStore.Sequence

variable {qs : OrderedMap Nat Sequence}

namespace Numbering

def From (qs : OrderedMap Nat Sequence) (n : Numbering) : Prop := AllOnward qs n.sequences

/-- A number is drawn just if the sequence exists and has a further one, which then it steps past. -/
theorem draw_eq_ok {ref : SequenceRef} {n n' : Numbering} {v : Int} : draw ref n = .ok v n' ↔
    ∃ q, n.sequences.find? ref.id = some q ∧ q.exhausted = false ∧ v = q.next ∧
      n' = { n with sequences := n.sequences.insert ref.id (q.advance q.next) } := by
  unfold draw
  rw [get_bind]
  cases hq : n.sequences.find? ref.id with
  | none =>
    constructor
    · intro h
      cases h
    · rintro ⟨q, he, -⟩
      cases he
  | some q =>
    dsimp only
    unfold Sequence.draw?
    cases hend : q.exhausted with
    | true =>
      constructor
      · intro h
        cases h
      · rintro ⟨q', he, hopen, -⟩
        cases he
        cases hend.symm.trans hopen
    | false =>
      constructor
      · intro h
        cases h
        exact ⟨q, rfl, hend, rfl, rfl⟩
      · rintro ⟨q', he, -, rfl, rfl⟩
        cases he
        rfl

theorem stays_draw (ref : SequenceRef) : Stays (From qs) (draw ref) := by
  refine Stays.get_bind fun n hn => ?_
  cases hq : n.sequences.find? ref.id with
  | none => exact hn
  | some q =>
    dsimp only
    unfold Sequence.draw?
    cases hend : q.exhausted with
    | true => exact hn
    | false => exact hn.step hq (.draw hend)

theorem stays_observe (ref : SequenceRef) (v : Int) : Stays (From qs) (observe ref v) := by
  refine stays_modify fun n hn => ?_
  unfold OrderedMap.adjust
  cases hq : n.sequences.find? ref.id with
  | none => exact hn
  | some q => exact hn.step hq (.observe v)

theorem stays_remember (v : Value) : Stays (From qs) (remember v) := stays_modify fun _ hn => hn

end Numbering

open RowStore.Numbering

theorem Expr.stays_eval (row : Option Row) (e : Expr) : Stays (From qs) (e.eval row) := by
  induction e with
  | literal v => exact stays_pure v
  | column place name =>
    unfold eval
    cases row with
    | none => exact stays_pure _
    | some r =>
      dsimp only
      split
      · exact stays_pure _
      · exact stays_refuse _
  | nextValue ref => exact (stays_draw ref).bind fun _ => stays_pure _
  | add x y hx hy => exact hx.bind fun _ => hy.bind fun _ => stays_ofExcept _
  | compare op x y hx hy => exact hx.bind fun _ => hy.bind fun _ => stays_ofExcept _

namespace Column

theorem stays_evalDefault (c : Column) : Stays (From qs) c.evalDefault := by
  unfold evalDefault
  cases c.default with
  | none => exact stays_pure _
  | some e =>
    refine (e.stays_eval none).bind fun v => (stays_ofExcept _).bind fun w => ?_
    exact Stays.ite ((stays_remember w).bind fun _ => stays_pure w) (stays_pure w)

theorem stays_observe (c : Column) (v : Value) : Stays (From qs) (c.observe v) := by
  unfold observe
  split
  · exact Numbering.stays_observe _ _
  · exact stays_pure _

theorem stays_replaceNull (c : Column) (v : Value) : Stays (From qs) (c.replaceNull v) :=
  Stays.ite (c.stays_evalDefault.bind fun _ => stays_pure _) (stays_pure _)

theorem stays_accept (c : Column) (v : Value) : Stays (From qs) (c.accept v) := by
  refine Stays.ite (Stays.ite (stays_pure _) (stays_refuse _)) (Stays.ite ?_ ?_)
  · exact (c.stays_observe v).bind fun _ => stays_pure _
  · exact (stays_ofExcept _).bind fun w => (c.stays_observe w).bind fun _ => stays_pure _

theorem stays_fit (c : Column) (given : Option Value) : Stays (From qs) (c.fit given) := by
  have hrest {x : Action Numbering Value} (hx : Stays (From qs) x)
      {write : Value → Fitted → Fitted → Action Numbering Fitted}
      (hwrite : ∀ first second third, Stays (From qs) (write first second third)) :
      Stays (From qs) (do
        let first ← x
        let second ← c.replaceNull first
        let third ← c.accept (second.value (some first))
        write first second third) :=
    hx.bind fun first => (c.stays_replaceNull first).bind fun second => (c.stays_accept _).bind fun _ =>
      hwrite _ _ _
  unfold fit
  cases given with
  | some v =>
    refine hrest (stays_pure v) fun _ _ _ => ?_
    split <;> exact stays_pure _
  | none =>
    refine hrest c.stays_evalDefault fun _ _ _ => ?_
    split <;> exact stays_pure _

end Column

theorem stays_fitColumn (place : Nat) (c : Column) :
    Stays (fun d : Draft Numbering => From qs d.state) (fitColumn place c) := by
  have hstate {α : Type} {act : Action Numbering α} (h : Stays (From qs) act) :
      Stays (fun d : Draft Numbering => From qs d.state) (Draft.onState act) :=
    h.within (fun _ hd => hd) fun _ _ _ hp => hp
  have hrow (f : Row → Row) :
      Stays (fun d : Draft Numbering => From qs d.state) (Draft.modifyRow f) :=
    stays_modify fun _ hd => hd
  refine Stays.get_bind fun d hd => ?_
  cases c.computed with
  | some e =>
    have h := (hstate (e.stays_eval (some d.row))).bind fun v =>
      (hstate (c.stays_fit (some v))).bind fun fitted =>
        hrow (·.set place (fitted.value (some v)))
    exact h d hd
  | none =>
    refine ((stays_slot _).bind fun given => (hstate (c.stays_fit given)).bind fun fitted => ?_) d hd
    cases fitted with
    | unchanged => exact stays_pure ()
    | replaced v => exact hrow _

theorem stays_fitColumns (place : Nat) (columns : List Column) :
    Stays (fun d : Draft Numbering => From qs d.state) (fitColumns place columns) := by
  induction columns generalizing place with
  | nil => exact stays_pure _
  | cons c rest ih => exact (stays_fitColumn place c).bind fun _ => ih (place + 1)

end RowStore
