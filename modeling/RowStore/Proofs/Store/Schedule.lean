import RowStore.Proofs.Store.Isolation
import RowStore.Proofs.Store.Upholding

/-!
# Runs of calls and ways back

* `Activity` : sessions in the middle of calls, and sessions on their way back to a savepoint;
* `Activity.Step` : one step of a session, in a call or on a way back;
* `Schedule` : steps of any sessions in any order, with who took each and from where;
* `Activity.OnCopies` : a session that is about to remove a row was given a copy of the stored one;
* `Schedule.upheld` : where that is so at each step, what is asked of rows is upheld all along.
-/

namespace RowStore
open RowStore.Action RowStore.Store

/-- Sessions in the middle of calls, and sessions on their way back to a savepoint. -/
structure Activity where
  scene : Scene
  /-- What is left of the way back of a session that is on one. -/
  backs : Nat → Option (Script Unit) := fun _ => none

namespace Activity

def store (d : Activity) : Store := d.scene.store

/-- The store is changed, and with it how far a session is on its way back. -/
def putBack (d : Activity) (u : Nat) (s : Store) (rest : Option (Script Unit)) : Activity :=
  ⟨{ d.scene with store := s }, fun v => if v = u then rest else d.backs v⟩

/-- One step of a session.  It goes back between its calls, and not beyond its floor. -/
inductive Step (floor : Nat → Nat) (u : Nat) (d : Activity) : Activity → Prop where
  | call {e : Event} {c : Scene} (here : d.backs u = none) (h : Scene.Move u d.scene e c) :
    Step floor u d { d with scene := c }
  | turn (savepoint : Nat) (idle : d.scene.calls u = none) (here : d.backs u = none)
    (h : floor u ≤ savepoint) :
    Step floor u d (d.putBack u d.store (some (Script.rollbackTo u savepoint)))
  | back {β : Type} {a : Action Store β} {next : Except Fault β → Script Unit}
    (h : d.backs u = some (.act a next)) :
    Step floor u d (d.putBack u (final a d.store) (some (next (result a d.store))))
  | arrive (h : d.backs u = some (.done ())) : Step floor u d (d.putBack u d.store none)
  | strand {fault : Fault} (h : d.backs u = some (.fail fault)) :
    Step floor u d (d.putBack u d.store none)

/-- If the session is about to remove a row of a table that its call was given for that, it was given a
copy of the stored one. -/
def OnCopies (t u : Nat) (d : Activity) : Prop :=
  ∀ call x, d.scene.calls u = some (call, x) → x.RemovesCopies t call.oldRows d.store

end Activity

/-- Steps of any sessions in any order, from a store on which none is in the middle of anything.  The
history tells who took each step and from where, the latest first. -/
inductive Schedule (floor : Nat → Nat) (s₀ : Store) : List (Nat × Activity) → Activity → Prop where
  | start : Schedule floor s₀ [] { scene := ⟨s₀, fun _ => none⟩ }
  | step {history : List (Nat × Activity)} {d d' : Activity} {u : Nat}
    (h : Schedule floor s₀ history d) (hs : d.Step floor u d') : Schedule floor s₀ ((u, d) :: history) d'

/-! ## Demands are upheld -/

namespace Demand
open Activity
variable {D : Demand} {d d' : Activity} {u : Nat}

/-- What is asked of rows is upheld, and is going to be by what sessions are in the middle of. -/
structure Secure (D : Demand) (d : Activity) : Prop where
  upheld : D.Upheld d.store
  calls : ∀ u call x, d.scene.calls u = some (call, x) → x.Leads D call.oldRows Script.Whatever d.store
  backs : ∀ u x, d.backs u = some x → x.Leads D [] Script.Whatever d.store

/-- A session has gone on in its call. -/
theorem Secure.put (h : D.Secure d) {s : Store} {work : Option (Call × Script Unit)}
    (hs : D.Upholds d.store s)
    (hw : ∀ call x, work = some (call, x) → x.Leads D call.oldRows Script.Whatever s) :
    D.Secure { d with scene := d.scene.put u s work } where
  upheld := hs.upheld
  calls v call x hx := by
    by_cases hv : v = u
    · subst hv
      exact hw call x ((Scene.calls_put_self d.scene v s work).symm.trans hx)
    · have hx' := (Scene.calls_put_of_ne d.scene hv s work).symm.trans hx
      exact (h.calls v call x hx').later hs.onward fun _ h => h
  backs v x hx := (h.backs v x hx).later hs.onward fun _ h => h

/-- A session has gone on on its way back. -/
theorem Secure.putBack (h : D.Secure d) {s : Store} {rest : Option (Script Unit)}
    (hs : D.Upholds d.store s)
    (hr : ∀ x, rest = some x → x.Leads D [] Script.Whatever s) :
    D.Secure (d.putBack u s rest) where
  upheld := hs.upheld
  calls v call x hx := (h.calls v call x hx).later hs.onward fun _ h => h
  backs v x hx := by
    by_cases hv : v = u
    · exact hr x ((if_pos hv).symm.trans hx)
    · exact (h.backs v x ((if_neg hv).symm.trans hx)).later hs.onward fun _ h => h

theorem Upheld.upholds_self {s : Store} (h : D.Upheld s) : D.Upholds s s := ⟨.refl _ _, h⟩

/-- A move in a call keeps what is asked of rows. -/
theorem Secure.move {e : Event} {c : Scene} (h : D.Secure d) (copies : d.OnCopies D.table u)
    (hm : Scene.Move u d.scene e c) :
    d.store.Onward D.table c.store ∧ D.Secure { d with scene := c } := by
  have hself := h.upheld.upholds_self
  have hgentle {s : Store} (hg : d.store.Gentle s) : D.Upholds d.store s := h.upheld.gentle hg
  have hlater {s : Store} (hg : d.store.Gentle s) {call : Call} {x : Script Unit}
      (hx : d.scene.calls u = some (call, x)) : x.Leads D call.oldRows Script.Whatever s :=
    (h.calls u call x hx).later (hg.onward _) fun _ h => h
  cases hm with
  | begin call idle =>
    refine ⟨hself.onward, h.put hself ?_⟩
    rintro _ _ ⟨⟩
    exact Script.leads_script call u
  | act hc =>
    obtain ⟨hstep, hnext⟩ := h.calls u _ _ hc d.store (.refl _ _) h.upheld (copies _ _ hc)
    refine ⟨hstep.onward, h.put hstep ?_⟩
    rintro _ _ ⟨⟩
    exact hnext
  | pass hc relaxed =>
    refine ⟨hself.onward, h.put hself ?_⟩
    rintro _ _ ⟨⟩
    exact h.calls u _ _ hc (.ok ())
  | @wait call t exclusive force mode next locks hc hm test =>
    have hg := gentle_locks d.store locks d.store.trace
    refine ⟨hg.onward _, h.put (hgentle hg) ?_⟩
    rintro _ _ ⟨⟩
    exact hlater hg hc
  | @told call t exclusive force mode next outcome locks hc hm test ended =>
    obtain ⟨trace, htold⟩ := final_tellLock (d.scene.store.table t).engine.name u mode outcome
      { d.scene.store with locks := locks }
    have hg := gentle_locks d.store locks trace
    rw [htold]
    refine ⟨hg.onward _, h.put (hgentle hg) ?_⟩
    rintro _ _ ⟨⟩
    exact hlater hg hc _
  | done hc | fail hc => exact ⟨hself.onward, h.put hself nofun⟩
  | unlock t idle =>
    have hg : d.store.Gentle (final (Store.unlock t u) d.scene.store) :=
      ⟨rfl, fun _ => rfl, Sequence.allOnward_refl _⟩
    exact ⟨hg.onward _, h.put (hgentle hg) nofun⟩

/-- A step of a session keeps what is asked of rows. -/
theorem Secure.step (h : D.Secure d) (copies : d.OnCopies D.table u) (hs : d.Step D.floor u d') :
    d.store.Onward D.table d'.store ∧ D.Secure d' := by
  have hself := h.upheld.upholds_self
  cases hs with
  | call here hm => exact h.move copies hm
  | turn savepoint idle here hn =>
    refine ⟨hself.onward, h.putBack hself ?_⟩
    rintro _ ⟨⟩
    exact Script.leads_rollbackTo hn
  | back hb =>
    obtain ⟨hstep, hnext⟩ := h.backs u _ hb d.store (.refl _ _) h.upheld nofun
    refine ⟨hstep.onward, h.putBack hstep ?_⟩
    rintro _ ⟨⟩
    exact hnext
  | arrive hb | strand hb => exact ⟨hself.onward, h.putBack hself nofun⟩

end Demand

/-- What is asked of rows from the start on is upheld by all stores that a schedule comes to, and they go
on from one to the next. -/
theorem Schedule.upheld {D : Demand} {history : List (Nat × Activity)} {d : Activity}
    (h : Schedule D.floor D.start history d) (hstart : D.Upheld D.start)
    (copies : ∀ m ∈ history, m.2.OnCopies D.table m.1) :
    D.Secure d ∧ ∀ m ∈ history, D.Upheld m.2.store ∧ m.2.store.Onward D.table d.store := by
  induction h with
  | start => exact ⟨⟨hstart, nofun, nofun⟩, fun m hm => absurd hm List.not_mem_nil⟩
  | @step history d d' u h hs ih =>
    obtain ⟨hnow, hbefore⟩ := List.forall_mem_cons.1 copies
    obtain ⟨hsecure, hpassed⟩ := ih hbefore
    obtain ⟨ho, hsecure'⟩ := hsecure.step hnow hs
    refine ⟨hsecure', List.forall_mem_cons.2 ⟨⟨hsecure.upheld, ho⟩, fun m hm => ?_⟩⟩
    exact ⟨(hpassed m hm).1, (hpassed m hm).2.trans ho⟩

end RowStore
