import RowStore.Proofs.Store.Isolation
import RowStore.Proofs.Store.Told

/-!
# Sessions that go back while others act

* `Store.Has` : a session has the lock that changes of rows ask for;
* `Scene.Turn` : a move of a session in its calls, or its way back to a savepoint;
* `Scene.Observes` : what a client has to observe in its turns;
* `Scene.Story` : turns of any sessions in any order, with what the store was before and after each;
* `Scene.wrote`, `Scene.freed` : the rows that a session has stored, and those that it has removed, and may
  have to take back;
* `Scene.Considerate` : no session removes what another wrote, or stores what agrees on a unique index with what
  another has freed;
* `Scene.original` : what was stored under a key before a session first changed it.
-/

namespace RowStore
open RowStore.Action RowStore.Store

/-- The session has the lock of the table, alone or, where there are several versions of rows, with
others. -/
def Store.Has (s : Store) (t u : Nat) : Prop :=
  (s.locks.holdersOf t).Holds u (!s.options.multiVersion)

instance (s : Store) (t u : Nat) : Decidable (s.Has t u) :=
  inferInstanceAs (Decidable (LockHolders.Holds _ _ _))

def Store.since (s₀ s : Store) (u : Nat) : List UndoRecord :=
  (s.undoLog u).drop (s₀.session u).position

section Since
variable {s₀ s b : Store} {u savepoint : Nat} {r : UndoRecord}

/-- What a session has logged up to a savepoint, and what it has logged after it. -/
theorem Store.since_split (started : (s₀.session u).position ≤ (s.undoLog u).length)
    (hs : (s₀.session u).position ≤ savepoint) : s₀.since s u =
      ((s.undoLog u).take savepoint).drop (s₀.session u).position ++ (s.undoLog u).drop savepoint := by
  have hlength : (s₀.session u).position ≤ ((s.undoLog u).take savepoint).length := by
    rw [List.length_take]
    exact le_min hs started
  unfold since
  rw [← List.drop_append_of_le_length hlength, List.take_append_drop]

theorem Store.mem_since_of_cut (hlog : b.undoLog u = (s.undoLog u).take savepoint) (hr : r ∈ s₀.since b u) :
    r ∈ s₀.since s u := by
  unfold since at hr
  rw [hlog, List.drop_take] at hr
  exact List.mem_of_mem_take hr

end Since

namespace Scene

/-! ## Turns -/

/-- What a session does in one turn. -/
inductive Deed where
  /-- It makes a move in its calls. -/
  | moves (e : Event)
  /-- It goes back to a savepoint. -/
  | goesBack (savepoint : Nat)

/-- One turn of a session.  It goes back between its calls. -/
inductive Turn (u : Nat) (c : Scene) : Deed → Scene → Prop where
  | move {e : Event} {c' : Scene} (h : Move u c e c') : Turn u c (.moves e) c'
  | back (savepoint : Nat) (idle : c.calls u = none) :
    Turn u c (.goesBack savepoint) (c.put u (final (Store.rollbackTo u savepoint) c.store) none)

/-- What a client has to observe.  It changes rows of tables that exist.  An old row that it passes is a copy
of the stored row when it comes to be removed.  It gives no lock back before it has taken back what it did with
it, and does not go back beyond the start. -/
structure Observes (s₀ : Store) (u : Nat) (c : Scene) (deed : Deed) : Prop where
  tables : ∀ call t, deed = .moves (.begins call) → call.target? = some t →
    c.store.tables.contains t = true
  copies : ∀ call rest t, c.calls u = some (call, rest) → call.target? = some t →
    rest.RemovesCopies t call.oldRows c.store
  locks : ∀ t, deed = .moves (.unlocks t) → ∀ r ∈ s₀.since c.store u, r.table ≠ t
  savepoint : ∀ savepoint, deed = .goesBack savepoint → (s₀.session u).position ≤ savepoint

/-- The call of a session has run past an end. -/
def panicked (c : Scene) (u : Nat) : Bool :=
  match c.calls u with
  | some (_, rest) => rest.panics
  | none => false

theorem panicked_put (c : Scene) (u : Nat) (s : Store) (call : Call) (rest : Script Unit) :
    (c.put u s (some (call, rest))).panicked u = rest.panics := by
  unfold panicked
  rw [calls_put_self]

/-- A turn of a session, the store before and after it, and whether it ran past an end. -/
structure Moment where
  session : Nat
  deed : Deed
  before : Store
  after : Store
  panicked : Bool

def moment (u : Nat) (d : Deed) (c c' : Scene) : Moment := ⟨u, d, c.store, c'.store, c'.panicked u⟩

/-- Turns of any sessions in any order, the latest first, from a start at which no call is in progress. -/
inductive Story (s₀ : Store) : List Moment → Scene → Prop where
  | start : Story s₀ [] ⟨s₀, fun _ => none⟩
  | turn {history : List Moment} {c c' : Scene} {u : Nat} {deed : Deed} (h : Story s₀ history c)
    (ht : Turn u c deed c') (ho : Observes s₀ u c deed) : Story s₀ (moment u deed c c' :: history) c'

/-! ## What a session may have to take back -/

/-- The rows of a table that go in a turn. -/
def Moment.removed (m : Moment) (t : Nat) : List Row :=
  (m.before.table t).engine.rowList.filter (· ∉ (m.after.table t).engine.rowList)

/-- The rows of a table that come in a turn. -/
def Moment.stored (m : Moment) (t : Nat) : List Row :=
  (m.after.table t).engine.rowList.filter (· ∉ (m.before.table t).engine.rowList)

/-- The steps of the call that a session is in the middle of, the latest first. -/
def ongoing (v : Nat) : List Moment → List Moment
  | [] => []
  | m :: earlier =>
    if m.session = v then
      match m.deed with
      | .moves .works => m :: ongoing v earlier
      | _ => []
    else ongoing v earlier

/-- The rows that a session has stored, as its log and the steps of its call tell. -/
def wrote (s₀ s : Store) (earlier : List Moment) (v t : Nat) : List Row :=
  ((recordsOf t (s₀.since s v)).filter (·.op = .inserted)).map (·.row) ++
    (ongoing v earlier).flatMap (·.stored t)

/-- The rows that a session has removed, as its log and the steps of its call tell. -/
def freed (s₀ s : Store) (earlier : List Moment) (v t : Nat) : List Row :=
  ((recordsOf t (s₀.since s v)).filter (·.op = .deleted)).map (·.row) ++
    (ongoing v earlier).flatMap (·.removed t)

/-- In its turn a session removes no row that another wrote, and stores none that agrees on a unique index with
one that another has freed. -/
structure Moment.Considers (s₀ : Store) (m : Moment) (earlier : List Moment) : Prop where
  removes : ∀ v, v ≠ m.session → ∀ t, ∀ r ∈ m.removed t, r ∉ wrote s₀ m.before earlier v t
  stores : ∀ v, v ≠ m.session → ∀ t, ∀ r ∈ m.stored t, ∀ r' ∈ freed s₀ m.before earlier v t,
    ¬ (m.before.table t).engine.Clash r r'

/-- Sessions consider the others in their calls.  Nothing is asked of a session that goes back. -/
def Considerate (s₀ : Store) : List Moment → Prop
  | [] => True
  | m :: earlier => Considerate s₀ earlier ∧ ∀ e, m.deed = .moves e → m.Considers s₀ earlier

/-- What was stored under a key before a session changed it for the first time since it got the lock of
the table.  Nothing is known if it did not, or if another session has changed it later. -/
def original (u t : Nat) (key : RowKey) : List Moment → Option (Option Row)
  | [] => none
  | m :: earlier =>
    let before := (m.before.table t).engine.row? key
    if m.after.Has t u then
      if (m.after.table t).engine.row? key = before then original u t key earlier
      else if m.session = u then some ((original u t key earlier).getD before)
      else none
    else none

section Original
variable {s₀ : Store} {history : List Moment} {m : Moment} {u t : Nat} {key : RowKey}

theorem original_of_not_has (h : ¬ m.after.Has t u) : original u t key (m :: history) = none := if_neg h

theorem original_of_same (h : m.after.Has t u)
    (hsame : (m.after.table t).engine.row? key = (m.before.table t).engine.row? key) :
    original u t key (m :: history) = original u t key history := (if_pos h).trans (if_pos hsame)

theorem original_of_own (h : m.after.Has t u)
    (hne : (m.after.table t).engine.row? key ≠ (m.before.table t).engine.row? key) (hs : m.session = u) :
    original u t key (m :: history) =
      some ((original u t key history).getD ((m.before.table t).engine.row? key)) :=
  ((if_pos h).trans (if_neg hne)).trans (if_pos hs)

theorem original_of_other (h : m.after.Has t u)
    (hne : (m.after.table t).engine.row? key ≠ (m.before.table t).engine.row? key) (hs : m.session ≠ u) :
    original u t key (m :: history) = none := ((if_pos h).trans (if_neg hne)).trans (if_neg hs)

theorem ongoing_of_ne (h : m.session ≠ u) : ongoing u (m :: history) = ongoing u history := if_neg h

theorem ongoing_works {c c' : Scene} : ongoing u (moment u (.moves .works) c c' :: history) =
    moment u (.moves .works) c c' :: ongoing u history := if_pos rfl

end Original

/-! ## Turns in a call -/

/-- Rows are inserted without keys of their own. -/
def Deed.Keyless : Deed → Prop
  | .moves (.begins call) => call.Keyless
  | _ => True

instance : (d : Deed) → Decidable d.Keyless
  | .moves (.begins call) => inferInstanceAs (Decidable call.Keyless)
  | .moves .works | .moves .returns | .moves (.unlocks _) | .goesBack _ => isTrue trivial

section Steps
variable {s₀ : Store} {history : List Moment} {c c' : Scene} {t u v : Nat} {call : Call} {d : Deed}

theorem Turn.calls_of_ne (ht : Turn u c d c') (hv : v ≠ u) : c'.calls v = c.calls v := by
  cases ht with
  | move hm => exact hm.calls_of_ne hv
  | back savepoint idle => exact calls_put_of_ne c hv _ _

/-- A call that a session is in the middle of was begun. -/
theorem Turn.calls_self (ht : Turn u c d c') {rest : Script Unit} (hc : c'.calls u = some (call, rest)) :
    d = .moves (.begins call) ∨ ∃ rest', c.calls u = some (call, rest') := by
  cases ht with
  | back savepoint idle =>
    rw [calls_put_self] at hc
    cases hc
  | move hm =>
    cases hm with
    | begin call' idle =>
      rw [calls_put_self] at hc
      cases hc
      exact Or.inl rfl
    | act h | pass h | wait h | told h =>
      rw [calls_put_self] at hc
      cases hc
      exact Or.inr ⟨_, h⟩
    | done h | fail h | unlock t idle =>
      rw [calls_put_self] at hc
      cases hc

theorem Story.keyless (story : Story s₀ history c) (h : ∀ m ∈ history, m.deed.Keyless) {rest : Script Unit}
    (hc : c.calls u = some (call, rest)) : call.Keyless := by
  induction story generalizing rest with
  | start => cases hc
  | @turn history c c' v d _ ht _ ih =>
    obtain ⟨hlast, hearlier⟩ := List.forall_mem_cons.1 h
    by_cases hu : u = v
    · subst hu
      rcases ht.calls_self hc with rfl | ⟨rest', hc'⟩
      · exact hlast
      · exact ih hearlier hc'
    · rw [ht.calls_of_ne hu] at hc
      exact ih hearlier hc

/-- A turn after which the session has some of its call before it. -/
theorem Story.put (h : Story s₀ history c) {s : Store} {rest : Script Unit}
    (ht : Turn u c d (c.put u s (some (call, rest)))) (ho : Observes s₀ u c d) :
    Story s₀ (⟨u, d, c.store, s, rest.panics⟩ :: history) (c.put u s (some (call, rest))) := by
  have hturn := h.turn ht ho
  unfold moment at hturn
  rw [panicked_put] at hturn
  exact hturn

theorem Story.begin (h : Story s₀ history c) (call : Call) (idle : c.calls u = none)
    (htable : ∀ t, call.target? = some t → c.store.tables.contains t = true) :
    Story s₀ (⟨u, .moves (.begins call), c.store, c.store, (call.script u).panics⟩ :: history)
      (c.put u c.store (some (call, call.script u))) := by
  refine h.put (.move (.begin call idle)) ⟨?_, fun _ _ _ hc => ?_, nofun, nofun⟩
  · rintro _ t ⟨⟩ ht
    exact htable t ht
  · cases idle.symm.trans hc

theorem Story.act (h : Story s₀ history c) {β : Type} {a : Action Store β}
    {next : Except Fault β → Script Unit} (hc : c.calls u = some (call, .act a next))
    (hcopies : ∀ t, call.target? = some t → ∀ r ∈ call.oldRows, (c.store.table t).engine.IsCopy r) :
    Story s₀ (⟨u, .moves .works, c.store, final a c.store, (next (result a c.store)).panics⟩ :: history)
      (c.put u (final a c.store) (some (call, next (result a c.store)))) := by
  refine h.put (.move (.act hc)) ⟨nofun, fun _ _ t hl ht r hr _ _ => ?_, nofun, nofun⟩
  cases hc.symm.trans hl
  exact hcopies t ht r hr

theorem Story.granted (h : Story s₀ history c) {exclusive force mode : Bool}
    {next : Except Fault Unit → Script Unit}
    (hc : c.calls u = some (call, .lock t exclusive force next))
    (hm : effectiveMode c.store.options.multiVersion force exclusive = some mode)
    (hg : (c.store.locks.request ⟨t, u, mode⟩).1 = .granted) :
    let s := final (tellLock (c.store.table t).engine.name u mode .granted)
      { c.store with locks := (c.store.locks.request ⟨t, u, mode⟩).2 }
    Story s₀ (⟨u, .moves .works, c.store, s, (next (.ok ())).panics⟩ :: history)
      (c.put u s (some (call, next (.ok ())))) := by
  intro s
  refine h.put (.move (.told hc hm (.request (Prod.ext hg rfl)) LockOutcome.noConfusion))
    ⟨nofun, fun _ _ _ hl _ _ _ _ he => ?_, nofun, nofun⟩
  cases hc.symm.trans hl
  cases he

theorem Story.returned (h : Story s₀ history c) (came : Except Fault Unit)
    (hc : c.calls u = some (call, .ofResult came)) :
    Story s₀ (⟨u, .moves .returns, c.store, c.store, false⟩ :: history) (c.put u c.store none) := by
  have hmove : Move u c .returns (c.put u c.store none) := by
    cases came with
    | ok _ => exact .done hc
    | error fault => exact .fail hc
  have hturn := h.turn (.move hmove) ⟨nofun, fun _ _ _ hl _ _ _ _ he => ?_, nofun, nofun⟩
  · unfold moment panicked at hturn
    rw [calls_put_self] at hturn
    exact hturn
  · cases hc.symm.trans hl
    cases came <;> cases he

end Steps

end Scene
end RowStore
