import RowStore.Proofs.Store.Story

/-!
# What each session owes

* `Scene.Owns` : a change is one that a session has logged, or has done in the call that it is in the middle of;
* `Scene.Stands` : where a session is in its call, and what it is to take back in each table;
* `Scene.Orderly` : the locks are in order, all tables are full, and each session can take back what it is to;
* `Scene.Fair` : what one turn of a session does;
* `Orderly.leaves` : a fair turn leaves alone what the others are to take back, if there is one version of each
  row or the session considers the others;
* `Orderly.turn` : all is in order after such a turn.
-/

namespace RowStore
open RowStore.Action RowStore.Store

namespace Scene
variable {s₀ s s' : Store} {history : List Moment} {m : Moment} {c c' : Scene} {t u v : Nat} {call : Call}
  {rest : Script Unit} {d : Deed} {key : RowKey} {q : UndoRecord} {records : List UndoRecord}
  {owes owes' : Nat → List UndoRecord} {owed : Nat → Nat → List UndoRecord}

/-! ## Where a session is -/

def Made (t : Nat) (moments : List Moment) (q : UndoRecord) : Prop :=
  ∃ m ∈ moments, q.op = .inserted ∧ q.row ∈ m.stored t ∨ q.op = .deleted ∧ q.row ∈ m.removed t

/-- The session has logged the change since the start, or has done it in the call that it is in the middle
of. -/
def Owns (s₀ : Store) (history : List Moment) (s : Store) (u t : Nat) (q : UndoRecord) : Prop :=
  q ∈ recordsOf t (s₀.since s u) ∨ Made t (ongoing u history) q

/-- A call has no lock yet, and does nothing before it has one. -/
def Waits (s : Store) (u : Nat) (call : Call) (rest : Script Unit) : Prop :=
  match call.target? with
  | none => rest.Lone
  | some t => s.tables.contains t = true ∧ rest.Cautious t u ∧ rest.Faithful t u call.Keyless call.oldRows

/-- What the session is to take back in a table is what it has logged. -/
def Settled (s₀ s : Store) (u t : Nat) (records : List UndoRecord) : Prop :=
  records = (recordsOf t (s₀.since s u)).reverse

/-- The session is in the middle of a change of a table.  It is to take back what it had logged when it got the
lock, and what it has done since, which the log will tell at the end of the script. -/
def Busy (s₀ : Store) (history : List Moment) (s : Store) (u t : Nat) (records : List UndoRecord)
    (call : Call) (rest : Script Unit) : Prop :=
  ∃ log₀ mine, (s₀.session u).position ≤ log₀.length ∧ Grown (·.table = t) log₀ (s.undoLog u) ∧
    records = mine ++ (recordsOf t (log₀.drop (s₀.session u).position)).reverse ∧
      (∀ q ∈ mine, Made t (ongoing u history) q) ∧
        rest.Ends t u call.Keyless call.oldRows log₀ (fun _ => Told t log₀) (s.undoLog u) mine

/-- Where a session is in its call, and what it is to take back in each table. -/
inductive Stands (s₀ : Store) (history : List Moment) (s : Store) (u : Nat) (owes : Nat → List UndoRecord) :
    Option (Call × Script Unit) → Prop where
  | idle (settled : ∀ t, Settled s₀ s u t (owes t)) : Stands s₀ history s u owes none
  | waits {call : Call} {rest : Script Unit} (settled : ∀ t, Settled s₀ s u t (owes t))
    (waits : Waits s u call rest) : Stands s₀ history s u owes (some (call, rest))
  | works {call : Call} {rest : Script Unit} {t : Nat} (target : call.target? = some t)
    (present : s.tables.contains t = true) (has : s.Has t u)
    (settled : ∀ t', t' ≠ t → Settled s₀ s u t' (owes t'))
    (busy : Busy s₀ history s u t (owes t) call rest) (meek : rest.Meek t u Script.Anything (s.undoLog u)) :
    Stands s₀ history s u owes (some (call, rest))

section Standing

theorem waits_of_target (h : call.target? = some t) : Waits s u call rest ↔ s.tables.contains t = true ∧
    rest.Cautious t u ∧ rest.Faithful t u call.Keyless call.oldRows := by
  unfold Waits
  rw [h]

theorem waits_of_none (h : call.target? = none) : Waits s u call rest ↔ rest.Lone := by
  unfold Waits
  rw [h]

theorem Waits.frame (h : Waits s u call rest)
    (ht : ∀ t, s.tables.contains t = true → s'.tables.contains t = true) : Waits s' u call rest := by
  cases hc : call.target? with
  | none => exact (waits_of_none hc).2 ((waits_of_none hc).1 h)
  | some t =>
    obtain ⟨htable, hscript⟩ := (waits_of_target hc).1 h
    exact (waits_of_target hc).2 ⟨ht t htable, hscript⟩

theorem Settled.of_log (h : Settled s₀ s u t records) (hlog : s'.undoLog u = s.undoLog u) :
    Settled s₀ s' u t records := by
  unfold Settled since at h ⊢
  rwa [hlog]

theorem Settled.owns (h : Settled s₀ s u t records) (hq : q ∈ records) : Owns s₀ history s u t q := by
  rw [h] at hq
  exact Or.inl (List.mem_reverse.1 hq)

/-- A session is to take back only what it owns. -/
theorem Stands.owns {work : Option (Call × Script Unit)} (h : Stands s₀ history s u owes work)
    (hq : q ∈ owes t) : Owns s₀ history s u t q := by
  cases h with
  | idle settled => exact (settled t).owns hq
  | waits settled _ => exact (settled t).owns hq
  | @works _ _ t' _ _ _ settled busy _ =>
    by_cases ht : t = t'
    · subst ht
      obtain ⟨log₀, mine, hstart, hgrown, howes, hmade, -⟩ := busy
      rw [howes] at hq
      rcases List.mem_append.1 hq with hq | hq
      · exact Or.inr (hmade q hq)
      · obtain ⟨hold, htable⟩ := List.mem_filter.1 (List.mem_reverse.1 hq)
        exact Or.inl (List.mem_filter.2 ⟨mem_drop_of_grown hgrown hstart hold, htable⟩)
    · exact (settled t ht).owns hq

theorem Settled.has (h : Settled s₀ s u t records) (hheld : ∀ r ∈ s₀.since s u, s.Has r.table u)
    (hq : q ∈ records) : s.Has t u := by
  rw [h] at hq
  obtain ⟨hlogged, htable⟩ := List.mem_filter.1 (List.mem_reverse.1 hq)
  exact of_decide_eq_true htable ▸ hheld q hlogged

/-- A session has the lock of a table in which it is to take something back. -/
theorem Stands.has {work : Option (Call × Script Unit)} (h : Stands s₀ history s u owes work)
    (hheld : ∀ r ∈ s₀.since s u, s.Has r.table u) (hq : q ∈ owes t) : s.Has t u := by
  cases h with
  | idle settled => exact (settled t).has hheld hq
  | waits settled _ => exact (settled t).has hheld hq
  | @works _ _ t' _ _ has settled _ _ =>
    by_cases ht : t = t'
    · exact ht ▸ has
    · exact (settled t ht).has hheld hq

/-- What others do does not matter to a session that keeps its locks and its log. -/
theorem Stands.frame {work : Option (Call × Script Unit)} (h : Stands s₀ history s u owes work)
    (hlog : s'.undoLog u = s.undoLog u)
    (htables : ∀ t, s.tables.contains t = true → s'.tables.contains t = true)
    (hhas : ∀ t, s'.Has t u ↔ s.Has t u) (hm : m.session ≠ u) :
    Stands s₀ (m :: history) s' u owes work := by
  cases h with
  | idle settled => exact .idle fun t => (settled t).of_log hlog
  | waits settled waits => exact .waits (fun t => (settled t).of_log hlog) (waits.frame htables)
  | @works call rest t target present has settled busy meek =>
    refine .works target (htables t present) ((hhas t).2 has) (fun t' ht => (settled t' ht).of_log hlog) ?_ ?_
    · unfold Busy
      rw [ongoing_of_ne hm, hlog]
      exact busy
    · rw [hlog]
      exact meek

end Standing

/-! ## All sessions -/

/-- The rows that a session can bring back in a table: those that were there before it changed any. -/
def found (history : List Moment) (s : Store) (u t : Nat) (key : RowKey) : Option Row :=
  (original u t key history).getD ((s.table t).engine.row? key)

/-- The locks are in order and all tables are full.  Each session can take back what it is to, which it has done
in tables whose locks it has, and so comes back to what it found.  No two sessions are to take back changes of
one row, or to put back rows that agree on a unique index. -/
structure Orderly (s₀ : Store) (history : List Moment) (c : Scene) (owed : Nat → Nat → List UndoRecord) :
    Prop where
  safe : c.store.locks.Safe
  options : c.store.options = s₀.options
  registered : c.store.detached = []
  full : ∀ t, (c.store.table t).engine.Full
  started : ∀ u, (s₀.session u).position ≤ (c.store.undoLog u).length
  held : ∀ u, ∀ r ∈ s₀.since c.store u,
    c.store.Has r.table u ∧ c.store.tables.contains r.table = true
  recalls : ∀ u t, (c.store.table t).engine.Owes (owed u t) (found history c.store u t)
  known : ∀ u t key, Engine.Touched (owed u t) key → (original u t key history).isSome
  apart : ∀ u v, u ≠ v → ∀ t, (c.store.table t).engine.Apart (owed u t) (owed v t)
  stands : ∀ u, Stands s₀ history c.store u (owed u) (c.calls u)

/-- The session is in the middle of no call that inserts a row under a key of its own. -/
def Keyless (c : Scene) (u : Nat) : Prop := ∀ call rest, c.calls u = some (call, rest) → call.Keyless

/-- What a turn of a session does, which is to take back some changes before it and others after it. -/
structure Fair (s₀ : Store) (history : List Moment) (u : Nat) (c : Scene) (owes : Nat → List UndoRecord)
    (d : Deed) (c' : Scene) (owes' : Nat → List UndoRecord) : Prop where
  safe : c'.store.locks.Safe
  options : c'.store.options = c.store.options
  registered : c'.store.detached = []
  tables : ∀ t, c.store.tables.contains t = true → c'.store.tables.contains t = true
  follows : ∀ t, (c.store.table t).engine.Follows (c'.store.table t).engine
  engines : ∀ t, ¬ c.store.Has t u → (c'.store.table t).engine = (c.store.table t).engine
  logs : ∀ v, v ≠ u → c'.store.undoLog v = c.store.undoLog v
  has : ∀ t v, v ≠ u → (c'.store.Has t v ↔ c.store.Has t v)
  started : (s₀.session u).position ≤ (c'.store.undoLog u).length
  held : ∀ r ∈ s₀.since c'.store u,
    c'.store.Has r.table u ∧ c'.store.tables.contains r.table = true
  recalls : ∀ t, (c'.store.table t).engine.Owes (owes' t) (found history c.store u t)
  changes : ∀ t key, (c'.store.table t).engine.row? key ≠ (c.store.table t).engine.row? key →
    Engine.Touched (owes t) key ∨ (∃ e, d = .moves e) ∧
      (((c.store.table t).engine.row? key).isSome ∨
        (c.Keyless u → key = (c.store.table t).engine.nextKey))
  puts : ∀ t key r, (c'.store.table t).engine.row? key = some r →
    (c'.store.table t).engine.row? key ≠ (c.store.table t).engine.row? key →
      (∃ e, d = .moves e) ∨ ∃ q ∈ owes t, q.op = .deleted ∧ q.row = r
  does : ∀ t, ∀ q ∈ owes' t, q ∈ owes t ∨ (c.store.table t).engine.Does (c'.store.table t).engine q
  stands : Stands s₀ (moment u d c c' :: history) c'.store u owes' (c'.calls u)

/-! ## One turn -/

section Turn

theorem mem_gone {e e' : Engine} {r : Row} (h : e.Sound) (h' : e'.Sound) (hr : e.row? key = some r)
    (hne : e'.row? key ≠ e.row? key) : r ∈ e.rowList.filter (· ∉ e'.rowList) := by
  refine List.mem_filter.2 ⟨h.mem_rowList.2 ⟨key, hr⟩, decide_eq_true fun hm => hne ?_⟩
  exact (h'.row?_eq_some_iff.2 ⟨hm, h.keyed key r hr⟩).trans hr.symm

theorem Owns.wrote (h : Owns s₀ history s v t q) (hop : q.op = .inserted) :
    q.row ∈ wrote s₀ s history v t := by
  rcases h with hlogged | ⟨m, hm, ⟨-, hrow⟩ | ⟨hdeleted, -⟩⟩
  · refine List.mem_append_left _ (List.mem_map_of_mem ?_)
    exact List.mem_filter.2 ⟨hlogged, decide_eq_true hop⟩
  · exact List.mem_append_right _ (List.mem_flatMap.2 ⟨m, hm, hrow⟩)
  · cases hop.symm.trans hdeleted

theorem Owns.freed (h : Owns s₀ history s v t q) (hop : q.op = .deleted) :
    q.row ∈ freed s₀ s history v t := by
  rcases h with hlogged | ⟨m, hm, ⟨hinserted, -⟩ | ⟨-, hrow⟩⟩
  · refine List.mem_append_left _ (List.mem_map_of_mem ?_)
    exact List.mem_filter.2 ⟨hlogged, decide_eq_true hop⟩
  · cases hop.symm.trans hinserted
  · exact List.mem_append_right _ (List.mem_flatMap.2 ⟨m, hm, hrow⟩)

theorem Orderly.eq_nil_of_not_has (h : Orderly s₀ history c owed) (hn : ¬ c.store.Has t v) :
    owed v t = [] :=
  List.eq_nil_iff_forall_not_mem.2 fun _ hq => hn ((h.stands v).has (fun r hr => (h.held v r hr).1) hq)

/-- Where there is one version of each row, a lock that changes of rows ask for is held alone. -/
theorem Fair.alone (hf : Fair s₀ history u c (owed u) d c' owes') (single : c.store.options.multiVersion = false)
    (hv : v ≠ u) (hhas : c.store.Has t v) : (c'.store.table t).engine = (c.store.table t).engine := by
  have halone : ∀ w, c.store.Has t w → (c.store.locks.holdersOf t).exclusive = some w := by
    intro w hw
    unfold Has at hw
    rw [single] at hw
    exact hw.resolve_right fun hshared => Bool.noConfusion hshared.1
  refine hf.engines t fun hu => hv ?_
  exact Option.some.inj ((halone v hhas).symm.trans (halone u hu))

/-- A session that considers the others leaves alone what they are to take back. -/
theorem Orderly.leaves_of_considers (h : Orderly s₀ history c owed)
    (hf : Fair s₀ history u c (owed u) d c' owes') (hv : v ≠ u) (keyless : c.Keyless u)
    (considers : ∀ e, d = .moves e → (moment u d c c').Considers s₀ history) (t : Nat) :
    (c.store.table t).engine.Leaves (c'.store.table t).engine (owed v t) where
  keys key ht := by
    by_contra hne
    rcases hf.changes t key hne with hown | ⟨⟨e, he⟩, hstored | hfresh⟩
    · exact (h.apart u v (Ne.symm hv) t).keys key hown ht
    · obtain ⟨r, hr⟩ := Option.isSome_iff_exists.1 hstored
      obtain ⟨q, hq, hop, rfl⟩ := (h.recalls v t).undoes.inserted_of_stored ht hr
      refine (considers e he).removes v hv t q.row ?_ (((h.stands v).owns hq).wrote hop)
      exact mem_gone (h.full t).sound (hf.follows t).full.sound hr hne
    · have hlt := (h.recalls v t).below key ht
      rw [hfresh keyless] at hlt
      exact UInt64.lt_irrefl _ hlt
  free key r hr hne q hq hop := by
    rcases hf.puts t key r hr hne with ⟨e, he⟩ | ⟨p, hp, hpop, rfl⟩
    · refine (considers e he).stores v hv t r ?_ q.row (((h.stands v).owns hq).freed hop)
      exact mem_gone (hf.follows t).full.sound (h.full t).sound hr (Ne.symm hne)
    · exact (h.apart u v (Ne.symm hv) t).rows p hp hpop q hq hop

theorem Orderly.leaves (h : Orderly s₀ history c owed) (hf : Fair s₀ history u c (owed u) d c' owes') (hv : v ≠ u)
    (isolated : c.store.options.multiVersion = false ∨
      (∀ e, d = .moves e → (moment u d c c').Considers s₀ history) ∧ c.Keyless u) (t : Nat) :
    (c.store.table t).engine.Leaves (c'.store.table t).engine (owed v t) := by
  rcases isolated with single | ⟨considers, keyless⟩
  · by_cases hhas : c.store.Has t v
    · exact .of_same (congrArg Engine.row? (hf.alone single hv hhas))
    · rw [h.eq_nil_of_not_has hhas]
      exact ⟨fun _ ht => absurd ht Engine.not_touched_nil, fun _ _ _ _ _ hq => absurd hq List.not_mem_nil⟩
  · exact h.leaves_of_considers hf hv keyless considers t

theorem Fair.has_of_mem (hf : Fair s₀ history u c owes d c' owes') (hq : q ∈ owes' t) : c'.store.Has t u :=
  hf.stands.has (fun r hr => (hf.held r hr).1) hq

/-- Where nothing changed, a session finds what it found before. -/
theorem found_of_same (hhas : c'.store.Has t v)
    (hsame : (c'.store.table t).engine.row? key = (c.store.table t).engine.row? key) :
    found (moment u d c c' :: history) c'.store v t key = found history c.store v t key := by
  unfold found
  rw [original_of_same hhas hsame, hsame]

theorem found_of_not_has (hhas : ¬ c'.store.Has t v) :
    found (moment u d c c' :: history) c'.store v t = (c'.store.table t).engine.row? := by
  funext key
  unfold found
  rw [original_of_not_has hhas, Option.getD_none]

/-- What a session changes itself, it can bring back. -/
theorem found_self (hhas : c'.store.Has t u) :
    found (moment u d c c' :: history) c'.store u t = found history c.store u t := by
  funext key
  by_cases hsame : (c'.store.table t).engine.row? key = (c.store.table t).engine.row? key
  · exact found_of_same hhas hsame
  · unfold found
    rw [original_of_own (m := moment u d c c') hhas hsame rfl]
    rfl

/-- What another has changed, it takes as it is. -/
theorem found_of_changed (hv : v ≠ u)
    (hne : (c'.store.table t).engine.row? key ≠ (c.store.table t).engine.row? key) :
    found (moment u d c c' :: history) c'.store v t key = (c'.store.table t).engine.row? key := by
  by_cases hhas : c'.store.Has t v
  · unfold found
    rw [original_of_other (m := moment u d c c') hhas hne fun he => hv he.symm, Option.getD_none]
  · rw [found_of_not_has hhas]

theorem Fair.recalls_after (hf : Fair s₀ history u c owes d c' owes') (t : Nat) :
    (c'.store.table t).engine.Owes (owes' t) (found (moment u d c c' :: history) c'.store u t) := by
  by_cases hhas : c'.store.Has t u
  · rw [found_self hhas]
    exact hf.recalls t
  · rw [found_of_not_has hhas, List.eq_nil_iff_forall_not_mem.2 fun _ hq => hhas (hf.has_of_mem hq)]
    exact Engine.owes_nil _

variable (h : Orderly s₀ history c owed) (hf : Fair s₀ history u c (owed u) d c' owes')
include h hf

theorem Orderly.known_self (ht : Engine.Touched (owes' t) key) :
    (original u t key (moment u d c c' :: history)).isSome := by
  obtain ⟨q, hq, hkey⟩ := ht
  have hhas := hf.has_of_mem hq
  by_cases hsame : (c'.store.table t).engine.row? key = (c.store.table t).engine.row? key
  · rw [original_of_same hhas hsame]
    rcases hf.does t q hq with hq | hdoes
    · exact h.known u t key ⟨q, hq, hkey⟩
    · exact absurd hsame (hdoes.changes hkey)
  · rw [original_of_own (m := moment u d c c') hhas hsame rfl]
    rfl

section Other
variable (hv : v ≠ u)
include hv

theorem Orderly.has_of_touched (ht : Engine.Touched (owed v t) key) : c'.store.Has t v := by
  obtain ⟨q, hq, -⟩ := ht
  exact (hf.has t v hv).2 ((h.stands v).has (fun r hr => (h.held v r hr).1) hq)

variable (hl : (c.store.table t).engine.Leaves (c'.store.table t).engine (owed v t))
include hl

theorem Orderly.recalls_other :
    (c'.store.table t).engine.Owes (owed v t) (found (moment u d c c' :: history) c'.store v t) := by
  refine (h.recalls v t).leaves (hf.follows t) hl (fun key ht => ?_) fun key ht => ?_
  · exact found_of_same (h.has_of_touched hf hv ht) (hl.keys key ht)
  · by_cases hsame : (c'.store.table t).engine.row? key = (c.store.table t).engine.row? key
    · by_cases hhas : c'.store.Has t v
      · rw [found_of_same hhas hsame, hsame]
        exact (h.recalls v t).undoes.elsewhere ht
      · rw [found_of_not_has hhas]
    · exact found_of_changed hv hsame

theorem Orderly.known_other (ht : Engine.Touched (owed v t) key) :
    (original v t key (moment u d c c' :: history)).isSome := by
  rw [original_of_same (h.has_of_touched hf hv ht) (hl.keys key ht)]
  exact h.known v t key ht

/-- What a session newly has to take back is nothing that another is to take back. -/
theorem Orderly.apart_other : (c'.store.table t).engine.Apart (owes' t) (owed v t) := by
  have hold := h.apart u v (Ne.symm hv) t
  have hnew : ∀ q key, q.row.key = some key → (c.store.table t).engine.Does (c'.store.table t).engine q →
      ¬ Engine.Touched (owed v t) key := by
    rintro q key hkey hdoes ht
    exact hdoes.changes hkey (hl.keys key ht)
  refine Engine.Apart.of_specs ⟨?_, ?_⟩ (hf.follows t).specs
  · rintro key ⟨q, hq, hkey⟩ ht
    rcases hf.does t q hq with hq | hdoes
    · exact hold.keys key ⟨q, hq, hkey⟩ ht
    · exact hnew q key hkey hdoes ht
  · intro q hq hop p hp hpop
    rcases hf.does t q hq with hq | hdoes
    · exact hold.rows q hq hop p hp hpop
    · obtain ⟨key, hkey, hstored⟩ := hdoes.removed hop
      exact (h.recalls v t).undoes.not_clash (hnew q key hkey hdoes) hstored hp hpop

end Other

/-- All is in order after a fair turn that leaves alone what the others are to take back. -/
theorem Orderly.turn (hcalls : ∀ v, v ≠ u → c'.calls v = c.calls v)
    (hleaves : ∀ v, v ≠ u → ∀ t, (c.store.table t).engine.Leaves (c'.store.table t).engine (owed v t)) :
    Orderly s₀ (moment u d c c' :: history) c' (Function.update owed u owes') where
  safe := hf.safe
  options := hf.options.trans h.options
  registered := hf.registered
  full t := (hf.follows t).full
  started v := by
    by_cases hv : v = u
    · exact hv ▸ hf.started
    · rw [hf.logs v hv]
      exact h.started v
  held v r hr := by
    by_cases hv : v = u
    · subst hv
      exact hf.held r hr
    · unfold since at hr
      rw [hf.logs v hv] at hr
      obtain ⟨hhas, htable⟩ := h.held v r hr
      exact ⟨(hf.has _ v hv).2 hhas, hf.tables _ htable⟩
  recalls v t := by
    by_cases hv : v = u
    · subst hv
      rw [Function.update_self]
      exact hf.recalls_after t
    · rw [Function.update_of_ne hv]
      exact h.recalls_other hf hv (hleaves v hv t)
  known v t key ht := by
    by_cases hv : v = u
    · subst hv
      rw [Function.update_self] at ht
      exact h.known_self hf ht
    · rw [Function.update_of_ne hv] at ht
      exact h.known_other hf hv (hleaves v hv t) ht
  apart v w hne t := by
    by_cases hv : v = u
    · subst hv
      rw [Function.update_self, Function.update_of_ne (Ne.symm hne)]
      exact h.apart_other hf (Ne.symm hne) (hleaves w (Ne.symm hne) t)
    · rw [Function.update_of_ne hv]
      by_cases hw : w = u
      · subst hw
        rw [Function.update_self]
        exact (h.apart_other hf hv (hleaves v hv t)).symm
      · rw [Function.update_of_ne hw]
        exact (h.apart v w hne t).of_specs (hf.follows t).specs
  stands v := by
    by_cases hv : v = u
    · subst hv
      rw [Function.update_self]
      exact hf.stands
    · rw [hcalls v hv, Function.update_of_ne hv]
      exact (h.stands v).frame (hf.logs v hv) hf.tables (fun t => hf.has t v hv) fun he => hv he.symm

end Turn

end Scene
end RowStore
