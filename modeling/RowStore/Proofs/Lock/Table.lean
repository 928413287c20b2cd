import RowStore.Lock.Table
import RowStore.Proofs.OrderedMap
import RowStore.Proofs.WaitGraph

/-!
# What one step does to the locks

* `LockHolders.acquire?_cases` : the three ways in which a session is let in;
* `LockTable.Acquired` : a grant, look-up by look-up;
* `request_cases`, `expire_cases` : how a test of a lock ends, and in which state;
* `exclusive_unlock`, `mem_shared_unlock` : who holds a lock after it was given back;
* `LockTable.Safe` : a lock that is held alone is held by nobody else, and no lock is kept for nobody;
* `LockTable.Waits`, `waits_waitGraph` : the edges of the graph that is searched;
* `request_of_alone`, `request_of_none` : a session that is to wait while no other does just waits;
* `LockTable.Calm` : nobody waits for a session that waits for it.
-/

namespace RowStore

namespace LockHolders
variable {h h' : LockHolders} {session x : Nat} {exclusive : Bool}

/-- The session holds the lock, alone if that is asked for. -/
def Holds (h : LockHolders) (session : Nat) (exclusive : Bool) : Prop :=
  h.exclusive = some session ∨ exclusive = false ∧ session ∈ h.shared.toList

instance (h : LockHolders) (session : Nat) (exclusive : Bool) :
    Decidable (h.Holds session exclusive) := inferInstanceAs (Decidable (_ ∨ _))

/-- Where a session holds the lock alone, nobody else shares it. -/
def Sole (h : LockHolders) : Prop := ∀ s, h.exclusive = some s → ∀ x ∈ h.shared.toList, x = s

/-- A session is let in as the exclusive holder that it is, alone, or beside others. -/
theorem acquire?_cases (ha : h.acquire? session exclusive = some h') :
    (h.exclusive = some session ∧ h' = h) ∨
    (h.exclusive = none ∧ exclusive = true ∧ (∀ x ∈ h.shared.toList, x = session) ∧
      h' = { h with exclusive := some session }) ∨
    (h.exclusive = none ∧ exclusive = false ∧ h' = { h with shared := h.shared.insert session }) := by
  unfold acquire? at ha
  split at ha
  · rename_i holder he
    split at ha
    · rename_i hs
      cases ha
      exact Or.inl ⟨hs ▸ he, rfl⟩
    · cases ha
  · rename_i he
    split at ha
    · rename_i hx
      split at ha
      · rename_i hall
        cases ha
        refine Or.inr (Or.inl ⟨he, hx, fun x hm => ?_, rfl⟩)
        exact beq_iff_eq.1 (List.all_eq_true.1 hall x hm)
      · cases ha
    · rename_i hx
      cases ha
      exact Or.inr (Or.inr ⟨he, Bool.eq_false_of_not_eq_true hx, rfl⟩)

theorem mem_all : x ∈ h.all ↔ x ∈ h.shared.toList ∨ h.exclusive = some x := by
  rw [all, List.mem_append, Option.mem_toList]

theorem isFree_eq_false : h.isFree = false ↔ ∃ x, x ∈ h.all := by
  simp only [mem_all, isFree, Bool.and_eq_false_iff, Option.isNone_eq_false_iff,
    Option.isSome_iff_exists, List.isEmpty_eq_false_iff_exists_mem]
  constructor
  · rintro (⟨x, hx⟩ | ⟨x, hx⟩)
    · exact ⟨x, Or.inr hx⟩
    · exact ⟨x, Or.inl hx⟩
  · rintro ⟨x, hx | hx⟩
    · exact Or.inr ⟨x, hx⟩
    · exact Or.inl ⟨x, hx⟩

/-- A session that was let in is the only holder that is new. -/
theorem mem_all_acquire? (ha : h.acquire? session exclusive = some h') :
    x ∈ h'.all ↔ x = session ∨ x ∈ h.all := by
  rw [mem_all, mem_all]
  rcases acquire?_cases ha with ⟨he, rfl⟩ | ⟨he, -, -, rfl⟩ | ⟨he, -, rfl⟩
  · constructor
    · exact Or.inr
    · rintro (rfl | hx)
      · exact Or.inr he
      · exact hx
  · rw [he, Option.some.injEq, or_comm, eq_comm (a := session)]
    exact or_congr_right (or_iff_left (by simp)).symm
  · rw [Ring.mem_toList_insert, or_assoc]

theorem holds_acquire? (ha : h.acquire? session exclusive = some h') :
    h'.Holds session exclusive := by
  rcases acquire?_cases ha with ⟨he, rfl⟩ | ⟨he, -, -, rfl⟩ | ⟨he, hx, rfl⟩
  · exact Or.inl he
  · exact Or.inl rfl
  · exact Or.inr ⟨hx, (Ring.mem_toList_insert _ _ _).2 (Or.inl rfl)⟩

/-- Nobody loses a lock to a session that is let in. -/
theorem Holds.acquire? {b : Bool} (hh : h.Holds x b)
    (ha : h.acquire? session exclusive = some h') : h'.Holds x b := by
  rcases acquire?_cases ha with ⟨-, rfl⟩ | ⟨hnone, -, -, rfl⟩ | ⟨-, -, rfl⟩
  · exact hh
  · rcases hh with he | hshared
    · cases hnone.symm.trans he
    · exact Or.inr hshared
  · exact hh.imp_right fun ⟨hb, hx⟩ => ⟨hb, (Ring.mem_toList_insert _ _ _).2 (Or.inr hx)⟩

/-- A session that is let in gets no lock for anybody else. -/
theorem holds_of_acquire? {b : Bool} (ha : h.acquire? session exclusive = some h')
    (hne : x ≠ session) (hh : h'.Holds x b) : h.Holds x b := by
  rcases acquire?_cases ha with ⟨-, rfl⟩ | ⟨-, -, -, rfl⟩ | ⟨-, -, rfl⟩
  · exact hh
  · rcases hh with he | hshared
    · exact absurd (Option.some.inj he).symm hne
    · exact Or.inr hshared
  · refine hh.imp_right fun ⟨hb, hx⟩ => ⟨hb, ?_⟩
    exact ((Ring.mem_toList_insert _ _ _).1 hx).resolve_left hne

theorem Sole.acquire? (hs : h.Sole) (ha : h.acquire? session exclusive = some h') : h'.Sole := by
  rcases acquire?_cases ha with ⟨-, rfl⟩ | ⟨-, -, hall, rfl⟩ | ⟨he, -, rfl⟩
  · exact hs
  · rintro s hh x hx
    cases hh
    exact hall x hx
  · intro s hh
    rw [he] at hh
    cases hh

theorem Sole.release (hs : h.Sole) (session : Nat) : (h.release session).Sole := by
  intro s hh x hx
  have hx' := ((Ring.mem_toList_erase _ _ _).1 hx).2
  simp only [LockHolders.release] at hh
  split at hh
  · cases hh
  · exact hs s hh x hx'

end LockHolders

namespace LockTable
variable {t t' : LockTable} {r : LockRequest} {table session x : Nat}

/-! ## Grants -/

/-- What a grant does to the locks, look-up by look-up. -/
structure Acquired (t : LockTable) (r : LockRequest) (t' : LockTable) : Prop where
  holders : (t.holdersOf r.table).acquire? r.session r.exclusive = some (t'.holdersOf r.table)
  others : ∀ table, table ≠ r.table → t'.holders.find? table = t.holders.find? table
  waiting : t'.waiting = t.waiting.erase r.session
  sorted : t.holders.Sorted → t'.holders.Sorted

theorem acquired (h : t.acquire? r = some t') : Acquired t r t' := by
  obtain ⟨h', hh, rfl⟩ := Option.map_eq_some_iff.1 h
  refine ⟨?_, ?_, rfl, fun hs => hs.insert _ _⟩
  · rw [hh, holdersOf, OrderedMap.find?_insert_self]
    rfl
  · exact fun table hne => OrderedMap.find?_insert_of_ne _ hne _

theorem Acquired.holdersOf_of_ne (h : Acquired t r t') (hne : table ≠ r.table) :
    t'.holdersOf table = t.holdersOf table :=
  congrArg (Option.getD · ({} : LockHolders)) (h.others table hne)

theorem Acquired.holds {b : Bool} (h : Acquired t r t') (hh : (t.holdersOf table).Holds x b) :
    (t'.holdersOf table).Holds x b := by
  by_cases ht : table = r.table
  · subst ht
    exact hh.acquire? h.holders
  · exact h.holdersOf_of_ne ht ▸ hh

theorem Acquired.holds_of_ne {b : Bool} (h : Acquired t r t') (hne : x ≠ r.session)
    (hh : (t'.holdersOf table).Holds x b) : (t.holdersOf table).Holds x b := by
  by_cases ht : table = r.table
  · subst ht
    exact LockHolders.holds_of_acquire? h.holders hne hh
  · exact h.holdersOf_of_ne ht ▸ hh

/-- The holders of a lock after a grant are those before and perhaps the one let in. -/
theorem Acquired.mem_all (h : Acquired t r t') (hx : x ∈ (t'.holdersOf table).all) :
    x = r.session ∨ x ∈ (t.holdersOf table).all := by
  by_cases ht : table = r.table
  · subst ht
    exact (LockHolders.mem_all_acquire? h.holders).1 hx
  · exact Or.inr (h.holdersOf_of_ne ht ▸ hx)

/-! ## The end of a test -/

theorem request_cases (t : LockTable) (r : LockRequest) :
    (∃ t', t.acquire? r = some t' ∧ t.request r = (.granted, t')) ∨
    (t.acquire? r = none ∧ ∃ path,
      ((t.park r).waitGraph.findCycle r.session none []).1 = .cycle path ∧
        t.request r = (.deadlock path, t.withdraw r.session)) ∨
    (t.acquire? r = none ∧ ((t.park r).waitGraph.findCycle r.session none []).1 = .noCycle ∧
      t.request r = (.parked, t.park r)) := by
  unfold request
  cases ha : t.acquire? r with
  | some t' => exact Or.inl ⟨t', rfl, rfl⟩
  | none =>
    refine Or.inr ?_
    cases hc : ((t.park r).waitGraph.findCycle r.session none []).1 with
    | cycle path => exact Or.inl ⟨rfl, path, rfl, rfl⟩
    | noCycle => exact Or.inr ⟨rfl, rfl, rfl⟩

theorem expire_cases (t : LockTable) (r : LockRequest) :
    (∃ t', t.acquire? r = some t' ∧ t.expire r = (.granted, t')) ∨
    (t.acquire? r = none ∧ t.expire r = (.timedOut, t.withdraw r.session)) := by
  unfold expire
  cases ha : t.acquire? r with
  | some t' => exact Or.inl ⟨t', rfl, rfl⟩
  | none => exact Or.inr ⟨rfl, rfl⟩

/-- A request whose time is up waits no longer. -/
theorem expire_ne_parked (t : LockTable) (r : LockRequest) : (t.expire r).1 ≠ .parked := by
  rcases expire_cases t r with ⟨t', -, h⟩ | ⟨-, h⟩ <;> rw [h] <;> intro he <;> cases he

/-! ## Giving back -/

theorem find?_unlock_of_ne {table' : Nat} (hne : table' ≠ table) :
    (t.unlock table session).holders.find? table' = t.holders.find? table' := by
  unfold unlock
  split
  · rfl
  · dsimp only
    split
    · exact OrderedMap.find?_erase_of_ne _ hne
    · exact OrderedMap.find?_insert_of_ne _ hne _

theorem holdersOf_unlock_of_ne {table' : Nat} (hne : table' ≠ table) :
    (t.unlock table session).holdersOf table' = t.holdersOf table' :=
  congrArg (Option.getD · ({} : LockHolders)) (find?_unlock_of_ne hne)

/-- What is kept of a lock that was given back: those who are left, if any. -/
theorem find?_unlock_self : (t.unlock table session).holders.find? table =
    (t.holders.find? table).bind fun h =>
      if (h.release session).isFree then none else some (h.release session) := by
  unfold unlock
  split
  · rename_i hn
    rw [hn]
    rfl
  · rename_i h hs
    rw [hs, Option.bind_some]
    dsimp only
    split
    · exact OrderedMap.find?_erase_self _ _
    · exact OrderedMap.find?_insert_self _ _ _

theorem waiting_unlock : (t.unlock table session).waiting = t.waiting := by
  unfold unlock
  split <;> rfl

/-- The holders after a lock was given back, up to what is remembered of a lock that nobody holds. -/
theorem holdersOf_unlock_self (t : LockTable) (table session : Nat) :
    (t.unlock table session).holdersOf table =
      (t.holdersOf table).release session ∨
    (t.unlock table session).holdersOf table = {} ∧
      ((t.holdersOf table).release session).isFree = true := by
  rw [holdersOf, holdersOf, find?_unlock_self]
  cases t.holders.find? table with
  | none => exact Or.inl rfl
  | some h =>
    rw [Option.bind_some, Option.getD_some]
    split
    · rename_i hf
      exact Or.inr ⟨rfl, hf⟩
    · exact Or.inl rfl

theorem exclusive_unlock : ((t.unlock table session).holdersOf table).exclusive =
    if (t.holdersOf table).exclusive = some session then none
    else (t.holdersOf table).exclusive := by
  rcases holdersOf_unlock_self t table session with h | ⟨h, hf⟩
  · rw [h]
    rfl
  · rw [h]
    exact (Option.isNone_iff_eq_none.1 (Bool.and_eq_true_iff.1 hf).1).symm

theorem mem_shared_unlock : x ∈ ((t.unlock table session).holdersOf table).shared.toList ↔
    x ≠ session ∧ x ∈ (t.holdersOf table).shared.toList := by
  rw [← Ring.mem_toList_erase]
  rcases holdersOf_unlock_self t table session with h | ⟨h, hf⟩
  · rw [h]
    rfl
  · have hnil : ((t.holdersOf table).shared.erase session).toList = [] :=
      List.isEmpty_iff.1 (Bool.and_eq_true_iff.1 hf).2
    rw [h, hnil]
    rfl

/-- Giving a lock back takes its session out. -/
theorem holds_unlock {exclusive : Bool} :
    ((t.unlock table session).holdersOf table).Holds x exclusive ↔
      x ≠ session ∧ (t.holdersOf table).Holds x exclusive := by
  unfold LockHolders.Holds
  rw [exclusive_unlock, mem_shared_unlock]
  split
  · rename_i he
    rw [he, Option.some.injEq]
    constructor
    · rintro (hn | ⟨hx, hne, hm⟩)
      · cases hn
      · exact ⟨hne, Or.inr ⟨hx, hm⟩⟩
    · rintro ⟨hne, hs | ⟨hx, hm⟩⟩
      · exact absurd hs.symm hne
      · exact Or.inr ⟨hx, hne, hm⟩
  · rename_i he
    constructor
    · rintro (hs | ⟨hx, hne, hm⟩)
      · exact ⟨fun ho => he (ho ▸ hs), Or.inl hs⟩
      · exact ⟨hne, Or.inr ⟨hx, hm⟩⟩
    · rintro ⟨hne, hs | ⟨hx, hm⟩⟩
      · exact Or.inl hs
      · exact Or.inr ⟨hx, hne, hm⟩

/-- Giving a lock back lets nobody in. -/
theorem mem_all_unlock {table' : Nat} (hx : x ∈ ((t.unlock table session).holdersOf table').all) :
    x ∈ (t.holdersOf table').all := by
  by_cases ht : table' = table
  · subst ht
    rw [LockHolders.mem_all] at hx ⊢
    rw [mem_shared_unlock, exclusive_unlock] at hx
    rcases hx with hx | hx
    · exact Or.inl hx.2
    · split at hx
      · cases hx
      · exact Or.inr hx
  · exact holdersOf_unlock_of_ne ht ▸ hx

/-! ## Safety -/

/-- Locks that are held alone are held by nobody else, and no lock is kept for nobody. -/
structure Safe (t : LockTable) : Prop where
  sorted : t.holders.Sorted
  sole : ∀ table, (t.holdersOf table).Sole
  held : ∀ table h, t.holders.find? table = some h → h.isFree = false

theorem safe_empty : Safe {} where
  sorted := OrderedMap.sorted_empty
  sole _ s h := by cases h
  held _ h hf := by cases hf

theorem Safe.acquired (h : Safe t) (ha : Acquired t r t') : Safe t' := by
  refine ⟨ha.sorted h.sorted, fun table => ?_, fun table hs hf => ?_⟩
  · by_cases ht : table = r.table
    · subst ht
      exact (h.sole r.table).acquire? ha.holders
    · exact ha.holdersOf_of_ne ht ▸ h.sole table
  · by_cases ht : table = r.table
    · subst ht
      rw [LockHolders.isFree_eq_false]
      refine ⟨r.session, ?_⟩
      have hs' : t'.holdersOf r.table = hs := by rw [holdersOf, hf]; rfl
      rw [← hs']
      exact (LockHolders.mem_all_acquire? ha.holders).2 (Or.inl rfl)
    · exact h.held table hs (ha.others table ht ▸ hf)

theorem Safe.park (h : Safe t) (r : LockRequest) : Safe (t.park r) := ⟨h.1, h.2, h.3⟩

theorem Safe.withdraw (h : Safe t) (session : Nat) : Safe (t.withdraw session) := ⟨h.1, h.2, h.3⟩

theorem Safe.request (h : Safe t) (r : LockRequest) : Safe (t.request r).2 := by
  rcases request_cases t r with ⟨t', ha, hr⟩ | ⟨-, path, -, hr⟩ | ⟨-, -, hr⟩ <;> rw [hr]
  · exact h.acquired (LockTable.acquired ha)
  · exact h.withdraw _
  · exact h.park r

theorem Safe.expire (h : Safe t) (r : LockRequest) : Safe (t.expire r).2 := by
  rcases expire_cases t r with ⟨t', ha, hr⟩ | ⟨-, hr⟩ <;> rw [hr]
  · exact h.acquired (LockTable.acquired ha)
  · exact h.withdraw _

theorem Safe.unlock (h : Safe t) (table session : Nat) : Safe (t.unlock table session) := by
  refine ⟨?_, fun table' => ?_, fun table' hs hf => ?_⟩
  · unfold LockTable.unlock
    split
    · exact h.sorted
    · dsimp only
      split
      · exact h.sorted.erase _
      · exact h.sorted.insert _ _
  · by_cases ht : table' = table
    · subst ht
      rcases holdersOf_unlock_self t table' session with he | ⟨he, -⟩
      · exact he ▸ (h.sole table').release session
      · rw [he]
        exact fun s hh => by cases hh
    · rw [holdersOf_unlock_of_ne ht]
      exact h.sole table'
  · by_cases ht : table' = table
    · subst ht
      rw [find?_unlock_self] at hf
      obtain ⟨left, -, hleft⟩ := Option.bind_eq_some_iff.1 hf
      split at hleft
      · cases hleft
      · rename_i hne
        cases hleft
        exact Bool.eq_false_of_not_eq_true hne
    · exact h.held table' hs (find?_unlock_of_ne ht ▸ hf)

/-! ## Who waits for whom -/

/-- A session that waits, and another that holds the lock it waits for. -/
def Waits (t : LockTable) (a b : Nat) : Prop :=
  ∃ table, t.waiting.find? a = some table ∧ b ∈ (t.holdersOf table).all ∧ b ≠ a

theorem waits_waitGraph (hs : t.waiting.Sorted) (a b : Nat) : t.waitGraph.Waits a b ↔ t.Waits a b := by
  unfold WaitGraph.Waits WaitGraph.blockers waitGraph
  simp only [List.mem_map, List.mem_filter, List.mem_flatMap, decide_eq_true_eq]
  constructor
  · rintro ⟨⟨e, ⟨⟨w, hw, x, ⟨hx, hne⟩, rfl⟩, rfl⟩, rfl⟩, -⟩
    exact ⟨w.2, (OrderedMap.mem_entries hs).1 hw, hx, hne⟩
  · rintro ⟨table, hf, hb, hne⟩
    refine ⟨⟨(a, b), ⟨⟨(a, table), (OrderedMap.mem_entries hs).2 hf, b, ⟨hb, hne⟩, rfl⟩, rfl⟩, rfl⟩, hne⟩

theorem waits_park_of_ne {a b : Nat} (hne : a ≠ r.session) : (t.park r).Waits a b ↔ t.Waits a b := by
  unfold Waits park
  simp only [OrderedMap.find?_insert_of_ne _ hne]
  rfl

/-- A session that is to wait closes no cycle while no other waits. -/
theorem request_of_alone (hs : t.waiting.Sorted)
    (hw : ∀ a, a ≠ r.session → t.waiting.find? a = none) (ha : t.acquire? r = none) :
    t.request r = (.parked, t.park r) := by
  rcases request_cases t r with ⟨t', hs, -⟩ | ⟨-, path, hc, -⟩ | ⟨-, -, hr⟩
  · cases hs.symm.trans ha
  · have hcycle := (WaitGraph.findCycle_cycle hc).transGen
    obtain ⟨a, -, hwaits⟩ := Relation.TransGen.tail'_iff.1 hcycle
    obtain ⟨table, hf, -, hne⟩ := (waits_waitGraph (hs.insert _ _) a r.session).1 hwaits
    have hf' : (t.waiting.insert r.session r.table).find? a = some table := hf
    rw [OrderedMap.find?_insert_of_ne _ hne.symm, hw a hne.symm] at hf'
    cases hf'
  · exact hr

/-- The first session that is to wait closes no cycle. -/
theorem request_of_none (hw : t.waiting = ∅) (ha : t.acquire? r = none) :
    t.request r = (.parked, t.park r) :=
  request_of_alone (hw ▸ OrderedMap.sorted_empty) (fun _ _ => hw ▸ rfl) ha

/-- Nobody is registered to wait more than once, and nobody waits for a session that waits for it. -/
structure Calm (t : LockTable) : Prop where
  sorted : t.waiting.Sorted
  acyclic : Acyclic t.Waits

theorem calm_empty : Calm {} where
  sorted := OrderedMap.sorted_empty
  acyclic a h := by
    obtain ⟨b, ⟨table, hf, -⟩, -⟩ := Relation.TransGen.head'_iff.1 h
    cases hf

theorem find?_erase_eq_some {m : OrderedMap Nat Nat} {a : Nat} {v : Nat}
    (h : (m.erase session).find? a = some v) : a ≠ session ∧ m.find? a = some v := by
  by_cases ha : a = session
  · rw [ha, OrderedMap.find?_erase_self] at h
    cases h
  · exact ⟨ha, OrderedMap.find?_erase_of_ne m ha ▸ h⟩

/-- A grant lets others wait for the session that was let in.  It waits for nobody any more. -/
theorem Calm.acquired (h : Calm t) (ha : Acquired t r t') : Calm t' where
  sorted := ha.waiting ▸ h.sorted.erase _
  acyclic := by
    refine h.acyclic.of_sink (s := r.session) ?_ ?_
    · rintro b ⟨table, hf, -⟩
      rw [ha.waiting, OrderedMap.find?_erase_self] at hf
      cases hf
    · rintro a b ⟨table, hf, hb, hne⟩ hbs
      rw [ha.waiting] at hf
      exact ⟨table, (find?_erase_eq_some hf).2, (ha.mem_all hb).resolve_left hbs, hne⟩

theorem Calm.withdraw (h : Calm t) (session : Nat) : Calm (t.withdraw session) where
  sorted := h.sorted.erase _
  acyclic := h.acyclic.mono fun _ _ ⟨table, hf, hb⟩ => ⟨table, (find?_erase_eq_some hf).2, hb⟩

theorem Calm.unlock (h : Calm t) (table session : Nat) : Calm (t.unlock table session) where
  sorted := waiting_unlock.symm ▸ h.sorted
  acyclic := h.acyclic.mono fun _ _ ⟨table, hf, hb, hne⟩ =>
    ⟨table, waiting_unlock (t := t) ▸ hf, mem_all_unlock hb, hne⟩

theorem sorted_park (hs : t.waiting.Sorted) (r : LockRequest) : (t.park r).waiting.Sorted :=
  hs.insert _ _

theorem waits_waitGraph_park (hs : t.waiting.Sorted) (r : LockRequest) :
    (t.park r).waitGraph.Waits = (t.park r).Waits := by
  funext a b
  exact propext (waits_waitGraph (sorted_park hs r) a b)

/-- A session that waits closes a cycle only through itself. -/
theorem Calm.acyclic_park (h : Calm t)
    (hno : ¬ Relation.TransGen (t.park r).Waits r.session r.session) : Acyclic (t.park r).Waits :=
  h.acyclic.of_source hno fun _ _ hw hne => (waits_park_of_ne hne).1 hw

theorem Calm.request (h : Calm t) (r : LockRequest) : Calm (t.request r).2 := by
  rcases request_cases t r with ⟨t', ha, hr⟩ | ⟨-, path, -, hr⟩ | ⟨-, hc, hr⟩ <;> rw [hr]
  · exact h.acquired (LockTable.acquired ha)
  · exact h.withdraw _
  · have hno := WaitGraph.findCycle_noCycle hc
    rw [waits_waitGraph_park h.sorted] at hno
    exact ⟨sorted_park h.sorted r, h.acyclic_park hno⟩

theorem Calm.expire (h : Calm t) (r : LockRequest) : Calm (t.expire r).2 := by
  rcases expire_cases t r with ⟨t', ha, hr⟩ | ⟨-, hr⟩ <;> rw [hr]
  · exact h.acquired (LockTable.acquired ha)
  · exact h.withdraw _

end LockTable

end RowStore
