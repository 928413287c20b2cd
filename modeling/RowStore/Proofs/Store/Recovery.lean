import RowStore.Proofs.Store.Turns

/-!
# Sessions can take back their own work

* `Story.orderly` : all is in order after any turns, if there is one version of each row or sessions consider
  the others;
* `sessions_take_back_their_work` : a session can go back to the start, and finds the rows that it found;
* `not_sessions_take_back_their_work_anyhow` : it cannot where another session takes the values of a row that it
  has deleted, or removes one that it has inserted, where the keys start over, or after a call has run past an end.
-/

namespace RowStore
open RowStore.Action RowStore.Store

namespace Scene
variable {s₀ : Store} {history : List Moment} {c : Scene} {t u v : Nat}

theorem orderly_start (fresh : s₀.locks = {}) (registered : s₀.detached = [])
    (regular : ∀ t, (s₀.table t).engine.Regular) :
    Orderly s₀ [] ⟨s₀, fun _ => none⟩ fun _ _ => [] := by
  have hsince : ∀ u, s₀.since s₀ u = [] := fun u => List.drop_eq_nil_of_le le_rfl
  exact {
    safe := by
      change s₀.locks.Safe
      rw [fresh]
      exact LockTable.safe_empty
    options := rfl
    registered := registered
    full := fun t => (regular t).full
    started := fun _ => le_rfl
    held := fun u r hr => by
      rw [hsince] at hr
      exact absurd hr List.not_mem_nil
    recalls := fun _ t => Engine.owes_nil (s₀.table t).engine
    known := fun _ _ _ ht => absurd ht Engine.not_touched_nil
    apart := fun _ _ _ _ => ⟨fun _ ht => absurd ht Engine.not_touched_nil, fun _ hq => absurd hq List.not_mem_nil⟩
    stands := fun u => .idle fun t => by
      unfold Settled
      rw [hsince]
      rfl }

/-- All is in order after any turns in which no call ran past an end and no key started over, if there is one
version of each row or the sessions consider each other. -/
theorem Story.orderly (story : Story s₀ history c) (fresh : s₀.locks = {})
    (registered : s₀.detached = []) (regular : ∀ t, (s₀.table t).engine.Regular)
    (spared : ∀ m ∈ history, ∀ t, (m.before.table t).engine.Spares (m.after.table t).engine)
    (calm : ∀ m ∈ history, m.panicked = false)
    (isolated : s₀.options.multiVersion = false ∨
      Considerate s₀ history ∧ ∀ m ∈ history, m.deed.Keyless) : ∃ owed, Orderly s₀ history c owed := by
  induction story with
  | start => exact ⟨_, orderly_start fresh registered regular⟩
  | @turn history c c' u d story ht ho ih =>
    rw [List.forall_mem_cons] at spared calm
    have hbefore : s₀.options.multiVersion = false ∨
        Considerate s₀ history ∧ ∀ m ∈ history, m.deed.Keyless :=
      isolated.imp_right fun ⟨hconsider, hkeyless⟩ => ⟨hconsider.1, (List.forall_mem_cons.1 hkeyless).2⟩
    obtain ⟨owed, h⟩ := ih spared.2 calm.2 hbefore
    obtain ⟨owes', hf⟩ := h.fair ht ho spared.1 calm.1
    refine ⟨_, h.turn hf (fun v hv => ht.calls_of_ne hv) fun v hv => h.leaves hf hv ?_⟩
    rw [h.options]
    refine isolated.imp_right fun ⟨hconsider, hkeyless⟩ => ⟨fun e he => hconsider.2 e he, ?_⟩
    exact fun call rest hc => story.keyless (List.forall_mem_cons.1 hkeyless).2 hc

/-- A session can always take back its own work.  Sessions insert, delete and update rows, go back to
savepoints and give locks back, one step of one session at a time.  With one version of each row, or as
long as no session in its calls removes a row that another has stored, or stores one that agrees on a unique
index with a row that another has removed, a session that is between its calls can go back to where it started.
Under every key that it has changed since it got the lock of the table, and that no other session has changed
later, it finds what was stored before its first change, be that a row or nothing; all else stays as it is.
What it has logged is all of such keys. -/
theorem sessions_take_back_their_work (fresh : s₀.locks = {}) (registered : s₀.detached = [])
    (regular : ∀ t, (s₀.table t).engine.Regular) (story : Story s₀ history c)
    (spared : ∀ m ∈ history, ∀ t, (m.before.table t).engine.Spares (m.after.table t).engine)
    (calm : ∀ m ∈ history, m.panicked = false)
    (isolated : s₀.options.multiVersion = false ∨
      Considerate s₀ history ∧ ∀ m ∈ history, m.deed.Keyless) (idle : c.calls u = none) :
    ∃ b, rollbackTo u (s₀.session u).position c.store = .ok () b ∧
      (∀ t key, (b.table t).engine.row? key =
        (original u t key history).getD ((c.store.table t).engine.row? key)) ∧
      ∀ q ∈ s₀.since c.store u, ∀ key, q.row.key = some key → (original u q.table key history).isSome := by
  obtain ⟨owed, h⟩ := story.orderly fresh registered regular spared calm isolated
  obtain ⟨later, earlier, b, w⟩ := h.goesBack idle le_rfl
  refine ⟨b, w.ok, fun t key => ?_, fun q hq key hkey => ?_⟩
  · have hnone : earlier t = [] := by
      rw [w.settled t, since, w.log, List.drop_eq_nil_of_le (List.length_take_le _ _)]
      rfl
    have hrest := w.rest t
    rw [hnone] at hrest
    exact (congrFun hrest.of_nil key).symm
  · refine h.known u q.table key ⟨q, ?_, hkey⟩
    rw [h.settled_of_idle idle q.table]
    exact List.mem_reverse.2 (List.mem_filter.2 ⟨hq, decide_eq_true rfl⟩)

/-! ### Small stories -/

/-- There is one table, whose keys do not start over, and rows are inserted without keys. -/
def Moment.Plain (m : Moment) : Prop :=
  m.deed.Keyless ∧ m.before.tables.entries.map (·.1) = [7] ∧ m.after.tables.entries.map (·.1) = [7] ∧
    (m.before.table 7).engine.nextKey ≤ (m.after.table 7).engine.nextKey ∧
      (m.after.table 7).engine.row? lastKey = none

instance (m : Moment) : Decidable m.Plain := inferInstanceAs (Decidable (_ ∧ _ ∧ _ ∧ _ ∧ _))

theorem spared_of_plain (h : ∀ m ∈ history, m.Plain) :
    ∀ m ∈ history, ∀ t, (m.before.table t).engine.Spares (m.after.table t).engine := by
  intro m hm t
  obtain ⟨-, hbefore, hafter, forth, free⟩ := h m hm
  by_cases ht : t = 7
  · subst ht
    exact ⟨forth, free⟩
  · rw [table_of_single hbefore ht, table_of_single hafter ht]
    exact ⟨UInt64.le_refl _, rfl⟩

/-- Nothing but one row is removed, and nothing but another stored, which agrees with it on no unique index. -/
structure Moment.Swaps (old new : Row) (m : Moment) : Prop where
  plain : m.Plain
  removed : ∀ r ∈ m.removed 7, r = old
  stored : ∀ r ∈ m.stored 7, r = new
  logged : ∀ p ∈ m.before.sessions.entries, ∀ q ∈ p.2.undoLog,
    q.row = if q.op = .inserted then new else old
  apart : ¬ (m.before.table 7).engine.Clash new old

instance (m : Moment) (old new : Row) : Decidable (m.Swaps old new) :=
  decidable_of_iff (m.Plain ∧ (∀ r ∈ m.removed 7, r = old) ∧ (∀ r ∈ m.stored 7, r = new) ∧
    (∀ p ∈ m.before.sessions.entries, ∀ q ∈ p.2.undoLog,
      q.row = if q.op = .inserted then new else old) ∧ ¬ (m.before.table 7).engine.Clash new old)
    ⟨fun ⟨hp, hr, hs, hl, ha⟩ => ⟨hp, hr, hs, hl, ha⟩, fun ⟨hp, hr, hs, hl, ha⟩ => ⟨hp, hr, hs, hl, ha⟩⟩

section Swaps
variable {m : Moment} {earlier : List Moment} {old new r : Row}

theorem logged_of_mem {s : Store} {q : UndoRecord} (h : q ∈ s₀.since s v) :
    ∃ p ∈ s.sessions.entries, q ∈ p.2.undoLog := by
  have hq : q ∈ (s.session v).undoLog := List.mem_of_mem_drop h
  unfold session at hq
  cases hs : s.sessions.find? v with
  | none =>
    rw [hs] at hq
    cases hq
  | some found =>
    rw [hs] at hq
    obtain ⟨p, hp, rfl⟩ := OrderedMap.exists_of_findIn hs
    exact ⟨p, hp, hq⟩

theorem mem_of_mem_ongoing (h : m ∈ ongoing v history) : m ∈ history := by
  induction history with
  | nil => cases h
  | cons m' earlier ih =>
    unfold ongoing at h
    split at h
    · split at h
      · exact List.mem_cons.2 ((List.mem_cons.1 h).imp_right ih)
      · cases h
    · exact List.mem_cons_of_mem _ (ih h)

theorem Moment.Plain.elsewhere (h : m.Plain) (ht : t ≠ 7) : m.removed t = [] ∧ m.stored t = [] := by
  obtain ⟨-, hbefore, hafter, -⟩ := h
  unfold Moment.removed Moment.stored
  rw [table_of_single hbefore ht, table_of_single hafter ht]
  exact ⟨rfl, rfl⟩

theorem Moment.Swaps.of_removed (h : m.Swaps old new) (hr : r ∈ m.removed t) : r = old := by
  by_cases ht : t = 7
  · exact h.removed r (ht ▸ hr)
  · rw [(h.plain.elsewhere ht).1] at hr
    cases hr

theorem Moment.Swaps.of_stored (h : m.Swaps old new) (hr : r ∈ m.stored t) : r = new ∧ t = 7 := by
  by_cases ht : t = 7
  · exact ⟨h.stored r (ht ▸ hr), ht⟩
  · rw [(h.plain.elsewhere ht).2] at hr
    cases hr

theorem Moment.Swaps.of_wrote (h : m.Swaps old new) (he : ∀ m ∈ earlier, m.Swaps old new)
    (hr : r ∈ wrote s₀ m.before earlier v t) : r = new := by
  rcases List.mem_append.1 hr with hr | hr
  · obtain ⟨q, hq, rfl⟩ := List.mem_map.1 hr
    obtain ⟨hq, hop⟩ := List.mem_filter.1 hq
    obtain ⟨p, hp, hlogged⟩ := logged_of_mem (List.mem_of_mem_filter hq)
    rw [h.logged p hp q hlogged, if_pos (of_decide_eq_true hop)]
  · obtain ⟨m', hm', hr⟩ := List.mem_flatMap.1 hr
    exact ((he m' (mem_of_mem_ongoing hm')).of_stored hr).1

theorem Moment.Swaps.of_freed (h : m.Swaps old new) (he : ∀ m ∈ earlier, m.Swaps old new)
    (hr : r ∈ freed s₀ m.before earlier v t) : r = old := by
  rcases List.mem_append.1 hr with hr | hr
  · obtain ⟨q, hq, rfl⟩ := List.mem_map.1 hr
    obtain ⟨hq, hop⟩ := List.mem_filter.1 hq
    obtain ⟨p, hp, hlogged⟩ := logged_of_mem (List.mem_of_mem_filter hq)
    rw [h.logged p hp q hlogged, of_decide_eq_true hop]
    rfl
  · obtain ⟨m', hm', hr⟩ := List.mem_flatMap.1 hr
    exact (he m' (mem_of_mem_ongoing hm')).of_removed hr

/-- Sessions that only swap one row for another consider each other. -/
theorem considerate_of_swaps (hne : old ≠ new) (h : ∀ m ∈ history, m.Swaps old new) :
    Considerate s₀ history := by
  induction history with
  | nil => trivial
  | cons m earlier ih =>
    obtain ⟨hm, hearlier⟩ := List.forall_mem_cons.1 h
    refine ⟨ih hearlier, fun _ _ => ⟨fun v _ t r hr hwrote => hne ?_, fun v _ t r hr r' hr' => ?_⟩⟩
    · exact (hm.of_removed hr).symm.trans (hm.of_wrote hearlier hwrote)
    · obtain ⟨rfl, rfl⟩ := hm.of_stored hr
      rw [hm.of_freed hearlier hr']
      exact hm.apart

end Swaps

section Copies
variable {e : Engine} {r : Row} {key : RowKey}

theorem isCopy_of_none (hk : r.key = some key) (h : e.row? key = none) : e.IsCopy r := by
  intro key' stored hk' hr
  obtain rfl := Option.some.inj (hk.symm.trans hk')
  cases h.symm.trans hr

theorem isCopy_of_stored (hk : r.key = some key) (h : e.row? key = some r) : e.IsCopy r := by
  intro key' stored hk' hr
  obtain rfl := Option.some.inj (hk.symm.trans hk')
  exact Option.some.inj (h.symm.trans hr)

theorem copies_delete (s : Store) (hs : (s.table 7).engine.IsCopy r) :
    ∀ t, (Call.delete 7 r).target? = some t → ∀ old ∈ (Call.delete 7 r).oldRows,
      (s.table t).engine.IsCopy old := by
  rintro _ ⟨⟩
  exact List.forall_mem_singleton.2 hs

theorem copies_insert (s : Store) (r : Row) :
    ∀ t, (Call.insert 7 r).target? = some t → ∀ old ∈ (Call.insert 7 r).oldRows,
      (s.table t).engine.IsCopy old := by
  rintro _ ⟨⟩ _ hold
  cases hold

end Copies

def versioned : Store := { storeOf twoRows none with options := { multiVersion := true } }

def added : Row := ⟨some 2, [some (.int 4)]⟩

/-- Two sessions change one table at the same time, step by step.  Session 1 deletes a row and finds it again,
while session 2 has stored another, which it has not logged yet. -/
theorem deleted_row_is_taken_back :
    ∃ history c b, Story versioned history c ∧ c.calls 1 = none ∧
      (c.store.table 7).engine.row? 0 = none ∧ (c.store.table 7).engine.row? 2 = some added ∧
      rollbackTo 1 0 c.store = .ok () b ∧
      (b.table 7).engine.row? 0 = some disputed ∧ (b.table 7).engine.row? 2 = some added := by
  suffices hs : ∃ history c, Story versioned history c ∧
      (∀ m ∈ history, m.Swaps disputed added ∧ m.panicked = false) ∧ c.calls 1 = none ∧
      (c.store.table 7).engine.row? 0 = none ∧ (c.store.table 7).engine.row? 2 = some added ∧
      original 1 7 0 history = some (some disputed) ∧ original 1 7 2 history = none by
    obtain ⟨history, c, h, hswaps, hidle, hgone, hadded, hfirst, hother⟩ := hs
    rw [forall₂_and] at hswaps
    obtain ⟨hswaps, hcalm⟩ := hswaps
    have hregular : ∀ t, (versioned.table t).engine.Regular := regular_storeOf regular_twoRows none
    obtain ⟨b, hb, hrows, -⟩ := sessions_take_back_their_work (u := 1) rfl rfl hregular h
      (spared_of_plain fun m hm => (hswaps m hm).plain) hcalm
      (Or.inr ⟨considerate_of_swaps (by decide) hswaps, fun m hm => (hswaps m hm).plain.1⟩) hidle
    refine ⟨history, c, b, h, hidle, hgone, hadded, hb, ?_, ?_⟩
    · rw [hrows, hfirst, Option.getD_some]
    · rw [hrows, hother, Option.getD_none, hadded]
  have h : Story versioned [] _ := .start
  have h := h.begin (u := 1) (.delete 7 disputed) rfl (by rintro _ ⟨⟩; rfl)
  have h := h.begin (u := 2) (.insert 7 ⟨none, [some (.int 4)]⟩) rfl (by rintro _ ⟨⟩; rfl)
  have h := h.act (u := 1) rfl (copies_delete _ (isCopy_of_stored rfl rfl))
  have h := h.act (u := 2) rfl (copies_insert _ _)
  have h := h.granted (u := 1) rfl rfl (by decide +kernel)
  have h := h.granted (u := 2) rfl rfl (by decide +kernel)
  have h := h.act (u := 1) rfl (copies_delete _ (isCopy_of_stored rfl rfl))
  have h := h.act (u := 2) rfl (copies_insert _ _)
  have h := h.act (u := 1) rfl (copies_delete _ (isCopy_of_stored rfl rfl))
  have h := h.act (u := 2) rfl (copies_insert _ _)
  have h := h.act (u := 2) rfl (copies_insert _ _)
  have h := h.act (u := 1) rfl (copies_delete _ (isCopy_of_stored rfl (by decide +kernel)))
  have h := h.act (u := 2) rfl (copies_insert _ _)
  have h := h.act (u := 1) rfl (copies_delete _ (isCopy_of_stored rfl (by decide +kernel)))
  have h := h.act (u := 2) rfl (copies_insert _ _)
  have h := h.act (u := 1) rfl (copies_delete _ (isCopy_of_none rfl (by decide +kernel)))
  have h := h.returned (u := 1) (.ok ()) rfl
  exact ⟨_, _, h, by decide +kernel, rfl, by decide +kernel, by decide +kernel, by decide +kernel,
    by decide +kernel⟩

/-- Session 2 inserts the values of a row that session 1 has deleted. -/
theorem story_value_taken : ∃ history c, Story versioned history c ∧
    (∀ m ∈ history, m.Plain ∧ m.panicked = false ∧ (m.session ≠ 1 → m.removed 7 = [])) ∧
      c.calls 1 = none ∧ succeeds (rollbackTo 1 0) c.store = false := by
  have h : Story versioned [] _ := .start
  have h := h.begin (u := 1) (.delete 7 disputed) rfl (by rintro _ ⟨⟩; rfl)
  have h := h.begin (u := 2) (.insert 7 ⟨none, [some (.int 1)]⟩) rfl (by rintro _ ⟨⟩; rfl)
  have h := h.act (u := 1) rfl (copies_delete _ (isCopy_of_stored rfl rfl))
  have h := h.act (u := 2) rfl (copies_insert _ _)
  have h := h.granted (u := 1) rfl rfl (by decide +kernel)
  have h := h.granted (u := 2) rfl rfl (by decide +kernel)
  have h := h.act (u := 1) rfl (copies_delete _ (isCopy_of_stored rfl rfl))
  have h := h.act (u := 2) rfl (copies_insert _ _)
  have h := h.act (u := 1) rfl (copies_delete _ (isCopy_of_stored rfl rfl))
  have h := h.act (u := 2) rfl (copies_insert _ _)
  have h := h.act (u := 2) rfl (copies_insert _ _)
  have h := h.act (u := 2) rfl (copies_insert _ _)
  have h := h.act (u := 1) rfl (copies_delete _ (isCopy_of_stored rfl (by decide +kernel)))
  have h := h.act (u := 1) rfl (copies_delete _ (isCopy_of_stored rfl (by decide +kernel)))
  have h := h.act (u := 1) rfl (copies_delete _ (isCopy_of_none rfl (by decide +kernel)))
  have h := h.returned (u := 1) (.ok ()) rfl
  have h := h.act (u := 2) rfl (copies_insert _ _)
  exact ⟨_, _, h, by decide +kernel, rfl, by decide +kernel⟩

/-- Session 2 deletes the row that session 1 has inserted. -/
theorem story_row_removed : ∃ history c, Story versioned history c ∧
    (∀ m ∈ history, m.Plain ∧ m.panicked = false ∧ (m.session ≠ 1 → m.stored 7 = [])) ∧
      c.calls 1 = none ∧ succeeds (rollbackTo 1 0) c.store = false := by
  have h : Story versioned [] _ := .start
  have h := h.begin (u := 1) (.insert 7 ⟨none, [some (.int 4)]⟩) rfl (by rintro _ ⟨⟩; rfl)
  have h := h.begin (u := 2) (.delete 7 added) rfl (by rintro _ ⟨⟩; rfl)
  have h := h.act (u := 1) rfl (copies_insert _ _)
  have h := h.act (u := 2) rfl (copies_delete _ (isCopy_of_none rfl rfl))
  have h := h.granted (u := 1) rfl rfl (by decide +kernel)
  have h := h.granted (u := 2) rfl rfl (by decide +kernel)
  have h := h.act (u := 2) rfl (copies_delete _ (isCopy_of_none rfl rfl))
  have h := h.act (u := 1) rfl (copies_insert _ _)
  have h := h.act (u := 2) rfl (copies_delete _ (isCopy_of_none rfl rfl))
  have h := h.act (u := 2) rfl (copies_delete _ (isCopy_of_none rfl rfl))
  have h := h.act (u := 1) rfl (copies_insert _ _)
  have h := h.act (u := 1) rfl (copies_insert _ _)
  have h := h.act (u := 1) rfl (copies_insert _ _)
  have h := h.act (u := 1) rfl (copies_insert _ _)
  have h := h.act (u := 1) rfl (copies_insert _ _)
  have h := h.returned (u := 1) (.ok ()) rfl
  have h := h.act (u := 2) rfl (copies_delete _ (isCopy_of_stored rfl (by decide +kernel)))
  exact ⟨_, _, h, by decide +kernel, rfl, by decide +kernel⟩

/-- A row of two values under two unique indexes, in a table that has one column. -/
def paired : Engine :=
  { table := 7
    name := "T"
    rows := ⟨[(0, ⟨some 0, [some (.int 5), some (.int 6)]⟩)]⟩
    indexes := [⟨⟨1, "BY_ID", [⟨0, false⟩], .distinct, none⟩, "T", ⟨⟨[([.int 5], [0])]⟩⟩⟩,
      ⟨⟨2, "BY_OTHER", [⟨1, false⟩], .distinct, none⟩, "T", ⟨⟨[([.int 6], [0])]⟩⟩⟩]
    nextKey := 1
    modification := 1 }

theorem regular_paired : paired.Regular := by
  refine ⟨7, "T", [.stored 0, .assigned 0, .attached 2 true, .attached 1 true], ?_, by decide, ?_⟩
  · exact .done (.addRow ⟨none, [some (.int 5), some (.int 6)]⟩)
      (.done (.addIndex ⟨2, "BY_OTHER", [⟨1, false⟩], .distinct, none⟩ true)
        (.done (.addIndex ⟨1, "BY_ID", [⟨0, false⟩], .distinct, none⟩ true) .start rfl) rfl) rfl
  · simp only [paired, List.forall_mem_cons]
    exact ⟨rfl, rfl, fun _ hix => absurd hix List.not_mem_nil⟩

def wide : Row := ⟨some 0, [some (.int 5), some (.int 6)]⟩

def narrowing : Call := .update 7 (fun _ => false) [(wide, ⟨none, [some (.int 5)]⟩)]

/-- The replacement runs past an end, and leaves an entry in the first index for which the old row cannot be put
back. -/
theorem story_past_an_end : ∃ history c, Story (storeOf paired none) history c ∧
    (∀ m ∈ history, m.Plain) ∧ c.calls 1 = none ∧ succeeds (rollbackTo 1 0) c.store = false := by
  have hcopies : ∀ s : Store, (s.table 7).engine.IsCopy wide → ∀ t, narrowing.target? = some t →
      ∀ r ∈ narrowing.oldRows, (s.table t).engine.IsCopy r := by
    rintro s hs _ ⟨⟩
    exact List.forall_mem_singleton.2 hs
  have h : Story (storeOf paired none) [] _ := .start
  have h := h.begin (u := 1) narrowing rfl (by rintro _ ⟨⟩; rfl)
  have h := h.act (u := 1) rfl (hcopies _ (isCopy_of_stored rfl rfl))
  have h := h.granted (u := 1) rfl rfl (by decide +kernel)
  have h := h.act (u := 1) rfl (hcopies _ (isCopy_of_stored rfl rfl))
  have h := h.act (u := 1) rfl (hcopies _ (isCopy_of_stored rfl rfl))
  have h := h.act (u := 1) rfl (hcopies _ (isCopy_of_stored rfl rfl))
  have h := h.act (u := 1) rfl (hcopies _ (isCopy_of_stored rfl rfl))
  have h := h.act (u := 1) rfl (hcopies _ (isCopy_of_none rfl rfl))
  have h := h.act (u := 1) rfl (hcopies _ (isCopy_of_none rfl rfl))
  have h := h.returned (u := 1) (.error .outOfRange) rfl
  exact ⟨_, _, h, by decide +kernel, rfl, by decide +kernel⟩

/-- A row is inserted where the keys have started over, in the place of another. -/
theorem story_started_over : ∃ history c, Story (storeOf startedOver none) history c ∧
    (∀ m ∈ history, m.deed.Keyless ∧ m.panicked = false) ∧ c.calls 1 = none ∧
      (original 1 7 0 history).getD ((c.store.table 7).engine.row? 0) = some disputed ∧
        ((final (rollbackTo 1 0) c.store).table 7).engine.row? 0 = none := by
  have h : Story (storeOf startedOver none) [] _ := .start
  have h := h.begin (u := 1) (.insert 7 ⟨none, [some (.int 4)]⟩) rfl (by rintro _ ⟨⟩; rfl)
  have h := h.act (u := 1) rfl (copies_insert _ _)
  have h := h.granted (u := 1) rfl rfl (by decide +kernel)
  have h := h.act (u := 1) rfl (copies_insert _ _)
  have h := h.act (u := 1) rfl (copies_insert _ _)
  have h := h.act (u := 1) rfl (copies_insert _ _)
  have h := h.act (u := 1) rfl (copies_insert _ _)
  have h := h.act (u := 1) rfl (copies_insert _ _)
  have h := h.act (u := 1) rfl (copies_insert _ _)
  have h := h.returned (u := 1) (.ok ()) rfl
  exact ⟨_, _, h, by decide +kernel, rfl, by decide +kernel, by decide +kernel⟩

/-- A story in which rows are inserted without keys, from a start at which no session has a lock. -/
structure Ordinary (s₀ : Store) (history : List Moment) (c : Scene) : Prop where
  fresh : s₀.locks = {}
  registered : s₀.detached = []
  keyless : ∀ m ∈ history, m.deed.Keyless
  story : Story s₀ history c

/-- No key has started over, and none does. -/
structure Unwrapped (s₀ : Store) (history : List Moment) : Prop where
  regular : ∀ t, (s₀.table t).engine.Regular
  spared : ∀ m ∈ history, ∀ t, (m.before.table t).engine.Spares (m.after.table t).engine

/-- The session, if it is between its calls, can go back to the start, and finds what it found. -/
def TakesBack (s₀ : Store) (history : List Moment) (c : Scene) (u : Nat) : Prop :=
  c.calls u = none → ∃ b, rollbackTo u (s₀.session u).position c.store = .ok () b ∧
    ∀ t key, (b.table t).engine.row? key =
      (original u t key history).getD ((c.store.table t).engine.row? key)

/-- With several versions of rows, another session can insert the values of a row that a session has deleted, or
delete a row that it has inserted, which the session then cannot take back.  In all modes, where the keys of a
table start over, an insert takes the place of another row, which is lost when the insert is taken back, and a
call that runs past an end leaves entries for which a deleted row cannot be put back. -/
theorem not_sessions_take_back_their_work_anyhow :
    (¬ ∀ (s₀ : Store) (history : List Moment) (c : Scene) (u : Nat),
      Ordinary s₀ history c → Unwrapped s₀ history → (∀ m ∈ history, m.panicked = false) →
      (∀ m ∈ history, m.session ≠ u → ∀ t, m.removed t = []) → TakesBack s₀ history c u) ∧
    (¬ ∀ (s₀ : Store) (history : List Moment) (c : Scene) (u : Nat),
      Ordinary s₀ history c → Unwrapped s₀ history → (∀ m ∈ history, m.panicked = false) →
      (∀ m ∈ history, m.session ≠ u → ∀ t, m.stored t = []) → TakesBack s₀ history c u) ∧
    (¬ ∀ (s₀ : Store) (history : List Moment) (c : Scene) (u : Nat), s₀.options.multiVersion = false →
      Ordinary s₀ history c →
      (∀ t, ∃ table name events, Engine.Reached table name events (s₀.table t).engine ∧
        ∀ ix ∈ (s₀.table t).engine.indexes, Engine.Whole ix.spec.id events) →
      (∀ m ∈ history, m.panicked = false) → TakesBack s₀ history c u) ∧
    ¬ ∀ (s₀ : Store) (history : List Moment) (c : Scene) (u : Nat), s₀.options.multiVersion = false →
      Ordinary s₀ history c → Unwrapped s₀ history → TakesBack s₀ history c u := by
  have hfails : ∀ {s₀ history c}, c.calls 1 = none → (s₀.session 1).position = 0 →
      succeeds (rollbackTo 1 0) c.store = false → ¬ TakesBack s₀ history c 1 := by
    intro s₀ history c hidle hposition hfails hall
    obtain ⟨b, hb, -⟩ := hall hidle
    rw [hposition] at hb
    cases hfails.symm.trans (succeeds_of_ok hb)
  have hregular : ∀ t, (versioned.table t).engine.Regular := regular_storeOf regular_twoRows none
  refine ⟨fun hall => ?_, fun hall => ?_, fun hall => ?_, fun hall => ?_⟩
  · obtain ⟨history, c, h, hplain, hidle, hback⟩ := story_value_taken
    refine hfails hidle rfl hback (hall _ _ _ 1 ⟨rfl, rfl, fun m hm => (hplain m hm).1.1, h⟩
      ⟨hregular, spared_of_plain fun m hm => (hplain m hm).1⟩ (fun m hm => (hplain m hm).2.1) ?_)
    intro m hm hne t
    by_cases ht : t = 7
    · exact ht ▸ (hplain m hm).2.2 hne
    · exact ((hplain m hm).1.elsewhere ht).1
  · obtain ⟨history, c, h, hplain, hidle, hback⟩ := story_row_removed
    refine hfails hidle rfl hback (hall _ _ _ 1 ⟨rfl, rfl, fun m hm => (hplain m hm).1.1, h⟩
      ⟨hregular, spared_of_plain fun m hm => (hplain m hm).1⟩ (fun m hm => (hplain m hm).2.1) ?_)
    intro m hm hne t
    by_cases ht : t = 7
    · exact ht ▸ (hplain m hm).2.2 hne
    · exact ((hplain m hm).1.elsewhere ht).2
  · obtain ⟨history, c, h, hplain, hidle, hfirst, hlost⟩ := story_started_over
    have hreached : ∀ t, ∃ table name events,
        Engine.Reached table name events ((storeOf startedOver none).table t).engine ∧
          ∀ ix ∈ ((storeOf startedOver none).table t).engine.indexes, Engine.Whole ix.spec.id events := by
      intro t
      by_cases ht : t = 7
      · subst ht
        obtain ⟨events, hr⟩ := reached_startedOver
        exact ⟨7, "T", events, hr, fun _ hix => absurd hix List.not_mem_nil⟩
      · rw [table_of_single rfl ht]
        exact ⟨t, "", [], .start, fun _ hix => absurd hix List.not_mem_nil⟩
    obtain ⟨b, hb, hrows⟩ := hall _ _ _ 1 rfl ⟨rfl, rfl, fun m hm => (hplain m hm).1, h⟩ hreached
      (fun m hm => (hplain m hm).2) hidle
    have hrow := hrows 7 0
    rw [hfirst, ← final_of_ok hb] at hrow
    cases hlost.symm.trans hrow
  · obtain ⟨history, c, h, hplain, hidle, hback⟩ := story_past_an_end
    exact hfails hidle rfl hback (hall _ _ _ 1 rfl ⟨rfl, rfl, fun m hm => (hplain m hm).1, h⟩
      ⟨regular_storeOf regular_paired none, spared_of_plain hplain⟩)

end Scene
end RowStore
