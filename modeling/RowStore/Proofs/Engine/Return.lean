import Mathlib.Logic.Function.Basic
import RowStore.Proofs.Engine.Refusals
import RowStore.Session

/-!
# The way back, one change after the other

* `Engine.Spares` : from one engine to another no row is given the last key;
* `Engine.takeBack`, `UndoRecord.back` : takes back one change of a row, and what is stored then;
* `Engine.Undoes` : changes that can be taken back one by one, and the rows to which that leads;
  `Undoes.split`, `Undoes.elsewhere`, `Undoes.put_back` : a way back in two parts, and what it leaves alone;
* `Undoes.frame` : who keeps off the keys of a way back, and stores nothing that agrees with a row that it
  puts back, does not get in its way;
* `Engine.Owes` : such changes, under keys that were given; `Engine.Follows` : an engine that a change of rows
  leads to;
* `Engine.Step` : what one step of a session does with the rows and with what it is to take back; `Owes.step`;
* `Engine.Leaves` : a change of others that leaves what is owed alone; `Owes.leaves`;
* `Engine.Apart` : two ways back that do not cross;
* `Full.takeBack` : the first of the changes can be taken back.

Others may change the table in the meantime.  So a way back is told by the rows under each key and not by
engines, whose next key they move on.
-/

namespace RowStore

def UndoRecord.back (q : UndoRecord) (rows : RowKey → Option Row) : RowKey → Option Row :=
  match q.row.key with
  | none => rows
  | some key => Function.update rows key (match q.op with
    | .inserted => none
    | .deleted => some q.row)

namespace Engine
open RowStore.Action Function

variable {e e' : Engine} {r stored : Row} {q : UndoRecord} {records later : List UndoRecord}
  {rows rows' start start' : RowKey → Option Row} {key : RowKey}

/-! ## Keys -/

/-- The next key does not start over between the two engines, and no row has the last key. -/
structure Spares (e e' : Engine) : Prop where
  forth : e.nextKey ≤ e'.nextKey
  free : e'.row? lastKey = none

theorem Spares.assigned?_ne (hs : e.Spares e') (he : addRow r e = .ok stored e') :
    e.assigned? r ≠ some lastKey := by
  intro ha
  obtain ⟨key, ixs, hkey, -, -, rfl⟩ := addRow_eq_ok.1 he
  cases ha.symm.trans hkey
  have hnone := hs.free
  rw [row?_withRow_self] at hnone
  cases hnone

theorem Sound.forth (h : e.Sound) {next : RowKey} (hn : e.nextKey ≤ next) :
    Sound { e with nextKey := next } where
  sorted := h.sorted
  keyed := h.keyed
  below key r hr := UInt64.lt_of_lt_of_le (h.below key r hr) hn
  ids := h.ids
  tracks := h.tracks

/-- An engine that a change of rows leads to. -/
structure Follows (e e' : Engine) : Prop where
  full : e'.Full
  specs : e'.specs = e.specs
  forth : e.nextKey ≤ e'.nextKey

theorem Follows.refl (h : e.Full) : e.Follows e := ⟨h, rfl, UInt64.le_refl _⟩

theorem Follows.trans {e'' : Engine} (h : e.Follows e') (h' : e'.Follows e'') : e.Follows e'' :=
  ⟨h'.full, h'.specs.trans h.specs, UInt64.le_trans h.forth h'.forth⟩

/-! ## The way back -/

def takeBack (record : UndoRecord) : Action Engine Unit :=
  match record.op with
  | .inserted => removeRow record.row
  | .deleted => discard (addRow record.row)

/-- The row has all columns of the indexes, and agrees with none of the rows on a unique one. -/
structure Fits (e : Engine) (r : Row) (rows : RowKey → Option Row) : Prop where
  wide : ∀ ix ∈ e.indexes, ix.Reads r
  free : ∀ key stored, rows key = some stored → ¬ e.Clash stored r

/-- The changes can be taken back one by one, the first of the list first, which leads from some rows to
others. -/
inductive Undoes (e : Engine) : List UndoRecord → (RowKey → Option Row) → (RowKey → Option Row) → Prop where
  | nil (rows : RowKey → Option Row) : Undoes e [] rows rows
  | inserted {t : Nat} {r : Row} {key : RowKey} {earlier : List UndoRecord}
      {rows start : RowKey → Option Row} (keyed : r.key = some key) (stored : rows key = some r)
      (rest : Undoes e earlier (update rows key none) start) :
      Undoes e (⟨t, .inserted, r⟩ :: earlier) rows start
  | deleted {t : Nat} {r : Row} {key : RowKey} {earlier : List UndoRecord}
      {rows start : RowKey → Option Row} (keyed : r.key = some key) (free : rows key = none)
      (fits : e.Fits r rows) (rest : Undoes e earlier (update rows key (some r)) start) :
      Undoes e (⟨t, .deleted, r⟩ :: earlier) rows start

def Touched (records : List UndoRecord) (key : RowKey) : Prop := ∃ q ∈ records, q.row.key = some key

theorem touched_cons : Touched (q :: records) key ↔ q.row.key = some key ∨ Touched records key :=
  List.exists_mem_cons_iff ..

theorem not_touched_cons (hk : q.row.key = some key) {k : RowKey} (hn : ¬ Touched (q :: records) k) :
    k ≠ key ∧ ¬ Touched records k := by
  rw [touched_cons, not_or] at hn
  refine ⟨?_, hn.2⟩
  rintro rfl
  exact hn.1 hk

theorem touched_of_cons_of_ne (hk : q.row.key = some key) {k : RowKey} (hne : k ≠ key)
    (ht : Touched (q :: records) k) : Touched records k :=
  (touched_cons.1 ht).resolve_left fun he => hne (Option.some.inj (he.symm.trans hk))

theorem touched_append : Touched (later ++ records) key ↔ Touched later key ∨ Touched records key := by
  unfold Touched
  simp only [List.mem_append, or_and_right, exists_or]

theorem not_touched_nil : ¬ Touched [] key := by
  rintro ⟨q, hq, -⟩
  cases hq

theorem Fits.of_specs (h : e.Fits r rows) (hs : e'.specs = e.specs) : e'.Fits r rows where
  wide := reads_of_specs hs h.wide
  free key stored hr hc := h.free key stored hr ((clash_of_specs hs).1 hc)

theorem Undoes.of_specs (h : e.Undoes records rows start) (hs : e'.specs = e.specs) :
    e'.Undoes records rows start := by
  induction h with
  | nil rows => exact .nil rows
  | inserted keyed stored _ ih => exact .inserted keyed stored ih
  | deleted keyed free fits _ ih => exact .deleted keyed free (fits.of_specs hs) ih

theorem Undoes.of_nil (h : e.Undoes [] rows start) : start = rows := by
  cases h
  rfl

theorem Undoes.next (h : e.Undoes (q :: records) rows start) : e.Undoes records (q.back rows) start := by
  cases h with
  | inserted keyed _ rest =>
    unfold UndoRecord.back
    rw [keyed]
    exact rest
  | deleted keyed _ _ rest =>
    unfold UndoRecord.back
    rw [keyed]
    exact rest

/-- The last changes can be taken back without those before. -/
theorem Undoes.split (h : e.Undoes (later ++ records) rows start) :
    ∃ mid, e.Undoes later rows mid ∧ e.Undoes records mid start := by
  induction later generalizing rows with
  | nil => exact ⟨rows, .nil rows, h⟩
  | cons q later ih =>
    cases h with
    | inserted keyed stored rest =>
      obtain ⟨mid, hlater, hearlier⟩ := ih rest
      exact ⟨mid, .inserted keyed stored hlater, hearlier⟩
    | deleted keyed free fits rest =>
      obtain ⟨mid, hlater, hearlier⟩ := ih rest
      exact ⟨mid, .deleted keyed free fits hlater, hearlier⟩

/-- Under other keys nothing changes on the way back. -/
theorem Undoes.elsewhere (h : e.Undoes records rows start) (hk : ¬ Touched records key) :
    start key = rows key := by
  induction h with
  | nil rows => rfl
  | inserted keyed _ _ ih =>
    obtain ⟨hne, hlater⟩ := not_touched_cons keyed hk
    exact (ih hlater).trans (update_of_ne hne _ _)
  | deleted keyed _ _ _ ih =>
    obtain ⟨hne, hlater⟩ := not_touched_cons keyed hk
    exact (ih hlater).trans (update_of_ne hne _ _)

/-- What is stored at the end of the way back was stored, or is put back. -/
theorem Undoes.put_back (h : e.Undoes records rows start) (hr : start key = some r) :
    rows key = some r ∨ ∃ q ∈ records, q.op = .deleted ∧ q.row = r := by
  induction h with
  | nil rows => exact Or.inl hr
  | inserted _ _ _ ih =>
    rcases ih hr with hold | ⟨q, hq, hback⟩
    · rw [update_apply] at hold
      split at hold
      · cases hold
      · exact Or.inl hold
    · exact Or.inr ⟨q, List.mem_cons_of_mem _ hq, hback⟩
  | deleted _ _ _ _ ih =>
    rcases ih hr with hold | ⟨q, hq, hback⟩
    · rw [update_apply] at hold
      split at hold
      · exact Or.inr ⟨_, List.mem_cons_self, rfl, Option.some.inj hold⟩
      · exact Or.inl hold
    · exact Or.inr ⟨q, List.mem_cons_of_mem _ hq, hback⟩

/-- A row that is stored under a key of the way back was inserted. -/
theorem Undoes.inserted_of_stored (h : e.Undoes records rows start) (ht : Touched records key)
    (hr : rows key = some r) : ∃ q ∈ records, q.op = .inserted ∧ q.row = r := by
  induction h with
  | nil rows => exact absurd ht not_touched_nil
  | @inserted _ _ k _ _ _ keyed stored _ ih =>
    by_cases hk : key = k
    · subst hk
      exact ⟨_, List.mem_cons_self, rfl, Option.some.inj (stored.symm.trans hr)⟩
    · obtain ⟨q, hq, hins⟩ := ih (touched_of_cons_of_ne keyed hk ht) ((update_of_ne hk _ _).trans hr)
      exact ⟨q, List.mem_cons_of_mem _ hq, hins⟩
  | @deleted _ _ k _ _ _ keyed free _ _ ih =>
    have hk : key ≠ k := by
      rintro rfl
      cases free.symm.trans hr
    obtain ⟨q, hq, hins⟩ := ih (touched_of_cons_of_ne keyed hk ht) ((update_of_ne hk _ _).trans hr)
    exact ⟨q, List.mem_cons_of_mem _ hq, hins⟩

/-- A row that is stored under another key agrees with none of those that are put back. -/
theorem Undoes.not_clash (h : e.Undoes records rows start) (hk : ¬ Touched records key)
    (hr : rows key = some r) (hq : q ∈ records) (hop : q.op = .deleted) : ¬ e.Clash r q.row := by
  induction h with
  | nil rows => cases hq
  | inserted keyed _ _ ih =>
    obtain ⟨hne, hlater⟩ := not_touched_cons keyed hk
    rcases List.mem_cons.1 hq with rfl | hq
    · cases hop
    · exact ih hlater ((update_of_ne hne _ _).trans hr) hq
  | deleted keyed _ fits _ ih =>
    obtain ⟨hne, hlater⟩ := not_touched_cons keyed hk
    rcases List.mem_cons.1 hq with rfl | hq
    · exact fits.free _ _ hr
    · exact ih hlater ((update_of_ne hne _ _).trans hr) hq

/-- Rows that differ from others beside a way back: under other keys only, and by rows that agree with none of
those that are put back.  It leads to what was there, and to what differs. -/
structure Beside (e : Engine) (records : List UndoRecord) (rows rows' start start' : RowKey → Option Row) :
    Prop where
  keys : ∀ key, Touched records key → rows' key = rows key
  free : ∀ key r, rows' key = some r → rows' key ≠ rows key → ∀ q ∈ records, q.op = .deleted →
    ¬ e.Clash r q.row
  back : ∀ key, Touched records key → start' key = start key
  other : ∀ key, ¬ Touched records key → start' key = rows' key

theorem Beside.next {x : Option Row} (h : e.Beside (q :: records) rows rows' start start')
    (hk : q.row.key = some key) (hx : ¬ Touched records key → start key = x) :
    e.Beside records (update rows key x) (update rows' key x) start start' where
  keys k ht := by
    rw [update_apply, update_apply, h.keys k (touched_cons.2 (Or.inr ht))]
  free k r hr hne p hp := by
    have hkk : k ≠ key := by
      rintro rfl
      exact hne ((update_self k x rows').trans (update_self k x rows).symm)
    rw [update_of_ne hkk] at hr
    rw [update_of_ne hkk, update_of_ne hkk] at hne
    exact h.free k r hr hne p (List.mem_cons_of_mem _ hp)
  back k ht := h.back k (touched_cons.2 (Or.inr ht))
  other k ht := by
    by_cases hkk : k = key
    · subst hkk
      rw [h.back k (touched_cons.2 (Or.inl hk)), hx ht, update_self]
    · rw [update_of_ne hkk]
      exact h.other k fun htouched => ht (touched_of_cons_of_ne hk hkk htouched)

/-- What differs beside a way back does not get in its way. -/
theorem Undoes.frame (h : e.Undoes records rows start) (hb : e.Beside records rows rows' start start') :
    e.Undoes records rows' start' := by
  induction h generalizing rows' with
  | nil rows =>
    obtain rfl : start' = rows' := funext fun key => hb.other key not_touched_nil
    exact .nil start'
  | @inserted _ _ k _ _ _ keyed stored rest ih =>
    refine .inserted keyed ((hb.keys k (touched_cons.2 (Or.inl keyed))).trans stored) (ih (hb.next keyed ?_))
    exact fun ht => (rest.elsewhere ht).trans (update_self ..)
  | @deleted _ x k _ rows _ keyed free fits rest ih =>
    have hfits : e.Fits x rows' := by
      refine ⟨fits.wide, fun key stored hr => ?_⟩
      by_cases hsame : rows' key = rows key
      · exact fits.free key stored (hsame.symm.trans hr)
      · exact hb.free key stored hr hsame _ List.mem_cons_self rfl
    refine .deleted keyed ((hb.keys k (touched_cons.2 (Or.inl keyed))).trans free) hfits
      (ih (hb.next keyed ?_))
    exact fun ht => (rest.elsewhere ht).trans (update_self ..)

/-! ## What is owed -/

/-- The changes can be taken back, and are of keys that were given. -/
structure Owes (e : Engine) (records : List UndoRecord) (start : RowKey → Option Row) : Prop where
  undoes : e.Undoes records e.row? start
  below : ∀ key, Touched records key → key < e.nextKey

theorem owes_nil (e : Engine) : e.Owes [] e.row? := ⟨.nil _, fun _ ht => absurd ht not_touched_nil⟩

theorem Owes.split (h : e.Owes (later ++ records) start) : ∃ mid, e.Owes later mid := by
  obtain ⟨mid, hmid, -⟩ := h.undoes.split
  exact ⟨mid, hmid, fun key ht => h.below key (touched_append.2 (Or.inl ht))⟩

/-- A stored row can be put back once it is gone. -/
theorem Full.fits_removed (h : e.Full) (hr : e.row? key = some r) : e.Fits r (update e.row? key none) where
  wide ix hix := by
    obtain ⟨k, hk, -⟩ := h.mem_index hix hr
    exact TreeIndex.reads_of_keyOf? hk
  free key' stored hs := by
    have hne : key' ≠ key := by
      rintro rfl
      cases (update_self key' none e.row?).symm.trans hs
    rw [update_of_ne hne] at hs
    refine h.distinct stored (h.sound.mem_rowList.2 ⟨key', hs⟩) r (h.sound.mem_rowList.2 ⟨key, hr⟩) ?_
    rintro rfl
    exact hne (Option.some.inj ((h.sound.keyed key' stored hs).symm.trans (h.sound.keyed key stored hr)))

def Does (e e' : Engine) (q : UndoRecord) : Prop :=
  ∃ key, q.row.key = some key ∧ (q.op = .deleted ∧ e.row? key = some q.row ∧ e'.row? key = none ∨
    q.op = .inserted ∧ e.row? key = none ∧ e'.row? key = some q.row)

theorem Does.changes (h : e.Does e' q) (hk : q.row.key = some key) : e'.row? key ≠ e.row? key := by
  obtain ⟨k, hkey, h⟩ := h
  obtain rfl := Option.some.inj (hk.symm.trans hkey)
  rcases h with ⟨-, hold, hnew⟩ | ⟨-, hold, hnew⟩ <;> rw [hold, hnew] <;> exact nofun

theorem Does.removed (h : e.Does e' q) (hop : q.op = .deleted) :
    ∃ key, q.row.key = some key ∧ e.row? key = some q.row := by
  obtain ⟨key, hkey, ⟨-, hold, -⟩ | ⟨hins, -, -⟩⟩ := h
  · exact ⟨key, hkey, hold⟩
  · cases hins.symm.trans hop

/-- What one step of a session does with the rows of a table, and with the changes that the session is to take
back.  If the step is plain, it stores no row under a key that the session has not had before, but for the next
one. -/
inductive Step (t : Nat) (plain : Prop) (e e' : Engine) : List UndoRecord → List UndoRecord → Prop where
  | same {mine : List UndoRecord} (rows : e'.row? = e.row?) : Step t plain e e' mine mine
  | removed {mine : List UndoRecord} {r : Row} {key : RowKey} (keyed : r.key = some key)
      (stored : e.row? key = some r) (rows : e'.row? = update e.row? key none) :
      Step t plain e e' mine (⟨t, .deleted, r⟩ :: mine)
  | stored {mine : List UndoRecord} {r : Row} {key : RowKey} (keyed : r.key = some key)
      (free : e.row? key = none) (rows : e'.row? = update e.row? key (some r)) (below : key < e'.nextKey)
      (fresh : plain → key = e.nextKey ∨ Touched mine key) :
      Step t plain e e' mine (⟨t, .inserted, r⟩ :: mine)
  | back {mine : List UndoRecord} {q : UndoRecord} (rows : e'.row? = q.back e.row?) :
      Step t plain e e' (q :: mine) mine

section Step
variable {t : Nat} {plain : Prop} {mine mine' before : List UndoRecord}

/-- A session owes what it has done. -/
theorem Owes.step (h : e.Full) (ho : e.Owes (mine ++ before) start) (hs : Step t plain e e' mine mine')
    (hf : e.Follows e') : e'.Owes (mine' ++ before) start := by
  have hundoes := ho.undoes.of_specs hf.specs
  have hbelow : ∀ key, Touched (mine ++ before) key → key < e'.nextKey :=
    fun key ht => UInt64.lt_of_lt_of_le (ho.below key ht) hf.forth
  cases hs with
  | same rows => exact ⟨rows ▸ hundoes, hbelow⟩
  | @removed _ r key keyed stored rows =>
    constructor
    · rw [rows]
      refine .deleted keyed (update_self ..) ((h.fits_removed stored).of_specs hf.specs) ?_
      rw [update_idem, ← stored, update_eq_self]
      exact hundoes
    · intro k ht
      rcases touched_cons.1 ht with hk | ht
      · obtain rfl := Option.some.inj (keyed.symm.trans hk)
        exact UInt64.lt_of_lt_of_le (h.sound.below key r stored) hf.forth
      · exact hbelow k ht
  | @stored _ r key keyed free rows below _ =>
    constructor
    · rw [rows]
      refine .inserted keyed (update_self ..) ?_
      rw [update_idem, ← free, update_eq_self]
      exact hundoes
    · intro k ht
      rcases touched_cons.1 ht with hk | ht
      · obtain rfl := Option.some.inj (keyed.symm.trans hk)
        exact below
      · exact hbelow k ht
  | back rows => exact ⟨rows ▸ hundoes.next, fun k ht => hbelow k (touched_cons.2 (Or.inr ht))⟩

theorem Owes.next (ho : e.Owes (q :: records) start) (h : e.Full) (hf : e.Follows e')
    (rows : e'.row? = q.back e.row?) : e'.Owes records start :=
  Owes.step h (ho : e.Owes ([q] ++ records) start) (.back rows : Step q.table False e e' [q] []) hf

/-- Where a step changes what is stored, the session has changed that before, or a row was stored there, or the
key is new. -/
theorem Step.changes (hs : Step t plain e e' mine mine') (hne : e'.row? key ≠ e.row? key) :
    Touched mine key ∨ (e.row? key).isSome ∨ (plain → key = e.nextKey) := by
  by_cases hown : Touched mine key
  · exact Or.inl hown
  refine Or.inr ?_
  cases hs with
  | same rows => exact absurd (congrFun rows key) hne
  | @removed _ r k keyed stored rows =>
    by_cases hk : key = k
    · subst hk
      exact Or.inl (by rw [stored]; rfl)
    · exact absurd (by rw [rows, update_of_ne hk]) hne
  | @stored _ r k keyed free rows below fresh =>
    by_cases hk : key = k
    · subst hk
      exact Or.inr fun hplain => (fresh hplain).resolve_right hown
    · exact absurd (by rw [rows, update_of_ne hk]) hne
  | @back _ q rows =>
    have hk : q.row.key ≠ some key := fun hk => hown (touched_cons.2 (Or.inl hk))
    refine absurd ?_ hne
    rw [rows]
    unfold UndoRecord.back
    cases hq : q.row.key with
    | none => rfl
    | some k => exact update_of_ne (fun he => hk (hq.trans (congrArg some he.symm))) _ _

/-- What a session newly has to take back, it has just done. -/
theorem Step.does (hs : Step t plain e e' mine mine') (hq : q ∈ mine') : q ∈ mine ∨ e.Does e' q := by
  cases hs with
  | same rows => exact Or.inl hq
  | @removed _ r k keyed stored rows =>
    rcases List.mem_cons.1 hq with rfl | hq
    · exact Or.inr ⟨k, keyed, Or.inl ⟨rfl, stored, by rw [rows, update_self]⟩⟩
    · exact Or.inl hq
  | @stored _ r k keyed free rows below fresh =>
    rcases List.mem_cons.1 hq with rfl | hq
    · exact Or.inr ⟨k, keyed, Or.inr ⟨rfl, free, by rw [rows, update_self]⟩⟩
    · exact Or.inl hq
  | back rows => exact Or.inl (List.mem_cons_of_mem _ hq)

end Step

/-! ## What others do -/

/-- From one engine to the other, nothing changes under the keys of some changes, and no row is stored that
agrees with one that they removed. -/
structure Leaves (e e' : Engine) (records : List UndoRecord) : Prop where
  keys : ∀ key, Touched records key → e'.row? key = e.row? key
  free : ∀ key r, e'.row? key = some r → e'.row? key ≠ e.row? key → ∀ q ∈ records, q.op = .deleted →
    ¬ e.Clash r q.row

theorem Leaves.of_same (h : e'.row? = e.row?) : e.Leaves e' records where
  keys key _ := congrFun h key
  free key _ _ hne := absurd (congrFun h key) hne

/-- What is owed is still owed if others leave it alone, and leads to what was there, and to what they have
done. -/
theorem Owes.leaves (ho : e.Owes records start) (hf : e.Follows e') (hl : e.Leaves e' records)
    (hback : ∀ key, Touched records key → start' key = start key)
    (hother : ∀ key, ¬ Touched records key → start' key = e'.row? key) : e'.Owes records start' where
  undoes := (ho.undoes.frame ⟨hl.keys, hl.free, hback, hother⟩).of_specs hf.specs
  below key ht := UInt64.lt_of_lt_of_le (ho.below key ht) hf.forth

/-- No key is one of both, and no two of the rows that they removed agree on a unique index. -/
structure Apart (e : Engine) (records later : List UndoRecord) : Prop where
  keys : ∀ key, Touched records key → ¬ Touched later key
  rows : ∀ q ∈ records, q.op = .deleted → ∀ p ∈ later, p.op = .deleted → ¬ e.Clash q.row p.row

theorem Clash.symm {r r' : Row} (h : e.Clash r r') : e.Clash r' r := by
  obtain ⟨ix, hix, hc⟩ := h
  exact ⟨ix, hix, hc.symm⟩

theorem Apart.symm (h : e.Apart records later) : e.Apart later records where
  keys key hl hr := h.keys key hr hl
  rows q hq hqd p hp hpd hc := h.rows p hp hpd q hq hqd hc.symm

theorem Apart.of_specs (h : e.Apart records later) (hs : e'.specs = e.specs) : e'.Apart records later where
  keys := h.keys
  rows q hq hqd p hp hpd hc := h.rows q hq hqd p hp hpd ((clash_of_specs hs).1 hc)

/-! ## Steps of an engine -/

theorem row?_withoutRow {ixs : List TreeIndex} :
    (e.withoutRow key ixs).row? = update e.row? key none := by
  funext k
  by_cases hk : k = key
  · rw [hk, update_self, row?_withoutRow_self]
  · rw [update_of_ne hk, row?_withoutRow_of_ne hk]

theorem row?_withRow {ixs : List TreeIndex} :
    (e.withRow r key ixs).row? = update e.row? key (some { r with key := some key }) := by
  funext k
  by_cases hk : k = key
  · rw [hk, update_self, row?_withRow_self]
  · rw [update_of_ne hk, row?_withRow_of_ne hk]

/-- The first of the changes can be taken back. -/
theorem Full.takeBack (h : e.Full) (ho : e.Owes (q :: records) start) :
    ∃ e', takeBack q e = .ok () e' ∧ e.Follows e' ∧ e'.row? = q.back e.row? := by
  obtain ⟨hundoes, hbelow⟩ := ho
  cases hundoes with
  | @inserted t r key _ _ _ keyed stored rest =>
    obtain ⟨ixs, hout⟩ := h.exists_left stored
    have hr : Engine.removeRow r e = .ok () (e.withoutRow key ixs) :=
      removeRow_eq_ok.2 ⟨key, r, ixs, keyed, stored, hout, rfl⟩
    have hfull := h.removeRow r
    have hspecs := specs_removeRow r e
    rw [final_of_ok hr] at hfull hspecs
    refine ⟨_, hr, ⟨hfull, hspecs, UInt64.le_refl _⟩, ?_⟩
    unfold UndoRecord.back
    rw [keyed]
    exact row?_withoutRow
  | @deleted t r key _ _ _ keyed free fits rest =>
    have hlt := hbelow key (touched_cons.2 (Or.inl keyed))
    have hlast := ne_lastKey_of_lt hlt
    obtain ⟨e', hr, hfull, hspecs, -⟩ := h.addRow_of_free keyed free hlast fits.wide (by
      rintro ⟨r', hr', hc⟩
      obtain ⟨key', hkey'⟩ := h.sound.mem_rowList.1 hr'
      exact fits.free key' r' hkey' hc)
    obtain ⟨key', ixs, ha, -, hsame, rfl⟩ := addRow_eq_ok.1 hr
    obtain rfl : key' = key := Option.some.inj (ha.symm.trans (assigned?_of_own keyed free))
    refine ⟨_, discard_eq_ok.2 ⟨_, hr⟩, ⟨hfull, hspecs, (lt_nextAfter ha hlast).2⟩, ?_⟩
    unfold UndoRecord.back
    rw [keyed]
    exact row?_withRow.trans (by rw [← hsame])

section Steps
variable {t : Nat} {plain : Prop} {mine : List UndoRecord}

theorem Full.step_addRow (h : e.Full) (hs : e.Spares e') (he : Engine.addRow r e = .ok stored e')
    (hkey : plain → ∀ key, r.key = some key → Touched mine key) :
    e.Follows e' ∧ Step t plain e e' mine (⟨t, .inserted, stored⟩ :: mine) := by
  have hlast := hs.assigned?_ne he
  have hfull := h.addRow hlast fun _ herror => nomatch he.symm.trans herror
  have hspecs := specs_addRow r e
  rw [final_of_ok he] at hfull hspecs
  refine ⟨⟨hfull, hspecs, hs.forth⟩, ?_⟩
  obtain ⟨key, ixs, ha, -, rfl, rfl⟩ := addRow_eq_ok.1 he
  have hne : key ≠ lastKey := fun hk => hlast (hk ▸ ha)
  refine .stored rfl (h.sound.fresh ha) row?_withRow (lt_nextAfter ha hne).1 fun hplain => ?_
  cases hk : r.key with
  | none =>
    rw [assigned?_eq, hk] at ha
    exact Or.inl (Option.some.inj ha).symm
  | some own =>
    rw [assigned?_eq, hk] at ha
    dsimp only at ha
    split at ha
    · cases ha
    · cases ha
      exact Or.inr (hkey hplain key hk)

theorem Full.follows_refused (h : e.Full) (hs : e.Spares e') {cause : StoreError}
    (he : Engine.addRow r e = .error (.error cause) e') : e.Follows e' ∧ e'.row? = e.row? := by
  have hspecs := specs_addRow r e
  rw [final_of_error he] at hspecs
  rcases h.sound.addRow_refused he with ⟨-, rfl⟩ | ⟨_, -, rfl⟩
  · exact ⟨.refl h, rfl⟩
  · exact ⟨⟨h.of_contents (h.sound.forth hs.forth) (contents_claimed e r), hspecs, hs.forth⟩, rfl⟩

/-- A row that is passed as it is stored can be put back. -/
theorem Full.step_removeRow (h : e.Full)
    (hcopy : ∀ key stored, r.key = some key → e.row? key = some stored → r = stored)
    (he : Engine.removeRow r e = .ok () e') :
    e.Follows e' ∧ Step t plain e e' mine (⟨t, .deleted, r⟩ :: mine) := by
  have hfull := h.removeRow r
  have hspecs := specs_removeRow r e
  rw [final_of_ok he] at hfull hspecs
  obtain ⟨key, stored, ixs, hkey, hstored, -, rfl⟩ := removeRow_eq_ok.1 he
  obtain rfl := hcopy key stored hkey hstored
  exact ⟨⟨hfull, hspecs, UInt64.le_refl _⟩, .removed hkey hstored row?_withoutRow⟩

end Steps

end Engine
end RowStore
