import Mathlib.Data.List.Forall2
import RowStore.Engine.Basic
import RowStore.Proofs.Action
import RowStore.Proofs.Index.Entries

/-!
# Rows, keys and indexes belong together

* `Engine.assigned?` : the key that a row is given, if it is given one; `Engine.nextAfter` : the next
  key from then on;
* `Engine.Sound` : rows stand under their keys, below the next one, and every index tracks them;
* `enterAll_eq_ok`, `enterAll_refused` : a row goes into all indexes or, if it is refused, into none;
* `addRow_eq_ok`, `addRow_eq_error`, `removeRow_eq_ok`, `removeRow_eq_error` : what a change of rows does,
  and how it fails;
* `Sound.addRow_refused`, `removeRow_refused` : a change that is refused changes no rows and no indexes;
* `Sound.not_refuses`, `Sound.refuses` : a row is refused by the first index that holds its values.
-/

namespace RowStore

/-- The last key there is, `2 ^ 64 - 1`.  After it the next key starts over. -/
def lastKey : RowKey := 0xffffffffffffffff

theorem lt_add_one_of_ne_lastKey {key : RowKey} (h : key ≠ lastKey) : key < key + 1 := by
  have hlt := key.toNat_lt
  have hne : key.toNat ≠ 0xffffffffffffffff := fun he => h (UInt64.toNat_inj.1 he)
  rw [UInt64.lt_iff_toNat_lt, UInt64.toNat_add]
  have hone : (1 : UInt64).toNat = 1 := rfl
  omega

theorem ne_lastKey_of_lt {key next : RowKey} (h : key < next) : key ≠ lastKey := by
  rintro rfl
  have hlt := next.toNat_lt
  have hlast : lastKey.toNat = 0xffffffffffffffff := rfl
  rw [UInt64.lt_iff_toNat_lt, hlast] at h
  omega

theorem RowKey.le_max (a b : RowKey) : a ≤ max a b ∧ b ≤ max a b := by
  change a ≤ (if a ≤ b then b else a) ∧ b ≤ (if a ≤ b then b else a)
  split
  · rename_i h
    exact ⟨h, UInt64.le_refl b⟩
  · rename_i h
    exact ⟨UInt64.le_refl a, UInt64.le_of_lt (UInt64.not_le.1 h)⟩

namespace Engine

/-- The key that a row is given on its way into the indexes; none if its own is taken. -/
def assigned? (e : Engine) (r : Row) : Option RowKey :=
  match claimKey r e with
  | .ok key _ => some key
  | .error _ _ => none

def nextAfter (e : Engine) (r : Row) : RowKey :=
  match r.key with
  | some key => max e.nextKey (key + 1)
  | none => e.nextKey + 1

/-- Rows stand under their keys, below the next key; indexes have numbers of their own and track the
rows. -/
structure Sound (e : Engine) : Prop where
  sorted : e.rows.Sorted
  keyed : ∀ key r, e.row? key = some r → r.key = some key
  below : ∀ key r, e.row? key = some r → key < e.nextKey
  ids : (e.indexes.map (·.spec.id)).Nodup
  tracks : ∀ ix ∈ e.indexes, ix.Tracks e.rows

theorem sound_empty (table : Nat) (name : String) : Sound { table := table, name := name } where
  sorted := OrderedMap.sorted_empty
  keyed _ _ h := by cases h
  below _ _ h := by cases h
  ids := List.nodup_nil
  tracks _ h := absurd h List.not_mem_nil

/-! ## Keys -/

section Keys
variable {e : Engine} {r : Row} {key : RowKey}

theorem claimKey_eq (e : Engine) (r : Row) : claimKey r e =
    match r.key with
    | some key =>
      if e.rows.contains key then
        .error (.error (.internal ("row key " ++ key.render ++ " already exists in `" ++ e.name ++ "`"))) e
      else .ok key { e with nextKey := max e.nextKey (key + 1) }
    | none => .ok e.nextKey { e with nextKey := e.nextKey + 1 } := by
  unfold claimKey
  rw [Action.get_bind]
  cases r.key with
  | none => rfl
  | some own =>
    dsimp only
    split
    · rfl
    · rfl

theorem assigned?_eq (e : Engine) (r : Row) : e.assigned? r =
    match r.key with
    | some key => if e.rows.contains key then none else some key
    | none => some e.nextKey := by
  unfold assigned?
  rw [claimKey_eq]
  cases r.key with
  | none => rfl
  | some own =>
    dsimp only
    cases e.rows.contains own <;> rfl

theorem assigned?_of_own (hk : r.key = some key) (h : e.row? key = none) :
    e.assigned? r = some key := by
  have hc : ¬ e.rows.contains key = true := Option.not_isSome_iff_eq_none.2 h
  rw [assigned?_eq, hk]
  exact if_neg hc

theorem assigned?_ne_of_own {k : RowKey} (hk : r.key = some key) (h : key ≠ k) :
    e.assigned? r ≠ some k := by
  rw [assigned?_eq, hk]
  dsimp only
  split
  · exact Option.some_ne_none k |>.symm
  · exact fun he => h (Option.some.inj he)

theorem assigned?_of_free (h : ∀ key, r.key = some key → e.row? key = none) :
    ∃ key, e.assigned? r = some key := by
  cases hk : r.key with
  | none => exact ⟨e.nextKey, by rw [assigned?_eq, hk]⟩
  | some own => exact ⟨own, assigned?_of_own hk (h own hk)⟩

theorem claimKey_of_assigned (h : e.assigned? r = some key) :
    claimKey r e = .ok key { e with nextKey := e.nextAfter r } := by
  rw [assigned?_eq] at h
  rw [claimKey_eq]
  unfold nextAfter
  cases hk : r.key with
  | none =>
    rw [hk] at h
    cases h
    rfl
  | some own =>
    rw [hk] at h
    dsimp only at h ⊢
    split at h
    · cases h
    · rename_i hc
      cases h
      rw [if_neg hc]

theorem claimKey_of_taken (h : e.assigned? r = none) :
    ∃ what, claimKey r e = .error (.error (.internal what)) e := by
  rw [assigned?_eq] at h
  rw [claimKey_eq]
  cases hk : r.key with
  | none =>
    rw [hk] at h
    cases h
  | some own =>
    rw [hk] at h
    dsimp only at h ⊢
    split at h
    · rename_i hc
      rw [if_pos hc]
      exact ⟨_, rfl⟩
    · cases h

/-- A stored row has not the last key. -/
theorem Sound.ne_lastKey (h : e.Sound) (hr : e.row? key = some r) : key ≠ lastKey :=
  ne_lastKey_of_lt (h.below key r hr)

/-- A key that is assigned is free. -/
theorem Sound.fresh (h : e.Sound) (ha : e.assigned? r = some key) : e.row? key = none := by
  rw [assigned?_eq] at ha
  split at ha
  · split at ha
    · cases ha
    · rename_i hc
      cases ha
      exact Option.not_isSome_iff_eq_none.1 hc
  · cases ha
    cases hr : e.row? e.nextKey with
    | none => rfl
    | some r' => exact absurd (h.below _ _ hr) (UInt64.lt_irrefl _)

/-- Unless it is the last one, the key assigned is below the next one from then on, which never goes
back. -/
theorem lt_nextAfter (ha : e.assigned? r = some key) (hl : key ≠ lastKey) :
    key < e.nextAfter r ∧ e.nextKey ≤ e.nextAfter r := by
  rw [assigned?_eq] at ha
  unfold nextAfter
  split at ha
  · split at ha
    · cases ha
    · cases ha
      obtain ⟨hold, hnew⟩ := RowKey.le_max e.nextKey (key + 1)
      exact ⟨UInt64.lt_of_lt_of_le (lt_add_one_of_ne_lastKey hl) hnew, hold⟩
  · cases ha
    have hlt := lt_add_one_of_ne_lastKey hl
    exact ⟨hlt, UInt64.le_of_lt hlt⟩

end Keys

/-! ## All indexes at once -/

theorem exists_mem_of_forall₂ {α β : Type} {R : α → β → Prop} {xs : List α} {ys : List β}
    (h : List.Forall₂ R xs ys) {y : β} (hy : y ∈ ys) : ∃ x ∈ xs, R x y := by
  induction h with
  | nil => cases hy
  | cons hr _ ih =>
    rcases List.mem_cons.1 hy with rfl | hy
    · exact ⟨_, List.mem_cons_self, hr⟩
    · obtain ⟨x, hx, hr⟩ := ih hy
      exact ⟨x, List.mem_cons_of_mem _ hx, hr⟩

theorem exists_forall₂ {α β : Type} {R : α → β → Prop} {xs : List α} (h : ∀ x ∈ xs, ∃ y, R x y) :
    ∃ ys, List.Forall₂ R xs ys := by
  induction xs with
  | nil => exact ⟨[], .nil⟩
  | cons x xs ih =>
    obtain ⟨y, hy⟩ := h x List.mem_cons_self
    obtain ⟨ys, hys⟩ := ih fun x' hx' => h x' (List.mem_cons_of_mem _ hx')
    exact ⟨y :: ys, .cons hy hys⟩

section Indexes
variable {r : Row} {key : RowKey} {ixs ixs' : List TreeIndex}

theorem enterAll_eq_ok : enterAll r key ixs = (.ok (), ixs') ↔
    List.Forall₂ (fun ix ix' => ix.enter r key = .ok ix') ixs ixs' := by
  induction ixs generalizing ixs' with
  | nil => simp [enterAll, eq_comm]
  | cons ix ixs ih =>
    rw [List.forall₂_cons_left_iff]
    simp only [← ih]
    rw [enterAll]
    cases he : ix.enter r key with
    | error fault => simp
    | ok entered =>
      rcases hr : enterAll r key ixs with ⟨(cause | ⟨⟩) | ⟨⟩, rest⟩
      · cases hl : entered.leave r key <;> simp [hl]
      · simp
      · simp [eq_comm]

/-- The fault is that of the first index that does not take the row. -/
theorem enterAll_eq_error {fault : Fault} (h : enterAll r key ixs = (.error fault, ixs')) :
    ∃ before ix after, ixs = before ++ ix :: after ∧
      (∀ i ∈ before, ∃ i', i.enter r key = .ok i') ∧ ix.enter r key = .error fault := by
  induction ixs generalizing ixs' with
  | nil => cases h
  | cons ix ixs ih =>
    unfold enterAll at h
    cases he : ix.enter r key with
    | error first =>
      rw [he] at h
      cases h
      exact ⟨[], ix, ixs, rfl, fun _ hi => absurd hi List.not_mem_nil, he⟩
    | ok entered =>
      rw [he] at h
      rcases hr : enterAll r key ixs with ⟨later | ⟨⟩, rest⟩
      · rw [hr] at h
        obtain rfl : later = fault := by
          cases later with
          | outOfRange =>
            cases h
            rfl
          | error cause =>
            dsimp only at h
            split at h <;> cases h <;> rfl
        obtain ⟨before, bad, after, rfl, hbefore, hbad⟩ := ih hr
        refine ⟨ix :: before, bad, after, rfl, ?_, hbad⟩
        intro i hi
        rcases List.mem_cons.1 hi with rfl | hi
        · exact ⟨entered, he⟩
        · exact hbefore i hi
      · rw [hr] at h
        cases h

/-- Where a row under a fresh key is refused, all indexes are left as they were. -/
theorem enterAll_refused {cause : StoreError} (hwf : ∀ ix ∈ ixs, ix.map.WellFormed)
    (fresh : ∀ ix ∈ ixs, ∀ p ∈ ix.map.toList, p.2 ≠ key)
    (h : enterAll r key ixs = (.error (.error cause), ixs')) : ixs' = ixs := by
  induction ixs generalizing ixs' with
  | nil => cases h
  | cons ix ixs ih =>
    unfold enterAll at h
    cases he : ix.enter r key with
    | error first =>
      rw [he] at h
      cases h
      rfl
    | ok entered =>
      rw [he] at h
      have hback := TreeIndex.leave_enter (hwf ix List.mem_cons_self) (fresh ix List.mem_cons_self) he
      rcases hr : enterAll r key ixs with ⟨(later | ⟨⟩) | ⟨⟩, rest⟩
      · rw [hr] at h
        dsimp only at h
        rw [hback] at h
        cases h
        rw [ih (fun i hi => hwf i (List.mem_cons_of_mem _ hi))
          (fun i hi => fresh i (List.mem_cons_of_mem _ hi)) hr]
      · rw [hr] at h
        cases h
      · rw [hr] at h
        cases h

theorem leaveAll_eq_ok : leaveAll r key ixs = (.ok (), ixs') ↔
    List.Forall₂ (fun ix ix' => ix.leave r key = .ok ix') ixs ixs' := by
  induction ixs generalizing ixs' with
  | nil => simp [leaveAll, eq_comm]
  | cons ix ixs ih =>
    rw [List.forall₂_cons_left_iff]
    simp only [← ih]
    rw [leaveAll]
    cases he : ix.leave r key with
    | error fault => simp
    | ok left => rcases hr : leaveAll r key ixs with ⟨fault | ⟨⟩, rest⟩ <;> simp [eq_comm]

/-- An index that does not let a row go runs past its end.  The row is out of those before. -/
theorem leaveAll_eq_error {fault : Fault} (h : leaveAll r key ixs = (.error fault, ixs')) :
    fault = .outOfRange ∧ List.Forall₂ (fun ix ix' => ix' = ix ∨ ix.leave r key = .ok ix') ixs ixs' := by
  induction ixs generalizing ixs' with
  | nil => cases h
  | cons ix ixs ih =>
    unfold leaveAll at h
    cases he : ix.leave r key with
    | error first =>
      rw [he] at h
      cases h
      refine ⟨?_, .cons (Or.inl rfl) (List.forall₂_same.2 fun _ _ => Or.inl rfl)⟩
      unfold TreeIndex.leave at he
      split at he <;> cases he
      rfl
    | ok left =>
      rw [he] at h
      rcases hr : leaveAll r key ixs with ⟨later | ⟨⟩, rest⟩
      · rw [hr] at h
        cases h
        exact ⟨(ih hr).1, .cons (Or.inr he) (ih hr).2⟩
      · rw [hr] at h
        cases h

/-- Entering and leaving change the entries of an index only. -/
theorem map_eq_of_forall₂ {γ : Type} {R : TreeIndex → TreeIndex → Prop} {f : TreeIndex → γ}
    (hR : ∀ ix ix', R ix ix' → f ix' = f ix) (h : List.Forall₂ R ixs ixs') :
    ixs'.map f = ixs.map f := by
  induction h with
  | nil => rfl
  | cons hr _ ih => rw [List.map_cons, List.map_cons, hR _ _ hr, ih]

end Indexes

/-! ## Changes of rows -/

section Rows
variable {e e' : Engine} {r stored : Row} {key : RowKey}

def claimed (e : Engine) (r : Row) : Engine := { e with nextKey := e.nextAfter r }

def withRow (e : Engine) (r : Row) (key : RowKey) (ixs : List TreeIndex) : Engine :=
  { e with
    nextKey := e.nextAfter r
    indexes := ixs
    rows := e.rows.insert key { r with key := some key }
    modification := e.modification + 1 }

def withoutRow (e : Engine) (key : RowKey) (ixs : List TreeIndex) : Engine :=
  { e with
    indexes := ixs
    rows := e.rows.erase key
    modification := e.modification + 1 }

/-- The engine once the row under a key is lost because an index ran past its end. -/
def lostRow (e : Engine) (key : RowKey) (ixs : List TreeIndex) : Engine :=
  { e with
    indexes := ixs
    rows := e.rows.erase key }

theorem addRow_of_assigned (ha : e.assigned? r = some key) : addRow r e =
    match enterAll r key e.indexes with
    | (.error fault, ixs) => .error fault { e.claimed r with indexes := ixs }
    | (.ok (), ixs) => .ok { r with key := some key } (e.withRow r key ixs) := by
  unfold addRow
  rw [Action.bind_of_ok (claimKey_of_assigned ha), Action.get_bind]
  dsimp only
  rcases enterAll r key e.indexes with ⟨fault | ⟨⟩, ixs⟩
  · rfl
  · rfl

theorem addRow_eq_ok : addRow r e = .ok stored e' ↔ ∃ key ixs, e.assigned? r = some key ∧
    List.Forall₂ (fun ix ix' => ix.enter r key = .ok ix') e.indexes ixs ∧
    stored = { r with key := some key } ∧ e' = e.withRow r key ixs := by
  cases ha : e.assigned? r with
  | none =>
    obtain ⟨what, hc⟩ := claimKey_of_taken ha
    unfold addRow
    rw [Action.bind_of_error hc]
    simp
  | some key =>
    rw [addRow_of_assigned ha]
    constructor
    · intro he
      rcases hall : enterAll r key e.indexes with ⟨fault | ⟨⟩, ixs⟩
      · rw [hall] at he
        cases he
      · rw [hall] at he
        cases he
        exact ⟨key, ixs, rfl, enterAll_eq_ok.1 hall, rfl, rfl⟩
    · rintro ⟨_, ixs, hk, hall, rfl, rfl⟩
      cases hk
      rw [enterAll_eq_ok.2 hall]

/-- A row that is not stored has a taken key, or the fault is that of the first index that does not take
it. -/
theorem addRow_eq_error {fault : Fault} (he : addRow r e = .error fault e') :
    (e.assigned? r = none ∧ e' = e ∧ ∃ what, fault = .error (.internal what)) ∨
    ∃ key ixs, e.assigned? r = some key ∧ e' = { e.claimed r with indexes := ixs } ∧
      enterAll r key e.indexes = (.error fault, ixs) ∧
      ∃ before ix after, e.indexes = before ++ ix :: after ∧
        (∀ i ∈ before, ∃ i', i.enter r key = .ok i') ∧ ix.enter r key = .error fault := by
  cases ha : e.assigned? r with
  | none =>
    obtain ⟨what, hc⟩ := claimKey_of_taken ha
    unfold addRow at he
    rw [Action.bind_of_error hc] at he
    cases he
    exact Or.inl ⟨rfl, rfl, what, rfl⟩
  | some key =>
    rw [addRow_of_assigned ha] at he
    rcases hall : enterAll r key e.indexes with ⟨first | ⟨⟩, ixs⟩
    · rw [hall] at he
      cases he
      exact Or.inr ⟨key, ixs, rfl, rfl, hall, enterAll_eq_error hall⟩
    · rw [hall] at he
      cases he

/-- A row that is refused leaves everything as it was, but the key that it was given, if any, is spent. -/
theorem Sound.addRow_refused (h : e.Sound) {cause : StoreError}
    (he : addRow r e = .error (.error cause) e') :
    (e.assigned? r = none ∧ e' = e) ∨ ∃ key, e.assigned? r = some key ∧ e' = e.claimed r := by
  rcases addRow_eq_error he with ⟨ha, rfl, -⟩ | ⟨key, ixs, ha, rfl, hall, -⟩
  · exact Or.inl ⟨ha, rfl⟩
  · obtain rfl := enterAll_refused (fun ix hix => (h.tracks ix hix).wellFormed)
      (fun ix hix => (h.tracks ix hix).fresh (h.fresh ha)) hall
    exact Or.inr ⟨key, ha, rfl⟩

/-- A row that is added is refused by no index. -/
theorem Sound.not_refuses (h : e.Sound) (he : addRow r e = .ok stored e') :
    ∀ ix ∈ e.indexes, ¬ ix.Refuses r := by
  obtain ⟨key, ixs, -, hin, -⟩ := addRow_eq_ok.1 he
  intro ix hix
  obtain ⟨ix', -, hi⟩ := exists_mem_of_forall₂ hin.flip hix
  obtain ⟨_, -, hr, -⟩ := (TreeIndex.enter_eq_ok (h.tracks ix hix).wellFormed).1 hi
  exact hr

/-- A row under a free key that is not added, though wide enough for the indexes, is refused by one of
them, and the refusal names the first. -/
theorem Sound.refuses (h : e.Sound) {cause : StoreError} (ha : e.assigned? r = some key)
    (he : addRow r e = .error (.error cause) e') :
    ∃ before ix after k, e.indexes = before ++ ix :: after ∧ (∀ i ∈ before, ¬ i.Refuses r) ∧
      ix.Refuses r ∧ ix.keyOf? r = some k ∧
      cause = .duplicateKey ix.tableName ix.spec.name k.render := by
  rcases addRow_eq_error he with ⟨hn, -⟩ | ⟨key, -, -, -, -, before, ix, after, hixs, hbefore, hix⟩
  · rw [ha] at hn
    cases hn
  · have hwf : ∀ i ∈ e.indexes, i.map.WellFormed := fun i hi => (h.tracks i hi).wellFormed
    rw [hixs] at hwf
    have hmem : ix ∈ before ++ ix :: after := List.mem_append_right _ List.mem_cons_self
    cases hk : ix.keyOf? r with
    | none =>
      rw [TreeIndex.enter_of_narrow hk] at hix
      cases hix
    | some k =>
      by_cases hr : ix.Refuses r
      · rw [TreeIndex.enter_of_refuses (hwf ix hmem) hk hr] at hix
        cases hix
        refine ⟨before, ix, after, k, hixs, fun i hi => ?_, hr, hk, rfl⟩
        obtain ⟨i', hi'⟩ := hbefore i hi
        obtain ⟨_, -, hnot, -⟩ := (TreeIndex.enter_eq_ok (hwf i (List.mem_append_left _ hi))).1 hi'
        exact hnot
      · rw [TreeIndex.enter_of_not_refuses (hwf ix hmem) hk hr] at hix
        cases hix

theorem missing_or_stored (e : Engine) (r : Row) :
    (∀ key, r.key = some key → e.row? key = none) ∨
      ∃ key stored, r.key = some key ∧ e.row? key = some stored := by
  cases hk : r.key with
  | none =>
    left
    intro _ h
    cases h
  | some key =>
    cases hr : e.row? key with
    | none =>
      left
      intro _ h
      cases h
      exact hr
    | some stored => exact Or.inr ⟨key, stored, rfl, hr⟩

theorem removeRow_of_stored (hk : r.key = some key) (hr : e.row? key = some stored) :
    removeRow r e = match leaveAll stored key e.indexes with
      | (.error fault, ixs) => .error fault (e.lostRow key ixs)
      | (.ok (), ixs) => .ok () (e.withoutRow key ixs) := by
  unfold removeRow
  rw [Action.get_bind, hk, Option.bind_some, hr, Option.map_some]
  dsimp only
  rcases leaveAll stored key e.indexes with ⟨fault | ⟨⟩, ixs⟩
  · rfl
  · rfl

theorem removeRow_of_missing (h : ∀ key, r.key = some key → e.row? key = none) :
    removeRow r e = .error (.error (.rowNotFound e.name)) e := by
  unfold removeRow
  rw [Action.get_bind]
  have hnone : (r.key.bind fun key => (e.row? key).map (key, ·)) = none := by
    cases hk : r.key with
    | none => rfl
    | some key => rw [Option.bind_some, h key hk, Option.map_none]
  rw [hnone]
  rfl

theorem removeRow_eq_ok : removeRow r e = .ok () e' ↔ ∃ key stored ixs, r.key = some key ∧
    e.row? key = some stored ∧
    List.Forall₂ (fun ix ix' => ix.leave stored key = .ok ix') e.indexes ixs ∧
    e' = e.withoutRow key ixs := by
  rcases missing_or_stored e r with hm | ⟨key, stored, hk, hr⟩
  · rw [removeRow_of_missing hm]
    constructor
    · intro he
      cases he
    · rintro ⟨key, stored, _, hk, hr, -⟩
      rw [hm key hk] at hr
      cases hr
  · rw [removeRow_of_stored hk hr]
    constructor
    · intro he
      rcases hall : leaveAll stored key e.indexes with ⟨fault | ⟨⟩, ixs⟩
      · rw [hall] at he
        cases he
      · rw [hall] at he
        cases he
        exact ⟨key, stored, ixs, hk, hr, leaveAll_eq_ok.1 hall, rfl⟩
    · rintro ⟨_, _, ixs, hk', hr', hall, rfl⟩
      cases hk.symm.trans hk'
      cases hr.symm.trans hr'
      rw [leaveAll_eq_ok.2 hall]

/-- A row that is not removed is not stored, or it is lost because an index ran past its end. -/
theorem removeRow_eq_error {fault : Fault} (he : removeRow r e = .error fault e') :
    (fault = .error (.rowNotFound e.name) ∧ e' = e) ∨
    ∃ key stored ixs, fault = .outOfRange ∧ r.key = some key ∧ e.row? key = some stored ∧
      List.Forall₂ (fun ix ix' => ix' = ix ∨ ix.leave stored key = .ok ix') e.indexes ixs ∧
      e' = e.lostRow key ixs := by
  rcases missing_or_stored e r with hm | ⟨key, stored, hk, hr⟩
  · rw [removeRow_of_missing hm] at he
    cases he
    exact Or.inl ⟨rfl, rfl⟩
  · rw [removeRow_of_stored hk hr] at he
    rcases hall : leaveAll stored key e.indexes with ⟨f | ⟨⟩, ixs⟩
    · rw [hall] at he
      cases he
      obtain ⟨rfl, hleft⟩ := leaveAll_eq_error hall
      exact Or.inr ⟨key, stored, ixs, rfl, hk, hr, hleft, rfl⟩
    · rw [hall] at he
      cases he

/-- A removal that is refused leaves everything as it was. -/
theorem removeRow_refused {cause : StoreError} (he : removeRow r e = .error (.error cause) e') :
    e' = e := by
  rcases removeRow_eq_error he with ⟨-, rfl⟩ | ⟨_, _, _, hf, -⟩
  · rfl
  · cases hf

end Rows

end Engine
end RowStore
