import RowStore.Proofs.OrderedMap
import RowStore.Table.ColumnSet

/-!
# Columns and their names

* `Column.installed` : a column as a table takes it, at its place;
* `ColumnSet.Named` : each column knows its place and its table, and names lead to the columns that have
  them; so names are distinct (`Named.nodup_names`), and a column is found just by its name
  (`Named.find?_eq_ok`, `Named.find?_of_unused`);
* `ColumnSet.InStep` : and the row of NULLs, once it was asked for, is as wide as there are columns;
* `install?_succeeds`, `install?_inStep` : which columns can be installed, and what they lead to;
* `Named.rename?_succeeds`, `InStep.renamed` : the same of a new name;
* `InStep.markPrimary`, `InStep.nullRow` : marks of a primary key and the row of NULLs.

A name leads to a place as long as the column there has it: `Named.found` says so in both directions,
which is what a change of either has to keep.
-/

namespace RowStore
open RowStore.Action

def Column.installed (c : Column) (table place : Nat) : Column :=
  { c with table := some table, place := place }

theorem Column.name_installed (c : Column) (table place : Nat) :
    (c.installed table place).name = c.name := rfl

namespace ColumnSet

/-- Each column knows its place and its table, and names lead to the columns that have them. -/
structure Named (table : Nat) (cs : ColumnSet) : Prop where
  placed : ∀ i c, cs.get? i = some c → c.place = i ∧ c.table = some table
  found : ∀ name i, cs.placeOf? name = some i ↔ ∃ c, cs.get? i = some c ∧ c.name = name

/-- And the row of NULLs, once it was asked for, is as wide as there are columns. -/
structure InStep (table : Nat) (cs : ColumnSet) : Prop extends Named table cs where
  nulls : ∀ r, cs.cachedNulls = some r → r = Row.nulls cs.width

variable {table place i j : Nat} {check : Bool} {name : String} {cs cs' : ColumnSet} {c c' : Column}
  {columns : List Column}

/-! ## Look-ups -/

section Look

theorem mem_list : c ∈ cs.list ↔ ∃ i, cs.get? i = some c := List.mem_iff_getElem?

/-- Two columns do not have one name. -/
theorem Named.eq_of_name (h : cs.Named table) (hi : cs.get? i = some c) (hj : cs.get? j = some c')
    (hname : c.name = c'.name) : i = j := by
  have hfound := (h.found c.name i).2 ⟨c, hi, rfl⟩
  exact Option.some.inj (hfound.symm.trans ((h.found c.name j).2 ⟨c', hj, hname.symm⟩))

theorem Named.nodup_names (h : cs.Named table) : (cs.list.map Column.name).Nodup := by
  refine List.pairwise_map.2 (List.pairwise_iff_getElem.2 fun i j hi hj hlt hname => ?_)
  have hij : i = j := h.eq_of_name (List.getElem?_eq_getElem hi) (List.getElem?_eq_getElem hj) hname
  omega

theorem Named.placeOf?_eq_none (h : cs.Named table) :
    cs.placeOf? name = none ↔ ∀ c ∈ cs.list, c.name ≠ name := by
  constructor
  · rintro hnone c hc rfl
    obtain ⟨i, hi⟩ := mem_list.1 hc
    cases hnone.symm.trans ((h.found c.name i).2 ⟨c, hi, rfl⟩)
  · intro hunused
    cases hfound : cs.placeOf? name with
    | none => rfl
    | some i =>
      obtain ⟨c, hc, hname⟩ := (h.found name i).1 hfound
      exact absurd hname (hunused c (mem_list.2 ⟨i, hc⟩))

variable {σ : Type}

/-- A column is found by a name just if it has that name. -/
theorem Named.find?_eq_ok (h : cs.Named table) (hc : cs.get? i = some c) (s : σ) :
    cs.find? name s = .ok c s ↔ c.name = name := by
  unfold find?
  cases hfound : cs.placeOf? name with
  | none =>
    refine iff_of_false nofun fun hname => ?_
    exact h.placeOf?_eq_none.1 hfound c (mem_list.2 ⟨i, hc⟩) hname
  | some j =>
    obtain ⟨c', hc', hname⟩ := (h.found name j).1 hfound
    dsimp only
    rw [hc']
    constructor
    · intro he
      cases he
      exact hname
    · rintro rfl
      have hij : j = i := h.eq_of_name hc' hc hname
      rw [hij] at hc'
      cases hc.symm.trans hc'
      rfl

theorem Named.find?_of_unused (h : cs.Named table) (hunused : ∀ c ∈ cs.list, c.name ≠ name) (s : σ) :
    cs.find? name s = .error (.error (.columnNotFound name)) s := by
  unfold find?
  rw [h.placeOf?_eq_none.2 hunused]
  rfl

end Look

/-! ## One column at a place -/

/-- A column is put at a place, under a name that no other has; the one that was there loses its own. -/
theorem Named.put (h : cs.Named table) (hplaced : c.place = place ∧ c.table = some table)
    (hunused : ∀ i old, cs.get? i = some old → i ≠ place → old.name ≠ c.name)
    (hget : ∀ i, cs'.get? i = if i = place then some c else cs.get? i)
    (hplaceOf : ∀ name, cs'.placeOf? name =
      if name = c.name then some place
      else if ∃ old, cs.get? place = some old ∧ old.name = name then none
      else cs.placeOf? name) : cs'.Named table := by
  constructor
  · intro i c' hc'
    rw [hget] at hc'
    split at hc'
    · rename_i hi
      cases hc'
      rwa [hi]
    · exact h.placed i c' hc'
  · intro name i
    rw [hplaceOf, hget]
    by_cases hname : name = c.name <;> by_cases hi : i = place
    · rw [if_pos hname, if_pos hi]
      exact iff_of_true (congrArg some hi.symm) ⟨c, rfl, hname.symm⟩
    · rw [if_pos hname, if_neg hi]
      refine iff_of_false (fun he => hi (Option.some.inj he).symm) ?_
      rintro ⟨old, hold, he⟩
      exact hunused i old hold hi (he.trans hname)
    · rw [if_neg hname, if_pos hi]
      refine iff_of_false ?_ ?_
      · split
        · exact nofun
        · rename_i hgone
          intro he
          exact hgone ((h.found name place).1 (hi ▸ he))
      · rintro ⟨c', hc', he⟩
        cases hc'
        exact hname he.symm
    · rw [if_neg hname, if_neg hi]
      split
      · rename_i hold
        have hplace := (h.found name place).2 hold
        refine iff_of_false nofun fun hother => hi ?_
        exact Option.some.inj (((h.found name i).2 hother).symm.trans hplace)
      · exact h.found name i

/-! ## New columns -/

section Install

theorem named_empty (table : Nat) : Named table {} where
  placed i c hc := by cases hc
  found name i := by
    refine iff_of_false (fun h => by cases h) ?_
    rintro ⟨c, hc, -⟩
    cases hc

/-- A column is added just if its type is resolved, where that is asked for, and its name is new. -/
theorem extend_eq_ok : extend table check cs c = .ok cs' ↔
    (check = true → c.dataType ≠ .unknown) ∧ cs.placeOf? c.name = none ∧
      cs' = { cs with
        list := cs.list ++ [c.installed table cs.width]
        places := cs.places.insert c.name cs.width } := by
  unfold extend
  split
  · rename_i hunknown
    refine iff_of_false nofun ?_
    rintro ⟨hknown, -⟩
    exact hknown hunknown.1 hunknown.2
  · rename_i hknown
    split
    · rename_i hused
      refine iff_of_false nofun ?_
      rintro ⟨-, hnew, -⟩
      exact Option.not_isSome_iff_eq_none.2 hnew hused
    · rename_i hnew
      rw [Except.ok.injEq, eq_comm]
      exact ⟨fun he => ⟨fun hc hu => hknown ⟨hc, hu⟩, Option.not_isSome_iff_eq_none.1 hnew, he⟩,
        fun he => he.2.2⟩

theorem getElem?_concat (l : List Column) (c : Column) (i : Nat) :
    (l ++ [c])[i]? = if i = l.length then some c else l[i]? := by
  by_cases hi : i < l.length
  · rw [List.getElem?_append_left hi, if_neg (by omega)]
  · rw [List.getElem?_append_right (by omega)]
    by_cases he : i = l.length
    · rw [if_pos he, he, Nat.sub_self]
      rfl
    · rw [if_neg he, List.getElem?_eq_none (by omega : l.length ≤ i), List.getElem?_eq_none]
      rw [List.length_singleton]
      omega

theorem Named.extended (h : cs.Named table) (he : extend table check cs c = .ok cs') :
    cs'.Named table := by
  obtain ⟨-, hnew, rfl⟩ := extend_eq_ok.1 he
  have hend : cs.get? cs.width = none := List.getElem?_eq_none (Nat.le_refl _)
  have hinstalled : (c.installed table cs.width).place = cs.width ∧
      (c.installed table cs.width).table = some table := ⟨rfl, rfl⟩
  refine h.put hinstalled ?_ (getElem?_concat _ _) fun name => ?_
  · intro i old hold _
    exact h.placeOf?_eq_none.1 hnew old (mem_list.2 ⟨i, hold⟩)
  · rw [Column.name_installed]
    by_cases hname : name = c.name
    · rw [if_pos hname, hname]
      exact OrderedMap.find?_insert_self _ _ _
    · rw [if_neg hname, if_neg (by rintro ⟨old, hold, -⟩; cases hend.symm.trans hold)]
      exact OrderedMap.find?_insert_of_ne _ hname _

/-- The names of more columns, in order, are new and distinct, and the types are resolved, where that is
asked for. -/
def Admits (check : Bool) (cs : ColumnSet) (columns : List Column) : Prop :=
  (cs.list.map Column.name ++ columns.map Column.name).Nodup ∧
    (check = true → ∀ c ∈ columns, c.dataType ≠ .unknown)

/-- A first column is admitted, and the rest after it. -/
theorem Named.admits_cons (h : cs.Named table) : Admits check cs (c :: columns) ↔
    ∃ cs', extend table check cs c = .ok cs' ∧ Admits check cs' columns := by
  have hlist : cs.list.map Column.name ++ (c :: columns).map Column.name =
      (cs.list ++ [c.installed table cs.width]).map Column.name ++ columns.map Column.name := by
    rw [List.map_append, List.map_cons, List.append_assoc]
    rfl
  unfold Admits
  rw [hlist]
  constructor
  · rintro ⟨hnodup, htypes⟩
    have hnew : cs.placeOf? c.name = none := by
      refine h.placeOf?_eq_none.2 fun old hold hname => ?_
      rw [← hlist, List.nodup_append] at hnodup
      exact hnodup.2.2 old.name (List.mem_map_of_mem hold) c.name List.mem_cons_self hname
    refine ⟨_, extend_eq_ok.2 ⟨fun hc => htypes hc c List.mem_cons_self, hnew, rfl⟩, hnodup, ?_⟩
    exact fun hc c' hc' => htypes hc c' (List.mem_cons_of_mem _ hc')
  · rintro ⟨cs', he, hnodup, htypes⟩
    obtain ⟨htype, -, rfl⟩ := extend_eq_ok.1 he
    refine ⟨hnodup, fun hc c' hc' => ?_⟩
    rcases List.mem_cons.1 hc' with rfl | hc'
    · exact htype hc
    · exact htypes hc c' hc'

theorem Named.foldlM_succeeds (h : cs.Named table) :
    (∃ cs', columns.foldlM (extend table check) cs = .ok cs') ↔ Admits check cs columns := by
  induction columns generalizing cs with
  | nil =>
    refine iff_of_true ⟨cs, rfl⟩ ⟨?_, fun _ _ hc => absurd hc List.not_mem_nil⟩
    rw [List.map_nil, List.append_nil]
    exact h.nodup_names
  | cons c rest ih =>
    rw [h.admits_cons, List.foldlM_cons]
    cases he : extend table check cs c with
    | error cause =>
      refine iff_of_false ?_ ?_
      · rintro ⟨cs', hrest⟩
        cases hrest
      · rintro ⟨cs', hcs', -⟩
        cases hcs'
    | ok cs₁ =>
      refine (ih (h.extended he)).trans ?_
      constructor
      · exact fun hadmits => ⟨cs₁, rfl, hadmits⟩
      · rintro ⟨cs', hcs', hadmits⟩
        cases hcs'
        exact hadmits

theorem Named.foldlM_named (h : cs.Named table)
    (he : columns.foldlM (extend table check) cs = .ok cs') :
    cs'.Named table ∧ cs'.cachedNulls = cs.cachedNulls ∧
      cs'.list = cs.list ++ columns.mapIdx fun i c => c.installed table (cs.width + i) := by
  induction columns generalizing cs with
  | nil =>
    cases he
    exact ⟨h, rfl, (List.append_nil _).symm⟩
  | cons c rest ih =>
    rw [List.foldlM_cons] at he
    cases hfirst : extend table check cs c with
    | error cause =>
      rw [hfirst] at he
      cases he
    | ok cs₁ =>
      rw [hfirst] at he
      obtain ⟨hnamed, hnulls, hlist⟩ := ih (h.extended hfirst) he
      obtain ⟨-, -, rfl⟩ := extend_eq_ok.1 hfirst
      refine ⟨hnamed, hnulls, hlist.trans ?_⟩
      rw [List.mapIdx_cons, List.append_assoc]
      simp only [width, List.length_append, List.length_singleton, List.singleton_append, Nat.add_zero,
        Nat.add_assoc, Nat.add_comm 1]

/-- Columns can be installed just if their names are distinct and, where that is asked for, their types
are resolved. -/
theorem install?_succeeds : (∃ cs, install? table check columns = .ok cs) ↔
    (columns.map Column.name).Nodup ∧ (check = true → ∀ c ∈ columns, c.dataType ≠ .unknown) :=
  (named_empty table).foldlM_succeeds

/-- The installed columns are the given ones, in order. -/
theorem install?_inStep (h : install? table check columns = .ok cs) :
    cs.InStep table ∧ cs.list = columns.mapIdx fun i c => c.installed table i := by
  obtain ⟨hnamed, hnulls, hlist⟩ := (named_empty table).foldlM_named h
  refine ⟨⟨hnamed, fun r hr => ?_⟩, ?_⟩
  · cases hnulls.symm.trans hr
  · rw [hlist]
    simp only [width, List.length_nil, Nat.zero_add, List.nil_append]

end Install

/-! ## New names -/

section Rename

theorem rename?_eq_ok : cs.rename? place name = .ok cs' ↔
    (∀ c ∈ cs.list, c.place ≠ place → c.name ≠ name) ∧ ∃ c, cs.get? place = some c ∧
      cs' = { cs.alter place ({ · with name := name }) with
        places := (cs.places.erase c.name).insert name place } := by
  have hany : (cs.list.any fun c => c.place != place && c.name == name) = false ↔
      ∀ c ∈ cs.list, c.place ≠ place → c.name ≠ name := by
    simp only [List.any_eq_false, Bool.and_eq_true, bne_iff_ne, beq_iff_eq, not_and, ne_eq]
  unfold rename?
  split
  · rename_i hused
    refine iff_of_false nofun fun h => ?_
    cases hused.symm.trans (hany.2 h.1)
  · rename_i hunused
    rw [Bool.not_eq_true, hany] at hunused
    cases hc : cs.get? place with
    | none =>
      refine iff_of_false nofun ?_
      rintro ⟨-, c, he, -⟩
      cases he
    | some c =>
      rw [Except.ok.injEq]
      constructor
      · rintro rfl
        exact ⟨hunused, c, rfl, rfl⟩
      · rintro ⟨-, c', he, rfl⟩
        cases he
        rfl

/-- A column can be renamed just if it is there, and no other has the name. -/
theorem Named.rename?_succeeds (h : cs.Named table) : (∃ cs', cs.rename? place name = .ok cs') ↔
    (∃ c, cs.get? place = some c) ∧ ∀ i c, cs.get? i = some c → i ≠ place → c.name ≠ name := by
  constructor
  · rintro ⟨cs', he⟩
    obtain ⟨hunused, c, hc, -⟩ := rename?_eq_ok.1 he
    refine ⟨⟨c, hc⟩, fun i c' hc' hi => hunused c' (mem_list.2 ⟨i, hc'⟩) ?_⟩
    rw [(h.placed i c' hc').1]
    exact hi
  · rintro ⟨⟨c, hc⟩, hunused⟩
    refine ⟨_, rename?_eq_ok.2 ⟨fun c' hc' hplace => ?_, c, hc, rfl⟩⟩
    obtain ⟨i, hi⟩ := mem_list.1 hc'
    rw [(h.placed i c' hi).1] at hplace
    exact hunused i c' hi hplace

theorem Named.renamed (h : cs.Named table) (he : cs.rename? place name = .ok cs') :
    cs'.Named table := by
  have hunused := (h.rename?_succeeds.1 ⟨cs', he⟩).2
  obtain ⟨-, c, hc, rfl⟩ := rename?_eq_ok.1 he
  obtain ⟨hplace, htable⟩ := h.placed place c hc
  refine h.put (c := { c with name := name }) ⟨hplace, htable⟩ hunused (fun i => ?_) fun name' => ?_
  · unfold get? alter
    dsimp only
    by_cases hi : i = place
    · rw [if_pos hi, hi, List.getElem?_modify_eq]
      exact congrArg (Option.map _) hc
    · rw [if_neg hi, List.getElem?_modify_ne _ _ (Ne.symm hi)]
  · unfold placeOf?
    dsimp only
    by_cases hnew : name' = name
    · rw [if_pos hnew, hnew]
      exact OrderedMap.find?_insert_self _ _ _
    · rw [if_neg hnew, OrderedMap.find?_insert_of_ne _ hnew]
      by_cases hold : name' = c.name
      · rw [if_pos ⟨c, hc, hold.symm⟩, hold]
        exact OrderedMap.find?_erase_self _ _
      · rw [OrderedMap.find?_erase_of_ne _ hold, if_neg]
        rintro ⟨old, hat, hname⟩
        cases hc.symm.trans hat
        exact hold hname.symm

theorem InStep.renamed (h : cs.InStep table) (he : cs.rename? place name = .ok cs') :
    cs'.InStep table ∧ cs'.list = cs.list.modify place ({ · with name := name }) := by
  have hnamed := h.toNamed.renamed he
  obtain ⟨-, c, -, rfl⟩ := rename?_eq_ok.1 he
  refine ⟨⟨hnamed, fun r hr => ?_⟩, rfl⟩
  rw [h.nulls r hr]
  exact congrArg Row.nulls (List.length_modify ..).symm

end Rename

/-! ## Marks and the row of NULLs -/

/-- A column may be changed but for its name, its place and its table. -/
theorem InStep.alter (h : cs.InStep table) {f : Column → Column} (place : Nat)
    (hname : ∀ c, (f c).name = c.name) (hplace : ∀ c, (f c).place = c.place)
    (htable : ∀ c, (f c).table = c.table) : (cs.alter place f).InStep table := by
  have hget (i : Nat) : (cs.alter place f).get? i =
      (cs.get? i).map fun c => if place = i then f c else c := List.getElem?_modify ..
  refine ⟨⟨fun i c hc => ?_, fun name i => ?_⟩, fun r hr => ?_⟩
  · rw [hget] at hc
    obtain ⟨old, hold, rfl⟩ := Option.map_eq_some_iff.1 hc
    obtain ⟨hp, ht⟩ := h.placed i old hold
    split
    · exact ⟨(hplace old).trans hp, (htable old).trans ht⟩
    · exact ⟨hp, ht⟩
  · refine (h.found name i).trans ?_
    rw [hget]
    cases cs.get? i with
    | none => simp
    | some old => by_cases hi : place = i <;> simp [hi, hname]
  · rw [h.nulls r hr]
    exact congrArg Row.nulls (List.length_modify ..).symm

/-- Marks of a primary key do not matter. -/
theorem InStep.markPrimary (h : cs.InStep table) (mark : Bool) (marked : List IndexColumn) :
    (cs.markPrimary mark marked).InStep table := by
  unfold ColumnSet.markPrimary
  induction marked generalizing cs with
  | nil => exact h
  | cons c rest ih => exact ih (h.alter c.place (fun _ => rfl) (fun _ => rfl) fun _ => rfl)

theorem InStep.nullRow (h : cs.InStep table) :
    cs.nullRow.1 = Row.nulls cs.width ∧ cs.nullRow.2.InStep table ∧ cs.nullRow.2.list = cs.list := by
  have hrow : cs.cachedNulls.getD (Row.nulls cs.width) = Row.nulls cs.width := by
    cases hr : cs.cachedNulls with
    | none => rfl
    | some r => exact h.nulls r hr
  refine ⟨hrow, ⟨⟨h.placed, h.found⟩, fun r hr => ?_⟩, rfl⟩
  cases hr
  exact hrow

end ColumnSet

end RowStore
