/-!
# Numbers in a ring of places

* `Ring` : a set of numbers, each in a place of its own;
* `Ring.insert`, `Ring.erase` : a number takes a place, or leaves it;
* `Ring.toList` : the numbers in the order of their places;
* `Ring.mem_toList_insert`, `Ring.mem_toList_erase` : which numbers there are after each.

A number looks at the places in stretches of sixteen: first from its residue modulo the number of
places on, then one stretch further, then two, round the ring.  It takes the first that nobody has.
There are four places at first, for three numbers, and from sixteen on seven places in eight are for
numbers.  A place that a number left counts as used while all places of some stretch around it are; a
ring that is used up lays its numbers out again, in twice as many places unless few are left.
-/

namespace RowStore

inductive Place where
  /-- Unused. -/
  | free
  /-- Used before, and nobody has it now. -/
  | left
  /-- A number has it. -/
  | taken (n : Nat)
deriving DecidableEq

def Place.number? : Place → Option Nat
  | taken n => some n
  | _ => none

/-- Numbers in a ring of places. -/
structure Ring where
  places : List Place := []
deriving DecidableEq

namespace Ring

def toList (r : Ring) : List Nat := r.places.filterMap Place.number?

def numberAt? (r : Ring) (i : Nat) : Option Nat := r.places[i]?.bind Place.number?

def stretch : Nat := 16

/-- The indices of `size` places in the order in which a number looks at them. -/
def walk (size n : Nat) : List Nat :=
  (List.range (size / stretch + 1)).flatMap fun k =>
    (List.range stretch).map fun i => (n + stretch * (k * (k + 1) / 2) + i) % size

/-- Puts a number into the first place on its way that nobody has, or into a new one. -/
def put (r : Ring) (n : Nat) : Ring :=
  match (walk r.places.length n).find? fun i => (r.numberAt? i).isNone with
  | some i => ⟨r.places.take i ++ .taken n :: r.places.drop (i + 1)⟩
  | none => ⟨r.places ++ [.taken n]⟩

def room (size : Nat) : Nat := if size ≤ 8 then size - 1 else size / 8 * 7

/-! ## Laying the numbers out again -/

/-- Puts all numbers into a ring with twice as many places. -/
def grow (r : Ring) : Ring :=
  let size := if r.places.isEmpty then 4 else 2 * r.places.length
  r.toList.foldl put ⟨List.replicate size .free⟩

def swap (r : Ring) (i j : Nat) : Ring :=
  if hi : i < r.places.length then
    if hj : j < r.places.length then ⟨(r.places.set i r.places[j]).set j r.places[i]⟩ else r
  else r

/-- The stretch of a number's way in which a place lies, counted without the steps between
stretches. -/
def stretchOf (size n i : Nat) : Nat := (i + size - n % size) % size / stretch

/-- Where a number at an index settles: in the first place on its way that is not settled, or where it
is if that place lies in the same stretch. -/
def target (r : Ring) (settled : List Nat) (n i : Nat) : Nat :=
  let size := r.places.length
  match (walk size n).find? fun j => (r.numberAt? j).isNone || j ∉ settled with
  | some j => if stretchOf size n i = stretchOf size n j then i else j
  | none => i

/-- Settles up to `count` numbers, those at the lowest indices first.  A number that has to make room
goes to the place of the one it makes room for, and is the next to settle. -/
def settle (r : Ring) (settled : List Nat) : Nat → Ring
  | 0 => r
  | count + 1 =>
    let waiting (i : Nat) : Option (Nat × Nat) :=
      if i ∈ settled then none else (r.numberAt? i).map (i, ·)
    match (List.range r.places.length).findSome? waiting with
    | none => r
    | some (i, n) =>
      let j := r.target settled n i
      (r.swap i j).settle (j :: settled) count

/-- Lays the numbers out again in as many places, so that only theirs are used. -/
def tidy (r : Ring) : Ring :=
  let r : Ring := ⟨r.places.map fun place => if place = .left then .free else place⟩
  r.settle [] r.toList.length

/-! ## Taking places and leaving them -/

/-- A ring with the same numbers that has room for another. -/
def widen (r : Ring) : Ring :=
  let limit := room r.places.length
  if r.places.countP (· ≠ .free) < limit then r
  else if r.toList.length + 1 ≤ limit / 2 then r.tidy
  else r.grow

/-- Takes a number in.  Room is made before that, whether or not the number is there. -/
def insert (r : Ring) (n : Nat) : Ring :=
  let r := r.widen
  if n ∈ r.toList then r else r.put n

/-- How many places in a row are used where a number is, round the ring. -/
def crowd (r : Ring) (n : Nat) : Nat :=
  let before := r.places.takeWhile (· ≠ .taken n)
  let round := r.places.drop before.length ++ before
  (round.takeWhile (· ≠ .free)).length + (round.reverse.takeWhile (· ≠ .free)).length

/-- A number leaves its place.  The place stays used if a stretch around it is. -/
def erase (r : Ring) (n : Nat) : Ring :=
  let gap := if stretch ≤ r.crowd n then Place.left else .free
  ⟨r.places.map fun place => if place = .taken n then gap else place⟩

/-! ## The numbers in a ring -/

theorem mem_toList {r : Ring} {n : Nat} : n ∈ r.toList ↔ .taken n ∈ r.places := by
  simp only [toList, List.mem_filterMap]
  constructor
  · rintro ⟨place, hp, hn⟩
    cases place with
    | taken m => exact Option.some.inj hn ▸ hp
    | free | left => cases hn
  · exact fun h => ⟨_, h, rfl⟩

theorem mem_toList_put (r : Ring) (n x : Nat) :
    x ∈ (r.put n).toList ↔ x = n ∨ x ∈ r.toList := by
  unfold put
  split
  · rename_i i h
    have hi : (r.numberAt? i).isNone := by simpa using List.find?_some h
    have hx : .taken x ∈ r.places ↔
        .taken x ∈ r.places.take i ∨ .taken x ∈ r.places.drop (i + 1) := by
      conv => lhs; rw [← List.take_append_drop i r.places]
      rw [List.mem_append]
      refine or_congr_right ?_
      by_cases hl : i < r.places.length
      · rw [List.drop_eq_getElem_cons hl, List.mem_cons]
        refine or_iff_right fun e => ?_
        simp [numberAt?, List.getElem?_eq_getElem hl, ← e, Place.number?] at hi
      · rw [List.drop_eq_nil_of_le (by omega), List.drop_eq_nil_of_le (by omega)]
    rw [mem_toList, mem_toList, hx, List.mem_append, List.mem_cons, Place.taken.injEq]
    exact or_left_comm
  · rw [mem_toList, mem_toList, List.mem_append, List.mem_singleton, Place.taken.injEq, or_comm]

theorem mem_toList_grow (r : Ring) (x : Nat) : x ∈ r.grow.toList ↔ x ∈ r.toList := by
  have key (ns : List Nat) (s : Ring) :
      x ∈ (ns.foldl put s).toList ↔ x ∈ ns ∨ x ∈ s.toList := by
    induction ns generalizing s with
    | nil => simp
    | cons n ns ih =>
      rw [List.foldl_cons, ih, mem_toList_put, List.mem_cons, or_left_comm, or_assoc]
  rw [grow, key]
  refine or_iff_left fun h => ?_
  cases (List.mem_replicate.1 (mem_toList.1 h)).2

theorem mem_toList_swap (r : Ring) (i j x : Nat) : x ∈ (r.swap i j).toList ↔ x ∈ r.toList := by
  unfold swap
  split
  · rename_i hi
    split
    · rename_i hj
      rw [mem_toList, mem_toList]
      exact (List.set_set_perm hi hj).mem_iff
    · rfl
  · rfl

theorem mem_toList_settle (count : Nat) (r : Ring) (settled : List Nat) (x : Nat) :
    x ∈ (r.settle settled count).toList ↔ x ∈ r.toList := by
  induction count generalizing r settled with
  | zero => rfl
  | succ count ih =>
    simp only [settle]
    split
    · rfl
    · rw [ih, mem_toList_swap]

theorem mem_toList_tidy (r : Ring) (x : Nat) : x ∈ r.tidy.toList ↔ x ∈ r.toList := by
  simp only [tidy]
  rw [mem_toList_settle, mem_toList, mem_toList, List.mem_map]
  constructor
  · rintro ⟨place, hp, he⟩
    split at he
    · cases he
    · exact he ▸ hp
  · exact fun h => ⟨_, h, if_neg (by simp)⟩

theorem mem_toList_widen (r : Ring) (x : Nat) : x ∈ r.widen.toList ↔ x ∈ r.toList := by
  simp only [widen]
  split
  · rfl
  · split
    · exact mem_toList_tidy r x
    · exact mem_toList_grow r x

theorem mem_toList_insert (r : Ring) (n x : Nat) :
    x ∈ (r.insert n).toList ↔ x = n ∨ x ∈ r.toList := by
  simp only [insert]
  rw [← mem_toList_widen r x]
  split
  · rename_i h
    exact ⟨Or.inr, fun hx => hx.elim (fun e => e ▸ h) id⟩
  · exact mem_toList_put _ n x

theorem mem_toList_erase (r : Ring) (n x : Nat) :
    x ∈ (r.erase n).toList ↔ x ≠ n ∧ x ∈ r.toList := by
  simp only [erase, mem_toList, List.mem_map]
  constructor
  · rintro ⟨place, hp, he⟩
    split at he
    · split at he <;> cases he
    · rename_i h
      exact ⟨fun e => h (e ▸ he), he ▸ hp⟩
  · rintro ⟨hne, hx⟩
    exact ⟨_, hx, if_neg fun e => hne (Place.taken.inj e)⟩

end Ring

end RowStore
