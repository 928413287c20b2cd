import RowStore.OrderedMap

/-!
# Maps from keys to several values

* `MultiMap κ ν` : for each key that has values, the list of them; keys in order;
* `toList`, `backward` : the pairs, in key order and the other way round;
* `insert`, `insertUnique`, `delete` : add a pair, add one only under a fresh key, remove one.

No key has an empty list, so `keyCount` counts the keys of `toList`.
-/

namespace RowStore

/-- Pairs of a key and a value, in key order. -/
structure MultiMap (κ ν : Type) where
  /-- The values of each key. -/
  groups : OrderedMap κ (List ν) := ∅

namespace MultiMap

variable {κ ν : Type}

instance : EmptyCollection (MultiMap κ ν) := ⟨⟨∅⟩⟩

instance : Inhabited (MultiMap κ ν) := ⟨∅⟩

/-- The pairs, in key order and in list order under a key. -/
def toList (m : MultiMap κ ν) : List (κ × ν) :=
  m.groups.entries.flatMap fun g => g.2.map (g.1, ·)

/-- The pairs from the last to the first: the last key first, and the last value of each key first. -/
def backward (m : MultiMap κ ν) : List (κ × ν) :=
  m.groups.entries.reverse.flatMap fun g => g.2.reverse.map (g.1, ·)

def size (m : MultiMap κ ν) : Nat := m.groups.entries.foldr (fun g n => g.2.length + n) 0

def keyCount (m : MultiMap κ ν) : Nat := m.groups.size

def isEmpty (m : MultiMap κ ν) : Bool := m.groups.entries.isEmpty

variable [Ord κ]

def valuesOf (m : MultiMap κ ν) (k : κ) : List ν := (m.groups.find? k).getD []

/-- Adds a pair, after the others of its key. -/
def insert (m : MultiMap κ ν) (k : κ) (v : ν) : MultiMap κ ν :=
  ⟨m.groups.insert k (m.valuesOf k ++ [v])⟩

/-- Adds a pair if its key has none.  The first component is the value in the way. -/
def insertUnique (m : MultiMap κ ν) (k : κ) (v : ν) : Option ν × MultiMap κ ν :=
  match m.valuesOf k with
  | [] => (none, m.insert k v)
  | w :: _ => (some w, m)

/-- The list with its last member in the place of the one at `i`. -/
def swapRemove (vs : List ν) (i : Nat) : List ν :=
  match vs.getLast? with
  | none => []
  | some last => (vs.set i last).dropLast

/-- Removes one pair.  The first component says whether there was one. -/
def delete [DecidableEq ν] (m : MultiMap κ ν) (k : κ) (v : ν) : Bool × MultiMap κ ν :=
  match (m.valuesOf k).findIdx? (· = v) with
  | none => (false, m)
  | some i =>
    match swapRemove (m.valuesOf k) i with
    | [] => (true, ⟨m.groups.erase k⟩)
    | vs => (true, ⟨m.groups.insert k vs⟩)

end MultiMap

end RowStore
