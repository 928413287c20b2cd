import RowStore.Proofs.Column
import RowStore.Proofs.Store.Serial

/-!
# Numbers that a column draws are new to it

* `past_of_fitted` : the sequence of a column steps past what is fitted;
* `beyond` : that the sequence of a column has come beyond the numbers in it, as a demand;
* `Draws` : a row that is fitted draws a number for a column;
* `drawn_number_is_new` : it never was in that column before.
-/

namespace RowStore
open RowStore.Action RowStore.Store

/-- The sequence of a column steps past what is fitted. -/
theorem past_of_fitted {c : Column} {ref : SequenceRef} {given : Option Value} {fitted : Fitted}
    {n n' : Numbering} {qs : OrderedMap Nat Sequence} {q : Sequence} {v : Int}
    (own : c.sequence = some ref) (h : c.fit given n = .ok fitted n')
    (hn : Numbering.From qs n) (hq : qs.find? ref.id = some q) (hsteady : q.Steady)
    (hv : (fitted.value given).toInt? = some v) :
    ∃ q', n'.sequences.find? ref.id = some q' ∧ q'.Past v := by
  obtain ⟨w, third, n₁, haccept, hvalue, hfrom⟩ := Column.fit_ends h
  obtain ⟨q₁, hq₁, ho⟩ := hfrom qs hn ref.id q hq
  rw [hvalue] at hv
  rcases Column.accept_cases haccept with ⟨hnull, -, -⟩ | ⟨-, -, hobserve⟩
  · rw [hnull] at hv
    cases hv
  · unfold Column.observe at hobserve
    rw [own, hv] at hobserve
    cases hobserve
    refine ⟨q₁.observe v, ?_, Sequence.past_observe (hsteady.onward ho) v⟩
    show (n₁.sequences.adjust ref.id (·.observe v)).find? ref.id = some (q₁.observe v)
    unfold OrderedMap.adjust
    rw [hq₁]
    exact OrderedMap.find?_insert_self _ _ _

/-- That the sequence of a column has come beyond all numbers in that column. -/
def beyond (t : Nat) (s₀ : Store) {place : Nat} {c : Column} {ref : SequenceRef} {q : Sequence}
    (hc : (s₀.table t).columns.list[place]? = some c) (own : c.sequence = some ref)
    (hq : s₀.sequences.find? ref.id = some q) (hsteady : q.Steady) : Demand where
  table := t
  start := s₀
  floor u := (s₀.session u).position
  good s r := ∃ q, s.sequences.find? ref.id = some q ∧ q.Steady ∧
    ∀ x v, r.value? place = some x → x.toInt? = some v → q.Past v
  lasts ho h := by
    obtain ⟨q, hq, hsteady, hpast⟩ := h
    obtain ⟨q', hq', hgone⟩ := ho.sequences ref.id q hq
    exact ⟨q', hq', hsteady.onward hgone, fun x v hx hv => (hpast x v hx hv).onward hsteady hgone⟩
  keyless _ h := h
  written {u r r' s s'} ho h _ := by
    obtain ⟨n, hw, hcolumns, rfl⟩ := fitRow_eq_ok h
    have hc' : (s.table t).columns.list[place]? = some c := by rw [ho.columns, hc]
    obtain ⟨given, fitted, n₁, n₂, hfit, hslot, hbefore, hafter⟩ :=
      fitColumns_slot hcolumns (by rw [Nat.zero_add]; exact hw) hc'
    have hn₁ : Numbering.From s₀.sequences n₁ := hbefore _ ho.sequences
    obtain ⟨q₂, hq₂, ho₂⟩ := (Column.stays_fit c given).of_ok hn₁ hfit ref.id q hq
    obtain ⟨q', hq', ho'⟩ := hafter n₂.sequences (Sequence.allOnward_refl _) ref.id q₂ hq₂
    have hsteady₂ := hsteady.onward ho₂
    refine ⟨q', hq', hsteady₂.onward ho', fun x v hx hv => ?_⟩
    rw [Nat.zero_add] at hslot
    unfold Row.value? at hx
    rw [hslot] at hx
    cases hx
    obtain ⟨p, hp, hpast⟩ := past_of_fitted own hfit hn₁ hq hsteady hv
    cases hq₂.symm.trans hp
    exact hpast.onward hsteady₂ ho'

/-- When a row is fitted, the column at a place draws the number `v` from its sequence: the cell is unset,
or it is NULL and NULL becomes the default, which is the next number. -/
inductive Draws (columns : List Column) (place : Nat) (ref : SequenceRef) (r : Row) (n : Numbering)
    (v : Int) : Prop where
  | intro {c : Column} {d : Draft Numbering} {n' : Numbering} (hc : columns[place]? = some c)
    (before : fitColumns 0 (columns.take place) ⟨n, r⟩ = .ok () d) (plain : c.computed = none)
    (default : c.default = some (.nextValue ref))
    (cell : d.row.slots[place]? = some none ∨
      d.row.slots[place]? = some (some .null) ∧ c.nullToDefault = true)
    (drawn : Numbering.draw ref d.state = .ok v n')

/-- The first column draws what its sequence hands out next. -/
theorem draws_next {columns : List Column} {c : Column} {ref : SequenceRef} {n : Numbering} {r : Row}
    {q : Sequence} (hc : columns[0]? = some c) (plain : c.computed = none)
    (default : c.default = some (.nextValue ref)) (cell : r.slots[0]? = some none)
    (hq : n.sequences.find? ref.id = some q) (further : q.exhausted = false) :
    Draws columns 0 ref r n q.next :=
  .intro hc rfl plain default (Or.inl cell) (Numbering.draw_eq_ok.2 ⟨q, hq, further, rfl, rfl⟩)

/-- A column with a sequence of its own, that does not cycle, never draws a number that was in it before.
The table was empty at the start; from then on, sessions insert, delete, update and take back whatever
they like, whatever becomes of that, if they are given copies of the rows that they remove and do not go
back beyond the start. -/
theorem drawn_number_is_new {t place u : Nat} {s₀ : Store} {c : Column} {ref : SequenceRef}
    {rule : SequenceRule} {q q₀ : Sequence} {history : List (Nat × Activity)} {d : Activity} {r : Row}
    {v : Int} (h : Schedule (fun u => (s₀.session u).position) s₀ history d)
    (copies : ∀ m ∈ history, m.2.OnCopies t m.1)
    (empty : ∀ key, (s₀.table t).engine.row? key = none)
    (hc : (s₀.table t).columns.list[place]? = some c) (own : c.sequence = some ref)
    (created : Sequence.create rule = .ok q) (straight : rule.cycles = false) (used : q.Onward q₀)
    (hq : s₀.sequences.find? ref.id = some q₀)
    (draws : Draws (d.store.table t).columns.list place ref r (d.store.numbering u) v) :
    ∀ m ∈ (u, d) :: history, ∀ key row x, (m.2.store.table t).engine.row? key = some row →
      row.value? place = some x → x.toInt? ≠ some v := by
  have hsteady : q₀.Steady := (Sequence.steady_of_create created straight).onward used
  let D := beyond t s₀ hc own hq hsteady
  have hstart : D.Upheld s₀ := {
    onward := .refl t s₀
    stored := fun key row hrow => by
      cases (empty key).symm.trans hrow
    logged := fun u record hrecord => by
      rw [show (s₀.undoLog u).drop (D.floor u) = [] from List.drop_length] at hrecord
      cases hrecord
    deep := fun _ => Nat.le_refl _ }
  obtain ⟨hsecure, hpassed⟩ := Schedule.upheld (D := D) h hstart copies
  have hall : ∀ m ∈ (u, d) :: history, D.Upheld m.2.store ∧ m.2.store.Onward t d.store :=
    List.forall_mem_cons.2 ⟨⟨hsecure.upheld, .refl t d.store⟩, hpassed⟩
  intro m hm key row x hrow hx hv
  obtain ⟨hupheld, ho⟩ := hall m hm
  obtain ⟨p, hp, hsteadyp, hpast⟩ := D.lasts ho (hupheld.stored key row hrow)
  obtain ⟨-, before, -, -, -, drawn⟩ := draws
  obtain ⟨p', hp', hopen, rfl, -⟩ := Numbering.draw_eq_ok.1 drawn
  have hfrom : Numbering.From d.store.sequences (⟨d.store.numbering u, r⟩ : Draft Numbering).state :=
    Sequence.allOnward_refl _
  obtain ⟨p'', hp'', hgone⟩ := (stays_fitColumns 0 _).of_ok hfrom before ref.id p hp
  cases hp'.symm.trans hp''
  exact (hsteadyp.onward hgone).not_past_next hopen ((hpast x _ hx hv).onward hsteadyp hgone)

/-! ## A table of numbered rows -/

def numbers : SequenceRef := ⟨1, "NUMBERS"⟩

def numbersRule : SequenceRule where
  id := 1
  name := "NUMBERS"
  start := 1
  increment := 1
  least := 1
  greatest := 100
  cycles := false
  belongsToTable := true

def idColumn : Column :=
  { Column.build "ID" .int [.identity numbers] with table := some 7 }

/-- A table without rows, whose first column is numbered.  A row that holds 13 cannot be added. -/
def numbered : Store where
  tables := ⟨[(7, { Table.empty 7 "T" with
    contested := some (.int 13)
    columns := {
      list := [idColumn, { name := "V", dataType := .int, table := some 7, place := 1 }]
      places := ⟨[("ID", 0), ("V", 1)]⟩ } })]⟩
  sequences := ⟨[(1, ⟨numbersRule, 1, none, false⟩)]⟩

def numbersFromTwo : Sequence := ⟨numbersRule, 2, some 1, false⟩

def numberedFloor (u : Nat) : Nat := (numbered.session u).position

/-- After a row without a number, the next one draws another number. -/
theorem second_number_is_new : ∃ s v, Serial numberedFloor 7 numbered s ∧
    (s.table 7).engine.row? 0 = some ⟨some 0, [some (.int 1), some (.int 1)]⟩ ∧
      Draws (s.table 7).columns.list 0 numbers ⟨none, [none, some (.int 3)]⟩ (s.numbering 1) v ∧
        (Value.int 1).toInt? ≠ some v := by
  have h : Serial numberedFloor 7 numbered numbered := .start
  have h := h.call 1 (.insert 7 ⟨none, [none, some (.int 1)]⟩) (by decide +kernel)
  obtain ⟨s, h, hrow, hc, hq⟩ : ∃ s, Serial numberedFloor 7 numbered s ∧
      (s.table 7).engine.row? 0 = some ⟨some 0, [some (.int 1), some (.int 1)]⟩ ∧
        (s.table 7).columns.list[0]? = some idColumn ∧
          (s.numbering 1).sequences.find? 1 = some numbersFromTwo :=
    ⟨_, h, by decide +kernel, by decide +kernel, by decide +kernel⟩
  have hdraws : Draws _ 0 numbers ⟨none, [none, some (.int 3)]⟩ (s.numbering 1) _ :=
    draws_next hc rfl rfl rfl hq rfl
  obtain ⟨history, hs, copies⟩ := h.schedule
  have hnew := drawn_number_is_new hs copies (fun _ => rfl) (c := idColumn) rfl rfl
    (show Sequence.create numbersRule = _ from rfl) rfl .refl rfl hdraws
  exact ⟨s, 2, h, hrow, hdraws, hnew _ List.mem_cons_self 0 _ (.int 1) hrow rfl⟩

/-- Where a session is not given copies, a row that an update was given and puts back may hold the number
that is drawn next. -/
theorem not_drawn_number_is_new_anyhow : ¬ ∀ (t place u : Nat) (s₀ : Store) (c : Column)
    (ref : SequenceRef) (rule : SequenceRule) (q : Sequence) (history : List (Nat × Activity))
    (d : Activity) (r : Row) (v : Int),
    Schedule (fun u => (s₀.session u).position) s₀ history d →
      (∀ key, (s₀.table t).engine.row? key = none) →
      (s₀.table t).columns.list[place]? = some c → c.sequence = some ref →
      Sequence.create rule = .ok q → rule.cycles = false → s₀.sequences.find? ref.id = some q →
      Draws (d.store.table t).columns.list place ref r (d.store.numbering u) v →
        ∀ m ∈ (u, d) :: history, ∀ key row x, (m.2.store.table t).engine.row? key = some row →
          row.value? place = some x → x.toInt? ≠ some v := by
  intro hall
  have h : (Activity.idle numbered).Steps numberedFloor 7 False _ :=
    (Activity.steps_call 1 (.insert 7 ⟨none, [none, some (.int 1)]⟩) numbered).mono False.elim
  have h := h.trans ((Activity.steps_call 1 (.update 7 (fun _ => false)
    [(⟨some 0, [some (.int 2), some (.int 1)]⟩, ⟨none, [some (.int 1), some (.int 13)]⟩)]) _).mono False.elim)
  obtain ⟨s, h, hrow, hc, hq⟩ : ∃ s, (Activity.idle numbered).Steps numberedFloor 7 False (.idle s) ∧
      (s.table 7).engine.row? 0 = some ⟨some 0, [some (.int 2), some (.int 1)]⟩ ∧
        (s.table 7).columns.list[0]? = some idColumn ∧
          (s.numbering 1).sequences.find? 1 = some numbersFromTwo :=
    ⟨_, h, by decide +kernel, by decide +kernel, by decide +kernel⟩
  have hdraws : Draws _ 0 numbers ⟨none, [none, some (.int 3)]⟩ (s.numbering 1) _ :=
    draws_next hc rfl rfl rfl hq rfl
  obtain ⟨history, hs, -⟩ := h numbered [] .start
  exact hall 7 0 1 numbered idColumn numbers numbersRule _ _ _ _ 2 hs (fun _ => rfl) rfl rfl rfl rfl rfl
    hdraws _ List.mem_cons_self 0 _ (.int 2) hrow rfl rfl

end RowStore
