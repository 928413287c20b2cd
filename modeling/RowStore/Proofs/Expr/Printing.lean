import Mathlib.Data.List.Basic
import RowStore.Expr

/-!
# The texts of expressions

* `Text.Unmistakable` : no mark inside a name looks like the one that ends it;
* `Text.Tells` : of two texts, each with an end after it, it can be told where they end;
* `tells_literal`, `tells_identifier`, `tells_infixed` : it can for literals, names and operands;
* `Expr.Spelled` : an expression of columns, sequences, texts, sums and comparisons, with names of some kind;
* `Expr.Alike` : two such expressions are the same but for the places of columns and the numbers of sequences;
* `sql_is_unambiguous` : expressions with unmistakable names and the same text are alike;
* `not_sql_is_unambiguous_anyhow` : with other names they need not be.
-/

namespace RowStore

namespace Text

/-- No quotation mark in the name is followed by a space or a closing parenthesis, as the one at its end
may be. -/
def Unmistakable (name : String) : Prop := ∀ c, ['"', c] <:+: name.toList → c ≠ ' ' ∧ c ≠ ')'

def AtEnd (rest : List Char) : Prop := ∀ c ∈ rest.head?, c = ' ' ∨ c = ')'

/-- Where two texts with ends after them come out the same, the property holds and what follows is the
same. -/
def Tells (cs ds : List Char) (p : Prop) : Prop :=
  ∀ r r', AtEnd r → AtEnd r' → cs ++ r = ds ++ r' → p ∧ r = r'

def infixed (sign : String) (cs ds : List Char) : List Char :=
  '(' :: (cs ++ ' ' :: (sign.toList ++ ' ' :: (ds ++ [')'])))

theorem unmistakable_of_unmarked {name : String} (h : '"' ∉ name.toList) : Unmistakable name :=
  fun _ hinside => absurd (hinside.subset List.mem_cons_self) h

theorem unmistakable_of_unbroken {name : String} (hspace : ' ' ∉ name.toList) (hclose : ')' ∉ name.toList) :
    Unmistakable name := by
  intro c hinside
  have hc : c ∈ name.toList := hinside.subset (List.mem_cons_of_mem _ List.mem_cons_self)
  exact ⟨fun h => hspace (h ▸ hc), fun h => hclose (h ▸ hc)⟩

variable {name name' sign sign' : String} {cs cs' ds ds' r r' : List Char} {p q : Prop}

theorem atEnd_nil : AtEnd [] := nofun

theorem atEnd_space : AtEnd (' ' :: r) := by
  rintro c ⟨⟩
  exact Or.inl rfl

theorem atEnd_close : AtEnd (')' :: r) := by
  rintro c ⟨⟩
  exact Or.inr rfl

/-- Texts that begin differently are never the same. -/
theorem tells_of_head_ne {c d : Char} (h : c ≠ d) : Tells (c :: cs) (d :: ds) p := by
  intro r r' _ _ hsame
  exact absurd (List.cons.inj hsame).1 h

theorem Tells.imp (h : Tells cs ds p) (hpq : p → q) : Tells cs ds q := by
  intro r r' hr hr' hsame
  obtain ⟨hp, hrest⟩ := h r r' hr hr' hsame
  exact ⟨hpq hp, hrest⟩

theorem Tells.append_left (h : Tells cs ds p) : Tells (r ++ cs) (r ++ ds) p := by
  intro s s' hs hs' hsame
  rw [List.append_assoc, List.append_assoc] at hsame
  exact h s s' hs hs' (List.append_cancel_left hsame)

/-! ## Literals -/

/-- An apostrophe inside is doubled, the one at the end is not. -/
theorem doubled_inj (hr : AtEnd r) (hr' : AtEnd r')
    (h : doubled '\'' cs ++ '\'' :: r = doubled '\'' ds ++ '\'' :: r') : cs = ds ∧ r = r' := by
  have hend {cs r : List Char} (hr : AtEnd r) : r ≠ '\'' :: cs := by
    rintro rfl
    exact absurd (hr '\'' rfl) (by decide)
  induction cs generalizing ds with
  | nil =>
    cases ds with
    | nil => exact ⟨rfl, (List.cons.inj h).2⟩
    | cons d ds =>
      unfold doubled at h
      split at h
      · exact absurd (List.cons.inj h).2 (hend hr)
      · rename_i hd
        exact absurd (List.cons.inj h).1.symm hd
  | cons c cs ih =>
    cases ds with
    | nil =>
      unfold doubled at h
      split at h
      · exact absurd (List.cons.inj h).2.symm (hend hr')
      · rename_i hc
        exact absurd (List.cons.inj h).1 hc
    | cons d ds =>
      unfold doubled at h
      split at h <;> split at h
      · rename_i hc hd
        obtain ⟨rfl, hrest⟩ := ih (List.cons.inj (List.cons.inj h).2).2
        exact ⟨by rw [hc, hd], hrest⟩
      · rename_i hc hd
        exact absurd (List.cons.inj h).1.symm hd
      · rename_i hc hd
        exact absurd (List.cons.inj h).1 hc
      · obtain ⟨hhead, htail⟩ := List.cons.inj h
        obtain ⟨rfl, hrest⟩ := ih htail
        exact ⟨by rw [hhead], hrest⟩

theorem tells_literal (s t : String) : Tells (literal s).toList (literal t).toList (s = t) := by
  intro r r' hr hr' hsame
  unfold literal at hsame
  simp only [String.toList_ofList, List.cons_append, List.append_assoc, List.nil_append] at hsame
  obtain ⟨hst, hrest⟩ := doubled_inj hr hr' (List.cons.inj hsame).2
  exact ⟨String.toList_inj.1 hst, hrest⟩

/-! ## Names -/

/-- A longer name would go on after the end of a shorter one with a mark that looks like an end. -/
theorem eq_nil_of_unmistakable (hname : Unmistakable name) (h : name.toList = cs ++ ds) (hr : AtEnd r)
    (hrest : '"' :: r = ds ++ '"' :: r') : ds = [] := by
  cases ds with
  | nil => rfl
  | cons d ds =>
    obtain ⟨rfl, hrest⟩ := List.cons.inj hrest
    cases ds with
    | nil =>
      cases hrest
      exact absurd (hr '"' rfl) (by decide)
    | cons d ds =>
      cases hrest
      have hinside : ['"', d] <:+: name.toList := ⟨cs, ds, by rw [h]; simp⟩
      obtain ⟨hspace, hclose⟩ := hname d hinside
      exact absurd (hr d rfl) (not_or.2 ⟨hspace, hclose⟩)

theorem toList_identifier (name : String) : (identifier name).toList = '"' :: (name.toList ++ ['"']) := by
  unfold identifier
  simp only [String.toList_append]
  rfl

theorem tells_identifier (hname : Unmistakable name) (hname' : Unmistakable name') :
    Tells (identifier name).toList (identifier name').toList (name = name') := by
  intro r r' hr hr' hsame
  simp only [toList_identifier, List.cons_append, List.append_assoc, List.nil_append] at hsame
  rcases List.append_eq_append_iff.1 (List.cons.inj hsame).2 with ⟨ds, hlonger, hrest⟩ | ⟨ds, hlonger, hrest⟩
  · cases eq_nil_of_unmistakable hname' hlonger hr hrest
    rw [List.append_nil] at hlonger
    exact ⟨String.toList_inj.1 hlonger.symm, (List.cons.inj hrest).2⟩
  · cases eq_nil_of_unmistakable hname hlonger hr' hrest
    rw [List.append_nil] at hlonger
    exact ⟨String.toList_inj.1 hlonger, (List.cons.inj hrest).2.symm⟩

/-! ## Operands -/

/-- Before the first space, two signs can be told. -/
theorem append_space_inj (hcs : ' ' ∉ cs) (hds : ' ' ∉ ds) (h : cs ++ ' ' :: r = ds ++ ' ' :: r') :
    cs = ds ∧ r = r' := by
  induction cs generalizing ds with
  | nil =>
    cases ds with
    | nil => exact ⟨rfl, (List.cons.inj h).2⟩
    | cons d ds => exact absurd (List.cons.inj h).1 fun hd => hds (hd ▸ List.mem_cons_self)
  | cons c cs ih =>
    cases ds with
    | nil => exact absurd (List.cons.inj h).1 fun hc => hcs (hc ▸ List.mem_cons_self)
    | cons d ds =>
      obtain ⟨hhead, htail⟩ := List.cons.inj h
      obtain ⟨rfl, hrest⟩ := ih (List.not_mem_of_not_mem_cons hcs) (List.not_mem_of_not_mem_cons hds) htail
      exact ⟨by rw [hhead], hrest⟩

theorem tells_infixed (hcs : Tells cs cs' p) (hds : Tells ds ds' q) (hsign : ' ' ∉ sign.toList)
    (hsign' : ' ' ∉ sign'.toList) :
    Tells (infixed sign cs ds) (infixed sign' cs' ds') (sign = sign' ∧ p ∧ q) := by
  intro r r' _ _ hsame
  simp only [infixed, List.cons_append, List.append_assoc, List.nil_append] at hsame
  obtain ⟨hp, hrest⟩ := hcs _ _ atEnd_space atEnd_space (List.cons.inj hsame).2
  obtain ⟨hsigns, hrest⟩ := append_space_inj hsign hsign' (List.cons.inj hrest).2
  obtain ⟨hq, hrest⟩ := hds _ _ atEnd_close atEnd_close hrest
  exact ⟨⟨String.toList_inj.1 hsigns, hp, hq⟩, (List.cons.inj hrest).2⟩

end Text

namespace CompareOp

theorem sign_injective {op op' : CompareOp} (h : op.sign = op'.sign) : op = op' := by
  revert h
  cases op <;> cases op' <;> decide

theorem space_notMem_sign (op : CompareOp) : ' ' ∉ op.sign.toList := by
  cases op <;> decide

theorem sign_ne_plus (op : CompareOp) : op.sign ≠ "+" := by
  cases op <;> decide

end CompareOp

namespace Expr

/-- The expression is made of columns, sequences, texts, sums and comparisons, and all names in it are of
a kind. -/
inductive Spelled (kind : String → Prop) : Expr → Prop where
  | text (s : String) : Spelled kind (.literal (.text s))
  | column {name : String} (place : Nat) (h : kind name) : Spelled kind (.column place name)
  | nextValue {s : SequenceRef} (h : kind s.name) : Spelled kind (.nextValue s)
  | add {e f : Expr} (he : Spelled kind e) (hf : Spelled kind f) : Spelled kind (.add e f)
  | compare {e f : Expr} (op : CompareOp) (he : Spelled kind e) (hf : Spelled kind f) :
    Spelled kind (.compare op e f)

/-- The expressions have the same form, operators, names and texts. -/
inductive Alike : Expr → Expr → Prop where
  | text (s : String) : Alike (.literal (.text s)) (.literal (.text s))
  | column (place place' : Nat) (name : String) : Alike (.column place name) (.column place' name)
  | nextValue {s s' : SequenceRef} (h : s.name = s'.name) : Alike (.nextValue s) (.nextValue s')
  | add {e e' f f' : Expr} (he : Alike e e') (hf : Alike f f') : Alike (.add e f) (.add e' f')
  | compare {e e' f f' : Expr} (op : CompareOp) (he : Alike e e') (hf : Alike f f') :
    Alike (.compare op e f) (.compare op e' f')

variable {e f : Expr}

theorem toList_sql_nextValue (s : SequenceRef) :
    (nextValue s).sql.toList = "NEXT VALUE FOR ".toList ++ (Text.identifier s.name).toList :=
  String.toList_append

theorem toList_sql_add : (add e f).sql.toList = Text.infixed "+" e.sql.toList f.sql.toList := by
  change ("(" ++ e.sql ++ " + " ++ f.sql ++ ")").toList = _
  simp [Text.infixed]

theorem toList_sql_compare (op : CompareOp) :
    (compare op e f).sql.toList = Text.infixed op.sign e.sql.toList f.sql.toList := by
  change ("(" ++ e.sql ++ " " ++ op.sign ++ " " ++ f.sql ++ ")").toList = _
  simp [Text.infixed]

def opening : Expr → Char
  | literal _ => '\''
  | column .. => '"'
  | nextValue _ => 'N'
  | add .. | compare .. => '('

theorem exists_sql_eq {kind : String → Prop} (h : e.Spelled kind) : ∃ cs, e.sql.toList = e.opening :: cs := by
  cases h with
  | text s => exact ⟨_, String.toList_ofList⟩
  | column => exact ⟨_, Text.toList_identifier _⟩
  | nextValue => exact ⟨_, toList_sql_nextValue _⟩
  | add => exact ⟨_, toList_sql_add⟩
  | compare op => exact ⟨_, toList_sql_compare op⟩

/-- Expressions that begin differently can be told. -/
theorem tells_of_opening {kind : String → Prop} {p : Prop} (he : e.Spelled kind) (hf : f.Spelled kind)
    (h : e.opening = f.opening → Text.Tells e.sql.toList f.sql.toList p) :
    Text.Tells e.sql.toList f.sql.toList p := by
  by_cases hopening : e.opening = f.opening
  · exact h hopening
  · obtain ⟨cs, hcs⟩ := exists_sql_eq he
    obtain ⟨ds, hds⟩ := exists_sql_eq hf
    rw [hcs, hds]
    exact Text.tells_of_head_ne hopening

/-- Where expressions have the same text before an end, they are alike. -/
theorem tells_sql (he : e.Spelled Text.Unmistakable) (hf : f.Spelled Text.Unmistakable) :
    Text.Tells e.sql.toList f.sql.toList (Alike e f) := by
  induction he generalizing f with
  | text s =>
    refine tells_of_opening (.text s) hf fun hopening => ?_
    cases hf with
    | text t => exact (Text.tells_literal s t).imp fun hst => hst ▸ .text s
    | column | nextValue | add | compare => simp [opening] at hopening
  | @column name place h =>
    refine tells_of_opening (.column place h) hf fun hopening => ?_
    cases hf with
    | column place' h' => exact (Text.tells_identifier h h').imp fun hname => hname ▸ .column place place' name
    | text | nextValue | add | compare => simp [opening] at hopening
  | nextValue h =>
    refine tells_of_opening (.nextValue h) hf fun hopening => ?_
    cases hf with
    | nextValue h' =>
      rw [toList_sql_nextValue, toList_sql_nextValue]
      exact (Text.tells_identifier h h').append_left.imp .nextValue
    | text | column | add | compare => simp [opening] at hopening
  | add hleft hright ihleft ihright =>
    refine tells_of_opening (.add hleft hright) hf fun hopening => ?_
    cases hf with
    | add hleft' hright' =>
      rw [toList_sql_add, toList_sql_add]
      exact (Text.tells_infixed (ihleft hleft') (ihright hright') (by decide) (by decide)).imp
        fun hsame => .add hsame.2.1 hsame.2.2
    | compare op hleft' hright' =>
      rw [toList_sql_add, toList_sql_compare]
      exact (Text.tells_infixed (ihleft hleft') (ihright hright') (by decide) op.space_notMem_sign).imp
        fun hsame => absurd hsame.1.symm op.sign_ne_plus
    | text | column | nextValue => simp [opening] at hopening
  | compare op hleft hright ihleft ihright =>
    refine tells_of_opening (.compare op hleft hright) hf fun hopening => ?_
    cases hf with
    | add hleft' hright' =>
      rw [toList_sql_compare, toList_sql_add]
      exact (Text.tells_infixed (ihleft hleft') (ihright hright') op.space_notMem_sign (by decide)).imp
        fun hsame => absurd hsame.1 op.sign_ne_plus
    | compare op' hleft' hright' =>
      rw [toList_sql_compare, toList_sql_compare]
      refine (Text.tells_infixed (ihleft hleft') (ihright hright') op.space_notMem_sign
        op'.space_notMem_sign).imp fun hsame => ?_
      cases CompareOp.sign_injective hsame.1
      exact .compare op hsame.2.1 hsame.2.2
    | text | column | nextValue => simp [opening] at hopening

/-- Expressions of columns, sequences, texts, sums and comparisons that have the same text are alike, if no
quotation mark inside a name is followed by a space or a closing parenthesis. -/
theorem sql_is_unambiguous {e f : Expr} (he : e.Spelled Text.Unmistakable) (hf : f.Spelled Text.Unmistakable)
    (h : e.sql = f.sql) : Alike e f := by
  have hsame : e.sql.toList ++ [] = f.sql.toList ++ [] := by rw [h]
  exact (tells_sql he hf [] [] Text.atEnd_nil Text.atEnd_nil hsame).1

/-- A mark inside a name, and a text that looks like two with a sign between them. -/
theorem marked_name_is_told :
    let e : Expr := .add (.column 0 "A\"B") (.compare .equal (.column 1 "C D") (.literal (.text "' + '")))
    let f : Expr := .add (.column 2 "A\"B") (.compare .equal (.column 3 "C D") (.literal (.text "' + '")))
    e.sql = f.sql ∧ Alike e f := by
  have hspelled (place place' : Nat) : (Expr.add (.column place "A\"B")
      (.compare .equal (.column place' "C D") (.literal (.text "' + '")))).Spelled Text.Unmistakable :=
    .add (.column place (Text.unmistakable_of_unbroken (by decide) (by decide)))
      (.compare .equal (.column place' (Text.unmistakable_of_unmarked (by decide))) (.text _))
  exact ⟨rfl, sql_is_unambiguous (hspelled 0 1) (hspelled 2 3) rfl⟩

theorem Alike.name_eq {place place' : Nat} {name name' : String}
    (h : Alike (.column place name) (.column place' name')) : name = name' := by
  cases h
  rfl

/-- A mark inside a name can pass for the one at its end: two sums of differently named columns have the
same text. -/
theorem not_sql_is_unambiguous_anyhow : ¬ ∀ e f : Expr, e.Spelled (fun _ => True) → f.Spelled (fun _ => True) →
    e.sql = f.sql → Alike e f := by
  intro h
  have hspelled (name name' : String) : (Expr.add (.column 0 name) (.column 1 name')).Spelled fun _ => True :=
    .add (.column 0 trivial) (.column 1 trivial)
  have halike := h _ _ (hspelled "A\" + \"B" "C") (hspelled "A" "B\" + \"C") (by decide)
  cases halike with
  | add hleft hright => exact absurd hleft.name_eq (by decide)

end Expr
end RowStore
