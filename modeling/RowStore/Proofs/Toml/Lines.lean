import Mathlib.Algebra.BigOperators.Group.List.Basic
import RowStore.Proofs.Text.Numeral
import RowStore.Toml.Reader

/-!
# Files of plain lines

* `Denotes` : characters denote a node, up to the end of their line;
* `denotes_string` : plain characters between quotation marks do, `denotes_boolean` : and truth values;
* `Line` : a bare key and a value; `Line.Sound.readLines?_append` : a line adds its entry;
* `read?_lines` : lines with different keys are read as the table that they write.
-/

namespace RowStore.Toml

def Denotes (cs : List Char) (node : Toml) : Prop :=
  (∀ c ∈ cs.head?, isSpace c = false) ∧
    ∀ fuel depth rest, readValue? (fuel + 1) depth (cs ++ '\n' :: rest) = some (node, '\n' :: rest)

/-- A bare key with its value, as it is written and as it is read. -/
structure Line where
  key : String
  value : List Char
  node : Toml

namespace Line

def chars (l : Line) : List Char := l.key.toList ++ ' ' :: '=' :: ' ' :: l.value ++ ['\n']

def entry (l : Line) : String × Toml := (l.key, l.node)

/-- The line can be read. -/
structure Sound (l : Line) : Prop where
  key_ne : l.key ≠ ""
  bare : ∀ c ∈ l.key.toList, isBare c = true
  denotes : Denotes l.value l.node

end Line

variable {cs rest : List Char} {c : Char} {l : Line} {ls : List Line} {key : String} {node : Toml} {d : Document}
  {fuel parts : Nat}

/-! ## Values -/

def isVerbatim (c : Char) : Bool := isPlain c && c != '"' && c != '\\'

theorem readBasic?_append (h : ∀ c ∈ cs, isVerbatim c = true) :
    readBasic? 0 (cs ++ '"' :: rest) = some (cs, rest) := by
  induction cs with
  | nil => rfl
  | cons c cs ih =>
    have hc := h c List.mem_cons_self
    simp only [isVerbatim, Bool.and_eq_true, bne_iff_ne] at hc
    rw [List.cons_append, readBasic?, if_neg hc.1.2, if_neg hc.2, if_pos hc.1.1,
      ih fun c hc => h c (List.mem_cons_of_mem _ hc)]
    rfl

theorem readString?_cons (h : ∀ rest, cs ≠ '"' :: '"' :: rest) :
    readString? ('"' :: cs) = (readBasic? 0 cs).map readString?.pack := by
  unfold readString?
  split
  · rename_i heq
    exact absurd (List.cons.inj heq).2 (h _)
  · rename_i heq
    exact absurd (List.cons.inj heq).1 (by decide)
  · rename_i heq
    rw [(List.cons.inj heq).2]
  · rename_i heq
    exact absurd (List.cons.inj heq).1 (by decide)
  · rename_i hmark _
    exact absurd rfl (hmark cs)

/-- Such characters denote their text. -/
theorem denotes_string {s : String} (h : ∀ c ∈ s.toList, isVerbatim c = true) :
    Denotes ('"' :: s.toList ++ ['"']) (.string s) := by
  refine ⟨by simp [isSpace], fun fuel depth rest => ?_⟩
  have hstring : readString? ('"' :: (s.toList ++ '"' :: '\n' :: rest)) = some (s, '\n' :: rest) := by
    rw [readString?_cons, readBasic?_append h, Option.map_some, readString?.pack, String.ofList_toList]
    intro rest' heq
    cases hs : s.toList with
    | nil =>
      rw [hs] at heq
      exact absurd (List.cons.inj (List.cons.inj heq).2).1 (by decide)
    | cons c cs =>
      rw [hs] at heq
      have hc := h c (hs ▸ List.mem_cons_self)
      rw [(List.cons.inj heq).1] at hc
      exact absurd hc (by decide)
  rw [List.append_assoc, List.cons_append]
  change (readString? ('"' :: (s.toList ++ '"' :: '\n' :: rest))).map _ = _
  rw [hstring]
  rfl

theorem denotes_boolean (b : Bool) : Denotes (if b then "true" else "false").toList (.boolean b) := by
  refine ⟨?_, fun _ _ _ => by cases b <;> rfl⟩
  cases b <;> · rintro c ⟨⟩; rfl

/-! ## Lines -/

/-- What a bare key does not begin with, nor its line. -/
theorem ne_of_isBare {m : Char} (h : isBare c = true) (hm : isBare m = false) : c ≠ m := by
  rintro rfl
  exact absurd h (by simp [hm])

theorem skipGap_cons (h : isBare c = true) : skipGap false (c :: cs) = some (c :: cs) := by
  have hspace : isSpace c = false := by
    simp [isSpace, ne_of_isBare h (m := ' ') rfl, ne_of_isBare h (m := '\t') rfl]
  unfold skipGap
  split
  · rename_i heq
    cases heq
  · rename_i heq
    exact absurd (List.cons.inj heq).1 (ne_of_isBare h rfl)
  · rename_i heq
    exact absurd (List.cons.inj heq).1 (ne_of_isBare h rfl)
  · rename_i heq
    cases heq
    rw [if_neg Bool.false_ne_true, if_neg (by simp [hspace]), if_neg (ne_of_isBare h rfl)]

theorem readSimpleKey?_append (hne : key ≠ "") (h : ∀ c ∈ key.toList, isBare c = true)
    (hrest : ∀ c ∈ rest.head?, isBare c = false) : readSimpleKey? (key.toList ++ rest) = some (key, rest) := by
  have hspan := Text.span_append h hrest
  cases hkey : key.toList with
  | nil => exact absurd (String.toList_inj.1 hkey) hne
  | cons k ks =>
    have hk := h k (hkey ▸ List.mem_cons_self)
    rw [hkey, List.cons_append] at hspan
    unfold readSimpleKey?
    split
    · rename_i heq
      exact absurd (List.cons.inj heq).1 (ne_of_isBare hk rfl)
    · rename_i heq
      exact absurd (List.cons.inj heq).1 (ne_of_isBare hk rfl)
    · rw [List.cons_append, hspan.1, hspan.2]
      change some (String.ofList (k :: ks), rest) = _
      rw [← hkey, String.ofList_toList]

theorem readKey?_append (hne : key ≠ "") (h : ∀ c ∈ key.toList, isBare c = true) :
    readKey? (parts + 1) (key.toList ++ ' ' :: '=' :: rest) = some (([], key), ' ' :: '=' :: rest) := by
  have hsimple : readSimpleKey? (key.toList ++ ' ' :: '=' :: rest) = some (key, ' ' :: '=' :: rest) :=
    readSimpleKey?_append hne h fun c hc => by cases hc; rfl
  rw [readKey?, hsimple]
  rfl

theorem skipSpaces_append (rest : List Char) (h : Denotes cs node) :
    skipSpaces (' ' :: (cs ++ '\n' :: rest)) = cs ++ '\n' :: rest := by
  have hskip : skipSpaces (' ' :: (cs ++ '\n' :: rest)) = skipSpaces (cs ++ '\n' :: rest) := rfl
  rw [hskip]
  cases cs with
  | nil => rfl
  | cons c cs => exact List.dropWhile_cons_of_neg (by simp [h.1 c rfl])

namespace Line

theorem Sound.exists_chars (h : l.Sound) : ∃ k ks, l.chars = k :: ks ∧ isBare k = true := by
  cases hkey : l.key.toList with
  | nil => exact absurd (String.toList_inj.1 hkey) h.key_ne
  | cons k ks => exact ⟨k, _, by rw [chars, hkey]; rfl, h.bare k (hkey ▸ List.mem_cons_self)⟩

theorem Sound.readEntry?_append (h : l.Sound) :
    readEntry? d (l.chars ++ rest) = (d.put [] l.key l.node).map (·, '\n' :: rest) := by
  have hchars : l.chars ++ rest = l.key.toList ++ ' ' :: '=' :: ' ' :: (l.value ++ '\n' :: rest) := by
    simp [chars]
  have hkey : readKey? depthLimit (l.chars ++ rest) =
      some (([], l.key), ' ' :: '=' :: ' ' :: (l.value ++ '\n' :: rest)) :=
    hchars ▸ readKey?_append h.key_ne h.bare
  have hspaces := skipSpaces_append rest h.denotes
  obtain ⟨k, ks, hks, hk⟩ := h.exists_chars
  unfold readEntry?
  split
  · rename_i heq
    rw [hks] at heq
    exact absurd (List.cons.inj heq).1 (ne_of_isBare hk rfl)
  · rename_i heq
    rw [hks] at heq
    exact absurd (List.cons.inj heq).1 (ne_of_isBare hk rfl)
  · rw [hkey]
    change (readValue? _ depthLimit (skipSpaces (' ' :: (l.value ++ '\n' :: rest)))).bind _ = _
    rw [hspaces, h.denotes.2]
    exact Option.map_eq_bind.symm

/-- A line adds its entry, and the next one follows. -/
theorem Sound.readLines?_append (h : l.Sound) :
    readLines? (fuel + 1) d (l.chars ++ rest) = (d.put [] l.key l.node).bind (readLines? fuel · rest) := by
  have hentry : readEntry? d (l.chars ++ rest) = _ := h.readEntry?_append
  obtain ⟨k, ks, hks, hk⟩ := h.exists_chars
  rw [hks, List.cons_append] at hentry ⊢
  conv_lhs => unfold readLines?
  rw [skipGap_cons hk]
  change ( readEntry? d (k :: (ks ++ rest))).bind _ = _
  rw [hentry, Option.bind_map]
  rfl

end Line

theorem put_eq (h : key ∉ d.current.map Prod.fst) :
    d.put [] key node = some { d with current := d.current ++ [(key, node)] } := by
  have hfind : find? key d.current = none := by
    refine List.lookup_eq_none_iff.2 fun e he => bne_iff_ne.2 ?_
    rintro rfl
    exact h (List.mem_map_of_mem he)
  have hadd : add? key node d.current = some (d.current ++ [(key, node)]) := by
    rw [add?, hfind]
    rfl
  rw [Document.put, Toml.put, alterDotted, hadd, Option.map_some]

/-- Lines with new keys are added to the table that is being filled. -/
theorem readLines?_lines (h : ∀ l ∈ ls, l.Sound) (hkeys : ((d.current ++ ls.map Line.entry).map Prod.fst).Nodup)
    (hfuel : ls.length < fuel) :
    readLines? fuel d (ls.flatMap Line.chars) = some { d with current := d.current ++ ls.map Line.entry } := by
  -- Every line takes one of the fuel, and the end of the file the last one.
  obtain ⟨fuel, rfl⟩ := Nat.exists_eq_succ_of_ne_zero (Nat.ne_zero_of_lt hfuel)
  induction ls generalizing d fuel with
  | nil =>
    rw [List.map_nil, List.append_nil]
    rfl
  | cons l ls ih =>
    have hnew : l.key ∉ d.current.map Prod.fst := by
      rw [List.map_append, List.nodup_append] at hkeys
      exact fun hmem => hkeys.2.2 _ hmem _ List.mem_cons_self rfl
    have hentries : d.current ++ l.entry :: ls.map Line.entry = d.current ++ [l.entry] ++ ls.map Line.entry :=
      List.append_cons ..
    obtain ⟨fuel, rfl⟩ := Nat.exists_eq_succ_of_ne_zero (Nat.ne_zero_of_lt (Nat.lt_of_succ_lt_succ hfuel))
    rw [List.map_cons, hentries] at hkeys
    rw [List.flatMap_cons, (h l List.mem_cons_self).readLines?_append, put_eq hnew, Option.bind_some, List.map_cons,
      hentries]
    exact ih (fun l hl => h l (List.mem_cons_of_mem _ hl)) hkeys fuel (Nat.lt_of_succ_lt_succ hfuel)

theorem length_le_flatMap (h : ∀ l ∈ ls, l.Sound) : ls.length ≤ (ls.flatMap Line.chars).length := by
  have hsum := List.length_le_sum_of_one_le (ls.map (·.chars.length)) fun n hn => by
    obtain ⟨l, hl, rfl⟩ := List.mem_map.1 hn
    obtain ⟨k, ks, hks, -⟩ := (h l hl).exists_chars
    exact hks ▸ Nat.succ_pos _
  rwa [List.length_map, ← List.length_flatMap] at hsum

theorem skipMark_flatMap (h : ∀ l ∈ ls, l.Sound) : skipMark (ls.flatMap Line.chars) = ls.flatMap Line.chars := by
  cases ls with
  | nil => rfl
  | cons l ls =>
    obtain ⟨k, ks, hks, hk⟩ := (h l List.mem_cons_self).exists_chars
    rw [List.flatMap_cons, hks, List.cons_append, skipMark, if_neg]
    exact fun hmark => ne_of_isBare hk rfl (Char.toNat_inj.1 hmark : k = '\ufeff')

/-- A file of lines with different keys is read as the table that they write. -/
theorem read?_lines {s : String} (hs : s.toList = ls.flatMap Line.chars) (h : ∀ l ∈ ls, l.Sound)
    (hkeys : (ls.map Line.key).Nodup) : read? s = some (ls.map Line.entry) := by
  have hlength : ls.length < s.length + 1 := by
    rw [Nat.lt_succ_iff, ← String.length_toList, hs]
    exact length_le_flatMap h
  have hlines : readLines? (s.length + 1) {} (ls.flatMap Line.chars) = some { current := ls.map Line.entry } :=
    readLines?_lines h (by simpa [Line.entry, Function.comp_def] using hkeys) hlength
  rw [read?, hs, skipMark_flatMap h, hlines]
  rfl

end RowStore.Toml
