import RowStore.Options.Basic
import RowStore.Proofs.Options.Duration
import RowStore.Proofs.Toml.Lines

/-!
# Options come back from their files

* `lines` : the three lines of a file of options; `toList_write` : they are what is written;
* `sound_of_mem_lines` : each of them can be read;
* `foldlM_assign` : their entries make the options;
* `options_survive_their_file` : options are read from their file.
-/

namespace RowStore

namespace Options

open Toml (Denotes Line isVerbatim)

variable {o : Options} {c : Char}

def textLine (key text : String) : Line := ⟨key, '"' :: text.toList ++ ['"'], .string text⟩

def lines (o : Options) : List Line :=
  [textLine "lock-timeout" o.lockTimeout.write,
    ⟨"multi-version", (if o.multiVersion then "true" else "false").toList, .boolean o.multiVersion⟩,
    textLine "collation" o.collation.name]

theorem toList_write (o : Options) : o.write.toList = o.lines.flatMap Line.chars := by
  have htimeout : "lock-timeout = \"".toList = "lock-timeout".toList ++ [' ', '=', ' ', '"'] := by decide
  have hversions : "\"\nmulti-version = ".toList = ['"', '\n'] ++ "multi-version".toList ++ [' ', '=', ' '] := by
    decide
  have hcollation : "\ncollation = \"".toList = ['\n'] ++ "collation".toList ++ [' ', '=', ' ', '"'] := by decide
  have hend : "\"\n".toList = ['"', '\n'] := by decide
  unfold write lines textLine
  generalize o.lockTimeout.write = timeout
  generalize (if o.multiVersion then "true" else "false") = flag
  generalize o.collation.name = name
  simp only [String.toList_append, htimeout, hversions, hcollation, hend, Line.chars,
    List.flatMap_cons, List.flatMap_nil, List.append_assoc, List.cons_append, List.nil_append, List.append_nil]

theorem isVerbatim_of_isSpanChar (h : Duration.isSpanChar c = true) : isVerbatim c = true := by
  by_cases hc : c.toNat < 128
  · have hascii : ∀ n < 128, Duration.isSpanChar (Char.ofNat n) = true → isVerbatim (Char.ofNat n) = true := by
      decide
    have hn := hascii c.toNat hc
    rw [Char.ofNat_toNat] at hn
    exact hn h
  · have hne (m : Char) (hm : m.toNat < 128) : c ≠ m := fun heq => hc (heq ▸ hm)
    have hplain : Toml.isPlain c = true := by
      simp only [Toml.isPlain, Bool.or_eq_true, Bool.and_eq_true, decide_eq_true_eq]
      omega
    simp [isVerbatim, hplain, hne '"' (by decide), hne '\\' (by decide)]

theorem isVerbatim_of_mem_name (col : Collation) : ∀ c ∈ col.name.toList, isVerbatim c = true :=
  List.all_eq_true.1 (by cases col <;> decide)

theorem sound_mk {key : String} {value : List Char} {node : Toml} (hne : key ≠ "")
    (hbare : key.toList.all Toml.isBare = true) (h : Denotes value node) : Line.Sound ⟨key, value, node⟩ :=
  ⟨hne, List.all_eq_true.1 hbare, h⟩

theorem sound_of_mem_lines (hs : o.lockTimeout.seconds < UInt64.size) (hn : o.lockTimeout.nanos < 1000000000) :
    ∀ l ∈ o.lines, l.Sound := by
  have htimeout : Denotes ('"' :: o.lockTimeout.write.toList ++ ['"']) (.string o.lockTimeout.write) :=
    Toml.denotes_string fun c hc => isVerbatim_of_isSpanChar (Duration.isSpanChar_of_mem_write hs hn c hc)
  have hcollation : Denotes ('"' :: o.collation.name.toList ++ ['"']) (.string o.collation.name) :=
    Toml.denotes_string (isVerbatim_of_mem_name o.collation)
  simp only [lines, List.forall_mem_cons]
  exact ⟨sound_mk (by decide) (by decide) htimeout, sound_mk (by decide) (by decide) (Toml.denotes_boolean _),
    sound_mk (by decide) (by decide) hcollation, nofun⟩

theorem assign_lockTimeout {d : Duration} {s : String} (h : Duration.read s = .ok d) :
    o.assign "lock-timeout" (.string s) = .ok { o with lockTimeout := d } := by
  change (Duration.read s).bind _ = _
  rw [h]
  rfl

theorem assign_collation (col : Collation) :
    o.assign "collation" (.string col.name) = .ok { o with collation := col } := by
  cases col <;> rfl

/-- The entries of options, taken up one by one, make these options. -/
theorem foldlM_assign {default : Options} (h : Duration.read o.lockTimeout.write = .ok o.lockTimeout) :
    (o.lines.map Line.entry).foldlM (fun o entry => o.assign entry.1 entry.2) default = .ok o := by
  change (default.assign "lock-timeout" (.string o.lockTimeout.write)) >>= _ = _
  rw [assign_lockTimeout h]
  change (Options.assign _ "collation" (.string o.collation.name)) >>= _ = _
  rw [assign_collation]
  rfl

/-- Options are read from the file that they are written to. -/
theorem options_survive_their_file (o : Options) (hs : o.lockTimeout.seconds < UInt64.size)
    (hn : o.lockTimeout.nanos < 1000000000) : read o.write = .ok o := by
  have hentries : Toml.read? o.write = some (o.lines.map Line.entry) :=
    Toml.read?_lines (toList_write o) (sound_of_mem_lines hs hn)
      (by decide : ["lock-timeout", "multi-version", "collation"].Nodup)
  rw [read, hentries]
  exact foldlM_assign (Duration.read_write hs hn)

/-- The longest timeout, with neither default beside it. -/
theorem longest_timeout_survives :
    (18446744073709551615 < UInt64.size ∧ 999999999 < 1000000000) ∧
      read (write ⟨⟨18446744073709551615, 999999999⟩, true, .ignoreCase⟩) =
        .ok ⟨⟨18446744073709551615, 999999999⟩, true, .ignoreCase⟩ :=
  ⟨by decide, options_survive_their_file _ (by decide) (by decide)⟩

end Options

end RowStore
