/-!
# Quoted text

* `doubled q s` : `s` with every `q` written twice;
* `literal s` : a text literal, in apostrophes that are doubled inside;
* `identifier s` : a name between quotation marks, as it stands.
-/

namespace RowStore.Text

/-- Writes every `q` twice and all else once. -/
def doubled (q : Char) : List Char → List Char
  | [] => []
  | c :: cs => if c = q then q :: q :: doubled q cs else c :: doubled q cs

def literal (s : String) : String :=
  String.ofList ('\'' :: doubled '\'' s.toList ++ ['\''])

/-- A name between quotation marks; marks inside the name are not doubled. -/
def identifier (name : String) : String :=
  "\"" ++ name ++ "\""

end RowStore.Text
