import AccessPolicy.Taken

/-! Leading characters of a text: those of a class, a number of them, spaces, or a mark. -/

namespace AccessPolicy.Text

def span (p : Char → Bool) (cs : List Char) : Taken Char (List Char) (cs.length + 1) :=
  ⟨cs.takeWhile p, cs.dropWhile p, Nat.lt_succ_of_le (List.dropWhile_sublist p).length_le⟩

/-- The first `n` characters, or all if they are fewer. -/
def first (n : Nat) (cs : List Char) : Taken Char (List Char) (cs.length + 1) :=
  ⟨cs.take n, cs.drop n, Nat.lt_succ_of_le (List.drop_sublist n cs).length_le⟩

/-- The characters that separate words on a line. -/
def isSpace (c : Char) : Bool := c == ' ' || c == '\t'

def skipSpace (cs : List Char) : Taken Char (List Char) (cs.length + 1) := span isSpace cs

/-- A text without the byte order mark that may stand at its start. -/
def behindMark : List Char → List Char
  | '\uFEFF' :: cs => cs
  | cs => cs

end AccessPolicy.Text
