/-! Quoted text: a string between double quotes, with the quote, the backslash and four control
characters written as escapes and every other character as it is. -/

namespace AccessPolicy.Text

def escapeChar : Char → List Char
  | '"' => ['\\', '"']
  | '\\' => ['\\', '\\']
  | '\n' => ['\\', 'n']
  | '\r' => ['\\', 'r']
  | '\t' => ['\\', 't']
  | '\x00' => ['\\', '0']
  | c => [c]

def escape (cs : List Char) : List Char := cs.flatMap escapeChar

def quoted (s : String) : String := String.ofList ('"' :: (escape s.toList ++ ['"']))

@[simp] theorem escape_nil : escape [] = [] := rfl

@[simp] theorem escape_cons (c : Char) (cs : List Char) :
    escape (c :: cs) = escapeChar c ++ escape cs := rfl

@[simp] theorem escape_append (cs ds : List Char) :
    escape (cs ++ ds) = escape cs ++ escape ds := by simp [escape]

end AccessPolicy.Text
