import AccessPolicy.Text.Span
import AccessPolicy.Toml.Number

/-! Reading TOML documents of lines: headers of tables and keys with values, each line with a
comment at its end if need be. Values are words, numbers, strings on one line, arrays and inline
tables. What is no such document has no reading. -/

namespace AccessPolicy.Toml

abbrev Read (α : Type) (n : Nat) := Option (Taken Char α n)

/-- Whether a character may stand in comments and strings as it is. -/
def isTextChar (c : Char) : Bool := c == '\t' || (decide (0x20 ≤ c.toNat) && c.toNat != 0x7F)

/-- Leaves out spaces and a comment up to the end of the line. -/
def skipComment (cs : List Char) : Taken Char Unit (cs.length + 1) :=
  let ⟨_, ts, h⟩ := Text.skipSpace cs
  match Taken.accept? '#' ts with
  | some ⟨_, ts₁, h₁⟩ =>
    let text := Text.span isTextChar ts₁
    (((text.map fun _ => ()).optionalAfter h₁).afterOptional h).wider
  | none => ⟨(), ts, h⟩

def lineEnd? : (cs : List Char) → Read Unit cs.length
  | '\n' :: _ => some (.one ())
  | '\r' :: '\n' :: _ => some (Taken.one ()).wider
  | _ => none

/-- Leaves out spaces, comments and line ends. -/
def skipLines (cs : List Char) : Taken Char Unit (cs.length + 1) :=
  let ⟨_, ts, h⟩ := skipComment cs
  match lineEnd? ts with
  | some ⟨_, ts₁, h₁⟩ => (((skipLines ts₁).optionalAfter h₁).afterOptional h).wider
  | none => ⟨(), ts, h⟩
termination_by cs.length
decreasing_by omega

/-- Goes to the next line behind spaces and a comment, unless the text ends. -/
def closeLine (cs : List Char) : Read Unit (cs.length + 1) :=
  let ⟨_, ts, h⟩ := skipComment cs
  if ts.isEmpty then some ⟨(), ts, h⟩
  else (lineEnd? ts).map fun r => (r.afterOptional h).wider

/-- What an escape of one letter stands for. -/
def escape? : Char → Option Char
  | 'b' => some '\x08'
  | 't' => some '\t'
  | 'n' => some '\n'
  | 'f' => some '\x0c'
  | 'r' => some '\r'
  | 'e' => some '\x1b'
  | '"' => some '"'
  | '\\' => some '\\'
  | _ => none

/-- The number of hexadecimal digits behind an escape letter. -/
def escapeDigits? : Char → Option Nat
  | 'x' => some 2
  | 'u' => some 4
  | 'U' => some 8
  | _ => none

/-- The character whose code point has exactly `n` hexadecimal digits. -/
def codePoint? (n : Nat) (digits : List Char) : Option Char := do
  let v ← Text.hexValue? 0 digits
  if digits.length = n ∧ v.isValidChar then some (Char.ofNat v) else none

/-- A string behind its opening quote, up to the closing one. -/
def basicString (cs : List Char) : Read (List Char) cs.length :=
  match cs with
  | [] => none
  | '"' :: _ => some (.one [])
  | '\\' :: c :: cs =>
    match escape? c, escapeDigits? c with
    | some e, _ => do
      let s ← basicString cs
      some (s.map (e :: ·)).wider.wider
    | none, some n => do
      let ⟨digits, ts, h⟩ := Text.first n cs
      let e ← codePoint? n digits
      let s ← basicString ts
      some ((s.map (e :: ·)).afterOptional h).wider.wider
    | none, none => none
  | c :: cs =>
    if isTextChar c ∧ c ≠ '\\' then do
      let s ← basicString cs
      some (s.map (c :: ·)).wider
    else none
termination_by cs.length
decreasing_by all_goals simp only [List.length_cons]; omega

/-- A literal string behind its opening quote, up to the closing one. -/
def literalString : (cs : List Char) → Read (List Char) cs.length
  | [] => none
  | '\'' :: _ => some (.one [])
  | c :: cs =>
    if isTextChar c then do
      let s ← literalString cs
      some (s.map (c :: ·)).wider
    else none

def isBareChar (c : Char) : Bool := c.isAlphanum || c == '_' || c == '-'

/-- One part of a dotted key. -/
def simpleKey (cs : List Char) : Read String cs.length :=
  match cs with
  | '"' :: cs => do
    let s ← basicString cs
    some (s.map String.ofList).wider
  | '\'' :: cs => do
    let s ← literalString cs
    some (s.map String.ofList).wider
  | c :: cs =>
    if isBareChar c then some ((Text.span isBareChar cs).map fun l => String.ofList (c :: l))
    else none
  | [] => none

/-- The most arrays and inline tables that may stand one in another, and the most parts of a dotted
key. -/
def nestingLimit : Nat := 80

/-- The parts of a dotted key and the spaces behind it. -/
def keyParts (cs : List Char) : Read (List String) cs.length := do
  let ⟨key, ts, h⟩ ← simpleKey cs
  let ⟨_, ts₁, h₁⟩ := Text.skipSpace ts
  match Taken.accept? '.' ts₁ with
  | some ⟨_, ts₂, h₂⟩ => do
    let ⟨_, ts₃, h₃⟩ := Text.skipSpace ts₂
    let keys ← keyParts ts₃
    some (((((keys.map (key :: ·)).afterOptional h₃).after h₂).afterOptional h₁).after h)
  | none => some ((Taken.mk [key] ts₁ h₁).optionalAfter h)
termination_by cs.length
decreasing_by omega

/-- A dotted key and the spaces behind it. -/
def dottedKey (cs : List Char) : Read (List String) cs.length := do
  let key ← keyParts cs
  if key.value.length ≤ nestingLimit then some key else none

mutual

/-- A value in which at most `room` arrays and inline tables stand one in another. -/
def value (room : Nat) (cs : List Char) : Read Toml cs.length :=
  match cs with
  | '"' :: cs => do
    let s ← basicString cs
    some (s.map fun s => .string (String.ofList s)).wider
  | '\'' :: cs => do
    let s ← literalString cs
    some (s.map fun s => .string (String.ofList s)).wider
  | '[' :: cs =>
    if room = 0 then none
    else do
      let ⟨_, ts, h⟩ := skipLines cs
      let items ← arrayItems (room - 1) ts
      some ((items.map .array).afterOptional h).wider
  | '\x7b' :: cs =>
    if room = 0 then none
    else do
      let ⟨_, ts, h⟩ := skipLines cs
      let es ← tableItems (room - 1) [] ts
      some ((es.map (.table .inlined)).afterOptional h).wider
  | c :: cs =>
    if isWordChar c then do
      let ⟨tail, rest, h⟩ := Text.span isWordChar cs
      let v ← word? (c :: tail)
      some ⟨v, rest, h⟩
    else none
  | [] => none
termination_by 2 * cs.length
decreasing_by all_goals simp only [List.length_cons]; omega

/-- The items of an array up to its end, which may follow a comma. -/
def arrayItems (room : Nat) (cs : List Char) : Read (List Toml) cs.length :=
  match Taken.accept? ']' cs with
  | some r => some (r.map fun _ => [])
  | none => do
    let ⟨v, ts, h⟩ ← value room cs
    let ⟨_, ts₁, h₁⟩ := skipLines ts
    match Taken.accept? ']' ts₁ with
    | some r => some (((r.map fun _ => [v]).afterOptional h₁).after h)
    | none => do
      let ⟨_, ts₂, h₂⟩ ← Taken.accept? ',' ts₁
      let ⟨_, ts₃, h₃⟩ := skipLines ts₂
      let vs ← arrayItems room ts₃
      some (((((vs.map (v :: ·)).afterOptional h₃).after h₂).afterOptional h₁).after h)
termination_by 2 * cs.length + 1
decreasing_by all_goals omega

/-- The entries of an inline table behind those of `es`, up to its end, which may follow a comma. No
header implies a table in it, so either rule for such tables will do. -/
def tableItems (room : Nat) (es : Entries) (cs : List Char) : Read Entries cs.length :=
  match Taken.accept? '\x7d' cs with
  | some r => some (r.map fun _ => es)
  | none => do
    let ⟨key, ts, h⟩ ← dottedKey cs
    let ⟨_, ts₁, h₁⟩ := skipLines ts
    let ⟨_, ts₂, h₂⟩ ← Taken.accept? '=' ts₁
    let ⟨_, ts₃, h₃⟩ := skipLines ts₂
    let ⟨v, ts₄, h₄⟩ ← value room ts₃
    let es ← insert? .passed v key es
    let ⟨_, ts₅, h₅⟩ := skipLines ts₄
    let tail ← match Taken.accept? '\x7d' ts₅ with
      | some r => some (r.map fun _ => es)
      | none => do
        let ⟨_, ts₆, h₆⟩ ← Taken.accept? ',' ts₅
        let ⟨_, ts₇, h₇⟩ := skipLines ts₆
        let es ← tableItems room es ts₇
        some ((es.afterOptional h₇).after h₆)
    let item := ((tail.afterOptional h₅).after h₄).afterOptional h₃
    some (((item.after h₂).afterOptional h₁).after h)
termination_by 2 * cs.length + 1
decreasing_by all_goals omega

end

/-- A line with the header of a table, behind its opening bracket. -/
def headerLine (cs : List Char) : Read (List String) cs.length := do
  let ⟨_, ts, h⟩ := Text.skipSpace cs
  let ⟨key, ts₁, h₁⟩ ← dottedKey ts
  let ⟨_, ts₂, h₂⟩ ← Taken.accept? ']' ts₁
  let line ← closeLine ts₂
  some ((((line.map fun _ => key).optionalAfter h₂).after h₁).afterOptional h)

/-- A line with a key and its value. -/
def entryLine (cs : List Char) : Read (List String × Toml) cs.length := do
  let ⟨key, ts, h⟩ ← dottedKey cs
  let ⟨_, ts₁, h₁⟩ ← Taken.accept? '=' ts
  let ⟨_, ts₂, h₂⟩ := Text.skipSpace ts₁
  let ⟨v, ts₃, h₃⟩ ← value nestingLimit ts₂
  let line ← closeLine ts₃
  some (((((line.map fun _ => (key, v)).optionalAfter h₃).afterOptional h₂).after h₁).after h)

/-- The lines from a place on, where the table of the header `path` is open. -/
def lines (rule : ImpliedRule) (path : List String) (es : Entries) (cs : List Char) :
    Option Entries :=
  let ⟨_, ts, _h⟩ := skipLines cs
  match Taken.accept? '[' ts with
  | some ⟨_, ts₁, _⟩ => do
    let ⟨key, rest, _⟩ ← headerLine ts₁
    let es ← openTable? key es
    lines rule key es rest
  | none =>
    if ts.isEmpty then some es
    else do
      let ⟨(key, v), rest, _⟩ ← entryLine ts
      let es ← insertUnder? rule key v path es
      lines rule path es rest
termination_by cs.length
decreasing_by all_goals omega

/-- The entries of a document; a byte order mark may stand at its start. -/
def parse? (rule : ImpliedRule) (cs : List Char) : Option Entries :=
  lines rule [] [] (Text.behindMark cs)

end AccessPolicy.Toml
