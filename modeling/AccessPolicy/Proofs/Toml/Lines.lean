import AccessPolicy.Proofs.Token.Spelling
import AccessPolicy.Toml.Parser

/-! # Lines of a document

A document is read line by line. Each step is told by what it hands on and what it leaves
(`Read.Gives`), for keys without quotes and values that are one word; a number is the word of its
decimal digits. A header opens its table for the lines below it (`Bare.lines_header`), and any other
line puts an entry into the open one (`Bare.lines_entry`). -/

namespace AccessPolicy

/-! ## Numerals -/

theorem notMem_of_digits {cs : List Char} (h : ∀ d ∈ cs, d.isDigit = true) {d : Char}
    (hd : d.isDigit = false) : d ∉ cs := by
  intro hmem
  rw [h d hmem] at hd
  cases hd

theorem ne_of_digits {c : Char} {cs : List Char} (h : ∀ d ∈ c :: cs, d.isDigit = true) (d : Char)
    (hd : d.isDigit = false) : c ≠ d := fun he =>
  notMem_of_digits h hd (he ▸ List.mem_cons_self)

theorem any_not_digit {cs : List Char} (h : ∀ d ∈ cs, d.isDigit = true) :
    cs.any (fun d => !d.isDigit) = false := by
  simpa using h

/-- Only zero has a numeral that starts with a zero. -/
theorem eq_zero_of_toDigits {n : Nat} {cs : List Char} (h : Nat.toDigits 10 n = '0' :: cs) :
    n = 0 := by
  induction n using Nat.strongRecOn generalizing cs with
  | ind n ih =>
    by_cases hn : n < 10
    · have hdigit : ∀ n < 10, Nat.digitChar n = '0' → n = 0 := by decide
      rw [Nat.toDigits_of_lt_base hn] at h
      exact hdigit n hn (List.head_eq_of_cons_eq h)
    · rw [Nat.toDigits_of_base_le (by decide) (Nat.le_of_not_lt hn)] at h
      obtain ⟨d, ds, hds⟩ :=
        List.exists_cons_of_ne_nil (Nat.toDigits_ne_nil (n := n / 10) (b := 10))
      rw [hds, List.cons_append] at h
      have hzero := ih (n / 10) (Nat.div_lt_self (by omega) (by decide))
        (hds.trans (congrArg (· :: ds) (List.head_eq_of_cons_eq h)))
      omega

/-- A number has decimal digits, none of them a zero in front of others. -/
theorem exists_digits (n : Nat) : ∃ c cs, (toString n).toList = c :: cs ∧
    (∀ d ∈ c :: cs, d.isDigit = true) ∧ (c = '0' → cs = []) ∧
      Decimal.Double.value (c :: cs) = n := by
  obtain ⟨c, cs, hcs⟩ := List.exists_cons_of_ne_nil (Nat.toDigits_ne_nil (n := n) (b := 10))
  refine ⟨c, cs, by simpa using hcs, fun d hd => ?_, ?_, ?_⟩
  · exact Nat.isDigit_of_mem_toDigits (by decide) (by decide) (hcs ▸ hd)
  · rintro rfl
    obtain rfl := eq_zero_of_toDigits hcs
    exact (List.tail_eq_of_cons_eq hcs).symm
  · rw [← hcs]
    exact Nat.ofDigitChars_ten_toDigits

namespace Toml

variable {c : Char} {cs : List Char}

theorem underscoresFitAfter_of_notMem {isDigit : Char → Bool} (h : '_' ∉ cs) (before : Bool) :
    underscoresFitAfter isDigit before cs = true := by
  induction cs generalizing before with
  | nil => rfl
  | cons c cs ih =>
    obtain ⟨hc, hcs⟩ := List.ne_and_not_mem_of_not_mem_cons h
    rw [underscoresFitAfter, if_neg (Ne.symm hc)]
    exact ih hcs _

theorem decimalInteger?_digits (hdigits : ∀ d ∈ c :: cs, d.isDigit = true)
    (hzero : c = '0' → cs = []) :
    decimalInteger? [] (c :: cs) = some (ofInt (Decimal.Double.value (c :: cs))) := by
  have hscore : '_' ∉ c :: cs := notMem_of_digits hdigits rfl
  have hdrop : (c :: cs).dropWhile Char.isDigit = [] := by
    rw [← List.append_nil (c :: cs), List.dropWhile_append_of_pos hdigits, List.dropWhile_nil]
  have hplain : withoutUnderscores (c :: cs) = c :: cs :=
    List.filter_eq_self.2 fun d hd => bne_iff_ne.2 fun he => hscore (he ▸ hd)
  have hfit : underscoresFit isHexDigit (c :: cs) = true :=
    underscoresFitAfter_of_notMem hscore false
  simpa [decimalInteger?, hdrop, hplain, hfit, any_not_digit hdigits] using hzero

theorem number?_digits (hdigits : ∀ d ∈ c :: cs, d.isDigit = true) (hzero : c = '0' → cs = []) :
    number? (c :: cs) = some (ofInt (Decimal.Double.value (c :: cs))) := by
  have hsign : splitSign (c :: cs) = ([], c :: cs) := by
    unfold splitSign
    split
    · rename_i he
      exact absurd (List.head_eq_of_cons_eq he) (ne_of_digits hdigits '-' rfl)
    · rename_i he
      exact absurd (List.head_eq_of_cons_eq he) (ne_of_digits hdigits '+' rfl)
    · rfl
  have hfloat : (c :: cs).any (· ∈ ['.', 'e', 'E']) = false := by
    refine List.any_eq_false.2 fun d hd => ?_
    simp only [List.mem_cons, List.not_mem_nil, or_false, decide_eq_true_eq]
    rintro (rfl | rfl | rfl) <;> exact notMem_of_digits hdigits rfl hd
  simp only [number?, hsign, hfloat, decimalInteger?_digits hdigits hzero]
  simp [ne_of_digits hdigits 'i' rfl, ne_of_digits hdigits 'n' rfl]

/-- Decimal digits are an integer, if there is no zero in front of others. -/
theorem word?_digits (hdigits : ∀ d ∈ c :: cs, d.isDigit = true) (hzero : c = '0' → cs = []) :
    word? (c :: cs) = some (ofInt (Decimal.Double.value (c :: cs))) := by
  unfold word?
  rw [if_neg (by simp [ne_of_digits hdigits 't' rfl]),
    if_neg (by simp [ne_of_digits hdigits 'f' rfl])]
  -- A zero stands alone, so that no letter marks a base.
  split <;> first
    | exact number?_digits hdigits hzero
    | (rename_i he
       obtain ⟨hc, hcs⟩ := List.cons.inj he
       rw [hzero hc] at hcs
       cases hcs)

/-! ## Lines of a document -/

/-- The step hands on a value and leaves the rest. -/
def Read.Gives {α : Type} {n : Nat} (r : Read α n) (a : α) (rest : List Char) : Prop :=
  ∃ h, r = some ⟨a, rest, h⟩

theorem Read.Gives.bind {α β : Type} {m n : Nat} {r : Read α m} {f : Taken Char α m → Read β n}
    {a : α} {b : β} {ts rest : List Char} (h : r.Gives a ts)
    (hf : ∀ hlt, (f ⟨a, ts, hlt⟩).Gives b rest) : Read.Gives (r >>= f) b rest := by
  obtain ⟨hlt, rfl⟩ := h
  exact hf hlt

theorem gives_accept (c : Char) (cs : List Char) :
    Read.Gives (Taken.accept? c (c :: cs)) () cs := by
  rw [Taken.accept?, if_pos rfl]
  exact ⟨_, rfl⟩

theorem span_append {p : Char → Bool} {rest : List Char} (hcs : ∀ c ∈ cs, p c = true)
    (hr : ∀ c ∈ rest.head?, p c = false) : ∃ h, Text.span p (cs ++ rest) = ⟨cs, rest, h⟩ := by
  have hdrop : (cs ++ rest).dropWhile p = rest := by
    rw [List.dropWhile_append_of_pos hcs]
    cases rest with
    | nil => rfl
    | cons c rest => simp [hr c rfl]
  have hlt : rest.length < (cs ++ rest).length + 1 := by
    rw [List.length_append]
    omega
  refine ⟨hlt, ?_⟩
  simp only [Text.span, Lexer.takeWhile_append_stop hcs hr, hdrop]

theorem ne_of_isBareChar {d : Char} (hc : isBareChar c = true) (hd : isBareChar d = false) :
    c ≠ d := by
  rintro rfl
  rw [hc] at hd
  cases hd

theorem isSpace_of_isBareChar (hc : isBareChar c = true) : Text.isSpace c = false := by
  simp [Text.isSpace, ne_of_isBareChar hc (show isBareChar ' ' = false from rfl),
    ne_of_isBareChar hc (show isBareChar '\t' = false from rfl)]

/-- A key without quotes. -/
structure Bare (key : List Char) : Prop where
  ne_nil : key ≠ []
  chars : ∀ c ∈ key, isBareChar c = true

variable {key rest : List Char}

theorem Bare.gives_simpleKey (hkey : Bare key) (hr : ∀ c ∈ rest.head?, isBareChar c = false) :
    (simpleKey (key ++ rest)).Gives (String.ofList key) rest := by
  obtain ⟨c, cs, rfl⟩ := List.exists_cons_of_ne_nil hkey.ne_nil
  obtain ⟨hc, hcs⟩ := List.forall_mem_cons.1 hkey.chars
  obtain ⟨h, hspan⟩ := span_append hcs hr
  rw [List.cons_append, simpleKey]
  · simp only [hc, if_true, hspan]
    exact ⟨_, rfl⟩
  all_goals
    rintro rfl
    cases hc

theorem Bare.gives_dottedKey_equals (hkey : Bare key) (rest : List Char) :
    (dottedKey (key ++ ' ' :: '=' :: rest)).Gives [String.ofList key] ('=' :: rest) := by
  obtain ⟨h, hsimple⟩ :=
    hkey.gives_simpleKey (show ∀ c ∈ (' ' :: '=' :: rest).head?, _ by simp; rfl)
  rw [dottedKey, keyParts, hsimple]
  exact ⟨_, rfl⟩

theorem Bare.gives_dottedKey_bracket (hkey : Bare key) (rest : List Char) :
    (dottedKey (key ++ ']' :: rest)).Gives [String.ofList key] (']' :: rest) := by
  obtain ⟨h, hsimple⟩ := hkey.gives_simpleKey (show ∀ c ∈ (']' :: rest).head?, _ by simp; rfl)
  rw [dottedKey, keyParts, hsimple]
  exact ⟨_, rfl⟩

/-- A word with the value it has, before the end of a line. -/
theorem gives_value {v : Toml} (hword : ∀ d ∈ c :: cs, isWordChar d = true) (hquote : c ≠ '"')
    (hquote' : c ≠ '\'') (hv : word? (c :: cs) = some v) (room : Nat) (rest : List Char) :
    (value room (c :: cs ++ '\n' :: rest)).Gives v ('\n' :: rest) := by
  obtain ⟨hc, hcs⟩ := List.forall_mem_cons.1 hword
  obtain ⟨h, hspan⟩ := span_append hcs (show ∀ d ∈ ('\n' :: rest).head?, _ by simp; rfl)
  rw [List.cons_append, value]
  · simp only [hc, if_true, hspan, hv]
    exact ⟨_, rfl⟩
  · exact hquote
  · exact hquote'
  all_goals
    rintro rfl
    cases hc

theorem gives_closeLine (rest : List Char) : (closeLine ('\n' :: rest)).Gives () rest := ⟨_, rfl⟩

theorem Bare.gives_headerLine (hkey : Bare key) (rest : List Char) :
    (headerLine (key ++ ']' :: '\n' :: rest)).Gives [String.ofList key] rest := by
  obtain ⟨c, cs, hcs⟩ := List.exists_cons_of_ne_nil hkey.ne_nil
  have hc : Text.isSpace c = false :=
    isSpace_of_isBareChar (hkey.chars c (hcs ▸ List.mem_cons_self))
  have hrest : (Text.skipSpace (key ++ ']' :: '\n' :: rest)).rest = key ++ ']' :: '\n' :: rest := by
    rw [hcs]
    exact List.dropWhile_cons_of_neg (Bool.eq_false_iff.1 hc)
  have hdotted := hkey.gives_dottedKey_bracket ('\n' :: rest)
  rw [← hrest] at hdotted
  rw [headerLine]
  refine .bind hdotted fun _ => ?_
  refine .bind (gives_accept _ _) fun _ => ?_
  exact .bind (gives_closeLine _) fun _ => ⟨_, rfl⟩

/-- The value of a line starts behind one space. -/
theorem Bare.gives_entryLine {v : Toml} (hkey : Bare key) (hc : Text.isSpace c = false)
    (hv : (value nestingLimit (c :: cs ++ '\n' :: rest)).Gives v ('\n' :: rest)) :
    (entryLine (key ++ ' ' :: '=' :: ' ' :: (c :: cs ++ '\n' :: rest))).Gives
      ([String.ofList key], v) rest := by
  have hrest : (Text.skipSpace (' ' :: (c :: cs ++ '\n' :: rest))).rest =
      c :: cs ++ '\n' :: rest := by
    simp [Text.skipSpace, Text.span, hc, show Text.isSpace ' ' = true from rfl]
  rw [← hrest] at hv
  rw [entryLine]
  refine .bind (hkey.gives_dottedKey_equals _) fun _ => ?_
  refine .bind (gives_accept _ _) fun _ => ?_
  refine .bind hv fun _ => ?_
  exact .bind (gives_closeLine _) fun _ => ⟨_, rfl⟩

/-- A line starts at its first character if that is no space and no comment and no line end. -/
theorem skipLines_eq (hspace : Text.isSpace c = false) (hcomment : c ≠ '#') (hbreak : c ≠ '\n')
    (hreturn : c ≠ '\r') (cs : List Char) : ∃ h, skipLines (c :: cs) = ⟨(), c :: cs, h⟩ := by
  have hskip : Text.skipSpace (c :: cs) = ⟨[], c :: cs, Nat.lt_succ_self _⟩ := by
    simp [Text.skipSpace, Text.span, hspace]
  have hcomment' : Taken.accept? '#' (c :: cs) = none := if_neg hcomment
  have hbody : ∃ h, skipComment (c :: cs) = ⟨(), c :: cs, h⟩ := by
    rw [skipComment, hskip]
    dsimp only
    rw [hcomment']
    exact ⟨_, rfl⟩
  have hend : lineEnd? (c :: cs) = none := by
    rw [lineEnd?]
    · exact fun _ he => hbreak (List.head_eq_of_cons_eq he)
    · exact fun _ he => hreturn (List.head_eq_of_cons_eq he)
  obtain ⟨h, hbody⟩ := hbody
  rw [skipLines, hbody]
  dsimp only
  rw [hend]
  exact ⟨_, rfl⟩

variable {rule : ImpliedRule} {path : List String} {es : Entries}

theorem lines_nil (rule : ImpliedRule) (path : List String) (es : Entries) :
    lines rule path es [] = some es := by
  have hskip : skipLines [] = ⟨(), [], Nat.zero_lt_one⟩ := by
    rw [skipLines]
    rfl
  rw [lines, hskip]
  rfl

theorem Bare.lines_header (hkey : Bare key) (rest : List Char) :
    lines rule path es ('[' :: (key ++ ']' :: '\n' :: rest)) =
      (openTable? [String.ofList key] es).bind fun es =>
        lines rule [String.ofList key] es rest := by
  have hstart := skipLines_eq (c := '[') rfl nofun nofun nofun (key ++ ']' :: '\n' :: rest)
  obtain ⟨h, hstart⟩ := hstart
  obtain ⟨h', hheader⟩ := hkey.gives_headerLine rest
  have hopen : Taken.accept? '[' ('[' :: (key ++ ']' :: '\n' :: rest)) = some (.one ()) := by
    rw [Taken.accept?, if_pos rfl]
  rw [lines, hstart]
  dsimp only
  rw [hopen]
  dsimp only [Taken.one]
  rw [hheader]
  rfl

theorem Bare.lines_entry {v : Toml} (hkey : Bare key) (hc : Text.isSpace c = false)
    (hv : (value nestingLimit (c :: cs ++ '\n' :: rest)).Gives v ('\n' :: rest)) :
    lines rule path es (key ++ ' ' :: '=' :: ' ' :: (c :: cs ++ '\n' :: rest)) =
      (insertUnder? rule [String.ofList key] v path es).bind fun es =>
        lines rule path es rest := by
  have hentry := hkey.gives_entryLine hc hv
  obtain ⟨d, ds, rfl⟩ := List.exists_cons_of_ne_nil hkey.ne_nil
  have hd : isBareChar d = true := hkey.chars d List.mem_cons_self
  rw [List.cons_append] at hentry ⊢
  obtain ⟨h', hentry⟩ := hentry
  obtain ⟨h, hstart⟩ := skipLines_eq (isSpace_of_isBareChar hd) (ne_of_isBareChar hd rfl)
    (ne_of_isBareChar hd rfl) (ne_of_isBareChar hd rfl)
    (ds ++ ' ' :: '=' :: ' ' :: (c :: cs ++ '\n' :: rest))
  have hopen : Taken.accept? '[' (d :: (ds ++ ' ' :: '=' :: ' ' :: (c :: cs ++ '\n' :: rest))) =
      none := if_neg (ne_of_isBareChar hd rfl)
  rw [lines, hstart]
  dsimp only
  rw [hopen, List.isEmpty_cons, if_neg Bool.false_ne_true, hentry]
  rfl

end Toml

end AccessPolicy
