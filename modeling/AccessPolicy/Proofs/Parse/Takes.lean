import AccessPolicy.Parse.Basic

/-! # What a reading step takes

`Takes` says that a step succeeds, with which value and which tokens left. The proof that fewer
tokens are left stays inside the step, so steps compose by their values and rests alone. The words
of the grammar (symbols, keywords, names and strings) are told by the token that they take. -/

namespace AccessPolicy

namespace Parse

variable {α β : Type} {m n : Nat}

theorem bind_eq_ok_iff {ε : Type} {x : Except ε α} {f : α → Except ε β} {b : β} :
    (x >>= f) = .ok b ↔ ∃ a, x = .ok a ∧ f a = .ok b := by
  cases x with
  | error e => simp [Bind.bind, Except.bind]
  | ok a => simp [Bind.bind, Except.bind]

theorem map_eq_ok_iff {ε : Type} {x : Except ε α} {f : α → β} {b : β} :
    x.map f = .ok b ↔ ∃ a, x = .ok a ∧ f a = b := by
  cases x with
  | error e => simp [Except.map]
  | ok a => simp [Except.map]

theorem map_eq_error_iff {ε : Type} {x : Except ε α} {f : α → β} {e : ε} :
    x.map f = .error e ↔ x = .error e := by
  cases x with
  | error e' => simp [Except.map]
  | ok a => simp [Except.map]

theorem run_eq_ok_iff {read : List Kind → Except Failure α} {text : String} {a : α} :
    run read text = .ok a ↔ ∃ ts, Tokens.ofText text = .ok ts ∧ read ts.kinds = .ok a := by
  unfold run
  rw [bind_eq_ok_iff]
  refine exists_congr fun ts => and_congr_right fun _ => ?_
  cases read ts.kinds <;> simp

theorem exists_eq_ok {ε : Type} {x : Except ε α} (h : x.isOk = true) : ∃ a, x = .ok a := by
  cases x with
  | error e => cases h
  | ok a => exact ⟨a, rfl⟩

/-- The step hands back `a` and leaves `rest`. -/
def Takes (x : Step α n) (a : α) (rest : List Kind) : Prop := ∃ h, x = .ok ⟨a, rest, h⟩

@[simp] theorem takes_ok {x : Taken Kind α n} {a : α} {rest : List Kind} :
    Takes (.ok x) a rest ↔ x.value = a ∧ x.rest = rest := by
  obtain ⟨b, ts, h⟩ := x
  constructor
  · rintro ⟨_, hx⟩
    cases hx
    exact ⟨rfl, rfl⟩
  · rintro ⟨rfl, rfl⟩
    exact ⟨h, rfl⟩

@[simp] theorem not_takes_error {f : Failure} {a : α} {rest : List Kind} :
    ¬ Takes (.error f : Step α n) a rest := by
  rintro ⟨_, h⟩
  cases h

@[simp] theorem not_takes_fail {ts : List Kind} {fault : ParseFault} {a : α} {rest : List Kind} :
    ¬ Takes (fail ts fault : Step α n) a rest := not_takes_error

@[simp] theorem not_takes_expected {what : Expectation} {ts : List Kind} {a : α}
    {rest : List Kind} : ¬ Takes (expected what ts : Step α n) a rest := not_takes_error

theorem Takes.bind {x : Step α m} {f : Taken Kind α m → Step β n} {b : β} {rest : List Kind}
    (h : Takes (x >>= f) b rest) :
    ∃ a ts, ∃ hlt, Takes x a ts ∧ Takes (f ⟨a, ts, hlt⟩) b rest := by
  cases x with
  | error e =>
    obtain ⟨_, h⟩ := h
    cases h
  | ok t => exact ⟨t.value, t.rest, t.lt, ⟨t.lt, rfl⟩, h⟩

theorem Takes.bind_intro {x : Step α m} {f : Taken Kind α m → Step β n} {a : α} {b : β}
    {ts rest : List Kind} (hx : Takes x a ts) (hf : ∀ hlt, Takes (f ⟨a, ts, hlt⟩) b rest) :
    Takes (x >>= f) b rest := by
  obtain ⟨hlt, rfl⟩ := hx
  exact hf hlt

/-! ## Single tokens -/

theorem head?_ne_of_forall {k : Kind} {ts : List Kind} (h : ∀ us, ts = k :: us → False) :
    ts.head? ≠ some k := by
  intro hh
  obtain ⟨us, hus⟩ := List.head?_eq_some_iff.1 hh
  exact h us hus

theorem accept?_eq_none_iff {k : Kind} {ts : List Kind} :
    Taken.accept? k ts = none ↔ ts.head? ≠ some k := by
  cases ts with
  | nil => simp [Taken.accept?]
  | cons u us => by_cases h : u = k <;> simp [Taken.accept?, h]

@[simp] theorem accept?_cons_self {k : Kind} {ts : List Kind} :
    Taken.accept? k (k :: ts) = some (.one ()) := by simp [Taken.accept?]

theorem takes_expect_iff {k : Kind} {what : Expectation} {ts rest : List Kind} :
    Takes (expect k what ts) () rest ↔ ts = k :: rest := by
  unfold expect
  cases h : Taken.accept? k ts with
  | none =>
    simp only [not_takes_expected, false_iff]
    rintro rfl
    simp at h
  | some r =>
    have hts : ts = k :: r.rest := Taken.accept?_eq_some_iff.1 h
    refine takes_ok.trans ⟨?_, fun h' => ⟨rfl, ?_⟩⟩
    · rintro ⟨-, rfl⟩
      exact hts
    · exact (List.cons.inj (hts.symm.trans h')).2

theorem takes_symbol_iff {s : Symbol} {ts rest : List Kind} :
    Takes (symbol s ts) () rest ↔ ts = .symbol s :: rest := takes_expect_iff

theorem takes_keyword_iff {word : String} {ts rest : List Kind} :
    Takes (keyword word ts) () rest ↔ ts = .ident word :: rest := takes_expect_iff

theorem takes_ident_iff {what : Expectation} {ts rest : List Kind} {name : String} :
    Takes (ident what ts) name rest ↔ ts = .ident name :: rest := by
  unfold ident
  split
  · simp [Taken.one]
  · rename_i h
    simp only [not_takes_expected, false_iff]
    exact fun hts => h _ _ hts

/-- The raw contents of a string token decode to the string. -/
def Decodes (raw : List Char) (s : String) : Prop := Text.unescape raw = .ok s.toList

theorem takes_string_iff {what : Expectation} {ts rest : List Kind} {s : String} :
    Takes (string what ts) s rest ↔ ∃ raw, ts = .string raw :: rest ∧ Decodes raw s := by
  unfold string Decodes
  split
  · rename_i raw us
    split
    · rename_i cs hcs
      simp only [takes_ok, Taken.one, List.cons.injEq, Kind.string.injEq]
      constructor
      · rintro ⟨rfl, rfl⟩
        exact ⟨raw, ⟨rfl, rfl⟩, by simp [hcs]⟩
      · rintro ⟨raw', ⟨rfl, rfl⟩, hd⟩
        rw [hcs] at hd
        cases hd
        simp
    · rename_i fault hf
      simp only [not_takes_fail, List.cons.injEq, Kind.string.injEq, false_iff]
      rintro ⟨raw', ⟨rfl, rfl⟩, hd⟩
      rw [hf] at hd
      cases hd
  · rename_i h
    simp only [not_takes_expected, false_iff]
    rintro ⟨raw, rfl, -⟩
    exact h _ _ rfl

/-! ## Whole inputs -/

theorem endOfInput_eq_ok_iff {ts : List Kind} : endOfInput ts = .ok () ↔ ts = [] := by
  cases ts with
  | nil => simp [endOfInput]
  | cons k ts => simp [endOfInput, expected, fail]

/-- A step that has to leave nothing. -/
theorem bind_endOfInput_eq_ok_iff {x : Step α n} {a : α} :
    (x >>= fun r => endOfInput r.rest >>= fun _ => .ok r.value) = .ok a ↔ Takes x a [] := by
  rw [bind_eq_ok_iff]
  constructor
  · rintro ⟨⟨b, rest, hlt⟩, hx, h⟩
    obtain ⟨_, hend, h⟩ := bind_eq_ok_iff.1 h
    obtain rfl : rest = [] := endOfInput_eq_ok_iff.1 hend
    cases h
    exact ⟨hlt, hx⟩
  · rintro ⟨hlt, hx⟩
    exact ⟨_, hx, rfl⟩

/-! ## Names of fields -/

/-- A token that names a field: an identifier, or a string by its contents. -/
inductive NameToken : Kind → String → Prop where
  | ident (name : String) : NameToken (.ident name) name
  | string {raw : List Char} {s : String} (hd : Decodes raw s) : NameToken (.string raw) s

theorem takes_identOrString_iff {what : Expectation} {ts rest : List Kind} {s : String} :
    Takes (identOrString what ts) s rest ↔ ∃ k, ts = k :: rest ∧ NameToken k s := by
  unfold identOrString
  split
  · rename_i name us
    simp only [takes_ok, Taken.one, List.cons.injEq]
    constructor
    · rintro ⟨rfl, rfl⟩
      exact ⟨_, ⟨rfl, rfl⟩, .ident _⟩
    · rintro ⟨k, ⟨rfl, rfl⟩, hk⟩
      cases hk
      exact ⟨rfl, rfl⟩
  · rename_i h
    rw [takes_string_iff]
    constructor
    · rintro ⟨raw, rfl, hd⟩
      exact ⟨_, rfl, .string hd⟩
    · rintro ⟨k, rfl, hk⟩
      cases hk with
      | ident => exact absurd rfl (h _ _)
      | string hd => exact ⟨_, rfl, hd⟩

end Parse

end AccessPolicy
