import AccessPolicy.Proofs.Cursor.Policy

/-! # Parsing returns

On every text and for every bound the parser with a cursor returns what the readers give. It does so
from every state of the cursor, not only from those that occur: a procedure for expressions returns
from each of them, and if it gives a value it leaves the level as it found it. For that, calls need
to nest no more than sixteen deep for each token. -/

namespace AccessPolicy.Cursor

variable {α : Type} {input : Input} {s : State} {ts : List Kind} {d m n : Nat}

/-! ## Whole texts -/

/-- One policy after the other. -/
def allPolicies (input : Input) (calls : Calls) : Run (List Policy) := policyLoop input calls []

/-- One expression and nothing behind it. -/
def wholeExpr (input : Input) (calls : Calls) : Run Expr := do
  let e ← expr input calls
  endOfInput input
  return e

/-- One reference and nothing behind it. -/
def wholeUid (input : Input) (calls : Calls) : Run Uid := do
  let u ← uid input calls
  endOfInput input
  return u

/-- How deep calls nest at most. -/
def Input.nesting (input : Input) : Nat := 16 * input.tokens.length

/-- A parser returns on a text, with the given result: the tokens are refused, or the cursor goes
over them in order, and with a value it ends behind the last of them at level zero. -/
inductive Returns (bound : Nat) (text : String) (p : Input → Calls → Run α)
    (r : Except ParseError α) : Prop where
  | refused {e : ParseError} (htext : Tokens.ofText text = .error e) (hr : r = .error e)
  | read {ts : Tokens} {input : Input} (htext : Tokens.ofText text = .ok ts)
      (hinput : input = ⟨ts, bound⟩)
      (hread : ∀ n, input.nesting ≤ n → ∃ s, exec (p input (within input n)) {} =
        some (r.mapError .failed, s) ∧ s.Orderly input ∧
          ∀ a, r = .ok a → s.cursor = ⟨ts.list.length, 0⟩)

theorem State.start_before (ts : Tokens) (bound : Nat) :
    ({} : State).Before ⟨ts, bound⟩ 0 ts.kinds where
  orderly := ⟨List.forall_mem_singleton.2 (by simp [Input.tokens]), List.pairwise_singleton _ _,
    nofun⟩
  depth_eq := rfl
  le_bound := Nat.zero_le bound
  rest := ⟨[], rfl, rfl⟩

theorem State.Before.index_add (h : s.Before input d ts) :
    s.cursor.index + ts.length = input.source.list.length := by
  obtain ⟨us, hus, hindex⟩ := h.rest
  have hlen := congrArg List.length hus
  rw [Tokens.kinds, List.length_map, List.length_append, ← hindex] at hlen
  exact hlen.symm

theorem State.Before.cursor_eq (h : s.Before input d []) :
    s.cursor = ⟨input.source.list.length, d⟩ := by
  have hindex : s.cursor.index = input.source.list.length := h.index_add
  rw [← hindex, ← h.depth_eq]

theorem Input.nesting_eq (input : Input) :
    input.nesting = 16 * input.source.kinds.length + 16 := by
  rw [nesting, input.length_tokens]
  omega

theorem measure_lt_of_nesting {r : Parse.Reader} (hn : 16 * ts.length + 16 ≤ n) :
    r.measure ts < n := by
  have hrank := r.rank_lt
  unfold Parse.Reader.measure
  omega

theorem returns_of_ends {bound : Nat} {read : List Kind → Except Parse.Failure α}
    {p : Input → Calls → Run α}
    (h : ∀ (ts : Tokens) (n : Nat), 16 * ts.kinds.length + 16 ≤ n →
      Ends ⟨ts, bound⟩ (read ts.kinds) (fun b a s => a = b ∧ s.Before ⟨ts, bound⟩ 0 [])
        (exec (p ⟨ts, bound⟩ (within ⟨ts, bound⟩ n)) {}))
    (text : String) : Returns bound text p (Parse.run read text) := by
  unfold Parse.run
  cases htext : Tokens.ofText text with
  | error e => exact .refused htext rfl
  | ok ts =>
    refine .read htext rfl fun n hn => ?_
    have hts := h ts n (by rwa [Input.nesting_eq] at hn)
    simp only [bind, Except.bind]
    match hexec : exec (p ⟨ts, bound⟩ (within ⟨ts, bound⟩ n)) {}, hts with
    | some (.ok a, s), ⟨b, hb, hab, hs⟩ =>
      subst hab
      rw [hb]
      exact ⟨s, rfl, hs.orderly, fun _ _ => hs.cursor_eq⟩
    | some (.error (.failed e), s), ⟨f, hf, he, hs⟩ =>
      subst he
      rw [hf]
      exact ⟨s, rfl, hs, nofun⟩

/-- Nothing may follow what a procedure takes. -/
theorem whole_ends {x : Parse.Step α m} {p : Run α} (h : Ends input x (Took input 0) (exec p s)) :
    Ends input (x >>= fun t => Parse.endOfInput t.rest >>= fun _ => .ok t.value)
      (fun b a s' => a = b ∧ s'.Before input 0 [])
      (exec (p >>= fun a => endOfInput input >>= fun _ => pure a) s) := by
  refine h.bind ?_
  rintro ⟨_, ts₁, _⟩ a s₁ - ⟨rfl, h₁⟩
  refine (endOfInput_ends h₁).bind ?_
  rintro _ _ s' hend rfl
  have hnil : ts₁ = [] := Parse.endOfInput_eq_ok_iff.1 hend
  exact .pure ⟨rfl, hnil ▸ h₁⟩

theorem allPolicies_returns (bound : Nat) (text : String) :
    Returns bound text allPolicies (Policy.parseAll bound text) := by
  refine returns_of_ends (fun ts n hn => ?_) text
  have hstart := State.start_before ts bound
  have hloop := policyLoop_ends (n := n + 1) hstart (by omega) []
  exact hloop.mono fun qs rs s hs => hs

theorem wholeExpr_returns (text : String) :
    Returns defaultNestingBound text wholeExpr (Expr.parse text) := by
  refine returns_of_ends (fun ts n hn => ?_) text
  have hstart := State.start_before ts defaultNestingBound
  have hexpr := follows (n := n + 1) (r := .expr) (measure_lt_of_nesting (by omega)) _ hstart
  exact whole_ends hexpr

theorem wholeUid_returns (text : String) :
    Returns defaultNestingBound text wholeUid (Uid.parse text) := by
  refine returns_of_ends (fun ts n hn => ?_) text
  have hstart := State.start_before ts defaultNestingBound
  exact whole_ends (uid_ends hstart (by omega))

/-! ## Single procedures -/

/-- The procedures that read expressions, with the least number of tokens that each takes. -/
inductive ReadsExpr (input : Input) : {α : Type} → Nat → (Calls → Run α) → Prop where
  | expr : ReadsExpr input 1 (expr input)
  | chain (l : Parse.Level) : ReadsExpr input 1 (chain input · l)
  | relation : ReadsExpr input 1 (relation input)
  | unary : ReadsExpr input 1 (unary input)
  | member : ReadsExpr input 1 (member input)
  | suffixes (e : Expr) : ReadsExpr input 0 (suffixes · e)
  | args : ReadsExpr input 1 (args input)
  | primary : ReadsExpr input 1 (primary input)
  | nameOrReference : ReadsExpr input 1 (nameOrReference input)
  | record : ReadsExpr input 1 (record input)

/-- From every state within the bound the procedure returns and does not panic, and with a value it
leaves the level as it was and has taken some tokens, at least as many as stated. -/
def Balanced (input : Input) (least : Nat) (p : Calls → Run α) : Prop :=
  ∀ n, input.nesting ≤ n → ∀ s : State, s.Orderly input → s.cursor.depth ≤ input.bound →
    ∃ r s', exec (p (within input n)) s = some (r, s') ∧ s'.Orderly input ∧ r ≠ .error .panicked ∧
      ∀ a, r = .ok a →
        s'.cursor.depth = s.cursor.depth ∧ s.cursor.index + least ≤ s'.cursor.index

theorem State.Orderly.before (h : s.Orderly input) (hs : s.cursor.depth ≤ input.bound) :
    s.Before input s.cursor.depth (input.source.kinds.drop s.cursor.index) where
  orderly := h
  depth_eq := rfl
  le_bound := hs
  rest := by
    have hlt := h.index_lt s.cursor List.mem_cons_self
    rw [input.length_tokens] at hlt
    exact ⟨input.source.kinds.take s.cursor.index, (List.take_append_drop _ _).symm,
      (List.length_take_of_le (Nat.le_of_lt_succ hlt)).symm⟩

/-- A procedure that does what a step does is balanced. -/
theorem balanced_of_ends {least : Nat} {p : Calls → Run α}
    (h : ∀ (n : Nat) (s : State) (d : Nat) (ts : List Kind), 16 * ts.length + 16 ≤ n →
      s.Before input d ts → ∃ m, m + least ≤ ts.length + 1 ∧
        ∃ x : Parse.Step α m, Ends input x (Took input d) (exec (p (within input n)) s)) :
    Balanced input least p := by
  intro n hn s horderly hs
  have hbefore := horderly.before hs
  have hdrop : 16 * (input.source.kinds.drop s.cursor.index).length + 16 ≤ n := by
    rw [input.nesting_eq] at hn
    rw [List.length_drop]
    omega
  obtain ⟨m, hm, x, hx⟩ := h n s _ _ hdrop hbefore
  match hexec : exec (p (within input n)) s, hx with
  | some (.ok a, s'), ⟨t, _, _, ht⟩ =>
    refine ⟨_, s', rfl, ht.orderly, nofun, fun _ _ => ⟨ht.depth_eq, ?_⟩⟩
    have hlt := t.lt
    have hs := hbefore.index_add
    have hs' := ht.index_add
    omega
  | some (.error (.failed e), s'), ⟨_, _, _, hs'⟩ =>
    exact ⟨_, s', rfl, hs', nofun, nofun⟩

theorem ReadsExpr.balanced {least : Nat} {p : Calls → Run α} (hp : ReadsExpr input least p) :
    Balanced input least p := by
  refine balanced_of_ends fun n s d ts hn h => ?_
  have hfollows (r : Parse.Reader) (us : List Kind) (hus : us.length ≤ ts.length) :
      Follows input n d us r := follows (measure_lt_of_nesting (by omega))
  -- What stands in the table for the procedures is run with calls nesting one less deep.
  have hcalled (r : Parse.Reader) : Follows input (n + 1) d ts r :=
    follows (measure_lt_of_nesting (Nat.le_succ_of_le hn))
  cases hp with
  | expr => exact ⟨_, le_rfl, _, hcalled .expr s h⟩
  | chain l => exact ⟨_, le_rfl, _, hcalled (.chain l) s h⟩
  | relation => exact ⟨_, le_rfl, _, hfollows .relation ts le_rfl s h⟩
  | unary => exact ⟨_, le_rfl, _, unary_ends h (by omega) (hfollows .unary ts le_rfl)⟩
  | member =>
    exact ⟨_, le_rfl, _, member_ends h (hfollows .primary ts le_rfl) fun e us hus =>
      hfollows (.steps e) us hus.le⟩
  | suffixes e => exact ⟨_, le_rfl, _, suffixes_ends h (hfollows (.steps e) ts le_rfl)⟩
  | args =>
    refine ⟨_, le_rfl, Parse.symbol .leftParen ts >>= fun t =>
      Parse.items input.bound d .rightParen t.rest >>= fun es => .ok (es.after t.lt), ?_⟩
    rw [Cursor.args]
    refine (expect_ends h _ _).bind ?_
    rintro t _ s₁ - ⟨rfl, h₁⟩
    exact (hfollows (.items _) t.rest t.lt.le s₁ [] h₁).pack fun t a s h => h
  | primary => exact ⟨_, le_rfl, _, hfollows .primary ts le_rfl s h⟩
  | nameOrReference =>
    refine ⟨_, le_rfl, Parse.ident .expression ts >>= fun t =>
      nameReader input d t.value t.rest >>= fun e => .ok (e.optionalAfter t.lt), ?_⟩
    rw [Cursor.nameOrReference]
    refine (ident_ends h _).bind ?_
    rintro t _ s₁ - ⟨rfl, h₁⟩
    have hrest : t.rest.length < n := by
      have := t.lt
      omega
    refine (nameRest_ends h₁ hrest t.value fun rest hlt => ?_).pack fun t a s h => h
    exact hfollows _ rest (hlt.trans t.lt).le
  | record =>
    refine ⟨_, le_rfl, Parse.symbol .leftBrace ts >>= fun t =>
      Parse.fields input.bound d [] t.rest >>= fun fs => .ok ((fs.map .record).after t.lt), ?_⟩
    rw [Cursor.record]
    refine (expect_ends h _ _).bind ?_
    rintro t _ s₁ - ⟨rfl, h₁⟩
    refine (hfollows (.fields []) t.rest t.lt.le s₁ [] h₁ fun key => Iff.rfl).bind ?_
    rintro fs _ s₂ - ⟨rfl, h₂⟩
    exact .pure ⟨rfl, h₂⟩

/-! ## Everything returns -/

/-- **Parsing returns on every text.** The parser with a cursor returns what the readers give,
without panic, and on the way the cursor goes forward only, stands at tokens only and stays within
the bound until it fails. Every procedure for expressions returns from every state; with a value it
leaves the level as it was, and all but the loop of steps take a token at least. -/
theorem parser_returns :
    (∀ bound text, Returns bound text allPolicies (Policy.parseAll bound text)) ∧
    (∀ text, Returns defaultNestingBound text wholeExpr (Expr.parse text)) ∧
    (∀ text, Returns defaultNestingBound text wholeUid (Uid.parse text)) ∧
    ∀ (input : Input) (α : Type) (least : Nat) (p : Calls → Run α),
      ReadsExpr input least p → Balanced input least p := by
  exact ⟨allPolicies_returns, wholeExpr_returns, wholeUid_returns,
    fun input α least p hp => hp.balanced⟩

/-- A list that is open where the text ends, where the cursor cannot go on, and a parser that has
neither tokens nor levels. -/
theorem parser_returns_open :
    Returns 2 "permit(principal, action, resource) when \x7b [true" allPolicies
        (.error ⟨⟨1, 49⟩, .expected (.commaOr .rightBracket) none⟩) ∧
      Balanced ⟨⟨[], .start⟩, 0⟩ 1 (expr ⟨⟨[], .start⟩, 0⟩) := by
  have hfault : (Policy.parseAll 2 "permit(principal, action, resource) when \x7b [true").map
      (fun _ => ()) = .error ⟨⟨1, 49⟩, .expected (.commaOr .rightBracket) none⟩ := by
    decide +kernel
  have htext := Parse.map_eq_error_iff.1 hfault
  exact ⟨htext ▸ parser_returns.1 2 _, parser_returns.2.2.2 _ _ _ _ .expr⟩

end AccessPolicy.Cursor
