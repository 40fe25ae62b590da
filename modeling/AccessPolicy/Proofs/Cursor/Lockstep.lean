import AccessPolicy.Proofs.Cursor.Procedures
import AccessPolicy.Proofs.Cursor.Rules
import AccessPolicy.Proofs.Token.Tiling

/-! # Two runs in lockstep

A parser with a cursor looks at the kinds of tokens and at the bound, and hands on the places of
tokens without looking at them. So two runs over the same kinds of tokens go through the same states
and end alike, with errors at the same token, wherever the tokens stand (`within_alike`). The bound
of the second run may be larger: then the first run may stop at its own bound, and up to there both
do the same. -/

namespace AccessPolicy

/-- The places of one token in two texts, or of their ends. -/
def Tokens.SamePlace (ts us : Tokens) (p q : Position) : Prop :=
  ∃ (n : Nat) (k : Option Kind), ts.withEnd[n]? = some (k, p) ∧ us.withEnd[n]? = some (k, q)

namespace Cursor

open Parse (Level Reference Slot joinPath)

variable {α β γ δ : Type}

/-- The same tokens, wherever they stand, under a bound that may be larger. -/
structure Input.Alike (i j : Input) : Prop where
  kinds : i.source.kinds = j.source.kinds
  bound_le : i.bound ≤ j.bound

/-- The cursor stands at a token or at the end. -/
def State.InText (input : Input) (s : State) : Prop := s.cursor.index < input.tokens.length

/-- What two runs have done: the same, in the same state, or the first one stopped at its bound. -/
inductive Lockstep (i j : Input) (R : α → β → Prop) :
    Option (Except Stop α × State) → Option (Except Stop β × State) → Prop where
  | value {a b s} (h : R a b) (hs : s.InText i) :
      Lockstep i j R (some (.ok a, s)) (some (.ok b, s))
  | failed {p q fault s} (h : i.source.SamePlace j.source p q) :
      Lockstep i j R (some (.error (.failed ⟨p, fault⟩), s))
        (some (.error (.failed ⟨q, fault⟩), s))
  | panicked {s} : Lockstep i j R (some (.error .panicked, s)) (some (.error .panicked, s))
  | endless : Lockstep i j R none none
  | cutOff {p s y} (h : i.bound < j.bound) :
      Lockstep i j R (some (.error (.failed ⟨p, .tooDeep i.bound⟩), s)) y

/-- From every place in the text two procedures run in lockstep. -/
def RunsAlike (i j : Input) (R : α → β → Prop) (x : Run α) (y : Run β) : Prop :=
  ∀ s, s.InText i → Lockstep i j R (exec x s) (exec y s)

/-- The same token, wherever it stands. -/
def SameToken (i j : Input) (t u : Option Kind × Position) : Prop :=
  t.1 = u.1 ∧ i.source.SamePlace j.source t.2 u.2

theorem exec_bind_none {p : Run α} {f : α → Run β} {s : State} (h : exec p s = none) :
    exec (p >>= f) s = none := by
  have h : p s = none := h
  change (p s >>= _) = _
  rw [h]
  rfl

variable {i j : Input}

namespace RunsAlike

variable {R : α → β → Prop} {S : γ → δ → Prop} {x : Run α} {y : Run β}

theorem pure {a : α} {b : β} (h : R a b) : RunsAlike i j R (pure a) (pure b) := fun _ => .value h

theorem bind {f : α → Run γ} {g : β → Run δ} (hx : RunsAlike i j R x y)
    (hf : ∀ a b, R a b → RunsAlike i j S (f a) (g b)) :
    RunsAlike i j S (x >>= f) (y >>= g) := by
  intro s hs
  match hxs : exec x s, hys : exec y s, hx s hs with
  | _, _, .value (s := s') h hs' =>
    rw [exec_bind_ok hxs, exec_bind_ok hys]
    exact hf _ _ h s' hs'
  | _, _, .failed h =>
    rw [exec_bind_error hxs, exec_bind_error hys]
    exact .failed h
  | _, _, .panicked =>
    rw [exec_bind_error hxs, exec_bind_error hys]
    exact .panicked
  | _, _, .endless =>
    rw [exec_bind_none hxs, exec_bind_none hys]
    exact .endless
  | _, _, .cutOff h =>
    rw [exec_bind_error hxs]
    exact .cutOff h

/-- Procedures behind the same value. -/
theorem next {x y : Run α} {f : α → Run γ} {g : α → Run δ} (hx : RunsAlike i j Eq x y)
    (hf : ∀ a, RunsAlike i j S (f a) (g a)) : RunsAlike i j S (x >>= f) (y >>= g) :=
  hx.bind fun a _ h => h ▸ hf a

/-- A last step whose value is packed. -/
theorem pack {x y : Run α} (hx : RunsAlike i j Eq x y) (f : α → γ) :
    RunsAlike i j Eq (x >>= fun a => Pure.pure (f a)) (y >>= fun a => Pure.pure (f a)) :=
  hx.next fun _ => .pure rfl

end RunsAlike

/-! ## Steps of the cursor -/

section

variable (h : i.Alike j)

include h

theorem Input.Alike.kindAt (n : Nat) :
    (i.tokens[n]?).map Prod.fst = (j.tokens[n]?).map Prod.fst := by
  have hmap (input : Input) : input.tokens.map Prod.fst =
      input.source.kinds.map some ++ [none] := by simp [Input.tokens, Tokens.kinds]
  rw [← List.getElem?_map, ← List.getElem?_map, hmap, hmap, h.kinds]

theorem Input.Alike.length_tokens : i.tokens.length = j.tokens.length := by
  rw [i.length_tokens, j.length_tokens, h.kinds]

theorem tokenAt_alike (n : Nat) : RunsAlike i j (SameToken i j) (tokenAt i n) (tokenAt j n) := by
  intro s hs
  have hkind := h.kindAt n
  unfold tokenAt
  match hi : i.tokens[n]?, hj : j.tokens[n]?, hkind with
  | some (k, p), some (l, q), hkind =>
    obtain rfl : k = l := Option.some.inj hkind
    exact .value ⟨rfl, n, k, hi, hj⟩ hs
  | none, none, _ => exact .panicked

omit h in
theorem cursor_alike :
    RunsAlike i j (fun c d => c = d ∧ c.index < i.tokens.length) cursor cursor :=
  fun _ hs => .value ⟨rfl, hs⟩ hs

omit h in
theorem moveTo_alike {c : Cursor} (hc : c.index < i.tokens.length) :
    RunsAlike i j Eq (moveTo c) (moveTo c) := fun _ _ => .value rfl hc

theorem peek_alike : RunsAlike i j (SameToken i j) (peek i) (peek j) := by
  refine cursor_alike.bind ?_
  rintro c _ ⟨rfl, -⟩
  exact tokenAt_alike h c.index

theorem peekNext_alike : RunsAlike i j Eq (peekNext i) (peekNext j) := by
  unfold peekNext
  rw [← h.length_tokens]
  refine cursor_alike.bind ?_
  rintro c _ ⟨rfl, -⟩
  exact (tokenAt_alike h _).bind fun _ _ htu => .pure htu.1

theorem advance_alike : RunsAlike i j Eq (advance i) (advance j) := by
  unfold advance
  rw [← h.length_tokens]
  refine cursor_alike.bind ?_
  rintro c _ ⟨rfl, -⟩
  split
  · rename_i hc
    exact moveTo_alike hc
  · exact .pure rfl

theorem isAt_alike (k : Kind) : RunsAlike i j Eq (isAt i k) (isAt j k) :=
  (peek_alike h).bind fun t u htu => .pure (by rw [htu.1])

omit h in
theorem failAt_alike {R : α → β → Prop} {p q : Position}
    (hplace : i.source.SamePlace j.source p q) (fault : ParseFault) :
    RunsAlike i j R (failAt p fault) (failAt q fault) := fun _ _ => .failed hplace

theorem failHere_alike (R : α → β → Prop) (fault : ParseFault) :
    RunsAlike i j R (failHere i fault) (failHere j fault) :=
  (peek_alike h).bind fun _ _ htu => failAt_alike htu.2 fault

theorem expected_alike (R : α → β → Prop) (what : Expectation) :
    RunsAlike i j R (expected i what) (expected j what) := by
  refine (peek_alike h).bind fun t u htu => ?_
  rw [htu.1]
  exact failHere_alike h R _

theorem expect_alike (k : Kind) (what : Expectation) :
    RunsAlike i j Eq (expect i k what) (expect j k what) := by
  refine (isAt_alike h k).next fun b => ?_
  split
  · exact advance_alike h
  · exact expected_alike h Eq what

theorem symbol_alike (s : Symbol) : RunsAlike i j Eq (symbol i s) (symbol j s) :=
  expect_alike h _ _

theorem keyword_alike (word : String) : RunsAlike i j Eq (keyword i word) (keyword j word) :=
  expect_alike h _ _

theorem ident_alike (what : Expectation) : RunsAlike i j Eq (ident i what) (ident j what) := by
  refine (peek_alike h).bind ?_
  rintro ⟨k, p⟩ ⟨_, q⟩ ⟨rfl, -⟩
  match k with
  | some (.ident name) => exact (advance_alike h).next fun _ => .pure rfl
  | none | some (.string _) | some (.int _) | some (.symbol _) => exact expected_alike h Eq what

theorem string_alike (what : Expectation) : RunsAlike i j Eq (string i what) (string j what) := by
  refine (peek_alike h).bind ?_
  rintro ⟨k, p⟩ ⟨_, q⟩ ⟨rfl, hplace⟩
  match k with
  | some (.string raw) =>
    refine (advance_alike h).next fun _ => ?_
    dsimp only
    cases Text.unescape raw with
    | ok cs => exact .pure rfl
    | error fault => exact failAt_alike hplace _
  | none | some (.ident _) | some (.int _) | some (.symbol _) => exact expected_alike h Eq what

theorem identOrString_alike (what : Expectation) :
    RunsAlike i j Eq (identOrString i what) (identOrString j what) := by
  refine (peek_alike h).bind ?_
  rintro ⟨k, p⟩ ⟨_, q⟩ ⟨rfl, -⟩
  match k with
  | some (.ident name) => exact ident_alike h what
  | none | some (.string _) | some (.int _) | some (.symbol _) => exact string_alike h what

theorem endOfInput_alike : RunsAlike i j Eq (endOfInput i) (endOfInput j) := by
  refine (peek_alike h).bind ?_
  rintro ⟨k, p⟩ ⟨_, q⟩ ⟨rfl, -⟩
  match k with
  | none => exact .pure rfl
  | some _ => exact expected_alike h Eq _

omit h in
theorem level_alike : RunsAlike i j Eq level level := fun _ hs => .value rfl hs

omit h in
theorem setLevel_alike (depth : Nat) : RunsAlike i j Eq (setLevel depth) (setLevel depth) := by
  refine cursor_alike.bind ?_
  rintro c _ ⟨rfl, hc⟩
  exact moveTo_alike hc

omit h in
theorem exec_failHere {s : State} (hs : s.InText i) (fault : ParseFault) :
    ∃ p, exec (failHere i fault : Run α) s = some (.error (.failed ⟨p, fault⟩), s) := by
  have hpeek := exec_peek_of_getElem? (List.getElem?_eq_getElem hs)
  exact ⟨_, exec_bind_ok hpeek⟩

/-- Above its bound the first run is cut off, and the second one too if it has the same bound. -/
theorem descend_alike : RunsAlike i j Eq (descend i) (descend j) := by
  refine level_alike.next fun depth => ?_
  refine (setLevel_alike (depth + 1)).next fun _ => ?_
  rcases Nat.lt_or_eq_of_le h.bound_le with hlt | heq
  · by_cases hdeep : i.bound < depth + 1
    · intro s hs
      obtain ⟨p, hp⟩ := exec_failHere (α := Unit) hs (.tooDeep i.bound)
      rw [if_pos hdeep, hp]
      exact .cutOff hlt
    · rw [if_neg hdeep, if_neg (by omega)]
      exact .pure rfl
  · rw [heq]
    split
    · exact failHere_alike h Eq _
    · exact .pure rfl

omit h in
theorem ascend_alike : RunsAlike i j Eq ascend ascend := by
  refine level_alike.next fun depth => ?_
  cases depth with
  | zero => exact fun _ _ => .panicked
  | succ depth => exact setLevel_alike depth

/-- Two ways to go on, by the current token. -/
theorem branch_alike {R : α → β → Prop} {k : Kind} {x y : Run α} {x' y' : Run β}
    (hx : RunsAlike i j R x x') (hy : RunsAlike i j R y y') :
    RunsAlike i j R (isAt i k >>= fun b => if b = true then x else y)
      (isAt j k >>= fun b => if b = true then x' else y') := by
  refine (isAt_alike h k).next fun b => ?_
  split
  · exact hx
  · exact hy

end

/-! ## Procedures -/

/-- The procedures of two tables run in lockstep. -/
structure Calls.Alike (i j : Input) (c d : Calls) : Prop where
  pathLoop (path : String) : RunsAlike i j Eq (c.pathLoop path) (d.pathLoop path)
  referenceLoop (path : List String) :
    RunsAlike i j Eq (c.referenceLoop path) (d.referenceLoop path)
  prefixLoop (ops : List Prefix) : RunsAlike i j Eq (c.prefixLoop ops) (d.prefixLoop ops)
  expr : RunsAlike i j Eq c.expr d.expr
  chain (l : Level) : RunsAlike i j Eq (c.chain l) (d.chain l)
  chainLoop (l : Level) (e : Expr) : RunsAlike i j Eq (c.chainLoop l e) (d.chainLoop l e)
  suffixLoop (e : Expr) : RunsAlike i j Eq (c.suffixLoop e) (d.suffixLoop e)
  itemLoop (close : Symbol) (es : List Expr) :
    RunsAlike i j Eq (c.itemLoop close es) (d.itemLoop close es)
  fieldLoop (fs : List (String × Expr)) : RunsAlike i j Eq (c.fieldLoop fs) (d.fieldLoop fs)
  annotationLoop (notes : Annotations) :
    RunsAlike i j Eq (c.annotationLoop notes) (d.annotationLoop notes)
  uidLoop (us : List Uid) : RunsAlike i j Eq (c.uidLoop us) (d.uidLoop us)
  conditionLoop (cs : List Condition) :
    RunsAlike i j Eq (c.conditionLoop cs) (d.conditionLoop cs)
  policyLoop (ps : List Policy) : RunsAlike i j Eq (c.policyLoop ps) (d.policyLoop ps)

section

variable (h : i.Alike j) {c d : Calls} (hc : c.Alike i j d)

include h hc

theorem pathLoop_alike (path : String) :
    RunsAlike i j Eq (pathLoop i c path) (pathLoop j d path) := by
  refine branch_alike h ?_ (.pure rfl)
  refine (peekNext_alike h).next fun k => ?_
  match k with
  | some (.ident _) =>
    refine (advance_alike h).next fun _ => ?_
    exact (ident_alike h _).next fun segment => hc.pathLoop _
  | none | some (.string _) | some (.int _) | some (.symbol _) => exact .pure rfl

theorem path_alike : RunsAlike i j Eq (path i c) (path j d) :=
  (ident_alike h _).next fun name => hc.pathLoop name

theorem uid_alike : RunsAlike i j Eq (uid i c) (uid j d) := by
  refine (peek_alike h).bind ?_
  rintro ⟨k, p⟩ ⟨_, q⟩ ⟨rfl, -⟩
  match k with
  | some (.ident _) =>
    refine (path_alike h hc).next fun entityType => ?_
    refine (expect_alike h _ _).next fun _ => ?_
    exact (string_alike h _).pack _
  | none | some (.string _) | some (.int _) | some (.symbol _) => exact expected_alike h Eq _

theorem referenceLoop_alike (path : List String) :
    RunsAlike i j Eq (referenceLoop i c path) (referenceLoop j d path) := by
  refine branch_alike h ?_ (.pure rfl)
  refine (advance_alike h).next fun _ => ?_
  refine (peek_alike h).bind ?_
  rintro ⟨k, p⟩ ⟨_, q⟩ ⟨rfl, -⟩
  match k with
  | some (.string _) => exact (string_alike h _).pack _
  | some (.ident _) => exact (ident_alike h _).next fun name => hc.referenceLoop _
  | none | some (.int _) | some (.symbol _) => exact expected_alike h Eq _

theorem prefixLoop_alike (ops : List Prefix) :
    RunsAlike i j Eq (prefixLoop i c ops) (prefixLoop j d ops) := by
  have hop (op : Prefix) : RunsAlike i j Eq
      (advance i >>= fun _ => descend i >>= fun _ => c.prefixLoop (op :: ops))
      (advance j >>= fun _ => descend j >>= fun _ => d.prefixLoop (op :: ops)) :=
    (advance_alike h).next fun _ => (descend_alike h).next fun _ => hc.prefixLoop _
  refine (peek_alike h).bind ?_
  rintro ⟨k, p⟩ ⟨_, q⟩ ⟨rfl, -⟩
  dsimp only
  split
  · exact hop .not
  · exact hop .neg
  · exact .pure rfl

theorem args_alike : RunsAlike i j Eq (args i c) (args j d) :=
  (symbol_alike h _).next fun _ => hc.itemLoop _ _

omit hc in
/-- Behind an item stands a comma, unless the closing symbol comes next. -/
theorem separated_alike {R : α → β → Prop} (close : Symbol) {x : Run α} {y : Run β}
    (hxy : RunsAlike i j R x y) :
    RunsAlike i j R
      (do
        unless ← isAt i (.symbol close) do
          expect i (.symbol .comma) (.commaOr close)
        x)
      (do
        unless ← isAt j (.symbol close) do
          expect j (.symbol .comma) (.commaOr close)
        y) := by
  refine (isAt_alike h _).next fun b => ?_
  split
  · exact hxy
  · exact (expect_alike h _ _).next fun _ => hxy

theorem itemLoop_alike (close : Symbol) (es : List Expr) :
    RunsAlike i j Eq (itemLoop i c close es) (itemLoop j d close es) := by
  refine branch_alike h ((advance_alike h).next fun _ => .pure rfl) ?_
  exact hc.expr.next fun e => separated_alike h close (hc.itemLoop _ _)

theorem fieldLoop_alike (fields : List (String × Expr)) :
    RunsAlike i j Eq (fieldLoop i c fields) (fieldLoop j d fields) := by
  refine branch_alike h ((advance_alike h).next fun _ => .pure rfl) ?_
  refine (peek_alike h).bind fun t u htu => ?_
  refine (identOrString_alike h _).next fun key => ?_
  split
  · exact failAt_alike htu.2 _
  · refine (symbol_alike h _).next fun _ => ?_
    exact hc.expr.next fun e => separated_alike h .rightBrace (hc.fieldLoop _)

theorem record_alike : RunsAlike i j Eq (record i c) (record j d) :=
  (symbol_alike h _).next fun _ => (hc.fieldLoop []).pack _

theorem nameRest_alike (word : String) :
    RunsAlike i j Eq (nameRest i c word) (nameRest j d word) := by
  refine (hc.referenceLoop [word]).next fun r => ?_
  match r with
  | .entity u => exact .pure rfl
  | .name path =>
    refine branch_alike h ((args_alike h hc).pack _) ?_
    split
    · exact expected_alike h Eq _
    · match path with
      | [] => exact fun _ _ => .panicked
      | name :: _ => exact .pure rfl

theorem nameOrReference_alike : RunsAlike i j Eq (nameOrReference i c) (nameOrReference j d) :=
  (ident_alike h _).next fun word => nameRest_alike h hc word

theorem primary_alike : RunsAlike i j Eq (primary i c) (primary j d) := by
  refine (peek_alike h).bind ?_
  rintro ⟨k, p⟩ ⟨_, q⟩ ⟨rfl, -⟩
  dsimp only
  split
  · split
    · exact (advance_alike h).next fun _ => .pure rfl
    · exact failHere_alike h Eq _
  · exact (string_alike h _).pack _
  · refine (advance_alike h).next fun _ => ?_
    exact hc.expr.next fun e => (symbol_alike h _).next fun _ => .pure rfl
  · exact (advance_alike h).next fun _ => (hc.itemLoop _ _).pack _
  · exact record_alike h hc
  · split
    · exact hc.expr
    · split
      · exact (advance_alike h).next fun _ => .pure rfl
      · split
        · exact expected_alike h Eq _
        · exact nameOrReference_alike h hc
  · exact expected_alike h Eq _

theorem suffixLoop_alike (e : Expr) :
    RunsAlike i j Eq (suffixLoop i c e) (suffixLoop j d e) := by
  refine (peek_alike h).bind ?_
  rintro ⟨k, p⟩ ⟨_, q⟩ ⟨rfl, -⟩
  dsimp only
  split
  · refine (advance_alike h).next fun _ => ?_
    refine (descend_alike h).next fun _ => ?_
    refine (ident_alike h _).next fun name => ?_
    refine branch_alike h ?_ (hc.suffixLoop _)
    exact (args_alike h hc).next fun es => hc.suffixLoop _
  · refine (advance_alike h).next fun _ => ?_
    refine (descend_alike h).next fun _ => ?_
    refine (string_alike h _).next fun attr => ?_
    exact (symbol_alike h _).next fun _ => hc.suffixLoop _
  · exact .pure rfl

omit h in
theorem suffixes_alike (e : Expr) : RunsAlike i j Eq (suffixes c e) (suffixes d e) :=
  level_alike.next fun saved => (hc.suffixLoop e).next fun _ =>
    (setLevel_alike saved).next fun _ => .pure rfl

theorem member_alike : RunsAlike i j Eq (member i c) (member j d) :=
  (primary_alike h hc).next fun e => suffixes_alike hc e

theorem prefixed_alike (ops : List Prefix) :
    RunsAlike i j Eq (prefixed i c ops) (prefixed j d ops) := by
  refine (peek_alike h).bind ?_
  rintro ⟨k, p⟩ ⟨_, q⟩ ⟨rfl, -⟩
  dsimp only
  split
  · split
    · exact (advance_alike h).next fun _ => (suffixes_alike hc _).pack _
    · exact failHere_alike h Eq _
  · exact (member_alike h hc).pack _

theorem unary_alike : RunsAlike i j Eq (unary i c) (unary j d) :=
  level_alike.next fun saved => (hc.prefixLoop []).next fun ops =>
    (prefixed_alike h hc ops).next fun _ => (setLevel_alike saved).next fun _ => .pure rfl

omit hc in
theorem pattern_alike : RunsAlike i j Eq (pattern i) (pattern j) := by
  refine (peek_alike h).bind ?_
  rintro ⟨k, p⟩ ⟨_, q⟩ ⟨rfl, hplace⟩
  match k with
  | some (.string raw) =>
    dsimp only
    cases Pattern.compile raw with
    | ok p => exact (advance_alike h).next fun _ => .pure rfl
    | error fault => exact failAt_alike hplace _
  | none | some (.ident _) | some (.int _) | some (.symbol _) => exact expected_alike h Eq _

theorem relation_alike : RunsAlike i j Eq (relation i c) (relation j d) := by
  refine (hc.chain .add).next fun lhs => ?_
  refine (peek_alike h).bind ?_
  rintro ⟨k, p⟩ ⟨_, q⟩ ⟨rfl, -⟩
  dsimp only
  cases k.bind Parse.relationOp? with
  | some op => exact (advance_alike h).next fun _ => (hc.chain .add).pack _
  | none =>
    refine branch_alike h ((advance_alike h).next fun _ => (identOrString_alike h _).pack _) ?_
    refine branch_alike h ((advance_alike h).next fun _ => (pattern_alike h).pack _) ?_
    refine branch_alike h ?_ (.pure rfl)
    refine (advance_alike h).next fun _ => ?_
    refine (path_alike h hc).next fun entityType => ?_
    exact branch_alike h ((advance_alike h).next fun _ => (hc.chain .add).pack _) (.pure rfl)

theorem operand_alike (l : Level) : RunsAlike i j Eq (operand i c l) (operand j d l) := by
  cases l with
  | or => exact hc.chain .and
  | and => exact relation_alike h hc
  | add => exact hc.chain .mult
  | mult => exact unary_alike h hc

theorem chainLoop_alike (l : Level) (lhs : Expr) :
    RunsAlike i j Eq (chainLoop i c l lhs) (chainLoop j d l lhs) := by
  refine (peek_alike h).bind ?_
  rintro ⟨k, p⟩ ⟨_, q⟩ ⟨rfl, -⟩
  dsimp only
  cases k.bind l.join? with
  | some join =>
    refine (advance_alike h).next fun _ => ?_
    refine (descend_alike h).next fun _ => ?_
    exact (operand_alike h hc l).next fun rhs => hc.chainLoop l _
  | none => exact .pure rfl

theorem chain_alike (l : Level) : RunsAlike i j Eq (chain i c l) (chain j d l) :=
  level_alike.next fun saved => (operand_alike h hc l).next fun lhs =>
    (hc.chainLoop l lhs).next fun _ => (setLevel_alike saved).next fun _ => .pure rfl

theorem conditional_alike : RunsAlike i j Eq (conditional i c) (conditional j d) := by
  refine hc.expr.next fun test => ?_
  refine (keyword_alike h _).next fun _ => ?_
  refine hc.expr.next fun thenE => ?_
  exact (keyword_alike h _).next fun _ => hc.expr.pack _

theorem expr_alike : RunsAlike i j Eq (expr i c) (expr j d) := by
  have hup {x y : Run Expr} (hxy : RunsAlike i j Eq x y) : RunsAlike i j Eq
      (x >>= fun e => ascend >>= fun _ => pure e) (y >>= fun e => ascend >>= fun _ => pure e) :=
    hxy.next fun e => ascend_alike.next fun _ => .pure rfl
  refine (descend_alike h).next fun _ => ?_
  refine branch_alike h ?_ (hup (hc.chain .or))
  exact (advance_alike h).next fun _ => hup (conditional_alike h hc)

/-! ## Policies -/

theorem annotationLoop_alike (notes : Annotations) :
    RunsAlike i j Eq (annotationLoop i c notes) (annotationLoop j d notes) := by
  refine branch_alike h ?_ (.pure rfl)
  refine (advance_alike h).next fun _ => ?_
  refine (ident_alike h _).next fun key => ?_
  have hnext (value : String) : RunsAlike i j Eq
      (pure value >>= fun value => c.annotationLoop (notes.insert key value))
      (pure value >>= fun value => d.annotationLoop (notes.insert key value)) :=
    RunsAlike.next (.pure rfl) fun value => hc.annotationLoop _
  refine branch_alike h ?_ (hnext "")
  refine (advance_alike h).next fun _ => ?_
  refine (string_alike h _).next fun value => ?_
  exact (symbol_alike h _).next fun _ => hnext value

omit hc in
theorem effect_alike : RunsAlike i j Eq (effect i) (effect j) := by
  refine branch_alike h ((advance_alike h).next fun _ => .pure rfl) ?_
  exact branch_alike h ((advance_alike h).next fun _ => .pure rfl) (expected_alike h Eq _)

theorem uidLoop_alike (us : List Uid) : RunsAlike i j Eq (uidLoop i c us) (uidLoop j d us) := by
  refine branch_alike h ((advance_alike h).next fun _ => .pure rfl) ?_
  exact (uid_alike h hc).next fun u => separated_alike h .rightBracket (hc.uidLoop _)

theorem scopeTarget_alike (slot : Slot) :
    RunsAlike i j Eq (scopeTarget i c slot) (scopeTarget j d slot) := by
  have hone : RunsAlike i j Eq (uid i c >>= fun u => pure (ScopeConstraint.within u))
      (uid j d >>= fun u => pure (ScopeConstraint.within u)) := (uid_alike h hc).pack _
  unfold scopeTarget
  dsimp only
  split
  · exact branch_alike h ((advance_alike h).next fun _ => (hc.uidLoop []).pack _) hone
  · exact hone

theorem scopeClause_alike (slot : Slot) :
    RunsAlike i j Eq (scopeClause i c slot) (scopeClause j d slot) := by
  refine (keyword_alike h _).next fun _ => ?_
  refine branch_alike h ((advance_alike h).next fun _ => (uid_alike h hc).pack _) ?_
  refine branch_alike h ((advance_alike h).next fun _ => scopeTarget_alike h hc slot) ?_
  refine branch_alike h ?_ (.pure rfl)
  refine (advance_alike h).next fun _ => ?_
  refine (path_alike h hc).next fun entityType => ?_
  exact branch_alike h ((advance_alike h).next fun _ => (uid_alike h hc).pack _) (.pure rfl)

theorem scope_alike : RunsAlike i j Eq (scope i c) (scope j d) := by
  refine (scopeClause_alike h hc _).next fun principal => ?_
  refine (symbol_alike h _).next fun _ => ?_
  refine (scopeClause_alike h hc _).next fun action => ?_
  refine (symbol_alike h _).next fun _ => ?_
  exact (scopeClause_alike h hc _).pack _

theorem conditionLoop_alike (cs : List Condition) :
    RunsAlike i j Eq (conditionLoop i c cs) (conditionLoop j d cs) := by
  refine (peek_alike h).bind ?_
  rintro ⟨k, p⟩ ⟨_, q⟩ ⟨rfl, -⟩
  dsimp only
  cases k.bind Parse.conditionKind? with
  | some kind =>
    refine (advance_alike h).next fun _ => ?_
    refine (symbol_alike h _).next fun _ => ?_
    refine hc.expr.next fun body => ?_
    exact (symbol_alike h _).next fun _ => hc.conditionLoop _
  | none => exact .pure rfl

theorem policy_alike (index : Nat) : RunsAlike i j Eq (policy i c index) (policy j d index) := by
  refine (hc.annotationLoop {}).next fun notes => ?_
  refine (effect_alike h).next fun eff => ?_
  refine (symbol_alike h _).next fun _ => ?_
  refine (scope_alike h hc).next fun sc => ?_
  refine (symbol_alike h _).next fun _ => ?_
  refine (hc.conditionLoop []).next fun conditions => ?_
  exact (symbol_alike h _).next fun _ => .pure rfl

theorem policyLoop_alike (ps : List Policy) :
    RunsAlike i j Eq (policyLoop i c ps) (policyLoop j d ps) := by
  refine (peek_alike h).bind ?_
  rintro ⟨k, p⟩ ⟨_, q⟩ ⟨rfl, -⟩
  match k with
  | none => exact .pure rfl
  | some _ => exact (policy_alike h hc _).next fun p => hc.policyLoop _

end

/-- **Whatever the limit on calls, all procedures run in lockstep.** -/
theorem within_alike (h : i.Alike j) (n : Nat) : Calls.Alike i j (within i n) (within j n) := by
  induction n with
  | zero => constructor <;> intros <;> exact fun _ _ => .endless
  | succ n ih =>
    exact ⟨pathLoop_alike h ih, referenceLoop_alike h ih, prefixLoop_alike h ih, expr_alike h ih,
      chain_alike h ih, chainLoop_alike h ih, suffixLoop_alike h ih, itemLoop_alike h ih,
      fieldLoop_alike h ih, annotationLoop_alike h ih, uidLoop_alike h ih,
      conditionLoop_alike h ih, policyLoop_alike h ih⟩

end Cursor

end AccessPolicy
