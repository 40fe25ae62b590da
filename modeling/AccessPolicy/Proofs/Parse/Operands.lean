import AccessPolicy.Proofs.Parse.Derivation
import AccessPolicy.Proofs.Parse.Precedence
import AccessPolicy.Proofs.Uid.Path

/-! # Operands in parentheses

An expression in parentheses is an operand of every operator, so an operation on such operands is
read as it stands. One rule for each form, with the levels that the form takes, and one for each
kind of list. -/

namespace AccessPolicy

namespace Parse

/-- The tokens in parentheses. -/
def enclosed (us : List Kind) : List Kind := .symbol .leftParen :: (us ++ [.symbol .rightParen])

/-- Parts with commas between them. -/
def separated : List (List Kind) → List Kind
  | [] => []
  | [us] => us
  | us :: parts => us ++ .symbol .comma :: separated parts

/-- Tokens that can stand behind an expression of any form. -/
def closers : List Kind :=
  [.symbol .rightParen, .symbol .rightBracket, .symbol .rightBrace, .symbol .comma]

def ClosesAt (ts : List Kind) : Prop := ∀ k ∈ ts.head?, k ∈ closers

theorem ClosesAt.head?_ne {ts : List Kind} (h : ClosesAt ts) {k : Kind} (hk : k ∉ closers) :
    ts.head? ≠ some k := fun hh => hk (h k hh)

theorem ClosesAt.endsAt {ts : List Kind} (h : ClosesAt ts) : EndsAt 6 ts := by
  have hclosers : ∀ k ∈ closers, 6 ≤ looseness k := by decide
  exact fun k hk => hclosers k (h k hk)

theorem closesAt_nil : ClosesAt [] := by simp [ClosesAt]

theorem closesAt_cons {k : Kind} {ts : List Kind} (hk : k ∈ closers) : ClosesAt (k :: ts) := by
  simpa [ClosesAt] using hk

/-- With room for `n` levels the tokens are the expression, before any token that closes it. -/
def ReadsAs (n : Nat) (us : List Kind) (e : Expr) : Prop :=
  ∀ rest, ClosesAt rest → Reads .expr n (us ++ rest) (.expr e) rest

variable {n : Nat} {us vs rest : List Kind} {k : Kind} {e e' : Expr}

theorem ReadsAs.mono {m : Nat} (h : ReadsAs n us e) (hnm : n ≤ m) : ReadsAs m us e :=
  fun rest hrest => (h rest hrest).mono hnm

/-! ## Operands -/

theorem ReadsAs.primary (h : ReadsAs n us e) (rest : List Kind) :
    Reads .primary n (enclosed us ++ rest) (.expr e) rest := by
  have hin := h (.symbol .rightParen :: rest) (closesAt_cons (by decide))
  simpa [enclosed] using Reads.primary_paren hin

theorem ReadsAs.unary (h : ReadsAs n us e) (hend : EndsAt 1 rest) :
    Reads .unary n (enclosed us ++ rest) (.expr e) rest :=
  (h.primary rest).unary_of_primary (by simp [enclosed]) (by simp [enclosed]) hend

theorem ReadsAs.operand (h : ReadsAs n us e) (l : Level) (hend : EndsAt l.looseness rest) :
    Reads l.inner n (enclosed us ++ rest) (.expr e) rest :=
  (h.unary (hend.mono (by cases l <;> decide))).inner_of_unary l hend

theorem ReadsAs.sum (h : ReadsAs n us e) (hend : EndsAt 3 rest) :
    Reads (.chain .add) n (enclosed us ++ rest) (.expr e) rest :=
  .chain_of_inner (h.operand .add (hend.mono (by decide))) hend

/-! ## Forms -/

theorem readsAs_of_chain (l : Level) (hif : k ≠ .ident "if")
    (h : ∀ rest, ClosesAt rest → Reads (.chain l) n (k :: (us ++ rest)) (.expr e) rest) :
    ReadsAs (n + 1) (k :: us) e := by
  intro rest hrest
  have hend := hrest.endsAt
  refine .expr_chain (by simpa using hif) ?_
  cases l with
  | or => exact h rest hrest
  | and => exact .chain_of_inner (l := .or) (h rest hrest) hend
  | add =>
    have hrel := Reads.relation (h rest hrest) (hend.mono (by decide)).relationStopsAt
    have hand := Reads.chain_of_inner (l := .and) hrel (hend.mono (by decide))
    exact .chain_of_inner (l := .or) hand hend
  | mult =>
    have hadd := Reads.chain_of_inner (l := .add) (h rest hrest) (hend.mono (by decide))
    have hrel := Reads.relation hadd (hend.mono (by decide)).relationStopsAt
    have hand := Reads.chain_of_inner (l := .and) hrel (hend.mono (by decide))
    exact .chain_of_inner (l := .or) hand hend

theorem readsAs_of_relation (hif : k ≠ .ident "if")
    (h : ∀ rest, ClosesAt rest → Reads .relation n (k :: (us ++ rest)) (.expr e) rest) :
    ReadsAs (n + 1) (k :: us) e :=
  readsAs_of_chain .and hif fun rest hrest =>
    .chain_of_inner (l := .and) (h rest hrest) (hrest.endsAt.mono (by decide))

theorem readsAs_of_unary (hif : k ≠ .ident "if")
    (h : ∀ rest, ClosesAt rest → Reads .unary n (k :: (us ++ rest)) (.expr e) rest) :
    ReadsAs (n + 1) (k :: us) e :=
  fun rest hrest => (h rest hrest).expr_of_unary (by simpa using hif) hrest.endsAt

/-- The token starts a primary expression that is not conditional. -/
def Plain (k : Kind) : Prop := k ∉ [.ident "if", .symbol .bang, .symbol .minus]

instance (k : Kind) : Decidable (Plain k) := inferInstanceAs (Decidable (k ∉ _))

theorem readsAs_of_primary (hk : Plain k)
    (h : ∀ rest, ClosesAt rest → Reads .primary n (k :: (us ++ rest)) (.expr e) rest) :
    ReadsAs (n + 1) (k :: us) e := by
  simp only [Plain, List.mem_cons, List.not_mem_nil, or_false, not_or] at hk
  obtain ⟨hif, hbang, hminus⟩ := hk
  refine readsAs_of_unary hif fun rest hrest => ?_
  exact (h rest hrest).unary_of_primary (by simpa using hbang) (by simpa using hminus)
    (hrest.endsAt.mono (by decide))

theorem ReadsAs.operation {l : Level} {join : Expr → Expr → Expr} (h : ReadsAs n us e)
    (h' : ReadsAs n vs e') (hk : l.join? k = some join) :
    ReadsAs (n + 2) (enclosed us ++ k :: enclosed vs) (join e e') := by
  refine readsAs_of_chain l (by decide) fun rest hrest => ?_
  have hend : EndsAt (l.looseness + 1) rest := hrest.endsAt.mono (by cases l <;> decide)
  have hlhs := @ReadsAs.operand _ _ (k :: (enclosed vs ++ rest)) _ (h.mono (Nat.le_succ n)) l
    (by simp [looseness_of_join? hk])
  have hrhs := @ReadsAs.operand _ _ rest _ h' l (hend.mono (Nat.le_succ _))
  have hchain := Reads.chain hlhs (.chainRest_step hk hrhs (.chainRest_stop hend.stopsAt))
  simpa [enclosed] using hchain

/-- Operands of a relation, with what is left to read of it behind the first. -/
theorem ReadsAs.related (h : ReadsAs n us e) (hk : 3 ≤ looseness k)
    (hrel : ∀ rest, ClosesAt rest →
      Reads (.chain .add) n (enclosed us ++ k :: (vs ++ rest)) (.expr e) (k :: (vs ++ rest)) →
        Reads .relation n (enclosed us ++ k :: (vs ++ rest)) (.expr e') rest) :
    ReadsAs (n + 1) (enclosed us ++ k :: vs) e' := by
  refine readsAs_of_relation (by decide) fun rest hrest => ?_
  have hlhs := @ReadsAs.sum _ _ (k :: (vs ++ rest)) _ h (by simpa using hk)
  have h' := hrel rest hrest hlhs
  simpa [enclosed] using h'

/-- An expression in parentheses with one step behind it. -/
theorem ReadsAs.step (h : ReadsAs n us e)
    (hsteps : ∀ rest, ClosesAt rest → Reads (.steps e) n (vs ++ rest) (.expr e') rest) :
    ReadsAs (n + 1) (enclosed us ++ vs) e' := by
  refine readsAs_of_unary (by decide) fun rest hrest => ?_
  have hunary := Reads.unary (by simp [enclosed]) (by simp [enclosed]) (h.primary (vs ++ rest))
    (hsteps rest hrest)
  simpa [enclosed] using hunary

/-! ## Lists -/

theorem Reads.head?_ne_close {enc : Enclosure} (h : Reads .expr n us (.expr e) rest) :
    us.head? ≠ some (.symbol enc.close) := by
  obtain ⟨vs, rfl, hd⟩ := h.phrase
  exact head?_append_ne hd.startsWith (StartsOperand.ne_close · enc)

theorem Enclosure.close_mem_closers (enc : Enclosure) : Kind.symbol enc.close ∈ closers := by
  cases enc <;> decide

/-- A field with its key as a string. -/
def fieldKinds (key : String) (us : List Kind) : List Kind :=
  .quoted key :: .symbol .colon :: us

variable {write : Expr → List Kind}

theorem reads_items {es : List Expr} (h : ∀ e ∈ es, ReadsAs n (write e) e) (enc : Enclosure)
    (rest : List Kind) :
    Reads (.items enc.close) n (separated (es.map write) ++ .symbol enc.close :: rest)
      (.items es) rest := by
  induction es with
  | nil => exact .items_nil
  | cons e es ih =>
    obtain ⟨he, hes⟩ := List.forall_mem_cons.1 h
    have ih := ih hes
    cases es with
    | nil =>
      have hlast := he (.symbol enc.close :: rest) (closesAt_cons enc.close_mem_closers)
      exact .items_last hlast.head?_ne_close hlast
    | cons e' es =>
      have hfirst := he
        (.symbol .comma :: (separated ((e' :: es).map write) ++ .symbol enc.close :: rest))
        (closesAt_cons (by decide))
      have hcons := Reads.items_cons hfirst.head?_ne_close enc.close_ne_comma hfirst ih
      simpa [separated] using hcons

theorem nameToken_quoted (key : String) : NameToken (.quoted key) key :=
  .string (decodes_escape key)

theorem reads_fields {fs : List (String × Expr)} (h : ∀ f ∈ fs, ReadsAs n (write f.2) f.2)
    (hkeys : (fs.map Prod.fst).Nodup) {seen : List String}
    (hseen : ∀ key ∈ fs.map Prod.fst, key ∉ seen) (rest : List Kind) :
    Reads (.fields seen) n
      (separated (fs.map fun f => fieldKinds f.1 (write f.2)) ++ .symbol .rightBrace :: rest)
      (.fields fs) rest := by
  induction fs generalizing seen with
  | nil => exact .fields_nil
  | cons f fs ih =>
    obtain ⟨hf, hfs⟩ := List.forall_mem_cons.1 h
    obtain ⟨hkey, hkeys⟩ := List.nodup_cons.1 hkeys
    obtain ⟨hfresh, hseen⟩ := List.forall_mem_cons.1 hseen
    have hseen' : ∀ key ∈ fs.map Prod.fst, key ∉ f.1 :: seen := fun key hm hin =>
      (List.mem_cons.1 hin).elim (fun hj => hkey (hj ▸ hm)) (hseen key hm)
    have ih := ih hfs hkeys hseen'
    cases fs with
    | nil =>
      have hlast := hf (.symbol .rightBrace :: rest) (closesAt_cons (by decide))
      have hfields := Reads.fields_last (nameToken_quoted f.1) hfresh hlast
      simpa [separated, fieldKinds] using hfields
    | cons f' fs =>
      have hfirst := hf (.symbol .comma :: (separated ((f' :: fs).map fun f =>
        fieldKinds f.1 (write f.2)) ++ .symbol .rightBrace :: rest)) (closesAt_cons (by decide))
      have hfields := Reads.fields_cons (nameToken_quoted f.1) hfresh hfirst ih
      simpa [separated, fieldKinds] using hfields

end Parse

end AccessPolicy
