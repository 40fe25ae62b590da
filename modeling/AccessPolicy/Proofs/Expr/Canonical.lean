import AccessPolicy.Proofs.Parse.Operands

/-! # Canonical tokens of an expression

Every operand stands in parentheses, attributes and record keys are strings, and every string and
pattern is escaped. The tokens of a writable expression are read back as the expression, with levels
to spare from `Expr.room` on. -/

namespace AccessPolicy

open Parse (enclosed separated fieldKinds)

/-- The token of a pattern. -/
def patternKind (p : Pattern) : Kind := .string (Pattern.raw p)

/-- The tokens of an integer; its sign is one of its own. -/
def longKinds : Int → List Kind
  | .ofNat n => [.int n]
  | .negSucc n => [.symbol .minus, .int (n + 1)]

/-- The tokens of a literal. No literal is a set or a record; these are expressions. -/
def Value.literalKinds : Value → List Kind
  | .bool b => [.ident (if b then "true" else "false")]
  | .long n => longKinds n
  | .string s => [.quoted s]
  | .entity u => u.kinds
  | .set _ | .record _ => []

def Comparison.kind : Comparison → Kind
  | .less => .symbol .less
  | .lessEqual => .symbol .lessEqual
  | .greater => .symbol .greater
  | .greaterEqual => .symbol .greaterEqual

def ArithOp.kind : ArithOp → Kind
  | .add => .symbol .plus
  | .sub => .symbol .minus
  | .mul => .symbol .star

def BinaryOp.kind : BinaryOp → Kind
  | .equal => .symbol .equalEqual
  | .notEqual => .symbol .notEqual
  | .order c => c.kind
  | .within => .ident "in"
  | .arith a => a.kind

namespace Expr

mutual

def kinds : Expr → List Kind
  | .literal v => v.literalKinds
  | .var v => [.ident v.name]
  | .name n => [.ident n]
  | .not e => .symbol .bang :: enclosed e.kinds
  | .neg e => .symbol .minus :: enclosed e.kinds
  | .and lhs rhs => enclosed lhs.kinds ++ .symbol .andAnd :: enclosed rhs.kinds
  | .or lhs rhs => enclosed lhs.kinds ++ .symbol .orOr :: enclosed rhs.kinds
  | .binary op lhs rhs => enclosed lhs.kinds ++ op.kind :: enclosed rhs.kinds
  | .cond test thenE elseE =>
    .ident "if" :: (enclosed test.kinds ++ .ident "then" ::
      (enclosed thenE.kinds ++ .ident "else" :: enclosed elseE.kinds))
  | .getAttr e attr =>
    enclosed e.kinds ++ [.symbol .leftBracket, .quoted attr, .symbol .rightBracket]
  | .hasAttr e attr => enclosed e.kinds ++ [.ident "has", .quoted attr]
  | .like e pattern => enclosed e.kinds ++ [.ident "like", patternKind pattern]
  | .is e entityType => enclosed e.kinds ++ .ident "is" :: pathKinds entityType
  | .isIn e entityType target =>
    enclosed e.kinds ++
      .ident "is" :: (pathKinds entityType ++ .ident "in" :: enclosed target.kinds)
  | .set items => .symbol .leftBracket :: (separated (itemKinds items) ++ [.symbol .rightBracket])
  | .record fields =>
    .symbol .leftBrace :: (separated (recordKinds fields) ++ [.symbol .rightBrace])
  | .method receiver m args =>
    enclosed receiver.kinds ++ .symbol .dot :: .ident m :: enclosed (separated (itemKinds args))
  | .call f args => pathKinds f ++ enclosed (separated (itemKinds args))

/-- The tokens of each expression. -/
def itemKinds : List Expr → List (List Kind)
  | [] => []
  | e :: es => e.kinds :: itemKinds es

/-- The tokens of each field. -/
def recordKinds : List (String × Expr) → List (List Kind)
  | [] => []
  | (key, e) :: fs => fieldKinds key e.kinds :: recordKinds fs

end

theorem itemKinds_eq (es : List Expr) : itemKinds es = es.map kinds := by
  induction es with
  | nil => rfl
  | cons e es ih => rw [itemKinds, ih, List.map_cons]

theorem recordKinds_eq (fs : List (String × Expr)) :
    recordKinds fs = fs.map fun f => fieldKinds f.1 f.2.kinds := by
  induction fs with
  | nil => rfl
  | cons f fs ih => rw [recordKinds, ih, List.map_cons]

mutual

/-- Levels that are enough to read the canonical tokens. -/
def room : Expr → Nat
  | .literal _ => 2
  | .var _ => 2
  | .name _ => 2
  | .not e | .neg e | .getAttr e _ | .hasAttr e _ | .like e _ | .is e _ => e.room + 2
  | .and lhs rhs | .or lhs rhs | .binary _ lhs rhs | .isIn lhs _ rhs => max lhs.room rhs.room + 2
  | .cond test thenE elseE => max test.room (max thenE.room elseE.room) + 2
  | .set items => itemsRoom items + 1
  | .record fields => fieldsRoom fields + 1
  | .method receiver _ args => max receiver.room (itemsRoom args) + 2
  | .call _ args => itemsRoom args + 1

def itemsRoom : List Expr → Nat
  | [] => 0
  | e :: es => max e.room (itemsRoom es)

def fieldsRoom : List (String × Expr) → Nat
  | [] => 0
  | (_, e) :: fs => max e.room (fieldsRoom fs)

end

theorem room_le_itemsRoom {e : Expr} {es : List Expr} (h : e ∈ es) : e.room ≤ itemsRoom es := by
  induction es with
  | nil => cases h
  | cons e' es ih =>
    rw [itemsRoom]
    obtain rfl | h := List.mem_cons.1 h
    · exact Nat.le_max_left _ _
    · exact (ih h).trans (Nat.le_max_right _ _)

theorem room_le_fieldsRoom {f : String × Expr} {fs : List (String × Expr)} (h : f ∈ fs) :
    f.2.room ≤ fieldsRoom fs := by
  induction fs with
  | nil => cases h
  | cons f' fs ih =>
    rw [fieldsRoom]
    obtain rfl | h := List.mem_cons.1 h
    · exact Nat.le_max_left _ _
    · exact (ih h).trans (Nat.le_max_right _ _)

end Expr

/-- A literal that can be written: a boolean, a long of 64 bits, a string, or a reference whose type
can begin an expression. -/
def Value.IsLiteral : Value → Prop
  | .bool _ | .string _ => True
  | .long n => InLongRange n
  | .entity u => IsReferable u.entityType
  | .set _ | .record _ => False

/-- Expressions that can be written. -/
inductive Expr.Writable : Expr → Prop where
  | literal {v} (hv : v.IsLiteral) : Writable (.literal v)
  | var (v) : Writable (.var v)
  | name {n} (hid : IsIdentifier n) (hword : n ∉ Parse.reserved) (hvar : Var.ofName? n = none) :
    Writable (.name n)
  | not {e} (he : Writable e) : Writable (.not e)
  | neg {e} (he : Writable e) : Writable (.neg e)
  | and {lhs rhs} (hl : Writable lhs) (hr : Writable rhs) : Writable (.and lhs rhs)
  | or {lhs rhs} (hl : Writable lhs) (hr : Writable rhs) : Writable (.or lhs rhs)
  | binary {op lhs rhs} (hl : Writable lhs) (hr : Writable rhs) : Writable (.binary op lhs rhs)
  | cond {test thenE elseE} (ht : Writable test) (hthen : Writable thenE) (helse : Writable elseE) :
    Writable (.cond test thenE elseE)
  | getAttr {e attr} (he : Writable e) : Writable (.getAttr e attr)
  | hasAttr {e attr} (he : Writable e) : Writable (.hasAttr e attr)
  | like {e pattern} (he : Writable e) : Writable (.like e pattern)
  | is {e entityType} (he : Writable e) (ht : IsPath entityType) : Writable (.is e entityType)
  | isIn {e entityType target} (he : Writable e) (ht : IsPath entityType)
      (htarget : Writable target) : Writable (.isIn e entityType target)
  | set {items} (h : ∀ e ∈ items, Writable e) : Writable (.set items)
  | record {fields} (hkeys : (fields.map Prod.fst).Nodup) (h : ∀ f ∈ fields, Writable f.2) :
    Writable (.record fields)
  | method {receiver name args} (hr : Writable receiver) (hid : IsIdentifier name)
      (h : ∀ e ∈ args, Writable e) : Writable (.method receiver name args)
  | call {name args} (hn : IsReferable name) (h : ∀ e ∈ args, Writable e) :
    Writable (.call name args)

namespace Parse

/-! ## Reading the forms -/

theorem ne_if_of_not_reserved {word : String} (h : word ∉ reserved) : Plain (.ident word) := by
  have hif : word ≠ "if" := by
    rintro rfl
    exact h (by decide)
  simpa [Plain] using hif

theorem readsAs_bool (b : Bool) : ReadsAs 1 [.ident (if b then "true" else "false")]
    (.literal (.bool b)) := by
  cases b with
  | false => exact readsAs_of_primary (by decide) fun _ _ => .primary_false
  | true => exact readsAs_of_primary (by decide) fun _ _ => .primary_true

theorem readsAs_long {n : Int} (h : InLongRange n) :
    ReadsAs 2 (longKinds n) (.literal (.long n)) := by
  obtain ⟨hlow, hhigh⟩ := h
  cases n with
  | ofNat n =>
    refine ReadsAs.mono (readsAs_of_primary (by simp [Plain]) fun _ _ => ?_) (Nat.le_succ 1)
    have hi : n < 0x8000000000000000 := by
      rw [Int.ofNat_eq_natCast] at hhigh
      omega
    exact .primary_int hi
  | negSucc n =>
    refine readsAs_of_unary (by decide) fun rest hrest => ?_
    have hi : n + 1 ≤ 0x8000000000000000 := by omega
    have hneg : Int.negSucc n = -((n + 1 : Nat) : Int) := rfl
    rw [hneg]
    exact .unary_long hi (.steps_stop (hrest.endsAt.mono (by decide)).stepsStopAt)

theorem readsAs_uid {u : Uid} (h : IsReferable u.entityType) :
    ReadsAs 1 u.kinds (.literal (.entity u)) := by
  obtain ⟨entityType, id⟩ := u
  obtain ⟨word, names, hids, hword, rfl⟩ := h
  have hkinds : Uid.kinds ⟨joinPath (word :: names), id⟩ =
      .ident word :: (segmentKinds names ++
        [.symbol .colonColon, .quoted id]) := by
    simp [Uid.kinds, pathKinds_joinPath hids]
  rw [hkinds]
  refine readsAs_of_primary (ne_if_of_not_reserved hword) fun rest _ => ?_
  have hentity := @Reads.primary_entity 0 word names _ id rest hword (decodes_escape id)
  simpa [Kind.quoted] using hentity

theorem readsAs_literal {v : Value} (h : v.IsLiteral) : ReadsAs 2 v.literalKinds (.literal v) := by
  cases v with
  | bool b => exact (readsAs_bool b).mono (by decide)
  | long n => exact readsAs_long h
  | string s =>
    refine ReadsAs.mono (readsAs_of_primary (by simp [Plain, Kind.quoted]) fun _ _ => ?_)
      (Nat.le_succ 1)
    exact .primary_string (decodes_escape s)
  | entity u => exact (readsAs_uid h).mono (by decide)
  | set items => exact absurd h id
  | record fields => exact absurd h id

/-- A bare name stands for a variable, or for itself. -/
theorem readsAs_name {name : String} (hword : name ∉ reserved) :
    ReadsAs 1 [.ident name] (bareName name) := by
  refine readsAs_of_primary (ne_if_of_not_reserved hword) fun rest hrest => ?_
  exact .primary_name hword (hrest.head?_ne (by decide)) (hrest.head?_ne (by decide))

variable {n : Nat} {us vs ws : List Kind} {e e' e'' : Expr}

theorem ReadsAs.prefix_not (h : ReadsAs n us e) :
    ReadsAs (n + 2) (.symbol .bang :: enclosed us) (.not e) :=
  readsAs_of_unary (by decide) fun _ hrest => .unary_not (h.unary (hrest.endsAt.mono (by decide)))

theorem ReadsAs.prefix_neg (h : ReadsAs n us e) :
    ReadsAs (n + 2) (.symbol .minus :: enclosed us) (.neg e) := by
  refine readsAs_of_unary (by decide) fun rest hrest => .unary_neg ?_ (h.unary ?_)
  · intro i ts hts
    cases hts
  · exact hrest.endsAt.mono (by decide)

theorem ReadsAs.binary (h : ReadsAs n us e) (h' : ReadsAs n vs e') (op : BinaryOp) :
    ReadsAs (n + 2) (enclosed us ++ op.kind :: enclosed vs) (.binary op e e') := by
  -- Arithmetic is a chain, and all else a relation.
  have hrel : relationOp? op.kind = some op → 3 ≤ looseness op.kind →
      ReadsAs (n + 2) (enclosed us ++ op.kind :: enclosed vs) (.binary op e e') := by
    intro hop hk
    refine ReadsAs.mono (h.related hk fun rest hrest hlhs => ?_) (Nat.le_succ _)
    exact .relation_binary hlhs hop (h'.sum (hrest.endsAt.mono (by decide)))
  cases op with
  | equal => exact hrel rfl (by decide)
  | notEqual => exact hrel rfl (by decide)
  | order c => cases c <;> exact hrel rfl (by decide)
  | within => exact hrel rfl (by decide)
  | arith a =>
    cases a with
    | add => exact h.operation (l := .add) h' rfl
    | sub => exact h.operation (l := .add) h' rfl
    | mul => exact h.operation (l := .mult) h' rfl

theorem ReadsAs.expr_enclosed {rest : List Kind} (h : ReadsAs n us e) (hend : EndsAt 6 rest) :
    Reads .expr (n + 1) (enclosed us ++ rest) (.expr e) rest :=
  (h.unary (hend.mono (by decide))).expr_of_unary (by simp [enclosed]) hend

theorem ReadsAs.cond (h : ReadsAs n us e) (h' : ReadsAs n vs e') (h'' : ReadsAs n ws e'') :
    ReadsAs (n + 2) (.ident "if" :: (enclosed us ++ .ident "then" ::
      (enclosed vs ++ .ident "else" :: enclosed ws))) (.cond e e' e'') := by
  intro rest hrest
  have helse := h''.expr_enclosed hrest.endsAt
  have hthen := @ReadsAs.expr_enclosed _ _ _ (.ident "else" :: (enclosed ws ++ rest)) h'
    (by simp [looseness])
  have htest := @ReadsAs.expr_enclosed _ _ _ (.ident "then" :: (enclosed vs ++
    .ident "else" :: (enclosed ws ++ rest))) h (by simp [looseness])
  have hcond := Reads.expr_if (.conditional htest hthen helse)
  simpa using hcond

theorem ReadsAs.index (h : ReadsAs (n + 1) us e) (attr : String) :
    ReadsAs (n + 2) (enclosed us ++ [.symbol .leftBracket, .quoted attr, .symbol .rightBracket])
      (.getAttr e attr) := by
  refine h.step fun rest hrest => ?_
  have hstop := (hrest.endsAt.mono (by decide)).stepsStopAt
  exact .steps_index (decodes_escape attr) (.steps_stop hstop)

theorem ReadsAs.hasAttr (h : ReadsAs n us e) (attr : String) :
    ReadsAs (n + 1) (enclosed us ++ [.ident "has", .quoted attr]) (.hasAttr e attr) :=
  h.related (by decide) fun _ _ hlhs => .relation_has hlhs (nameToken_quoted attr)

theorem ReadsAs.like (h : ReadsAs n us e) (p : Pattern) :
    ReadsAs (n + 1) (enclosed us ++ [.ident "like", patternKind p]) (.like e p) :=
  h.related (by decide) fun _ _ hlhs => .relation_like hlhs (Pattern.compile_raw p)

theorem ReadsAs.is (h : ReadsAs n us e) {entityType : String} (ht : IsPath entityType) :
    ReadsAs (n + 1) (enclosed us ++ .ident "is" :: pathKinds entityType) (.is e entityType) := by
  obtain ⟨word, names, hids, rfl⟩ := ht
  rw [pathKinds_joinPath hids]
  refine h.related (by decide) fun rest hrest hlhs => ?_
  have hend : ¬ NameGoesOn rest := not_nameGoesOn_of_head (hrest.head?_ne (by decide))
  exact .relation_is hlhs hend (hrest.head?_ne (by decide))

theorem ReadsAs.isIn (h : ReadsAs n us e) (h' : ReadsAs n vs e') {entityType : String}
    (ht : IsPath entityType) :
    ReadsAs (n + 1) (enclosed us ++ .ident "is" ::
      (pathKinds entityType ++ .ident "in" :: enclosed vs)) (.isIn e entityType e') := by
  obtain ⟨word, names, hids, rfl⟩ := ht
  rw [pathKinds_joinPath hids]
  refine h.related (by decide) fun rest hrest hlhs => ?_
  have htarget := @ReadsAs.sum _ _ rest _ h' (hrest.endsAt.mono (by decide))
  simp only [List.cons_append, List.append_assoc] at hlhs ⊢
  exact .relation_isIn hlhs htarget

/-! ## Lists of expressions -/

variable {write : Expr → List Kind} {es : List Expr}

theorem readsAs_set (h : ∀ e ∈ es, ReadsAs n (write e) e) :
    ReadsAs (n + 1) (.symbol .leftBracket ::
      (separated (es.map write) ++ [.symbol .rightBracket])) (.set es) := by
  refine readsAs_of_primary (by decide) fun rest _ => ?_
  have hset := Reads.primary_set (reads_items h .brackets rest)
  simpa [Enclosure.close] using hset

theorem readsAs_record {fs : List (String × Expr)} (h : ∀ f ∈ fs, ReadsAs n (write f.2) f.2)
    (hkeys : (fs.map Prod.fst).Nodup) :
    ReadsAs (n + 1) (.symbol .leftBrace ::
      (separated (fs.map fun f => fieldKinds f.1 (write f.2)) ++ [.symbol .rightBrace]))
      (.record fs) := by
  refine readsAs_of_primary (by decide) fun rest _ => ?_
  have hrecord := Reads.primary_record (reads_fields h hkeys (by simp) rest)
  simpa using hrecord

theorem ReadsAs.method (h : ReadsAs (n + 1) us e) (hes : ∀ e ∈ es, ReadsAs n (write e) e)
    (name : String) :
    ReadsAs (n + 2) (enclosed us ++
      .symbol .dot :: .ident name :: enclosed (separated (es.map write))) (.method e name es) := by
  refine h.step fun rest hrest => ?_
  have hstop := (hrest.endsAt.mono (by decide)).stepsStopAt
  have hmethod := @Reads.steps_method n e name _ _ rest es _ (reads_items hes .parens rest)
    (.steps_stop hstop)
  simpa [enclosed, Enclosure.close] using hmethod

theorem readsAs_call {name : String} (hn : IsReferable name)
    (hes : ∀ e ∈ es, ReadsAs n (write e) e) :
    ReadsAs (n + 1) (pathKinds name ++ enclosed (separated (es.map write))) (.call name es) := by
  obtain ⟨word, names, hids, hword, rfl⟩ := hn
  rw [pathKinds_joinPath hids]
  refine readsAs_of_primary (ne_if_of_not_reserved hword) fun rest _ => ?_
  have hcall := @Reads.primary_call n word names _ rest es hword (reads_items hes .parens rest)
  simpa [enclosed, Enclosure.close] using hcall

end Parse

/-! ## All expressions -/

open Parse in
/-- **The canonical tokens of a writable expression are read back as the expression.** -/
theorem Expr.Writable.readsAs {e : Expr} (h : e.Writable) : ReadsAs e.room e.kinds e := by
  induction h with
  | literal hv =>
    rw [Expr.room, Expr.kinds]
    exact readsAs_literal hv
  | var v =>
    rw [Expr.room, Expr.kinds]
    have hname := @readsAs_name v.name (by cases v <;> decide)
    rw [bareName, Var.ofName?_name] at hname
    exact hname.mono (Nat.le_succ 1)
  | name _ hword hvar =>
    rw [Expr.room, Expr.kinds]
    have hname := readsAs_name hword
    rw [bareName, hvar] at hname
    exact hname.mono (Nat.le_succ 1)
  | not _ ih =>
    rw [Expr.room, Expr.kinds]
    exact ih.prefix_not
  | neg _ ih =>
    rw [Expr.room, Expr.kinds]
    exact ih.prefix_neg
  | and _ _ ihl ihr =>
    rw [Expr.room, Expr.kinds]
    exact (ihl.mono (Nat.le_max_left _ _)).operation (l := .and) (k := .symbol .andAnd)
      (ihr.mono (Nat.le_max_right _ _)) rfl
  | or _ _ ihl ihr =>
    rw [Expr.room, Expr.kinds]
    exact (ihl.mono (Nat.le_max_left _ _)).operation (l := .or) (k := .symbol .orOr)
      (ihr.mono (Nat.le_max_right _ _)) rfl
  | @binary op _ _ _ _ ihl ihr =>
    rw [Expr.room, Expr.kinds]
    exact (ihl.mono (Nat.le_max_left _ _)).binary (ihr.mono (Nat.le_max_right _ _)) op
  | cond _ _ _ ih ih' ih'' =>
    rw [Expr.room, Expr.kinds]
    refine (ih.mono (Nat.le_max_left _ _)).cond (ih'.mono ?_) (ih''.mono ?_)
    · exact (Nat.le_max_left _ _).trans (Nat.le_max_right _ _)
    · exact (Nat.le_max_right _ _).trans (Nat.le_max_right _ _)
  | @getAttr _ attr _ ih =>
    rw [Expr.room, Expr.kinds]
    exact (ih.mono (Nat.le_succ _)).index attr
  | @hasAttr _ attr _ ih =>
    rw [Expr.room, Expr.kinds]
    exact (ih.hasAttr attr).mono (Nat.le_succ _)
  | @like _ pattern _ ih =>
    rw [Expr.room, Expr.kinds]
    exact (ih.like pattern).mono (Nat.le_succ _)
  | is _ ht ih =>
    rw [Expr.room, Expr.kinds]
    exact (ih.is ht).mono (Nat.le_succ _)
  | isIn _ ht _ ih ih' =>
    rw [Expr.room, Expr.kinds]
    have hisIn := (ih.mono (Nat.le_max_left _ _)).isIn (ih'.mono (Nat.le_max_right _ _)) ht
    exact hisIn.mono (Nat.le_succ _)
  | set _ ih =>
    rw [Expr.room, Expr.kinds, Expr.itemKinds_eq]
    exact readsAs_set fun e he => (ih e he).mono (Expr.room_le_itemsRoom he)
  | record hkeys _ ih =>
    rw [Expr.room, Expr.kinds, Expr.recordKinds_eq]
    exact readsAs_record (fun f hf => (ih f hf).mono (Expr.room_le_fieldsRoom hf)) hkeys
  | @method _ name _ _ _ _ ihr ih =>
    rw [Expr.room, Expr.kinds, Expr.itemKinds_eq]
    refine (ihr.mono (by omega)).method (fun e he => (ih e he).mono ?_) name
    exact (Expr.room_le_itemsRoom he).trans (Nat.le_max_right _ _)
  | call hn _ ih =>
    rw [Expr.room, Expr.kinds, Expr.itemKinds_eq]
    exact readsAs_call hn fun e he => (ih e he).mono (Expr.room_le_itemsRoom he)

/-! ## Their spelling -/

namespace Spellable

variable {us : List Kind}

@[simp] theorem patternKind (p : Pattern) : (patternKind p).Spellable := Pattern.rawLength_raw p

@[simp] theorem enclosed_iff : Spellable (enclosed us) ↔ Spellable us := by simp [enclosed]

theorem separated {α : Type} {part : α → List Kind} {l : List α}
    (h : ∀ a ∈ l, Spellable (part a)) : Spellable (separated (l.map part)) := by
  induction l with
  | nil => exact nil
  | cons a l ih =>
    obtain ⟨ha, hl⟩ := List.forall_mem_cons.1 h
    cases l with
    | nil => exact ha
    | cons b l => exact append_iff.2 ⟨ha, cons_iff.2 ⟨symbol _, ih hl⟩⟩

theorem longKinds {n : Int} (h : InLongRange n) : Spellable (longKinds n) := by
  obtain ⟨hlow, hhigh⟩ := h
  cases n with
  | ofNat n =>
    rw [Int.ofNat_eq_natCast] at hhigh
    simp only [AccessPolicy.longKinds, cons_iff, nil, and_true]
    exact show n < 0x10000000000000000 by omega
  | negSucc n =>
    simp only [AccessPolicy.longKinds, cons_iff, nil, symbol, and_true, true_and]
    exact show n + 1 < 0x10000000000000000 by omega

theorem literalKinds {v : Value} (h : v.IsLiteral) : Spellable v.literalKinds := by
  cases v with
  | bool b => cases b <;> simp [Value.literalKinds] <;> decide
  | long n => exact longKinds h
  | string s => simp [Value.literalKinds]
  | entity u => exact Uid.spellable_kinds (IsReferable.isPath h)
  | set items => exact absurd h id
  | record fields => exact absurd h id

theorem binaryOp (op : BinaryOp) : op.kind.Spellable := by
  cases op with
  | order c => cases c <;> trivial
  | arith a => cases a <;> trivial
  | within => exact show IsIdentifier "in" by decide
  | equal => trivial
  | notEqual => trivial

theorem separated_items {es : List Expr} (h : ∀ e ∈ es, Spellable e.kinds) :
    Spellable (Parse.separated (Expr.itemKinds es)) := by
  rw [Expr.itemKinds_eq]
  exact separated h

theorem separated_fields {fs : List (String × Expr)} (h : ∀ f ∈ fs, Spellable f.2.kinds) :
    Spellable (Parse.separated (Expr.recordKinds fs)) := by
  rw [Expr.recordKinds_eq]
  exact separated fun f hf => by simp [Parse.fieldKinds, h f hf]

end Spellable

theorem Expr.Writable.spellable {e : Expr} (h : e.Writable) : Spellable e.kinds := by
  have hwords : ∀ word ∈ ["if", "then", "else", "has", "like", "is", "in"], IsIdentifier word := by
    decide
  simp only [List.forall_mem_cons] at hwords
  induction h with
  | literal hv => exact .literalKinds hv
  | var v => cases v <;> simp [Expr.kinds] <;> decide
  | name hid => simpa [Expr.kinds] using hid
  | is _ ht ih =>
    have hpath := ht.spellable
    simp_all [Expr.kinds]
  | isIn _ ht _ ih ih' =>
    have hpath := ht.spellable
    simp_all [Expr.kinds]
  | set _ ih =>
    have hitems := Spellable.separated_items ih
    simp_all [Expr.kinds]
  | record _ _ ih =>
    have hfields := Spellable.separated_fields ih
    simp_all [Expr.kinds]
  | method _ hid _ ihr ih =>
    have hargs := Spellable.separated_items ih
    simp_all [Expr.kinds]
  | call hn _ ih =>
    have hpath := hn.isPath.spellable
    have hargs := Spellable.separated_items ih
    simp_all [Expr.kinds]
  | _ => simp_all [Expr.kinds, Spellable.binaryOp]

end AccessPolicy
