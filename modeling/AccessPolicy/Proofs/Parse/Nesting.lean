import AccessPolicy.Proofs.Eval.Within
import AccessPolicy.Proofs.Parse.Grammar
import AccessPolicy.Proofs.Token.Brackets

/-! # Brackets and conditional expressions within the room

Every pair of brackets holds expressions with one level less than stood before it, or nothing, and
so does every conditional expression with its parts. So neither of them nests deeper than the room
of an expression. -/

namespace AccessPolicy

/-! ## Nested conditional expressions -/

namespace Expr

/-- An expression is the given one or stands somewhere inside it. -/
def StandsIn (d e : Expr) : Prop := Relation.ReflTransGen (fun a b => a ∈ b.parts) d e

/-- Conditional expressions, the first of which stands in the given expression, and each other one
in a part of the one before it. -/
inductive NestedIfs : Expr → List Expr → Prop where
  | nil {e} : NestedIfs e []
  | cons {e test thenE elseE part run} (hcond : (cond test thenE elseE).StandsIn e)
      (hpart : part ∈ [test, thenE, elseE]) (h : NestedIfs part run) :
    NestedIfs e (.cond test thenE elseE :: run)

/-- Conditional expressions nest at most `n` deep. -/
inductive IfsWithin : Nat → Expr → Prop where
  | cond {n test thenE elseE}
      (h : ∀ part ∈ [test, thenE, elseE], IfsWithin n part) :
    IfsWithin (n + 1) (.cond test thenE elseE)
  | other {n e} (hcond : ∀ test thenE elseE, e ≠ .cond test thenE elseE)
      (hparts : ∀ d ∈ e.parts, IfsWithin n d) : IfsWithin n e

variable {n m : Nat} {d e : Expr}

theorem IfsWithin.mono (h : IfsWithin n e) (hm : n ≤ m) : IfsWithin m e := by
  induction h generalizing m with
  | cond _ ih =>
    obtain ⟨m, rfl⟩ := Nat.exists_eq_add_of_le' hm
    exact .cond fun part hpart => ih part hpart (Nat.le_of_add_le_add_right hm)
  | other hcond _ ih => exact .other hcond fun d hd => ih d hd hm

theorem IfsWithin.part (h : IfsWithin n e) (hd : d ∈ e.parts) : IfsWithin n d := by
  cases h with
  | cond h => exact (h d hd).mono (Nat.le_succ _)
  | other _ hparts => exact hparts d hd

/-- An expression with one part that is no conditional one. -/
theorem IfsWithin.one (hparts : e.parts = [d])
    (hcond : ∀ test thenE elseE, e ≠ .cond test thenE elseE) (h : IfsWithin n d) :
    IfsWithin n e := by
  refine .other hcond ?_
  rw [hparts]
  exact List.forall_mem_singleton.2 h

theorem IfsWithin.two {lhs rhs : Expr} (hparts : e.parts = [lhs, rhs])
    (hcond : ∀ test thenE elseE, e ≠ .cond test thenE elseE) (hlhs : IfsWithin n lhs)
    (hrhs : IfsWithin n rhs) : IfsWithin n e := by
  refine .other hcond ?_
  rw [hparts]
  exact List.forall_mem_cons.2 ⟨hlhs, List.forall_mem_singleton.2 hrhs⟩

theorem IfsWithin.standsIn (h : IfsWithin n e) (hd : d.StandsIn e) : IfsWithin n d := by
  induction hd using Relation.ReflTransGen.head_induction_on with
  | refl => exact h
  | head hpart _ ih => exact ih.part hpart

theorem NestedIfs.length_le {run : List Expr} (h : NestedIfs e run) (he : IfsWithin n e) :
    run.length ≤ n := by
  induction h generalizing n with
  | nil => exact Nat.zero_le n
  | cons hcond hpart _ ih =>
    cases he.standsIn hcond with
    | cond hparts => exact Nat.succ_le_succ (ih (hparts _ hpart))
    | other hother => exact absurd rfl (hother _ _ _)

end Expr

namespace Parse

/-! ## Brackets -/

/-- Tokens that a reader takes are nested: within the room in an expression and in a list of them,
where the closing bracket is left out, and one deeper in what may be a pair of brackets. -/
def Reader.BracketsWithin (n : Nat) (ts rest : List Kind) : Reader → Prop
  | .expr => NestedTo n ts rest
  | .items close => NestedTo n ts (.symbol close :: rest)
  | .fields _ => NestedTo n ts (.symbol .rightBrace :: rest)
  | _ => NestedTo (n + 1) ts rest

theorem noBracket_ident (name : String) : NoBracket (.ident name) := fun _ => rfl

theorem noBracket_string (raw : List Char) : NoBracket (.string raw) := fun _ => rfl

theorem noBracket_int (n : Nat) : NoBracket (.int n) := fun _ => rfl

theorem NameToken.noBracket {k : Kind} {key : String} (h : NameToken k key) : NoBracket k := by
  cases h <;> exact fun _ => rfl

theorem noBracket_of_join {l : Level} {k : Kind} {join : Expr → Expr → Expr}
    (h : l.join? k = some join) : NoBracket k := by
  unfold Level.join? at h
  split at h <;> first | exact fun _ => rfl | cases h

theorem noBracket_of_relationOp {k : Kind} {op : BinaryOp} (h : relationOp? k = some op) :
    NoBracket k := by
  unfold relationOp? at h
  split at h <;> first | exact fun _ => rfl | cases h

theorem nestedTo_segments {n : Nat} {ts rest : List Kind} (names : List String)
    (h : NestedTo n ts rest) : NestedTo n (segmentKinds names ++ ts) rest := by
  induction names with
  | nil => exact h
  | cons name names ih => exact (ih.cons (noBracket_ident name)).cons fun _ => rfl

theorem Level.nestedTo_inner {l : Level} {n : Nat} {ts rest : List Kind}
    (h : l.inner.BracketsWithin n ts rest) : NestedTo (n + 1) ts rest := by
  cases l <;> exact h

/-- **The brackets of what a reader takes are nested within its room.** -/
theorem Reads.bracketsWithin {r : Reader} {n : Nat} {ts rest : List Kind} {t : Tree}
    (h : Reads r n ts t rest) : r.BracketsWithin n ts rest := by
  -- A bracket opens one level above the room of what it holds; operators and names open none.
  induction h with
  | expr_if _ ih => exact ih.cons (noBracket_ident _)
  | expr_chain _ _ ih => exact ih
  | conditional _ _ _ ih₁ ih₂ ih₃ =>
    have helse := ih₂.trans (ih₃.cons (noBracket_ident _))
    exact (ih₁.trans (helse.cons (noBracket_ident _))).mono (Nat.le_succ _)
  | chain _ _ ih₁ ih₂ => exact (Level.nestedTo_inner ih₁).trans ih₂
  | chainRest_stop | steps_stop => exact .refl _ _
  | chainRest_step hk _ _ ih₁ ih₂ =>
    exact (((Level.nestedTo_inner ih₁).trans ih₂).cons (noBracket_of_join hk)).mono (Nat.le_succ _)
  | relation _ _ ih => exact ih
  | relation_binary _ hk _ ih₁ ih₂ => exact ih₁.trans (ih₂.cons (noBracket_of_relationOp hk))
  | relation_has _ hk ih => exact ih.trans ((NestedTo.one hk.noBracket).cons (noBracket_ident _))
  | relation_like _ _ ih =>
    exact ih.trans ((NestedTo.one (noBracket_string _)).cons (noBracket_ident _))
  | relation_is _ _ _ ih =>
    refine ih.trans (.cons (noBracket_ident _) (.cons (noBracket_ident _) ?_))
    exact nestedTo_segments _ (.refl _ _)
  | relation_isIn _ _ ih₁ ih₂ =>
    refine ih₁.trans (.cons (noBracket_ident _) (.cons (noBracket_ident _) ?_))
    exact nestedTo_segments _ (ih₂.cons (noBracket_ident _))
  | unary_not _ ih | unary_neg _ _ ih => exact (ih.cons fun _ => rfl).mono (Nat.le_succ _)
  | unary_long _ _ ih =>
    exact ((ih.cons (noBracket_int _)).cons fun _ => rfl).mono (Nat.le_succ _)
  | unary _ _ _ _ ih₁ ih₂ => exact ih₁.trans ih₂
  | steps_method _ _ ih₁ ih₂ =>
    have hargs := (ih₁.enclosed .round).trans ih₂
    exact ((hargs.cons (noBracket_ident _)).cons fun _ => rfl).mono (Nat.le_succ _)
  | steps_attr _ _ ih =>
    exact ((ih.cons (noBracket_ident _)).cons fun _ => rfl).mono (Nat.le_succ _)
  | steps_index _ _ ih =>
    refine .mono (.trans ?_ ih) (Nat.le_succ _)
    exact .enclosed .square (.one (noBracket_string _))
  | items_nil | fields_nil => exact .refl _ _
  | items_last _ _ ih => exact ih
  | items_cons _ _ _ _ ih₁ ih₂ => exact ih₁.trans (ih₂.cons fun _ => rfl)
  | fields_last hk _ _ ih => exact (ih.cons fun _ => rfl).cons hk.noBracket
  | fields_cons hk _ _ _ ih₁ ih₂ =>
    exact ((ih₁.trans (ih₂.cons fun _ => rfl)).cons fun _ => rfl).cons hk.noBracket
  | primary_int => exact .one (noBracket_int _)
  | primary_string => exact .one (noBracket_string _)
  | primary_true | primary_false | primary_name => exact .one (noBracket_ident _)
  | primary_paren _ ih => exact ih.enclosed .round
  | primary_set _ ih => exact ih.enclosed .square
  | primary_record _ ih => exact ih.enclosed .curly
  | primary_if _ ih => exact (ih.cons (noBracket_ident _)).mono (Nat.le_succ _)
  | primary_entity =>
    refine .cons (noBracket_ident _) (nestedTo_segments _ ?_)
    exact (NestedTo.one (noBracket_string _)).cons fun _ => rfl
  | primary_call _ _ ih => exact (nestedTo_segments _ (ih.enclosed .round)).cons (noBracket_ident _)

/-! ## Conditional expressions -/

def Tree.IfsWithin (n : Nat) : Tree → Prop
  | .expr e => e.IfsWithin n
  | .items es => ∀ e ∈ es, e.IfsWithin n
  | .fields fs => ∀ f ∈ fs, f.2.IfsWithin n

/-- Conditional expressions in what a reader hands back nest within the room, or one deeper where
one of them may begin. What a reader started from is kept. -/
def Reader.IfsWithin (n : Nat) (t : Tree) : Reader → Prop
  | .expr | .items _ | .fields _ => t.IfsWithin n
  | .chainRest _ e | .steps e => ∀ m, n < m → e.IfsWithin m → t.IfsWithin m
  | _ => t.IfsWithin (n + 1)

theorem Level.ifsWithin_inner {l : Level} {n : Nat} {t : Tree} (h : l.inner.IfsWithin n t) :
    t.IfsWithin (n + 1) := by
  cases l <;> exact h

theorem ifsWithin_join {l : Level} {k : Kind} {join : Expr → Expr → Expr} {n : Nat}
    {lhs rhs : Expr} (h : l.join? k = some join) (hlhs : lhs.IfsWithin n)
    (hrhs : rhs.IfsWithin n) : (join lhs rhs).IfsWithin n := by
  unfold Level.join? at h
  split at h <;> cases h <;> exact .two rfl nofun hlhs hrhs

theorem ifsWithin_literal (n : Nat) (v : Value) : (Expr.literal v).IfsWithin n :=
  .other nofun nofun

theorem ifsWithin_bareName (n : Nat) (name : String) : (bareName name).IfsWithin n := by
  unfold bareName
  cases Var.ofName? name <;> exact .other nofun nofun

/-- **The conditional expressions in what a reader hands back nest within its room.** -/
theorem Reads.ifsWithin {r : Reader} {n : Nat} {ts rest : List Kind} {t : Tree}
    (h : Reads r n ts t rest) : r.IfsWithin n t := by
  -- A conditional expression takes its level before its parts are read with what is left.
  induction h with
  | expr_if _ ih | expr_chain _ _ ih => exact ih
  | conditional _ _ _ ih₁ ih₂ ih₃ =>
    exact .cond (List.forall_mem_cons.2 ⟨ih₁, List.forall_mem_cons.2
      ⟨ih₂, List.forall_mem_singleton.2 ih₃⟩⟩)
  | chain _ _ ih₁ ih₂ => exact ih₂ _ (Nat.lt_succ_self _) (Level.ifsWithin_inner ih₁)
  | chainRest_stop | steps_stop => exact fun m _ he => he
  | chainRest_step hk _ _ ih₁ ih₂ =>
    intro m hm he
    have hrhs := (Level.ifsWithin_inner ih₁).mono hm.le
    exact ih₂ m (Nat.lt_of_succ_lt hm) (ifsWithin_join hk he hrhs)
  | relation _ _ ih => exact ih
  | relation_binary _ _ _ ih₁ ih₂ | relation_isIn _ _ ih₁ ih₂ => exact .two rfl nofun ih₁ ih₂
  | relation_has _ _ ih | relation_like _ _ ih | relation_is _ _ _ ih => exact .one rfl nofun ih
  | unary_not _ ih | unary_neg _ _ ih => exact .one rfl nofun (ih.mono (Nat.le_succ _))
  | unary_long _ _ ih => exact ih _ (Nat.lt_succ_of_lt (Nat.lt_succ_self _)) (ifsWithin_literal _ _)
  | unary _ _ _ _ ih₁ ih₂ => exact ih₂ _ (Nat.lt_succ_self _) ih₁
  | steps_method _ _ ih₁ ih₂ =>
    intro m hm he
    refine ih₂ m (Nat.lt_of_succ_lt hm) (.other nofun (List.forall_mem_cons.2 ⟨he, ?_⟩))
    exact fun e h => (ih₁ e h).mono (by omega)
  | steps_attr _ _ ih | steps_index _ _ ih =>
    exact fun m hm he => ih m (Nat.lt_of_succ_lt hm) (.one rfl nofun he)
  | items_nil | fields_nil => exact List.forall_mem_nil _
  | items_last _ _ ih => exact List.forall_mem_singleton.2 ih
  | items_cons _ _ _ _ ih₁ ih₂ => exact List.forall_mem_cons.2 ⟨ih₁, ih₂⟩
  | fields_last _ _ _ ih => exact List.forall_mem_singleton.2 ih
  | fields_cons _ _ _ _ ih₁ ih₂ => exact List.forall_mem_cons.2 ⟨ih₁, ih₂⟩
  | primary_int | primary_string | primary_true | primary_false | primary_entity =>
    exact ifsWithin_literal _ _
  | primary_name => exact ifsWithin_bareName _ _
  | primary_paren _ ih => exact ih.mono (Nat.le_succ _)
  | primary_set _ ih | primary_call _ _ ih =>
    exact .other nofun fun e h => (ih e h).mono (Nat.le_succ _)
  | primary_record _ ih =>
    refine .other nofun (List.forall_mem_map.2 fun f hf => ?_)
    exact (ih f hf).mono (Nat.le_succ _)
  | primary_if _ ih => exact ih.mono (Nat.le_succ _)

end Parse

end AccessPolicy
