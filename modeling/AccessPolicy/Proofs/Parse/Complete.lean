import AccessPolicy.Proofs.Parse.Sound

/-! # What is derived, the readers take

For each rule there is the step of the reader that it describes; the induction on derivations puts
them together, with the depth that the room leaves of the bound. With the other direction,
derivations and readers agree, so what is read depends on the room alone. -/

namespace AccessPolicy

namespace Parse

variable {bound depth : Nat} {ts ts₁ ts₂ rest : List Kind} {e lhs rhs : Expr} {l : Level}

/-! ## Expressions and chains -/

theorem takes_expr_if (hd : depth < bound) (h : Takes (conditional bound (depth + 1) ts) e rest) :
    Takes (expr bound depth (.ident "if" :: ts)) e rest := by
  rw [expr.eq_def, if_pos hd]
  exact .bind_intro h fun _ => takes_ok.2 ⟨rfl, rfl⟩

theorem takes_expr_chain (hd : depth < bound) (hif : ts.head? ≠ some (.ident "if"))
    (h : Takes (chain bound .or (depth + 1) ts) e rest) : Takes (expr bound depth ts) e rest := by
  rw [expr.eq_def, if_pos hd]
  split
  · exact absurd rfl hif
  · exact h

theorem takes_conditional {test thenE elseE : Expr}
    (htest : Takes (expr bound depth ts) test (.ident "then" :: ts₁))
    (hthen : Takes (expr bound depth ts₁) thenE (.ident "else" :: ts₂))
    (helse : Takes (expr bound depth ts₂) elseE rest) :
    Takes (conditional bound depth ts) (.cond test thenE elseE) rest := by
  rw [conditional]
  refine .bind_intro htest fun _ => ?_
  refine .bind_intro (takes_keyword_iff.2 rfl) fun _ => ?_
  refine .bind_intro hthen fun _ => ?_
  refine .bind_intro (takes_keyword_iff.2 rfl) fun _ => ?_
  exact .bind_intro helse fun _ => takes_ok.2 ⟨rfl, rfl⟩

theorem takes_chain (hlhs : l.inner.Takes bound depth ts (.expr lhs) ts₁)
    (hrest : Takes (chainRest bound l depth lhs ts₁) e rest) :
    Takes (chain bound l depth ts) e rest := by
  rw [chain]
  refine .bind_intro (operand_iff.2 hlhs) fun _ => ?_
  exact .bind_intro hrest fun _ => takes_ok.2 ⟨rfl, rfl⟩

theorem takes_chainRest_stop (hstop : l.StopsAt rest) :
    Takes (chainRest bound l depth lhs rest) lhs rest := by
  rw [chainRest.eq_def]
  cases rest with
  | nil => exact takes_ok.2 ⟨rfl, rfl⟩
  | cons k us =>
    have hk : l.join? k = none := hstop k rfl
    simp only [hk]
    exact takes_ok.2 ⟨rfl, rfl⟩

theorem takes_chainRest_step {k : Kind} {join : Expr → Expr → Expr} (hd : depth < bound)
    (hk : l.join? k = some join) (hrhs : l.inner.Takes bound (depth + 1) ts (.expr rhs) ts₁)
    (hrest : Takes (chainRest bound l (depth + 1) (join lhs rhs) ts₁) e rest) :
    Takes (chainRest bound l depth lhs (k :: ts)) e rest := by
  rw [chainRest.eq_def]
  simp only [hk, if_pos hd]
  refine .bind_intro (operand_iff.2 hrhs) fun _ => ?_
  exact .bind_intro hrest fun _ => takes_ok.2 ⟨rfl, rfl⟩

/-! ## Relations -/

theorem takes_relation (h : Takes (chain bound .add depth ts) e rest)
    (hstop : RelationStopsAt rest) : Takes (relation bound depth ts) e rest := by
  rw [relation]
  refine .bind_intro h fun _ => ?_
  cases rest with
  | nil => exact takes_ok.2 ⟨rfl, rfl⟩
  | cons k us =>
    have hk : ¬ Relational k := hstop k rfl
    simp only [Relational, not_or, not_not] at hk
    obtain ⟨hop, hhas, hlike, his⟩ := hk
    simp only [hop, if_neg hhas, if_neg hlike, if_neg his]
    exact takes_ok.2 ⟨rfl, rfl⟩

theorem takes_relation_binary {k : Kind} {op : BinaryOp}
    (hlhs : Takes (chain bound .add depth ts) lhs (k :: ts₁)) (hk : relationOp? k = some op)
    (hrhs : Takes (chain bound .add depth ts₁) rhs rest) :
    Takes (relation bound depth ts) (.binary op lhs rhs) rest := by
  rw [relation]
  refine .bind_intro hlhs fun _ => ?_
  simp only [hk]
  exact .bind_intro hrhs fun _ => takes_ok.2 ⟨rfl, rfl⟩

theorem takes_relation_has {k : Kind} {attr : String}
    (hlhs : Takes (chain bound .add depth ts) lhs (.ident "has" :: k :: rest))
    (hk : NameToken k attr) : Takes (relation bound depth ts) (.hasAttr lhs attr) rest := by
  rw [relation]
  refine .bind_intro hlhs fun _ => ?_
  simp only [relationOp?, if_true]
  exact .bind_intro (takes_identOrString_iff.2 ⟨_, rfl, hk⟩) fun _ => takes_ok.2 ⟨rfl, rfl⟩

theorem takes_relation_like {raw : List Char} {p : Pattern}
    (hlhs : Takes (chain bound .add depth ts) lhs (.ident "like" :: .string raw :: rest))
    (hp : Pattern.compile raw = .ok p) : Takes (relation bound depth ts) (.like lhs p) rest := by
  rw [relation]
  refine .bind_intro hlhs fun _ => ?_
  simp only [relationOp?, Kind.ident.injEq, String.reduceEq, if_false, if_true]
  exact .bind_intro (takes_pattern_iff.2 ⟨_, rfl, hp⟩) fun _ => takes_ok.2 ⟨rfl, rfl⟩

theorem takes_relation_is {name : String} {names : List String}
    (hlhs : Takes (chain bound .add depth ts) lhs
      (.ident "is" :: .ident name :: (segmentKinds names ++ rest)))
    (hend : ¬ NameGoesOn rest) (hin : rest.head? ≠ some (.ident "in")) :
    Takes (relation bound depth ts) (.is lhs (joinPath (name :: names))) rest := by
  rw [relation]
  refine .bind_intro hlhs fun _ => ?_
  simp only [relationOp?, Kind.ident.injEq, String.reduceEq, if_false, if_true]
  refine .bind_intro (takes_path_iff.2 ⟨_, _, rfl, rfl, hend⟩) fun _ => ?_
  simp only [accept?_eq_none_iff.2 hin]
  exact takes_ok.2 ⟨rfl, rfl⟩

theorem takes_relation_isIn {name : String} {names : List String} {target : Expr}
    (hlhs : Takes (chain bound .add depth ts) lhs
      (.ident "is" :: .ident name :: (segmentKinds names ++ .ident "in" :: ts₁)))
    (htarget : Takes (chain bound .add depth ts₁) target rest) :
    Takes (relation bound depth ts) (.isIn lhs (joinPath (name :: names)) target) rest := by
  have hend : ¬ NameGoesOn (.ident "in" :: ts₁) := not_nameGoesOn_of_head (by simp)
  rw [relation]
  refine .bind_intro hlhs fun _ => ?_
  simp only [relationOp?, Kind.ident.injEq, String.reduceEq, if_false, if_true]
  refine .bind_intro (takes_path_iff.2 ⟨_, _, rfl, rfl, hend⟩) fun _ => ?_
  simp only [accept?_cons_self]
  exact .bind_intro htarget fun _ => takes_ok.2 ⟨rfl, rfl⟩

/-! ## Prefix operators and steps -/

theorem takes_unary_not (hd : depth < bound) (h : Takes (unary bound (depth + 1) ts) e rest) :
    Takes (unary bound depth (.symbol .bang :: ts)) (.not e) rest := by
  rw [unary.eq_def]
  simp only [if_pos hd]
  exact .bind_intro h fun _ => takes_ok.2 ⟨rfl, rfl⟩

theorem takes_unary_neg (hd : depth < bound) (hint : ∀ i us, ts ≠ .int i :: us)
    (h : Takes (unary bound (depth + 1) ts) e rest) :
    Takes (unary bound depth (.symbol .minus :: ts)) (.neg e) rest := by
  rw [unary.eq_def]
  simp only [if_pos hd]
  exact .bind_intro h fun _ => takes_ok.2 ⟨rfl, rfl⟩

theorem takes_unary_long {i : Nat} (hd : depth < bound) (hi : i ≤ 0x8000000000000000)
    (h : Takes (steps bound (depth + 1) (.literal (.long (-i))) ts) e rest) :
    Takes (unary bound depth (.symbol .minus :: .int i :: ts)) e rest := by
  rw [unary.eq_def]
  simp only [if_pos hd, if_pos hi]
  exact .bind_intro h fun _ => takes_ok.2 ⟨rfl, rfl⟩

theorem takes_unary {e' : Expr} (hbang : ts.head? ≠ some (.symbol .bang))
    (hminus : ts.head? ≠ some (.symbol .minus)) (h : Takes (primary bound depth ts) e ts₁)
    (hsteps : Takes (steps bound depth e ts₁) e' rest) :
    Takes (unary bound depth ts) e' rest := by
  rw [unary.eq_def]
  split
  · exact absurd rfl hbang
  · exact absurd rfl hminus
  · refine .bind_intro h fun _ => ?_
    exact .bind_intro hsteps fun _ => takes_ok.2 ⟨rfl, rfl⟩

theorem takes_steps_stop (hstop : StepsStopAt rest) : Takes (steps bound depth e rest) e rest := by
  rw [steps.eq_def]
  split
  · exact absurd rfl hstop.1
  · exact absurd rfl hstop.2
  · exact takes_ok.2 ⟨rfl, rfl⟩

theorem takes_steps_method {name : String} {args : List Expr} {e' : Expr} (hd : depth < bound)
    (hargs : Takes (items bound (depth + 1) .rightParen ts) args ts₁)
    (h : Takes (steps bound (depth + 1) (.method e name args) ts₁) e' rest) :
    Takes (steps bound depth e (.symbol .dot :: .ident name :: .symbol .leftParen :: ts)) e'
      rest := by
  rw [steps.eq_def]
  simp only [if_pos hd]
  refine .bind_intro (takes_ident_iff.2 rfl) fun _ => ?_
  simp only [accept?_cons_self]
  refine .bind_intro hargs fun _ => ?_
  exact .bind_intro h fun _ => takes_ok.2 ⟨rfl, rfl⟩

theorem takes_steps_attr {name : String} {e' : Expr} (hd : depth < bound)
    (hparen : ts.head? ≠ some (.symbol .leftParen))
    (h : Takes (steps bound (depth + 1) (.getAttr e name) ts) e' rest) :
    Takes (steps bound depth e (.symbol .dot :: .ident name :: ts)) e' rest := by
  rw [steps.eq_def]
  simp only [if_pos hd]
  refine .bind_intro (takes_ident_iff.2 rfl) fun _ => ?_
  simp only [accept?_eq_none_iff.2 hparen]
  exact .bind_intro h fun _ => takes_ok.2 ⟨rfl, rfl⟩

theorem takes_steps_index {raw : List Char} {attr : String} {e' : Expr} (hd : depth < bound)
    (hraw : Decodes raw attr) (h : Takes (steps bound (depth + 1) (.getAttr e attr) ts) e' rest) :
    Takes (steps bound depth e
      (.symbol .leftBracket :: .string raw :: .symbol .rightBracket :: ts)) e' rest := by
  rw [steps.eq_def]
  simp only [if_pos hd]
  refine .bind_intro (takes_string_iff.2 ⟨_, rfl, hraw⟩) fun _ => ?_
  refine .bind_intro (takes_symbol_iff.2 rfl) fun _ => ?_
  exact .bind_intro h fun _ => takes_ok.2 ⟨rfl, rfl⟩

/-! ## Lists and fields -/

theorem accept?_of_name {k : Kind} {s : String} (hk : NameToken k s) (us : List Kind) :
    Taken.accept? (.symbol .rightBrace) (k :: us) = none := by
  rw [accept?_eq_none_iff]
  cases hk <;> simp

theorem accept?_comma {close : Symbol} (h : close ≠ .comma) (us : List Kind) :
    Taken.accept? (.symbol close) (.symbol .comma :: us) = none := by
  rw [accept?_eq_none_iff]
  simpa using h.symm

variable {close : Symbol} {es : List Expr} {seen : List String} {key : String} {k : Kind}
  {fs : List (String × Expr)}

theorem takes_items_nil : Takes (items bound depth close (.symbol close :: rest)) [] rest := by
  rw [items]
  simp only [accept?_cons_self]
  exact takes_ok.2 ⟨rfl, rfl⟩

theorem takes_items_last (hhead : ts.head? ≠ some (.symbol close))
    (h : Takes (expr bound depth ts) e (.symbol close :: rest)) :
    Takes (items bound depth close ts) [e] rest := by
  rw [items]
  simp only [accept?_eq_none_iff.2 hhead]
  refine .bind_intro h fun _ => ?_
  simp only [accept?_cons_self]
  exact takes_ok.2 ⟨rfl, rfl⟩

theorem takes_items_cons (hhead : ts.head? ≠ some (.symbol close)) (hclose : close ≠ .comma)
    (h : Takes (expr bound depth ts) e (.symbol .comma :: ts₁))
    (hes : Takes (items bound depth close ts₁) es rest) :
    Takes (items bound depth close ts) (e :: es) rest := by
  rw [items]
  simp only [accept?_eq_none_iff.2 hhead]
  refine .bind_intro h fun _ => ?_
  simp only [accept?_comma hclose]
  refine .bind_intro (takes_expect_iff.2 rfl) fun _ => ?_
  exact .bind_intro hes fun _ => takes_ok.2 ⟨rfl, rfl⟩

theorem takes_fields_nil :
    Takes (fields bound depth seen (.symbol .rightBrace :: rest)) [] rest := by
  rw [fields]
  simp only [accept?_cons_self]
  exact takes_ok.2 ⟨rfl, rfl⟩

theorem takes_fields_last (hk : NameToken k key) (hseen : key ∉ seen)
    (h : Takes (expr bound depth ts) e (.symbol .rightBrace :: rest)) :
    Takes (fields bound depth seen (k :: .symbol .colon :: ts)) [(key, e)] rest := by
  rw [fields]
  simp only [accept?_of_name hk]
  refine .bind_intro (takes_identOrString_iff.2 ⟨_, rfl, hk⟩) fun _ => ?_
  simp only [if_neg hseen]
  refine .bind_intro (takes_symbol_iff.2 rfl) fun _ => ?_
  refine .bind_intro h fun _ => ?_
  simp only [accept?_cons_self]
  exact takes_ok.2 ⟨rfl, rfl⟩

theorem takes_fields_cons (hk : NameToken k key) (hseen : key ∉ seen)
    (h : Takes (expr bound depth ts) e (.symbol .comma :: ts₁))
    (hfs : Takes (fields bound depth (key :: seen) ts₁) fs rest) :
    Takes (fields bound depth seen (k :: .symbol .colon :: ts)) ((key, e) :: fs) rest := by
  have hclose : Symbol.rightBrace ≠ .comma := by decide
  rw [fields]
  simp only [accept?_of_name hk]
  refine .bind_intro (takes_identOrString_iff.2 ⟨_, rfl, hk⟩) fun _ => ?_
  simp only [if_neg hseen]
  refine .bind_intro (takes_symbol_iff.2 rfl) fun _ => ?_
  refine .bind_intro h fun _ => ?_
  simp only [accept?_comma hclose]
  refine .bind_intro (takes_expect_iff.2 rfl) fun _ => ?_
  exact .bind_intro hfs fun _ => takes_ok.2 ⟨rfl, rfl⟩

/-! ## Primary expressions -/

theorem takes_primary_int {i : Nat} (hi : i < 0x8000000000000000) :
    Takes (primary bound depth (.int i :: rest)) (.literal (.long i)) rest := by
  rw [primary.eq_def]
  simp only [if_pos hi]
  exact takes_ok.2 ⟨rfl, rfl⟩

theorem takes_primary_string {raw : List Char} {s : String} (hraw : Decodes raw s) :
    Takes (primary bound depth (.string raw :: rest)) (.literal (.string s)) rest := by
  rw [primary.eq_def]
  exact .bind_intro (takes_string_iff.2 ⟨_, rfl, hraw⟩) fun _ => takes_ok.2 ⟨rfl, rfl⟩

theorem takes_primary_paren (h : Takes (expr bound depth ts) e (.symbol .rightParen :: rest)) :
    Takes (primary bound depth (.symbol .leftParen :: ts)) e rest := by
  rw [primary.eq_def]
  refine .bind_intro h fun _ => ?_
  exact .bind_intro (takes_symbol_iff.2 rfl) fun _ => takes_ok.2 ⟨rfl, rfl⟩

theorem takes_primary_set (h : Takes (items bound depth .rightBracket ts) es rest) :
    Takes (primary bound depth (.symbol .leftBracket :: ts)) (.set es) rest := by
  rw [primary.eq_def]
  exact .bind_intro h fun _ => takes_ok.2 ⟨rfl, rfl⟩

theorem takes_primary_record (h : Takes (fields bound depth [] ts) fs rest) :
    Takes (primary bound depth (.symbol .leftBrace :: ts)) (.record fs) rest := by
  rw [primary.eq_def]
  exact .bind_intro h fun _ => takes_ok.2 ⟨rfl, rfl⟩

theorem takes_primary_if (hd : depth < bound)
    (h : Takes (conditional bound (depth + 1) ts) e rest) :
    Takes (primary bound depth (.ident "if" :: ts)) e rest := by
  rw [primary.eq_def]
  simp only [if_pos hd]
  exact .bind_intro h fun _ => takes_ok.2 ⟨rfl, rfl⟩

theorem takes_primary_true :
    Takes (primary bound depth (.ident "true" :: rest)) (.literal (.bool true)) rest := by
  rw [primary.eq_def]
  exact takes_ok.2 ⟨rfl, rfl⟩

theorem takes_primary_false :
    Takes (primary bound depth (.ident "false" :: rest)) (.literal (.bool false)) rest := by
  rw [primary.eq_def]
  exact takes_ok.2 ⟨rfl, rfl⟩

variable {word : String} {names : List String}

/-- A word that is a name starts a reference or a call. -/
theorem primary_of_name (hword : word ∉ reserved) (us : List Kind) :
    primary bound depth (.ident word :: us) = (do
      let ⟨r, ts₁, h₁⟩ ← reference [word] us
      match r with
      | .entity u => .ok ⟨.literal (.entity u), ts₁, h₁⟩
      | .name path =>
        match Taken.accept? (.symbol .leftParen) ts₁ with
        | some ⟨_, ts₂, h₂⟩ => do
          let args ← items bound depth .rightParen ts₂
          .ok (((args.map (.call (joinPath path))).after h₂).after h₁)
        | none =>
          match path with
          | [name] => .ok ⟨bareName name, ts₁, h₁⟩
          | _ => expected .colonsAndEntityId ts₁) := by
  have hif : word ≠ "if" := fun h => hword (h ▸ by decide)
  have htrue : word ≠ "true" := fun h => hword (h ▸ by decide)
  have hfalse : word ≠ "false" := fun h => hword (h ▸ by decide)
  rw [primary]
  · rw [if_neg hword]
    rfl
  · exact hif
  · exact htrue
  · exact hfalse

theorem takes_primary_entity {raw : List Char} {id : String} (hword : word ∉ reserved)
    (hraw : Decodes raw id) :
    Takes (primary bound depth
      (.ident word :: (segmentKinds names ++ .symbol .colonColon :: .string raw :: rest)))
      (.literal (.entity ⟨joinPath (word :: names), id⟩)) rest := by
  rw [primary_of_name hword]
  refine .bind_intro (takes_reference_iff.2 ⟨_, _, rfl, .entity hraw⟩) fun _ => ?_
  exact takes_ok.2 ⟨rfl, rfl⟩

theorem takes_primary_call (hword : word ∉ reserved)
    (hargs : Takes (items bound depth .rightParen ts) es rest) :
    Takes (primary bound depth (.ident word :: (segmentKinds names ++ .symbol .leftParen :: ts)))
      (.call (joinPath (word :: names)) es) rest := by
  rw [primary_of_name hword]
  refine .bind_intro (takes_reference_iff.2 ⟨_, _, rfl, .name (by simp)⟩) fun _ => ?_
  simp only [accept?_cons_self]
  exact .bind_intro hargs fun _ => takes_ok.2 ⟨rfl, rfl⟩

theorem takes_primary_name (hword : word ∉ reserved)
    (hcolons : rest.head? ≠ some (.symbol .colonColon))
    (hparen : rest.head? ≠ some (.symbol .leftParen)) :
    Takes (primary bound depth (.ident word :: rest)) (bareName word) rest := by
  rw [primary_of_name hword]
  refine .bind_intro (takes_reference_iff.2 ⟨[], _, rfl, .name hcolons⟩) fun _ => ?_
  simp only [accept?_eq_none_iff.2 hparen]
  exact takes_ok.2 ⟨rfl, rfl⟩

/-! ## Derivations -/

/-- Room for another level at a depth under a bound. -/
theorem lt_of_room {n : Nat} (h : bound - depth = n + 1) :
    depth < bound ∧ bound - (depth + 1) = n := by omega

theorem Reads.takes {r : Reader} {n : Nat} {t : Tree} (h : Reads r n ts t rest) :
    ∀ {bound depth : Nat}, bound - depth = n → r.Takes bound depth ts t rest := by
  induction h with
  | expr_if _ ih =>
    intro bound depth hn
    obtain ⟨hd, hn⟩ := lt_of_room hn
    exact takes_expr_if hd (ih hn)
  | expr_chain hif _ ih =>
    intro bound depth hn
    obtain ⟨hd, hn⟩ := lt_of_room hn
    exact takes_expr_chain hd hif (ih hn)
  | conditional _ _ _ ih₁ ih₂ ih₃ =>
    intro bound depth hn
    exact takes_conditional (ih₁ hn) (ih₂ hn) (ih₃ hn)
  | chain _ _ ih₁ ih₂ =>
    intro bound depth hn
    exact takes_chain (ih₁ hn) (ih₂ hn)
  | chainRest_stop hstop => exact fun _ => takes_chainRest_stop hstop
  | chainRest_step hk _ _ ih₁ ih₂ =>
    intro bound depth hn
    obtain ⟨hd, hn⟩ := lt_of_room hn
    exact takes_chainRest_step hd hk (ih₁ hn) (ih₂ hn)
  | relation _ hstop ih =>
    intro bound depth hn
    exact takes_relation (ih hn) hstop
  | relation_binary _ hk _ ih₁ ih₂ =>
    intro bound depth hn
    exact takes_relation_binary (ih₁ hn) hk (ih₂ hn)
  | relation_has _ hk ih =>
    intro bound depth hn
    exact takes_relation_has (ih hn) hk
  | relation_like _ hp ih =>
    intro bound depth hn
    exact takes_relation_like (ih hn) hp
  | relation_is _ hend hin ih =>
    intro bound depth hn
    exact takes_relation_is (ih hn) hend hin
  | relation_isIn _ _ ih₁ ih₂ =>
    intro bound depth hn
    exact takes_relation_isIn (ih₁ hn) (ih₂ hn)
  | unary_not _ ih =>
    intro bound depth hn
    obtain ⟨hd, hn⟩ := lt_of_room hn
    exact takes_unary_not hd (ih hn)
  | unary_neg hint _ ih =>
    intro bound depth hn
    obtain ⟨hd, hn⟩ := lt_of_room hn
    exact takes_unary_neg hd hint (ih hn)
  | unary_long hi _ ih =>
    intro bound depth hn
    obtain ⟨hd, hn⟩ := lt_of_room hn
    exact takes_unary_long hd hi (ih hn)
  | unary hbang hminus _ _ ih₁ ih₂ =>
    intro bound depth hn
    exact takes_unary hbang hminus (ih₁ hn) (ih₂ hn)
  | steps_stop hstop => exact fun _ => takes_steps_stop hstop
  | steps_method _ _ ih₁ ih₂ =>
    intro bound depth hn
    obtain ⟨hd, hn⟩ := lt_of_room hn
    exact takes_steps_method hd (ih₁ hn) (ih₂ hn)
  | steps_attr hparen _ ih =>
    intro bound depth hn
    obtain ⟨hd, hn⟩ := lt_of_room hn
    exact takes_steps_attr hd hparen (ih hn)
  | steps_index hraw _ ih =>
    intro bound depth hn
    obtain ⟨hd, hn⟩ := lt_of_room hn
    exact takes_steps_index hd hraw (ih hn)
  | items_nil => exact fun _ => takes_items_nil
  | items_last hhead _ ih =>
    intro bound depth hn
    exact takes_items_last hhead (ih hn)
  | items_cons hhead hclose _ _ ih₁ ih₂ =>
    intro bound depth hn
    exact takes_items_cons hhead hclose (ih₁ hn) (ih₂ hn)
  | fields_nil => exact fun _ => takes_fields_nil
  | fields_last hk hseen _ ih =>
    intro bound depth hn
    exact takes_fields_last hk hseen (ih hn)
  | fields_cons hk hseen _ _ ih₁ ih₂ =>
    intro bound depth hn
    exact takes_fields_cons hk hseen (ih₁ hn) (ih₂ hn)
  | primary_int hi => exact fun _ => takes_primary_int hi
  | primary_string hraw => exact fun _ => takes_primary_string hraw
  | primary_paren _ ih =>
    intro bound depth hn
    exact takes_primary_paren (ih hn)
  | primary_set _ ih =>
    intro bound depth hn
    exact takes_primary_set (ih hn)
  | primary_record _ ih =>
    intro bound depth hn
    exact takes_primary_record (ih hn)
  | primary_if _ ih =>
    intro bound depth hn
    obtain ⟨hd, hn⟩ := lt_of_room hn
    exact takes_primary_if hd (ih hn)
  | primary_true => exact fun _ => takes_primary_true
  | primary_false => exact fun _ => takes_primary_false
  | primary_entity hword hraw => exact fun _ => takes_primary_entity hword hraw
  | primary_call hword _ ih =>
    intro bound depth hn
    exact takes_primary_call hword (ih hn)
  | primary_name hword hcolons hparen =>
    exact fun _ => takes_primary_name hword hcolons hparen

/-- **Derivations and readers agree.** -/
theorem reads_iff_takes {r : Reader} {t : Tree} :
    Reads r (bound - depth) ts t rest ↔ r.Takes bound depth ts t rest :=
  ⟨fun h => h.takes rfl, fun h => h.reads⟩

end Parse

end AccessPolicy
