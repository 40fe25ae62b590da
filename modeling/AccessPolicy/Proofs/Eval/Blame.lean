import AccessPolicy.Proofs.Eval.Within
import AccessPolicy.Proofs.Traverse

/-! # Errors of evaluation tell the truth

`EvalError.RaisedBy` says what has to be true of an expression that raises an error: which form it
has, which values its operands have, and what about them the error reports. One step of the
evaluator either raises its error so or hands on that of an operand (`Eval.evaluate_blames`), so
every error is raised by an expression inside the one that was evaluated
(`evaluate_error_raisedBy`). -/

namespace AccessPolicy

namespace Expr

/-- `d` is the expression itself or one inside it. -/
inductive Contains : Expr → Expr → Prop where
  | self (e : Expr) : Contains e e
  | part {e p d : Expr} (hp : p ∈ e.parts) (h : Contains p d) : Contains e d

/-- The operands whose values have to be of some kind, with that kind. -/
def demands : Expr → List (Expr × Expected)
  | .not e | .cond e _ _ => [(e, .type .bool)]
  | .and lhs rhs | .or lhs rhs => [(lhs, .type .bool), (rhs, .type .bool)]
  | .neg e => [(e, .type .long)]
  | .binary (.order _) lhs rhs | .binary (.arith _) lhs rhs =>
    [(lhs, .type .long), (rhs, .type .long)]
  | .binary .within e target | .isIn e _ target =>
    [(e, .type .entity), (target, .entityOrEntities), (target, .entities)]
  | .getAttr e _ | .hasAttr e _ => [(e, .entityOrRecord)]
  | .like e _ => [(e, .type .string)]
  | .is e _ => [(e, .type .entity)]
  | .method receiver called args =>
    (receiver, .type .set) ::
      if called = "containsAll" ∨ called = "containsAny" then args.map fun a => (a, .type .set)
      else []
  | _ => []

theorem mem_parts_of_mem_demands {e d : Expr} {k : Expected} (h : (d, k) ∈ e.demands) :
    d ∈ e.parts := by
  cases e with
  | not _ | neg _ | getAttr _ _ | hasAttr _ _ | like _ _ | is _ _ | cond _ _ _ =>
    obtain ⟨rfl, -⟩ := Prod.mk.inj (List.mem_singleton.1 h)
    exact List.mem_cons_self
  | and _ _ | or _ _ | isIn _ _ _ =>
    simp only [demands, List.mem_cons, Prod.mk.injEq, List.not_mem_nil, or_false] at h
    rcases h with ⟨rfl, -⟩ | ⟨rfl, -⟩ | ⟨rfl, -⟩ <;> simp [parts]
  | binary op lhs rhs =>
    have hd : d = lhs ∨ d = rhs := by
      cases op with
      | equal | notEqual => cases h
      | order _ | arith _ | within =>
        simp only [demands, List.mem_cons, Prod.mk.injEq, List.not_mem_nil, or_false] at h
        tauto
    obtain rfl | rfl := hd
    · exact List.mem_cons_self
    · exact List.mem_cons_of_mem _ List.mem_cons_self
  | method receiver called args =>
    obtain h | h := List.mem_cons.1 h
    · obtain ⟨rfl, -⟩ := Prod.mk.inj h
      exact List.mem_cons_self
    · split at h
      · obtain ⟨a, ha, h⟩ := List.mem_map.1 h
        obtain ⟨rfl, -⟩ := Prod.mk.inj h
        exact List.mem_cons_of_mem _ ha
      · cases h
  | _ => cases h

end Expr

/-- A place does not take the value: `actual` is the value's type, or for a set of entities the
type of an element, and is none of those that the place takes. -/
def Expected.Refuses (v : Value) (actual : ValueType) : Expected → Prop
  | .type t => v.type = actual ∧ actual ≠ t
  | .entityOrRecord => v.type = actual ∧ actual ≠ .entity ∧ actual ≠ .record
  | .entityOrEntities => v.type = actual ∧ actual ≠ .entity ∧ actual ≠ .set
  | .entities => actual ≠ .entity ∧ ∃ items, v = .set items ∧ ∃ w ∈ items, w.type = actual

/-- What is true of an expression that raises an error. -/
def EvalError.RaisedBy (env : Env) (d : Expr) : EvalError → Prop
  | .undeclaredName name =>
    d = .name name ∨ (∃ args, d = .call name args) ∨
      ∃ receiver args, d = .method receiver name args ∧
        name ∉ ["contains", "containsAll", "containsAny", "isEmpty"]
  | .wrongArity m actual =>
    ∃ receiver args, d = .method receiver m.name args ∧ args.length = actual ∧ actual ≠ m.arity
  | .overflow op =>
    (∃ lhs rhs m n, d = .binary (.arith op) lhs rhs ∧ evaluate env lhs = .ok (.long m) ∧
      evaluate env rhs = .ok (.long n) ∧ ¬ InLongRange (op.apply m n)) ∨
    op = .sub ∧ ∃ e n, d = .neg e ∧ evaluate env e = .ok (.long n) ∧ ¬ InLongRange (-n)
  | .entityNotFound u =>
    ∃ e attr, d = .getAttr e attr ∧ evaluate env e = .ok (.entity u) ∧ env.store.get? u = none
  | .attributeNotFound attr .record =>
    ∃ e fields, d = .getAttr e attr ∧ evaluate env e = .ok (.record fields) ∧
      Fields.find? fields attr = none
  | .attributeNotFound attr (.entity u) =>
    ∃ e entity, d = .getAttr e attr ∧ evaluate env e = .ok (.entity u) ∧
      env.store.get? u = some entity ∧ entity.attr? attr = none
  | .typeMismatch expected actual =>
    ∃ e v, (e, expected) ∈ d.demands ∧ evaluate env e = .ok v ∧ expected.Refuses v actual

namespace Method

theorem name_of_ofName? {name : String} {m : Method} (h : ofName? name = some m) :
    m.name = name := by
  unfold ofName? at h
  split at h <;> cases h <;> rfl

theorem not_mem_of_ofName? {name : String} (h : ofName? name = none) :
    name ∉ ["contains", "containsAll", "containsAny", "isEmpty"] := by
  intro hname
  simp only [List.mem_cons, List.not_mem_nil, or_false] at hname
  rcases hname with rfl | rfl | rfl | rfl <;> cases h

end Method

namespace Eval

/-! ## Operands of one kind -/

/-- The function refuses exactly the values that are not of a type, and says so. -/
def Expects {α : Type} (t : ValueType) (f : Value → Result α) : Prop :=
  ∀ v x, f v = .error x → v.type ≠ t ∧ x = .typeMismatch (.type t) v.type

theorem expects_bool : Expects .bool expectBool := by
  intro v x h
  cases v <;> cases h <;> exact ⟨nofun, rfl⟩

theorem expects_long : Expects .long expectLong := by
  intro v x h
  cases v <;> cases h <;> exact ⟨nofun, rfl⟩

theorem expects_string : Expects .string expectString := by
  intro v x h
  cases v <;> cases h <;> exact ⟨nofun, rfl⟩

theorem expects_set : Expects .set expectSet := by
  intro v x h
  cases v <;> cases h <;> exact ⟨nofun, rfl⟩

theorem expects_entity : Expects .entity expectEntity := by
  intro v x h
  cases v <;> cases h <;> exact ⟨nofun, rfl⟩

theorem eq_long_of_expectLong {v : Value} {n : Int} (h : expectLong v = .ok n) : v = .long n := by
  cases v with
  | long m =>
    cases h
    rfl
  | _ => cases h

theorem inMembers_error {s : Store} {u : Uid} {vs : List Value} {x : EvalError}
    (h : inMembers s u vs = .error x) :
    ∃ w ∈ vs, w.type ≠ .entity ∧ x = .typeMismatch .entities w.type := by
  induction vs with
  | nil => cases h
  | cons v vs ih =>
    cases v with
    | entity ancestor =>
      cases hvs : inMembers s u vs with
      | ok b =>
        rw [inMembers, hvs] at h
        cases h
      | error y =>
        rw [inMembers, hvs] at h
        cases h
        obtain ⟨w, hw, hne, hx⟩ := ih hvs
        exact ⟨w, List.mem_cons_of_mem _ hw, hne, hx⟩
    | _ =>
      cases h
      exact ⟨_, List.mem_cons_self, nofun, rfl⟩

theorem evaluateItems_eq_mapM (env : Env) (es : List Expr) :
    evaluateItems env es = es.mapM (evaluate env) := by
  induction es with
  | nil => rfl
  | cons e es ih =>
    rw [evaluateItems, List.mapM_cons, ih]
    rfl

/-! ## One step -/

/-- An error of this part of the step of `e` is one that an operand of `e` has, or one that `e`
raises. -/
def Blames (env : Env) (e : Expr) {α : Type} (r : Result α) : Prop :=
  ∀ x, r = .error x → (∃ p ∈ e.parts, evaluate env p = .error x) ∨ x.RaisedBy env e

namespace Blames

variable {env : Env} {e p : Expr} {α β : Type}

theorem ok {a : α} : Blames env e (.ok a) := nofun

theorem raise {x : EvalError} (h : x.RaisedBy env e) : Blames env e (.error x : Result α) := by
  intro y hy
  cases hy
  exact .inr h

theorem part (hp : p ∈ e.parts) : Blames env e (evaluate env p) := fun _ hx => .inl ⟨p, hp, hx⟩

theorem bind {r : Result α} {f : α → Result β} (h : Blames env e r)
    (hf : ∀ a, r = .ok a → Blames env e (f a)) : Blames env e (r >>= f) := by
  cases r with
  | error x => exact fun y hy => h y (by cases hy; rfl)
  | ok a => exact hf a rfl

theorem items {es : List Expr} (h : ∀ d ∈ es, d ∈ e.parts) :
    Blames env e (evaluateItems env es) := by
  induction es with
  | nil => exact .ok
  | cons d es ih =>
    obtain ⟨hd, hes⟩ := List.forall_mem_cons.1 h
    rw [evaluateItems]
    exact .bind (.part hd) fun _ _ => .bind (ih hes) fun _ _ => .ok

theorem fields {fs : List (String × Expr)} (h : ∀ d ∈ fs.map Prod.snd, d ∈ e.parts) :
    Blames env e (evaluateFields env fs) := by
  induction fs with
  | nil => exact .ok
  | cons f fs ih =>
    obtain ⟨hf, hfs⟩ := List.forall_mem_cons.1 h
    rw [evaluateFields]
    exact .bind (.part hf) fun _ _ => .bind (ih hfs) fun _ _ => .ok

variable {v : Value}

theorem expect {t : ValueType} {f : Value → Result α} (hf : Expects t f)
    (hp : (p, .type t) ∈ e.demands) (hv : evaluate env p = .ok v) : Blames env e (f v) := by
  intro x hx
  obtain ⟨hne, rfl⟩ := hf v x hx
  exact .inr ⟨p, v, hp, hv, rfl, hne⟩

/-- An operand is evaluated and its value has to be of some type. -/
theorem operand {t : ValueType} {f : Value → Result α} (hf : Expects t f)
    (hp : (p, .type t) ∈ e.demands) {g : α → Result β}
    (hg : ∀ v a, evaluate env p = .ok v → f v = .ok a → Blames env e (g a)) :
    Blames env e (evaluate env p >>= fun v => f v >>= g) :=
  .bind (.part (Expr.mem_parts_of_mem_demands hp)) fun v hv =>
    .bind (.expect hf hp hv) fun a ha => hg v a hv ha

theorem checked {op : ArithOp} {n : Int}
    (h : ¬ InLongRange n → (EvalError.overflow op).RaisedBy env e) :
    Blames env e (checked op n) := by
  rw [Eval.checked]
  split
  · exact .ok
  · exact .raise (h ‹_›)

theorem within {s : Store} {u : Uid} (hp : (p, .entityOrEntities) ∈ e.demands)
    (hp' : (p, .entities) ∈ e.demands) (hv : evaluate env p = .ok v) :
    Blames env e (within s u v) := by
  cases v with
  | entity _ => exact .ok
  | set items =>
    intro x hx
    obtain ⟨w, hw, hne, rfl⟩ := inMembers_error hx
    exact .inr ⟨p, _, hp', hv, hne, items, rfl, w, hw, rfl⟩
  | _ => exact .raise ⟨p, _, hp, hv, rfl, nofun, nofun⟩

theorem getAttr {attr : String} (hv : evaluate env p = .ok v) :
    Blames env (.getAttr p attr) (getAttr env.store v attr) := by
  have hp : (p, .entityOrRecord) ∈ (Expr.getAttr p attr).demands := List.mem_singleton_self _
  cases v with
  | record fields =>
    rw [Eval.getAttr]
    cases hw : Fields.find? fields attr with
    | none => exact .raise ⟨p, fields, rfl, hv, hw⟩
    | some w => exact .ok
  | entity u =>
    rw [Eval.getAttr]
    cases he : env.store.get? u with
    | none => exact .raise ⟨p, attr, rfl, hv, he⟩
    | some entity =>
      dsimp only
      cases hw : entity.attr? attr with
      | none => exact .raise ⟨p, entity, rfl, hv, he, hw⟩
      | some w => exact .ok
  | _ => exact .raise ⟨p, _, hp, hv, rfl, nofun, nofun⟩

theorem hasAttr {attr : String} (hv : evaluate env p = .ok v) :
    Blames env (.hasAttr p attr) (hasAttr env.store v attr) := by
  have hp : (p, .entityOrRecord) ∈ (Expr.hasAttr p attr).demands := List.mem_singleton_self _
  cases v with
  | record _ | entity _ => exact .ok
  | _ => exact .raise ⟨p, _, hp, hv, rfl, nofun, nofun⟩

theorem binary {op : BinaryOp} {lhs rhs : Expr} {w : Value} (hv : evaluate env lhs = .ok v)
    (hw : evaluate env rhs = .ok w) :
    Blames env (.binary op lhs rhs) (binary env.store op v w) := by
  cases op with
  | equal | notEqual => exact .ok
  | order c =>
    exact .bind (.expect expects_long (by simp [Expr.demands]) hv) fun _ _ =>
      .bind (.expect expects_long (by simp [Expr.demands]) hw) fun _ _ => .ok
  | arith op =>
    refine .bind (.expect expects_long (by simp [Expr.demands]) hv) fun m hm => ?_
    refine .bind (.expect expects_long (by simp [Expr.demands]) hw) fun n hn => ?_
    obtain rfl := eq_long_of_expectLong hm
    obtain rfl := eq_long_of_expectLong hn
    exact .checked fun hrange => .inl ⟨lhs, rhs, m, n, rfl, hv, hw, hrange⟩
  | within =>
    exact .bind (.expect expects_entity (by simp [Expr.demands]) hv) fun _ _ =>
      .bind (.within (by simp [Expr.demands]) (by simp [Expr.demands]) hw) fun _ _ => .ok

/-- Given as many arguments as it takes, a method only minds the kind of its argument. -/
theorem applyMethod {m : Method} {receiver : Expr} {args : List Expr} {items vs : List Value}
    (hlen : args.length = m.arity)
    (hvs : List.Forall₂ (fun a v => evaluate env a = .ok v) args vs) :
    Blames env (.method receiver m.name args) (applyMethod m items vs) := by
  cases m with
  | isEmpty =>
    obtain rfl := List.length_eq_zero_iff.1 hlen
    cases hvs
    exact .ok
  | contains | containsAll | containsAny =>
    obtain ⟨a, rfl⟩ := List.length_eq_one_iff.1 hlen
    obtain _ | ⟨hv, _ | _⟩ := hvs
    first
    | exact .ok
    | exact .bind (.expect expects_set (by simp [Expr.demands, Method.name]) hv) fun _ _ => .ok

end Blames

theorem evaluate_blames (env : Env) (e : Expr) : Blames env e (evaluate env e) := by
  cases e with
  | literal v =>
    rw [evaluate]
    exact .ok
  | var x =>
    rw [evaluate]
    exact .ok
  | name n =>
    rw [evaluate]
    exact .raise (.inl rfl)
  | not e =>
    rw [evaluate]
    exact .operand expects_bool (by simp [Expr.demands]) fun _ _ _ _ => .ok
  | neg e =>
    rw [evaluate]
    refine .operand expects_long (by simp [Expr.demands]) fun v n hv hn => ?_
    obtain rfl := eq_long_of_expectLong hn
    exact .checked fun hrange => .inr ⟨rfl, e, n, rfl, hv, hrange⟩
  | and lhs rhs =>
    rw [evaluate]
    refine .operand expects_bool (by simp [Expr.demands]) fun _ b _ _ => ?_
    cases b with
    | false => exact .ok
    | true => exact .operand expects_bool (by simp [Expr.demands]) fun _ _ _ _ => .ok
  | or lhs rhs =>
    rw [evaluate]
    refine .operand expects_bool (by simp [Expr.demands]) fun _ b _ _ => ?_
    cases b with
    | true => exact .ok
    | false => exact .operand expects_bool (by simp [Expr.demands]) fun _ _ _ _ => .ok
  | binary op lhs rhs =>
    rw [evaluate]
    exact .bind (.part (by simp [Expr.parts])) fun v hv =>
      .bind (.part (by simp [Expr.parts])) fun w hw => .binary hv hw
  | cond test thenE elseE =>
    rw [evaluate]
    refine .operand expects_bool (by simp [Expr.demands]) fun _ b _ _ => ?_
    cases b with
    | true => exact .part (by simp [Expr.parts])
    | false => exact .part (by simp [Expr.parts])
  | getAttr e attr =>
    rw [evaluate]
    exact .bind (.part (by simp [Expr.parts])) fun v hv => .getAttr hv
  | hasAttr e attr =>
    rw [evaluate]
    exact .bind (.part (by simp [Expr.parts])) fun v hv => .bind (.hasAttr hv) fun _ _ => .ok
  | like e pattern =>
    rw [evaluate]
    exact .operand expects_string (by simp [Expr.demands]) fun _ _ _ _ => .ok
  | is e entityType =>
    rw [evaluate]
    exact .operand expects_entity (by simp [Expr.demands]) fun _ _ _ _ => .ok
  | isIn e entityType target =>
    rw [evaluate]
    refine .operand expects_entity (by simp [Expr.demands]) fun _ _ _ _ => ?_
    split
    · refine .bind (.part (by simp [Expr.parts])) fun w hw => ?_
      exact .bind (.within (by simp [Expr.demands]) (by simp [Expr.demands]) hw) fun _ _ => .ok
    · exact .ok
  | set items =>
    rw [evaluate]
    exact .bind (.items fun _ hd => hd) fun _ _ => .ok
  | record fields =>
    rw [evaluate]
    exact .bind (.fields fun _ hd => hd) fun _ _ => .ok
  | method receiver name args =>
    rw [evaluate]
    cases hm : Method.ofName? name with
    | none => exact .raise (.inr (.inr ⟨receiver, args, rfl, Method.not_mem_of_ofName? hm⟩))
    | some m =>
      obtain rfl := Method.name_of_ofName? hm
      by_cases hlen : args.length = m.arity
      · simp only [if_pos hlen]
        refine .operand expects_set (by simp [Expr.demands]) fun _ items _ _ => ?_
        refine .bind (.items fun _ hd => List.mem_cons_of_mem _ hd) fun vs hvs => ?_
        rw [evaluateItems_eq_mapM] at hvs
        exact .applyMethod hlen (mapM_eq_ok_iff.1 hvs)
      · simp only [if_neg hlen]
        exact .raise ⟨receiver, args, rfl, rfl, hlen⟩
  | call name args =>
    rw [evaluate]
    exact .raise (.inr (.inl ⟨args, rfl⟩))

end Eval

/-- **Errors tell the truth.** An error of an expression is raised by an expression inside it, and
what the error reports is true of that one. -/
theorem evaluate_error_raisedBy {env : Env} {e : Expr} {x : EvalError}
    (h : evaluate env e = .error x) : ∃ d, e.Contains d ∧ x.RaisedBy env d := by
  obtain ⟨p, hp, hx⟩ | hx := Eval.evaluate_blames env e x h
  · obtain ⟨d, hd, hraised⟩ := evaluate_error_raisedBy hx
    exact ⟨d, .part hp hd, hraised⟩
  · exact ⟨e, .self e, hx⟩
termination_by sizeOf e
decreasing_by exact Expr.sizeOf_lt_of_mem_parts hp

/-- A set that holds the principal and a long besides is no set of entities. -/
theorem evaluate_error_raisedBy_mixed_set :
    let u : Uid := ⟨"User", "alice"⟩
    let env : Env := ⟨⟨u, u, u, []⟩, .empty⟩
    let members : Expr := .set [.var .principal, .literal (.long 1)]
    let e : Expr := .not (.binary .within (.var .principal) members)
    evaluate env e = .error (.typeMismatch .entities .long) ∧
      ∃ d, e.Contains d ∧ (EvalError.typeMismatch .entities .long).RaisedBy env d := by
  intro u env members e
  have herror : evaluate env e = .error (.typeMismatch .entities .long) := rfl
  exact ⟨herror, evaluate_error_raisedBy herror⟩

end AccessPolicy
