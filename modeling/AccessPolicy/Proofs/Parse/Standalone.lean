import AccessPolicy.Proofs.Parse.Derivation
import AccessPolicy.Proofs.Parse.Precedence
import AccessPolicy.Proofs.Parse.Room

/-! # Expressions that stand alone

The reader of one expression with nothing behind it accepts exactly the expressions of the grammar
and hands back what they mean, under every bound that it does not reach. -/

namespace AccessPolicy

namespace Parse

/-- Reads tokens that are one expression. -/
def standalone (bound : Nat) (ts : List Kind) : Except Failure Expr := do
  let ⟨e, rest, _⟩ ← expr bound 0 ts
  endOfInput rest
  .ok e

variable {bound bound' : Nat} {ts : List Kind} {e : Expr}

theorem not_tooDeep_endOfInput (ts : List Kind) : ¬ TooDeep (endOfInput ts) := by
  unfold endOfInput
  split <;> simp

theorem standalone_eq_ok_iff : standalone bound ts = .ok e ↔ Takes (expr bound 0 ts) e [] :=
  bind_endOfInput_eq_ok_iff

theorem standalone_steady (hb : bound ≤ bound') :
    Steady (2 * ts.length + 1 ≤ bound) (standalone bound ts) (standalone bound' ts) := by
  refine .bind (Reader.steady hb .expr) ?_
  rintro ⟨e, rest, hlt⟩
  exact .bind (.of_not_tooDeep (not_tooDeep_endOfInput rest)) fun _ => .ok _

/-- The readings under two bounds agree if neither reaches its own. -/
theorem standalone_eq_of_not_tooDeep (h : ¬ TooDeep (standalone bound ts))
    (h' : ¬ TooDeep (standalone bound' ts)) : standalone bound ts = standalone bound' ts := by
  have key : ∀ {b b' : Nat}, b ≤ b' → ¬ TooDeep (standalone b ts) →
      standalone b ts = standalone b' ts := fun hb hn =>
    (standalone_steady hb).elim And.left fun hd => absurd hd.1 hn
  rcases Nat.le_total bound bound' with hb | hb
  · exact key hb h
  · exact (key hb h').symm

theorem derives_iff_standalone :
    Derives .expr ts (.expr e) [] ↔ ∃ n, standalone n ts = .ok e := by
  rw [derives_expr_iff, List.append_nil]
  refine exists_congr fun n => Iff.trans ?_ standalone_eq_ok_iff.symm
  exact @reads_iff_takes n 0 ts [] .expr (.expr e)

/-- **The reader of one expression decides the grammar.** Under every bound that it does not reach
it succeeds exactly on the expressions of the grammar, and hands back the tree of their derivation,
of which there is one; and a bound that is large enough for the number of tokens is not reached. -/
theorem standalone_iff_derives (ts : List Kind) :
    (∀ bound, ¬ TooDeep (standalone bound ts) →
      ∀ e, standalone bound ts = .ok e ↔ Derives .expr ts (.expr e) []) ∧
    (∀ e e', Derives .expr ts (.expr e) [] → Derives .expr ts (.expr e') [] → e = e') ∧
    ∀ bound, 2 * ts.length + 1 ≤ bound → ¬ TooDeep (standalone bound ts) := by
  have hdecides : ∀ bound, ¬ TooDeep (standalone bound ts) →
      ∀ e, standalone bound ts = .ok e ↔ Derives .expr ts (.expr e) [] := by
    intro bound hbound e
    refine ⟨fun h => derives_iff_standalone.2 ⟨bound, h⟩, fun h => ?_⟩
    obtain ⟨n, hn⟩ := derives_iff_standalone.1 h
    have hnot : ¬ TooDeep (standalone n ts) := by simp [hn]
    rw [standalone_eq_of_not_tooDeep hbound hnot, hn]
  have hroom : ∀ bound, 2 * ts.length + 1 ≤ bound → ¬ TooDeep (standalone bound ts) :=
    fun bound hb hdeep => (@standalone_steady bound bound ts le_rfl).elim (fun h => h.2 hdeep)
      fun h => h.2 hb
  refine ⟨hdecides, fun e e' h h' => ?_, hroom⟩
  have hbound := hroom _ le_rfl
  have he := (hdecides _ hbound e).2 h
  have he' := (hdecides _ hbound e').2 h'
  exact Except.ok.inj (he.symm.trans he')

/-- The smallest integer is one literal, and five levels are enough for its two tokens. -/
theorem standalone_least : standalone 5 [.symbol .minus, .int 0x8000000000000000] =
    .ok (.literal (.long (-0x8000000000000000))) := by
  have hunary : Reads .unary 1 [.symbol .minus, .int 0x8000000000000000]
      (.expr (.literal (.long (-0x8000000000000000)))) [] :=
    .unary_long le_rfl (.steps_stop ⟨by simp, by simp⟩)
  have hexpr := hunary.expr_of_unary (by simp) (by simp [EndsAt])
  obtain ⟨hdecides, -, hroom⟩ := standalone_iff_derives [.symbol .minus, .int 0x8000000000000000]
  exact (hdecides 5 (hroom 5 (by simp)) _).2 (derives_expr_iff.2 ⟨2, hexpr⟩)

end Parse

/-- The text of an expression is read through its tokens alone. -/
theorem Expr.parse_eq (text : String) :
    Expr.parse text = Parse.run (Parse.standalone defaultNestingBound) text := rfl

end AccessPolicy
