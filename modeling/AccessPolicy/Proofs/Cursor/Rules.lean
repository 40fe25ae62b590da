import AccessPolicy.Proofs.Cursor.Machine
import AccessPolicy.Proofs.Parse.Takes

/-! # Procedures that do what readers do

A procedure started before some tokens does what a reader of these tokens does: it stops with the
same value before the tokens that the reader leaves, or with the failure of the reader at its place.
So it returns and does not panic. On the way the cursor never goes back, stays within the tokens and
takes no level above the bound. -/

namespace AccessPolicy.Cursor

open Parse (Step Failure)

variable {α β γ δ : Type} {input : Input} {s : State} {ts : List Kind} {d m n : Nat}

/-! ## Where a machine stands -/

/-- No place of the cursor lies behind the last token or before an earlier place, and when it had
gone on from a place, the level there was within the bound. -/
structure State.Orderly (input : Input) (s : State) : Prop where
  index_lt : ∀ c ∈ s.trail, c.index < input.tokens.length
  forward : s.trail.Pairwise fun new old => old.index ≤ new.index
  depth_le : ∀ c ∈ s.past, c.depth ≤ input.bound

/-- The cursor stands before the last tokens of the text, at a level within the bound. -/
structure State.Before (input : Input) (d : Nat) (ts : List Kind) (s : State) : Prop where
  orderly : s.Orderly input
  depth_eq : s.cursor.depth = d
  le_bound : d ≤ input.bound
  rest : ∃ us, input.source.kinds = us ++ ts ∧ s.cursor.index = us.length

theorem Input.length_tokens (input : Input) :
    input.tokens.length = input.source.kinds.length + 1 := by
  simp [Input.tokens, Tokens.kinds]

namespace State

/-- The state behind a step of the cursor. -/
def goTo (s : State) (c : Cursor) : State := ⟨c, s.trail⟩

/-- The state before the next token. -/
def next (s : State) : State := s.goTo { s.cursor with index := s.cursor.index + 1 }

/-- The state at another level. -/
def withLevel (s : State) (depth : Nat) : State := s.goTo { s.cursor with depth }

theorem Orderly.goTo (h : s.Orderly input) (hs : s.cursor.depth ≤ input.bound) {c : Cursor}
    (hlt : c.index < input.tokens.length) (hle : s.cursor.index ≤ c.index) :
    (s.goTo c).Orderly input where
  index_lt := List.forall_mem_cons.2 ⟨hlt, h.index_lt⟩
  forward := by
    refine List.pairwise_cons.2 ⟨fun old hold => ?_, h.forward⟩
    obtain rfl | hold := List.mem_cons.1 hold
    · exact hle
    · exact Nat.le_trans ((List.pairwise_cons.1 h.forward).1 old hold) hle
  depth_le := List.forall_mem_cons.2 ⟨hs, h.depth_le⟩

theorem Orderly.withLevel (h : s.Orderly input) (hs : s.cursor.depth ≤ input.bound)
    (depth : Nat) : (s.withLevel depth).Orderly input :=
  h.goTo hs (h.index_lt s.cursor List.mem_cons_self) (Nat.le_refl _)

theorem Before.withLevel (h : s.Before input d ts) {depth : Nat} (hdepth : depth ≤ input.bound) :
    (s.withLevel depth).Before input depth ts where
  orderly := h.orderly.withLevel (h.depth_eq ▸ h.le_bound) depth
  depth_eq := rfl
  le_bound := hdepth
  rest := h.rest

theorem Before.next {k : Kind} (h : s.Before input d (k :: ts)) : s.next.Before input d ts := by
  obtain ⟨us, hus, hindex⟩ := h.rest
  refine ⟨h.orderly.goTo (h.depth_eq ▸ h.le_bound) ?_ (Nat.le_succ _), h.depth_eq, h.le_bound,
    us ++ [k], ?_, ?_⟩
  · rw [input.length_tokens, hus, List.length_append, List.length_cons, hindex]
    dsimp only
    omega
  · rw [hus, List.append_assoc, List.singleton_append]
  · rw [List.length_append, List.length_singleton, ← hindex]
    rfl

/-- The token that a reader would look at, with the place of a failure there. -/
theorem Before.getElem? (h : s.Before input d ts) :
    input.tokens[s.cursor.index]? = some (ts.head?, input.source.positionAt ts.length) := by
  obtain ⟨us, hus, hindex⟩ := h.rest
  obtain ⟨front, back, hlist, hfront, rfl⟩ := List.map_eq_append_iff.1 hus
  have hlen : front.length = us.length := by rw [← hfront, List.length_map]
  have hback : input.source.list.drop (input.source.list.length - back.length) = back := by
    rw [hlist, List.length_append, Nat.add_sub_cancel, List.drop_left]
  rw [hindex, ← hlen, Input.tokens, hlist, List.length_map, Tokens.positionAt, hback,
    List.map_append, List.append_assoc, List.getElem?_append_right (by simp), List.length_map,
    Nat.sub_self]
  cases back <;> rfl

end State

/-! ## What a run does -/

/-- What a procedure does from a state: nothing, if it goes on forever. -/
def exec (p : Run α) (s : State) : Option (Except Stop α × State) := p.run.run s

theorem exec_bind_ok {p : Run α} {f : α → Run β} {a : α} {s' : State}
    (h : exec p s = some (.ok a, s')) : exec (p >>= f) s = exec (f a) s' := by
  have h : p s = some (.ok a, s') := h
  change (p s >>= _) = _
  rw [h]
  rfl

theorem exec_bind_error {p : Run α} {f : α → Run β} {e : Stop} {s' : State}
    (h : exec p s = some (.error e, s')) : exec (p >>= f) s = some (.error e, s') := by
  have h : p s = some (.error e, s') := h
  change (p s >>= _) = _
  rw [h]
  rfl

theorem exec_level : exec level s = some (.ok s.cursor.depth, s) := rfl

theorem exec_setLevel (depth : Nat) :
    exec (setLevel depth) s = some (.ok (), s.withLevel depth) := rfl

theorem exec_peek_of_getElem? {t : Option Kind × Position}
    (h : input.tokens[s.cursor.index]? = some t) : exec (peek input) s = some (.ok t, s) := by
  change exec (tokenAt input s.cursor.index) s = _
  rw [tokenAt, h]
  rfl

theorem exec_peek (h : s.Before input d ts) :
    exec (peek input) s = some (.ok (ts.head?, input.source.positionAt ts.length), s) :=
  exec_peek_of_getElem? h.getElem?

theorem exec_isAt (h : s.Before input d ts) (k : Kind) :
    exec (isAt input k) s = some (.ok (ts.head? == some k), s) := exec_bind_ok (exec_peek h)

theorem exec_ite_pos {k : Kind} {yes no : Run α} (h : s.Before input d (k :: ts)) :
    exec (isAt input k >>= fun b => if b = true then yes else no) s = exec yes s := by
  rw [exec_bind_ok (exec_isAt h k), List.head?_cons, beq_self_eq_true, if_pos rfl]

theorem exec_ite_neg {k : Kind} {yes no : Run α} (h : s.Before input d ts)
    (hk : ts.head? ≠ some k) :
    exec (isAt input k >>= fun b => if b = true then yes else no) s = exec no s := by
  rw [exec_bind_ok (exec_isAt h k), beq_false_of_ne hk, if_neg Bool.false_ne_true]

theorem exec_advance {k : Kind} (h : s.Before input d (k :: ts)) :
    exec (advance input) s = some (.ok (), s.next) := by
  have hlt := h.next.orderly.index_lt _ List.mem_cons_self
  change exec (if s.cursor.index + 1 < input.tokens.length then _ else _) s = _
  rw [if_pos (show s.cursor.index + 1 < input.tokens.length from hlt)]
  rfl

/-! ## What a run has to do with a reading -/

/-- The error of a text whose reading fails. -/
def Input.errorOf (input : Input) (f : Failure) : ParseError :=
  ⟨input.source.positionAt f.remaining, f.fault⟩

/-- A run has returned: a value where the reading gives one, which stands to it as stated, and an
error where the reading fails, with the place of the failure. -/
def Ends (input : Input) (x : Except Failure β) (post : β → α → State → Prop) :
    Option (Except Stop α × State) → Prop
  | some (.ok a, s) => ∃ b, x = .ok b ∧ post b a s
  | some (.error (.failed e), s) => ∃ f, x = .error f ∧ e = input.errorOf f ∧ s.Orderly input
  | _ => False

/-- The value of the reading, before the tokens that it leaves, at a given level. -/
def Took (input : Input) (d : Nat) (t : Taken Kind α n) (a : α) (s : State) : Prop :=
  a = t.value ∧ s.Before input d t.rest

/-- The same at any level within the bound. -/
def TookUp (input : Input) (t : Taken Kind α n) (a : α) (s : State) : Prop :=
  ∃ d, Took input d t a s

namespace Ends

variable {x : Except Failure β} {post : β → α → State → Prop}

theorem pure {b : β} {a : α} (h : post b a s) :
    Ends input (.ok b) post (exec (pure a) s) := ⟨b, rfl, h⟩

theorem mono {post' : β → α → State → Prop} {r : Option (Except Stop α × State)}
    (h : Ends input x post r) (hpost : ∀ b a s, post b a s → post' b a s) :
    Ends input x post' r := by
  match r, h with
  | some (.ok a, s), ⟨b, hb, h⟩ => exact ⟨b, hb, hpost b a s h⟩
  | some (.error (.failed e), s), h => exact h

/-- A reading and then another one, and the procedures in the same order. -/
theorem bind {f : β → Except Failure δ} {p : Run α} {g : α → Run γ}
    {post' : δ → γ → State → Prop} (h : Ends input x post (exec p s))
    (hf : ∀ b a s', x = .ok b → post b a s' → Ends input (f b) post' (exec (g a) s')) :
    Ends input (x >>= f) post' (exec (p >>= g) s) := by
  match hr : exec p s, h with
  | some (.ok a, s'), ⟨b, hb, h⟩ =>
    rw [exec_bind_ok hr, hb]
    exact hf b a s' hb h
  | some (.error (.failed e), s'), ⟨f', hf', he, horderly⟩ =>
    rw [exec_bind_error hr, hf']
    exact ⟨f', rfl, he, horderly⟩

/-- A procedure that goes on behind the reading without reading more. -/
theorem bindPure {p : Run α} {g : α → Run γ} {post' : β → γ → State → Prop}
    (h : Ends input x post (exec p s))
    (hg : ∀ b a s', post b a s' → Ends input (.ok b) post' (exec (g a) s')) :
    Ends input x post' (exec (p >>= g) s) := by
  have hbind : Ends input (x >>= .ok) post' (exec (p >>= g) s) :=
    h.bind fun b a s' _ hs' => hg b a s' hs'
  cases x <;> exact hbind

/-- A last reading whose result is only packed. -/
theorem pack {f : β → δ} {post' : δ → α → State → Prop} {r : Option (Except Stop α × State)}
    (h : Ends input x post r) (hpost : ∀ b a s, post b a s → post' (f b) a s) :
    Ends input (x >>= fun b => .ok (f b)) post' r := by
  match r, h with
  | some (.ok a, s), ⟨b, hb, h⟩ => exact ⟨f b, by rw [hb]; rfl, hpost b a s h⟩
  | some (.error (.failed e), s), ⟨f', hf', h⟩ => exact ⟨f', by rw [hf']; rfl, h⟩

theorem failHere (h : s.Before input d ts) (fault : ParseFault) :
    Ends input (Parse.fail ts fault : Except Failure β) post (exec (failHere input fault) s) := by
  rw [Cursor.failHere, exec_bind_ok (exec_peek h)]
  exact ⟨_, rfl, rfl, h.orderly⟩

theorem expected (h : s.Before input d ts) (what : Expectation) :
    Ends input (Parse.expected what ts : Except Failure β) post
      (exec (expected input what) s) := by
  rw [Cursor.expected, exec_bind_ok (exec_peek h)]
  exact failHere h _

/-- A level more is a failure above the bound. -/
theorem descend {p : Unit → Run α} (h : s.Before input d ts)
    (hp : d < input.bound → ∀ s', s'.Before input (d + 1) ts →
      Ends input x post (exec (p ()) s')) :
    Ends input (if d < input.bound then x else Parse.fail ts (.tooDeep input.bound)) post
      (exec (Cursor.descend input >>= p) s) := by
  have hlevel : exec (Cursor.descend input) s = exec (if input.bound < d + 1 then
      Cursor.failHere input (.tooDeep input.bound) else Pure.pure ()) (s.withLevel (d + 1)) := by
    rw [← h.depth_eq]
    rfl
  by_cases hd : d < input.bound
  · rw [if_neg (Nat.not_lt.2 hd)] at hlevel
    rw [if_pos hd, exec_bind_ok hlevel]
    exact hp hd _ (h.withLevel hd)
  · rw [if_pos (Nat.lt_succ_of_le (Nat.le_of_not_lt hd)), Cursor.failHere,
      exec_bind_ok (exec_peek_of_getElem? (s := s.withLevel (d + 1)) h.getElem?)] at hlevel
    rw [if_neg hd, exec_bind_error hlevel]
    exact ⟨_, rfl, rfl, h.orderly.withLevel (h.depth_eq ▸ h.le_bound) _⟩

/-- Going up from the level of a run. -/
theorem ascend {x : Step α n} {p : Run α} (h : Ends input x (Took input (d + 1)) (exec p s))
    (hd : d ≤ input.bound) :
    Ends input x (Took input d)
      (exec (p >>= fun a => Cursor.ascend >>= fun _ => Pure.pure a) s) := by
  refine h.bindPure fun t a s' hs' => ?_
  obtain ⟨rfl, hs'⟩ := hs'
  have hup : exec Cursor.ascend s' = some (.ok (), s'.withLevel d) := by
    rw [Cursor.ascend, exec_bind_ok exec_level, hs'.depth_eq]
    rfl
  rw [exec_bind_ok hup]
  exact .pure ⟨rfl, hs'.withLevel hd⟩

/-- Setting a level back behind a run that took levels. -/
theorem restore {x : Step α n} {p : Run α} (h : Ends input x (TookUp input) (exec p s))
    (hd : d ≤ input.bound) :
    Ends input x (Took input d)
      (exec (p >>= fun a => setLevel d >>= fun _ => Pure.pure a) s) := by
  refine h.bindPure fun t a s' hs' => ?_
  obtain ⟨d', rfl, hs'⟩ := hs'
  rw [exec_bind_ok (exec_setLevel d)]
  exact .pure ⟨rfl, hs'.withLevel hd⟩

end Ends

/-! ## Single tokens -/

theorem eq_cons_or_head?_ne (k : Kind) (ts : List Kind) :
    (∃ us, ts = k :: us) ∨ ts.head? ≠ some k := by
  by_cases hk : ts.head? = some k
  · exact .inl (List.head?_eq_some_iff.1 hk)
  · exact .inr hk

theorem exec_expect {k : Kind} (h : s.Before input d (k :: ts)) (what : Expectation) :
    exec (expect input k what) s = some (.ok (), s.next) := by
  rw [expect, exec_ite_pos h, exec_advance h]

theorem expect_ends (h : s.Before input d ts) (k : Kind) (what : Expectation) :
    Ends input (Parse.expect k what ts) (Took input d) (exec (expect input k what) s) := by
  rcases eq_cons_or_head?_ne k ts with ⟨us, rfl⟩ | hk
  · rw [exec_expect h, Parse.expect, Parse.accept?_cons_self]
    exact ⟨_, rfl, rfl, h.next⟩
  · rw [expect, exec_ite_neg h hk, Parse.expect, Parse.accept?_eq_none_iff.2 hk]
    exact .expected h what

theorem exec_ident {name : String} (h : s.Before input d (.ident name :: ts))
    (what : Expectation) : exec (ident input what) s = some (.ok name, s.next) := by
  rw [ident, exec_bind_ok (exec_peek h)]
  exact exec_bind_ok (exec_advance h)

theorem ident_ends (h : s.Before input d ts) (what : Expectation) :
    Ends input (Parse.ident what ts) (Took input d) (exec (ident input what) s) := by
  match ts with
  | .ident name :: us =>
    rw [exec_ident h]
    exact ⟨_, rfl, rfl, h.next⟩
  | [] | .string _ :: _ | .int _ :: _ | .symbol _ :: _ =>
    rw [ident, exec_bind_ok (exec_peek h)]
    exact .expected h what

theorem string_ends (h : s.Before input d ts) (what : Expectation) :
    Ends input (Parse.string what ts) (Took input d) (exec (string input what) s) := by
  rw [string, exec_bind_ok (exec_peek h), Parse.string.eq_def]
  match ts with
  | .string raw :: us =>
    dsimp only [List.head?_cons]
    rw [exec_bind_ok (exec_advance h)]
    cases Text.unescape raw with
    | ok cs => exact .pure ⟨rfl, h.next⟩
    | error fault => exact ⟨_, rfl, rfl, h.next.orderly⟩
  | [] | .ident _ :: _ | .int _ :: _ | .symbol _ :: _ => exact .expected h what

theorem identOrString_ends (h : s.Before input d ts) (what : Expectation) :
    Ends input (Parse.identOrString what ts) (Took input d)
      (exec (identOrString input what) s) := by
  rw [identOrString, exec_bind_ok (exec_peek h)]
  match ts with
  | .ident name :: us => exact ident_ends h what
  | [] | .string _ :: _ | .int _ :: _ | .symbol _ :: _ => exact string_ends h what

theorem endOfInput_ends (h : s.Before input d ts) :
    Ends input (Parse.endOfInput ts) (fun _ _ s' => s' = s) (exec (endOfInput input) s) := by
  rw [endOfInput, exec_bind_ok (exec_peek h)]
  cases ts with
  | nil => exact .pure rfl
  | cons k us => exact .expected h .endOfInput

end AccessPolicy.Cursor
