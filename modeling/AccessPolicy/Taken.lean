/-! What a reading step hands back: a value and the tokens left behind it, fewer than a stated
bound. Recursion over what is left ends because of that bound. The operations change the value or
count what is left from a place farther back. -/

namespace AccessPolicy

structure Taken (τ α : Type) (n : Nat) where
  value : α
  rest : List τ
  lt : rest.length < n

namespace Taken

variable {τ α β : Type} {m n : Nat}

/-- Takes the first token. -/
def one {t : τ} {ts : List τ} (a : α) : Taken τ α (t :: ts).length := ⟨a, ts, Nat.lt_succ_self _⟩

/-- Takes nothing. -/
def nothing {ts : List τ} (a : α) : Taken τ α (ts.length + 1) := ⟨a, ts, Nat.lt_succ_self _⟩

/-- Takes one given token, if it comes next. -/
def accept? [DecidableEq τ] (t : τ) : (ts : List τ) → Option (Taken τ Unit ts.length)
  | [] => none
  | u :: _ => if u = t then some (.one ()) else none

def map (f : α → β) (x : Taken τ α n) : Taken τ β n := ⟨f x.value, x.rest, x.lt⟩

/-- Counts one token more, as behind a token that was taken before. -/
def wider (x : Taken τ α n) : Taken τ α (n + 1) := ⟨x.value, x.rest, Nat.lt_succ_of_lt x.lt⟩

/-- Counts from the start of a step that left `m` tokens. -/
def after (h : m < n) (x : Taken τ α m) : Taken τ α n := ⟨x.value, x.rest, Nat.lt_trans x.lt h⟩

/-- The same for what may be nothing of the tokens that were left. -/
def optionalAfter (h : m < n) (x : Taken τ α (m + 1)) : Taken τ α n :=
  ⟨x.value, x.rest, Nat.lt_of_lt_of_le x.lt h⟩

/-- The same for a step that may have left all tokens. -/
def afterOptional (h : m < n + 1) (x : Taken τ α m) : Taken τ α n :=
  ⟨x.value, x.rest, Nat.lt_of_lt_of_le x.lt (Nat.le_of_lt_succ h)⟩

/-- The same behind the first of the tokens that were left. -/
def afterToken (h : m + 1 < n) (x : Taken τ α m) : Taken τ α n := x.wider.after h

@[simp] theorem value_map (f : α → β) (x : Taken τ α n) : (x.map f).value = f x.value := rfl

@[simp] theorem rest_map (f : α → β) (x : Taken τ α n) : (x.map f).rest = x.rest := rfl

@[simp] theorem value_wider (x : Taken τ α n) : x.wider.value = x.value := rfl

@[simp] theorem rest_wider (x : Taken τ α n) : x.wider.rest = x.rest := rfl

@[simp] theorem value_after (h : m < n) (x : Taken τ α m) : (x.after h).value = x.value := rfl

@[simp] theorem rest_after (h : m < n) (x : Taken τ α m) : (x.after h).rest = x.rest := rfl

@[simp] theorem value_optionalAfter (h : m < n) (x : Taken τ α (m + 1)) :
    (x.optionalAfter h).value = x.value := rfl

@[simp] theorem rest_optionalAfter (h : m < n) (x : Taken τ α (m + 1)) :
    (x.optionalAfter h).rest = x.rest := rfl

@[simp] theorem value_afterOptional (h : m < n + 1) (x : Taken τ α m) :
    (x.afterOptional h).value = x.value := rfl

@[simp] theorem rest_afterOptional (h : m < n + 1) (x : Taken τ α m) :
    (x.afterOptional h).rest = x.rest := rfl

@[simp] theorem value_afterToken (h : m + 1 < n) (x : Taken τ α m) :
    (x.afterToken h).value = x.value := rfl

@[simp] theorem rest_afterToken (h : m + 1 < n) (x : Taken τ α m) :
    (x.afterToken h).rest = x.rest := rfl

theorem accept?_eq_some_iff [DecidableEq τ] {t : τ} {ts : List τ} {x : Taken τ Unit ts.length} :
    accept? t ts = some x ↔ ts = t :: x.rest := by
  obtain ⟨⟨⟩, rest, h⟩ := x
  cases ts with
  | nil => simp [accept?]
  | cons u us =>
    by_cases hu : u = t
    · simp [accept?, hu, one]
    · simp [accept?, hu]

end Taken

end AccessPolicy
