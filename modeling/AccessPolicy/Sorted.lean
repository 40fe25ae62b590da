/-! Lists in increasing order without repetition. `Sorted` keeps plain elements and stands for a
finite set; `Fields` keeps named entries and stands for a finite map, where a later entry
replaces an earlier one of the same name. `Sorted.sort` only puts a list into order. -/

namespace AccessPolicy

namespace Sorted

/-- Puts `a` at its place; an element that compares equal is already there. -/
def insert {α : Type} (cmp : α → α → Ordering) (a : α) : List α → List α
  | [] => [a]
  | b :: l =>
    match cmp a b with
    | .lt => a :: b :: l
    | .eq => b :: l
    | .gt => b :: insert cmp a l

def ofList {α : Type} (cmp : α → α → Ordering) (l : List α) : List α :=
  l.foldr (insert cmp) []

/-- The elements in order, each as often as it is in the list. -/
def sort {α : Type} (cmp : α → α → Ordering) (l : List α) : List α :=
  l.mergeSort fun a b => (cmp a b).isLE

end Sorted

namespace Fields

variable {α : Type}

/-- Binds `k` to `v`, in place of what it was bound to before. -/
def insert (k : String) (v : α) : List (String × α) → List (String × α)
  | [] => [(k, v)]
  | (j, w) :: l =>
    match compare k j with
    | .lt => (k, v) :: (j, w) :: l
    | .eq => (k, v) :: l
    | .gt => (j, w) :: insert k v l

def ofList (l : List (String × α)) : List (String × α) :=
  l.foldl (fun fs e => insert e.1 e.2 fs) []

def find? (l : List (String × α)) (k : String) : Option α := l.lookup k

end Fields

end AccessPolicy
