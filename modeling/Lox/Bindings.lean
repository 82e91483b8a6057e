/-!
# Bindings

A finite map from names, kept as a list of pairs in which no name is repeated by `set`. `get?_set`
is the law of the map; `sorted` lists it by name.
-/

namespace Lox

structure Bindings (α : Type) where
  entries : List (String × α)

namespace Bindings

variable {α : Type}

def empty : Bindings α := ⟨[]⟩

def valueIn? (name : String) : List (String × α) → Option α
  | [] => none
  | (n, v) :: rest => if n = name then some v else valueIn? name rest

def get? (b : Bindings α) (name : String) : Option α := valueIn? name b.entries

/-- Replaces the binding of a name in its place, or puts a new one at the end. -/
def setIn (name : String) (v : α) : List (String × α) → List (String × α)
  | [] => [(name, v)]
  | (n, w) :: rest => if n = name then (n, v) :: rest else (n, w) :: setIn name v rest

def set (b : Bindings α) (name : String) (v : α) : Bindings α := ⟨setIn name v b.entries⟩

def names (b : Bindings α) : List String := b.entries.map (·.1)

/-- Binds each name to the value at its place, as far as both lists go. A later binding of the same
name wins. -/
def setAll (b : Bindings α) (names : List String) (vs : List α) : Bindings α :=
  (names.zip vs).foldl (fun b (n, v) => b.set n v) b

def sorted (b : Bindings α) : List (String × α) := b.entries.mergeSort fun p q => !(q.1 < p.1)

@[simp] theorem get?_empty (name : String) : (empty : Bindings α).get? name = none := rfl

theorem valueIn?_setIn (x y : String) (v : α) (l : List (String × α)) :
    valueIn? y (setIn x v l) = if y = x then some v else valueIn? y l := by
  induction l with
  | nil => simp [setIn, valueIn?, eq_comm]
  | cons p l ih => grind [setIn, valueIn?]

@[simp] theorem get?_set (b : Bindings α) (x y : String) (v : α) :
    (b.set x v).get? y = if y = x then some v else b.get? y := valueIn?_setIn x y v b.entries

theorem isSome_get? (b : Bindings α) (x : String) : (b.get? x).isSome ↔ x ∈ b.names := by
  unfold get? names
  induction b.entries with
  | nil => simp [valueIn?]
  | cons p l ih => grind [valueIn?]

end Bindings
end Lox
