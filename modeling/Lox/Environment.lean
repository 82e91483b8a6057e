import Lox.Failure
import Lox.Text.Quoted

/-!
# Scopes

`Scopes` holds all scopes ever made, numbered in the order of their making. A scope knows the scope
it was made in, its parent, whose number is smaller. There are two ways to a variable: by name,
outwards to the nearest scope that binds it (`lookup`, `assign`), and by distance, a given number of
scopes outwards (`getAt`, `assignAt`).
-/

namespace Lox

structure Scope where
  bindings : Bindings Value
  parent : Option ScopeId

structure Scopes where
  all : Array Scope

namespace Scopes

def empty : Scopes := ⟨#[]⟩

def next (s : Scopes) : ScopeId := s.all.size

/-- Makes a scope with bindings in it; its number is `s.next`. -/
def add (s : Scopes) (parent : Option ScopeId) (bindings : Bindings Value) : Scopes :=
  ⟨s.all.push ⟨bindings, parent⟩⟩

def parent? (s : Scopes) (i : ScopeId) : Option ScopeId := s.all[i]?.bind Scope.parent

/-- What the scope itself binds a name to. -/
def local? (s : Scopes) (i : ScopeId) (name : String) : Option Value :=
  s.all[i]?.bind fun scope => scope.bindings.get? name

/-- Binds a name in the scope itself. -/
def define (s : Scopes) (i : ScopeId) (name : String) (v : Value) : Scopes :=
  ⟨s.all.modify i fun scope => { scope with bindings := scope.bindings.set name v }⟩

/-- The scope a number of steps outwards. -/
def ancestor? (s : Scopes) (i : ScopeId) : Nat → Option ScopeId
  | 0 => some i
  | d + 1 => (s.parent? i).bind fun p => s.ancestor? p d

/-- A scope and those around it, from the inside out; at most `n` of them. -/
def outward (s : Scopes) : Nat → ScopeId → List ScopeId
  | 0, _ => []
  | n + 1, i => i :: (s.parent? i).elim [] (s.outward n)

/-- A scope and all those around it. Their numbers go down, so there are no more than `i + 1`. -/
def path (s : Scopes) (i : ScopeId) : List ScopeId := s.outward (i + 1) i

def depth (s : Scopes) (i : ScopeId) : Nat := (s.path i).length - 1

/-- The nearest scope that binds a name. -/
def binder? (s : Scopes) (i : ScopeId) (name : String) : Option ScopeId :=
  (s.path i).find? fun j => (s.local? j name).isSome

def undefined (name : Token) : RuntimeError := ⟨name, .undefinedVariable name.lexeme⟩

/-- The value of a variable, by name. -/
def lookup (s : Scopes) (i : ScopeId) (name : Token) : Except RuntimeError Value :=
  match (s.path i).findSome? fun j => s.local? j name.lexeme with
  | some v => .ok v
  | none => .error (undefined name)

def binder (s : Scopes) (i : ScopeId) (name : Token) : Except RuntimeError ScopeId :=
  match s.binder? i name.lexeme with
  | some j => .ok j
  | none => .error (undefined name)

/-- Changes a variable, by name. -/
def assign (s : Scopes) (i : ScopeId) (name : Token) (v : Value) : Except RuntimeError Scopes := do
  let j ← s.binder i name
  pure (s.define j name.lexeme v)

/-- A host counts steps with a sign; it goes nowhere for a negative number. -/
def steps (distance : Int) : Nat := distance.toNat

def ancestor (s : Scopes) (i : ScopeId) (distance : Nat) : Except Fault ScopeId :=
  match s.ancestor? i distance with
  | some j => .ok j
  | none => .error (.scopeDistance distance)

/-- The value of a variable, by distance. -/
def getAt (s : Scopes) (i : ScopeId) (distance : Nat) (name : String) : Except Fault Value := do
  let j ← s.ancestor i distance
  match s.local? j name with
  | some v => pure v
  | none => throw (.unboundName name)

/-- Binds a variable by distance, whether or not it was bound there. -/
def assignAt (s : Scopes) (i : ScopeId) (distance : Nat) (name : String) (v : Value) :
    Except Fault Scopes := do
  let j ← s.ancestor i distance
  pure (s.define j name v)

/-- The names that a scope itself binds, in order. -/
def names (s : Scopes) (i : ScopeId) : List String :=
  (s.all[i]?.elim Bindings.empty Scope.bindings).sorted.map (·.1)

def description (s : Scopes) (i : ScopeId) : String :=
  "<Environment depth=" ++ toString (s.depth i) ++ " names=" ++ Text.quotedList (s.names i) ++ ">"

end Scopes
end Lox
