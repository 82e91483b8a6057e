import Lox.Ast
import Lox.Bindings

/-!
# Values

Functions, classes, instances and natives are objects: each carries the identity it got when it was
made, and two objects are equal if their identities are. What never changes about an object is part
of the value itself. The class of an instance is, and so are the layers of a class: its own methods
followed by those of its superclasses. The fields of an instance, and the scope that a function is
closed over, are kept by the machine, and the value holds where.
-/

namespace Lox

abbrev ScopeId := Nat

/-- A function: a declaration and the scope in which it was executed. A bound method is closed over
a scope of its own that holds `this`. -/
structure Closure where
  id : Nat
  decl : FunDecl
  scope : ScopeId
  isInitializer : Bool

namespace Closure

def name (f : Closure) : String := f.decl.name.lexeme

def arity (f : Closure) : Nat := f.decl.params.length

end Closure

/-- What one execution of a class declaration contributes to a class. -/
structure ClassLayer where
  id : Nat
  name : String
  methods : Bindings Closure

/-- A class: its own layer, and those of its superclasses from the nearest outwards. -/
structure Class where
  own : ClassLayer
  inherited : List ClassLayer

namespace Class

def layers (c : Class) : List ClassLayer := c.own :: c.inherited

def name (c : Class) : String := c.own.name

def superclass? (c : Class) : Option Class :=
  match c.inherited with
  | [] => none
  | layer :: rest => some ⟨layer, rest⟩

/-- The method of a name in the first layer that has one. -/
def method? (c : Class) (name : String) : Option Closure := c.layers.findSome? (·.methods.get? name)

def initializerName : String := "init"

def initializer? (c : Class) : Option Closure := c.method? initializerName

/-- A class takes the arguments of its initializer. -/
def arity (c : Class) : Nat := c.initializer?.elim 0 Closure.arity

end Class

/-- An instance of a class; its fields are found under its identity. -/
structure Instance where
  id : Nat
  cls : Class

/-- What a native does with its arguments. -/
inductive Behaviour where
  /-- The time. -/
  | clock
  /-- The first argument, or `nil`. -/
  | first
  /-- The texts of all arguments, one after another. -/
  | join
  /-- The number of arguments. -/
  | count
  /-- A callable that does not say what it takes or does. -/
  | unimplemented
  deriving DecidableEq, Repr

structure Native where
  id : Nat
  name : String
  arity : Nat
  behaviour : Behaviour

inductive Value where
  | nil
  | bool (b : Bool)
  | number (x : Float)
  | text (s : String)
  | function (f : Closure)
  | cls (c : Class)
  | inst (i : Instance)
  | native (n : Native)

def Literal.toValue : Literal → Value
  | nil => .nil
  | bool b => .bool b
  | number x => .number x
  | text s => .text s

namespace Value

/-- Only `nil` and `false` are not true. -/
def truthy : Value → Bool
  | nil => false
  | bool b => b
  | _ => true

/-- Values of different sorts are never equal; numbers compare as numbers, so that not-a-number
differs from itself; objects compare by identity. -/
def equal : Value → Value → Bool
  | nil, nil => true
  | bool a, bool b => a == b
  | number x, number y => x == y
  | text s, text t => s == t
  | function f, function g => f.id == g.id
  | cls c, cls d => c.own.id == d.own.id
  | inst i, inst j => i.id == j.id
  | native m, native n => m.id == n.id
  | _, _ => false

def shown : Value → String
  | nil => "nil"
  | bool true => "true"
  | bool false => "false"
  | number x => Number.text x
  | text s => s
  | function f => "<fn " ++ f.name ++ ">"
  | cls c => c.name
  | inst i => i.cls.name ++ " instance"
  | native _ => "<native fn>"

/-- A closer description of an object; other values describe themselves. -/
def description : Value → String
  | function f => "<LoxFunction " ++ f.name ++ (if f.isInitializer then " (init)>" else " (func)>")
  | cls c =>
    let parent := c.superclass?.elim "" fun s => " < " ++ s.name
    "<LoxClass " ++ c.name ++ parent ++ ">"
  | inst i => "<LoxInstance of " ++ i.cls.name ++ ">"
  | native n => "<NativeFunction " ++ n.name ++ "/" ++ toString n.arity ++ ">"
  | v => v.shown

end Value
end Lox
