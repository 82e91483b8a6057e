import Lox.Eval

/-!
# Pieces of evaluation

Evaluation consists of pieces, `Task`s, that start one another. `Starts` lists for each piece the
pieces that it starts, with the machines they start on. A `Course` is a set of pieces that has, with
a piece, all that the piece starts.
-/

namespace Lox

/-! ## Parts of programs -/

/-- The expressions that an expression is made of. -/
def Expr.parts : Expr → List Expr
  | .assign _ value => [value]
  | .unary _ operand => [operand]
  | .binary left _ right => [left, right]
  | .logical left _ right => [left, right]
  | .grouping inner => [inner]
  | .call callee _ arguments => callee :: arguments
  | .get object _ => [object]
  | .set object _ value => [object, value]
  | _ => []

/-- The expressions of a statement that declares nothing. -/
def Stmt.exprs : Stmt → List Expr
  | .expr value => [value]
  | .print value => [value]
  | .ifElse condition _ _ => [condition]
  | .whileDo condition _ => [condition]
  | .ret _ (some value) => [value]
  | _ => []

/-- The statements that a statement may execute in its own scope. -/
def Stmt.branches : Stmt → List Stmt
  | .ifElse _ thenBranch elseBranch => thenBranch :: elseBranch.toList
  | .whileDo _ body => [body]
  | _ => []

/-! ## Pieces -/

inductive Task where
  | eval (e : Expr)
  /-- Arguments, from the left. -/
  | evalAll (es : List Expr)
  | call (v : Value) (args : List Value)
  | exec (s : Stmt)
  /-- Statements, one after another. -/
  | execAll (ss : List Stmt)
  /-- A loop that may repeat `n` times yet. -/
  | loop (n : Nat) (condition : Expr) (body : Stmt)

/-- To do a piece, whatever it yields. -/
def Task.run (bound depth : Nat) : Task → Exec Unit
  | eval e => discard (Lox.eval bound depth e)
  | evalAll es => discard (es.mapM (Lox.eval bound depth))
  | call v args => discard (Lox.call bound depth v args)
  | exec s => Lox.exec bound depth s
  | execAll ss => Lox.execAll bound depth ss
  | loop n condition body =>
    Exec.loop n (Value.truthy <$> Lox.eval bound depth condition) (Lox.exec bound depth body)

/-- One piece starts another: `Starts bound depth task m depth' task' m'` says that `task`, begun on
`m` with `depth` left, at some point begins `task'` on `m'` with `depth'` left. -/
inductive Starts (bound : Nat) : Nat → Task → Machine → Nat → Task → Machine → Prop where
  -- Expressions
  | first {d : Nat} {e e' : Expr} {rest : List Expr} {m : Machine} :
      e.parts = e' :: rest → Starts bound (d + 1) (.eval e) m d (.eval e') m
  | right {d : Nat} {left right : Expr} {op : Token} {v : Value} {m m₁ : Machine} :
      eval bound d left m = .ok v m₁ →
        Starts bound (d + 1) (.eval (.binary left op right)) m d (.eval right) m₁
  | otherwise {d : Nat} {left right : Expr} {op : Token} {v : Value} {m m₁ : Machine} :
      eval bound d left m = .ok v m₁ → v.truthy ≠ (op.kind == .orKw) →
      Starts bound (d + 1) (.eval (.logical left op right)) m d (.eval right) m₁
  | fieldValue {d : Nat} {object value : Expr} {name : Token} {i : Instance} {m m₁ : Machine} :
      eval bound d object m = .ok (.inst i) m₁ →
      Starts bound (d + 1) (.eval (.set object name value)) m d (.eval value) m₁
  | arguments {d : Nat} {callee : Expr} {paren : Token} {es : List Expr} {f : Value}
      {m m₁ : Machine} :
      eval bound d callee m = .ok f m₁ →
      Starts bound (d + 1) (.eval (.call callee paren es)) m d (.evalAll es) m₁
  | argument {d : Nat} {e : Expr} {es : List Expr} {m : Machine} :
      Starts bound d (.evalAll (e :: es)) m d (.eval e) m
  | nextArguments {d : Nat} {e : Expr} {es : List Expr} {v : Value} {m m₁ : Machine} :
      eval bound d e m = .ok v m₁ → Starts bound d (.evalAll (e :: es)) m d (.evalAll es) m₁
  -- Calls
  | call {d : Nat} {callee : Expr} {paren : Token} {es : List Expr} {f : Value} {args : List Value}
      {m m₁ m₂ m₃ : Machine} :
      eval bound d callee m = .ok f m₁ → es.mapM (eval bound d) m₁ = .ok args m₂ →
      Exec.checkCall paren f args.length m₂ = .ok () m₃ →
      Starts bound (d + 1) (.eval (.call callee paren es)) m d (.call f args) m₃
  | body {d : Nat} {f : Closure} {args : List Value} {scope : ScopeId} {m m₁ : Machine} :
      Exec.newScope f.scope (Bindings.empty.setAll (f.decl.params.map Token.lexeme) args) m =
        .ok scope m₁ →
      Starts bound (d + 1) (.call (.function f) args) m d (.execAll f.decl.body)
        { m₁ with current := scope }
  | initializer {d : Nat} {c : Class} {f g : Closure} {i : Instance} {args : List Value}
      {m m₁ m₂ : Machine} :
      Exec.newInstance c m = .ok i m₁ → c.initializer? = some f →
      Exec.bindMethod f (.inst i) m₁ = .ok g m₂ →
      Starts bound (d + 1) (.call (.cls c) args) m (d + 1) (.call (.function g) args) m₂
  -- Statements
  | expr {d : Nat} {value : Expr} {m : Machine} :
      Starts bound (d + 1) (.exec (.expr value)) m d (.eval value) m
  | print {d : Nat} {value : Expr} {m : Machine} :
      Starts bound (d + 1) (.exec (.print value)) m d (.eval value) m
  | ret {d : Nat} {keyword : Token} {value : Expr} {m : Machine} :
      Starts bound (d + 1) (.exec (.ret keyword (some value))) m d (.eval value) m
  | varDecl {d : Nat} {name : Token} {value : Expr} {m : Machine} :
      Starts bound (d + 1) (.exec (.varDecl name (some value))) m d (.eval value) m
  | superclass {d : Nat} {name t : Token} {methods : List FunDecl} {m m₁ : Machine} :
      Exec.define name.lexeme .nil m = .ok () m₁ →
      Starts bound (d + 1) (.exec (.classDecl name (some t) methods)) m d (.eval (.var t)) m₁
  | block {d : Nat} {body : List Stmt} {scope : ScopeId} {m m₁ : Machine} :
      Exec.newScope m.current .empty m = .ok scope m₁ →
      Starts bound (d + 1) (.exec (.block body)) m d (.execAll body) { m₁ with current := scope }
  | statement {d : Nat} {s : Stmt} {ss : List Stmt} {m : Machine} :
      Starts bound d (.execAll (s :: ss)) m d (.exec s) m
  | nextStatements {d : Nat} {s : Stmt} {ss : List Stmt} {m m₁ : Machine} :
      exec bound d s m = .ok () m₁ → Starts bound d (.execAll (s :: ss)) m d (.execAll ss) m₁
  | condition {d : Nat} {condition : Expr} {thenBranch : Stmt} {elseBranch : Option Stmt}
      {m : Machine} :
      Starts bound (d + 1) (.exec (.ifElse condition thenBranch elseBranch)) m d (.eval condition) m
  | thenBranch {d : Nat} {condition : Expr} {thenBranch : Stmt} {elseBranch : Option Stmt}
      {v : Value} {m m₁ : Machine} : eval bound d condition m = .ok v m₁ → v.truthy = true →
      Starts bound (d + 1) (.exec (.ifElse condition thenBranch elseBranch)) m d
        (.exec thenBranch) m₁
  | elseBranch {d : Nat} {condition : Expr} {thenBranch elseBranch : Stmt} {v : Value}
      {m m₁ : Machine} :
      eval bound d condition m = .ok v m₁ → v.truthy = false →
      Starts bound (d + 1) (.exec (.ifElse condition thenBranch (some elseBranch))) m d
        (.exec elseBranch) m₁
  -- Loops
  | whileDo {d : Nat} {condition : Expr} {body : Stmt} {m : Machine} :
      Starts bound (d + 1) (.exec (.whileDo condition body)) m d (.loop bound condition body) m
  | test {d n : Nat} {condition : Expr} {body : Stmt} {m : Machine} :
      Starts bound d (.loop (n + 1) condition body) m d (.eval condition) m
  | round {d n : Nat} {condition : Expr} {body : Stmt} {v : Value} {m m₁ : Machine} :
      eval bound d condition m = .ok v m₁ → v.truthy = true →
      Starts bound d (.loop (n + 1) condition body) m d (.exec body) m₁
  | nextRounds {d n : Nat} {condition : Expr} {body : Stmt} {v : Value} {m m₁ m₂ : Machine} :
      eval bound d condition m = .ok v m₁ → v.truthy = true → exec bound d body m₁ = .ok () m₂ →
      Starts bound d (.loop (n + 1) condition body) m d (.loop n condition body) m₂

/-- A set of pieces that has all that its members start. -/
structure Course (bound : Nat) where
  has : Nat → Task → Machine → Prop
  starts : ∀ {d t m d' t' m'}, has d t m → Starts bound d t m d' t' m' → has d' t' m'

def Course.all (bound : Nat) : Course bound := ⟨fun _ _ _ => True, fun _ _ => trivial⟩

end Lox
