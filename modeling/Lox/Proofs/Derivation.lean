import Lox.Grammar.Stmt

/-!
# Derivations

The grammar with the tree of each phrase: `Assignment ts e`, `Statement b ts s` and so on say that
the tokens `ts` are derived with the given tree. Names, operators and parentheses of the tree are
the tokens at their places. Infix operators associate to the left and prefix operators and
assignments to the right. The index `b` of `Statement` tells whether the statement ends in an `if`
without `else`. Such a statement cannot be the first branch of an `if` with `else`: an `else`
belongs to the nearest `if`.
-/

namespace Lox.Derives

mutual

/-- `assignment → ( call "." )? IDENT "=" assignment | logic_or` -/
inductive Assignment : List Token → Expr → Prop where
  | value {ts : List Token} {e : Expr} : Operand (some .disjunction) ts e → Assignment ts e
  | variable {name equal : Token} {ts : List Token} {e : Expr} : name.kind = .identifier →
      equal.kind = .equal → Assignment ts e → Assignment (name :: equal :: ts) (.assign name e)
  | property {dot name equal : Token} {os ts : List Token} {o e : Expr} : Call os o →
      dot.kind = .dot → name.kind = .identifier → equal.kind = .equal → Assignment ts e →
      Assignment (os ++ dot :: name :: equal :: ts) (.set o name e)

/-- The levels of infix operators, and `unary → ( "!" | "-" ) unary | call` below them. -/
inductive Operand : Option Level → List Token → Expr → Prop where
  | tighter {l : Level} {ts : List Token} {e : Expr} : Operand l.tighter ts e →
      Operand (some l) ts e
  | binary {l : Level} {op : Token} {ls rs : List Token} {e f : Expr} : Operand (some l) ls e →
      l.has op.kind → Operand l.tighter rs f → Operand (some l) (ls ++ op :: rs) (l.join e op f)
  | unary {op : Token} {ts : List Token} {e : Expr} : op.kind.isPrefixOperator →
      Operand none ts e → Operand none (op :: ts) (.unary op e)
  | call {ts : List Token} {e : Expr} : Call ts e → Operand none ts e

/-- `call → primary ( "(" arguments? ")" | "." IDENT )*` -/
inductive Call : List Token → Expr → Prop where
  | primary {ts : List Token} {e : Expr} : Primary ts e → Call ts e
  | apply {left right : Token} {ts as : List Token} {e : Expr} {es : List Expr} : Call ts e →
      left.kind = .leftParen → Arguments as es → es.length ≤ maxArguments →
      right.kind = .rightParen → Call (ts ++ left :: (as ++ [right])) (.call e right es)
  | get {dot name : Token} {ts : List Token} {e : Expr} : Call ts e → dot.kind = .dot →
      name.kind = .identifier → Call (ts ++ [dot, name]) (.get e name)

/-- Any number of expressions with commas between them. -/
inductive Arguments : List Token → List Expr → Prop where
  | none : Arguments [] []
  | one {ts : List Token} {e : Expr} : Assignment ts e → Arguments ts [e]
  | more {comma : Token} {ts us : List Token} {e f : Expr} {es : List Expr} : Assignment ts e →
      comma.kind = .comma → Arguments us (f :: es) → Arguments (ts ++ comma :: us) (e :: f :: es)

inductive Primary : List Token → Expr → Prop where
  | false {t : Token} : t.kind = .falseKw → Primary [t] (.literal (.bool false))
  | true {t : Token} : t.kind = .trueKw → Primary [t] (.literal (.bool true))
  | nil {t : Token} : t.kind = .nilKw → Primary [t] (.literal .nil)
  | constant {t : Token} : t.kind = .number ∨ t.kind = .string → Primary [t] (.literal t.constant)
  | this {t : Token} : t.kind = .thisKw → Primary [t] (.this t)
  | variable {t : Token} : t.kind = .identifier → Primary [t] (.var t)
  | group {left right : Token} {ts : List Token} {e : Expr} : left.kind = .leftParen →
      Assignment ts e → right.kind = .rightParen → Primary (left :: (ts ++ [right])) (.grouping e)
  | super {keyword dot method : Token} : keyword.kind = .superKw → dot.kind = .dot →
      method.kind = .identifier → Primary [keyword, dot, method] (.super keyword method)

end

/-- `expression?` -/
inductive OptionalExpression : List Token → Option Expr → Prop where
  | none : OptionalExpression [] none
  | some {ts : List Token} {e : Expr} : Assignment ts e → OptionalExpression ts (some e)

/-- Any number of names with commas between them. -/
inductive Parameters : List Token → List Token → Prop where
  | none : Parameters [] []
  | one {name : Token} : name.kind = .identifier → Parameters [name] [name]
  | more {name comma n : Token} {ts ns : List Token} : name.kind = .identifier →
      comma.kind = .comma → Parameters ts (n :: ns) →
        Parameters (name :: comma :: ts) (name :: n :: ns)

/-- `varDecl → "var" IDENT ( "=" expression )? ";"` -/
inductive Variable : List Token → Stmt → Prop where
  | plain {keyword name stop : Token} : keyword.kind = .varKw → name.kind = .identifier →
      stop.kind = .semicolon → Variable [keyword, name, stop] (.varDecl name none)
  | initialized {keyword name equal stop : Token} {ts : List Token} {e : Expr} :
      keyword.kind = .varKw → name.kind = .identifier → equal.kind = .equal → Assignment ts e →
      stop.kind = .semicolon →
      Variable (keyword :: name :: equal :: (ts ++ [stop])) (.varDecl name (some e))

/-- `exprStmt → expression ";"` -/
inductive Effect : List Token → Stmt → Prop where
  | mk {stop : Token} {ts : List Token} {e : Expr} : Assignment ts e → stop.kind = .semicolon →
      Effect (ts ++ [stop]) (.expr e)

/-- The first clause of a `for` loop: `varDecl | exprStmt | ";"` -/
inductive Initializer : List Token → Option Stmt → Prop where
  | none {stop : Token} : stop.kind = .semicolon → Initializer [stop] none
  | variable {ts : List Token} {s : Stmt} : Variable ts s → Initializer ts (some s)
  | effect {ts : List Token} {s : Stmt} : Effect ts s → Initializer ts (some s)

/-- The superclass of a class: `( "<" IDENT )?` -/
inductive Superclass : List Token → Option Token → Prop where
  | none : Superclass [] none
  | some {less name : Token} : less.kind = .less → name.kind = .identifier →
      Superclass [less, name] (some name)

mutual

/-- `declaration → classDecl | funDecl | varDecl | statement` -/
inductive Declaration : List Token → Stmt → Prop where
  | cls {keyword name left right : Token} {ss ms : List Token} {parent : Option Token}
      {methods : List FunDecl} : keyword.kind = .classKw → name.kind = .identifier →
      Superclass ss parent → left.kind = .leftBrace → Methods ms methods →
        right.kind = .rightBrace →
      Declaration (keyword :: name :: (ss ++ left :: (ms ++ [right])))
        (.classDecl name parent methods)
  | function {keyword : Token} {ts : List Token} {f : FunDecl} : keyword.kind = .funKw →
      Function ts f → Declaration (keyword :: ts) (.funDecl f)
  | variable {ts : List Token} {s : Stmt} : Variable ts s → Declaration ts s
  | statement {b : Bool} {ts : List Token} {s : Stmt} : Statement b ts s → Declaration ts s

/-- `function → IDENT "(" parameters? ")" block` -/
inductive Function : List Token → FunDecl → Prop where
  | mk {name left right : Token} {ps ts params : List Token} {body : List Stmt} :
      name.kind = .identifier → left.kind = .leftParen → Parameters ps params →
      params.length ≤ maxArguments → right.kind = .rightParen → Block ts body →
      Function (name :: left :: (ps ++ right :: ts)) ⟨name, params, body⟩

inductive Methods : List Token → List FunDecl → Prop where
  | nil : Methods [] []
  | cons {ts us : List Token} {f : FunDecl} {fs : List FunDecl} : Function ts f → Methods us fs →
      Methods (ts ++ us) (f :: fs)

/-- `block → "{" declaration* "}"` -/
inductive Block : List Token → List Stmt → Prop where
  | mk {left right : Token} {ts : List Token} {body : List Stmt} : left.kind = .leftBrace →
      Declarations ts body → right.kind = .rightBrace → Block (left :: (ts ++ [right])) body

inductive Declarations : List Token → List Stmt → Prop where
  | nil : Declarations [] []
  | cons {ts us : List Token} {s : Stmt} {ss : List Stmt} : Declaration ts s → Declarations us ss →
      Declarations (ts ++ us) (s :: ss)

inductive Statement : Bool → List Token → Stmt → Prop where
  | effect {ts : List Token} {s : Stmt} : Effect ts s → Statement false ts s
  | print {keyword stop : Token} {ts : List Token} {e : Expr} : keyword.kind = .printKw →
      Assignment ts e → stop.kind = .semicolon →
      Statement false (keyword :: (ts ++ [stop])) (.print e)
  | ret {keyword stop : Token} {ts : List Token} {e : Option Expr} : keyword.kind = .returnKw →
      OptionalExpression ts e → stop.kind = .semicolon →
      Statement false (keyword :: (ts ++ [stop])) (.ret keyword e)
  | block {ts : List Token} {body : List Stmt} : Block ts body → Statement false ts (.block body)
  | whileDo {b : Bool} {keyword left right : Token} {cs ts : List Token} {c : Expr} {s : Stmt} :
      keyword.kind = .whileKw → left.kind = .leftParen → Assignment cs c →
        right.kind = .rightParen →
      Statement b ts s → Statement b (keyword :: left :: (cs ++ right :: ts)) (.whileDo c s)
  | forDo {b : Bool} {keyword left stop right : Token} {is cs ns ts : List Token}
      {i : Option Stmt} {c n : Option Expr} {s : Stmt} : keyword.kind = .forKw →
      left.kind = .leftParen → Initializer is i → OptionalExpression cs c → stop.kind = .semicolon →
      OptionalExpression ns n → right.kind = .rightParen → Statement b ts s →
      Statement b (keyword :: left :: (is ++ (cs ++ stop :: (ns ++ right :: ts))))
        (.forLoop i c n s)
  | ifThen {b : Bool} {keyword left right : Token} {cs ts : List Token} {c : Expr} {s : Stmt} :
      keyword.kind = .ifKw → left.kind = .leftParen → Assignment cs c → right.kind = .rightParen →
      Statement b ts s → Statement true (keyword :: left :: (cs ++ right :: ts)) (.ifElse c s none)
  | ifElse {b : Bool} {keyword left right other : Token} {cs ts us : List Token} {c : Expr}
      {s t : Stmt} : keyword.kind = .ifKw → left.kind = .leftParen → Assignment cs c →
      right.kind = .rightParen → Statement false ts s → other.kind = .elseKw → Statement b us t →
      Statement b (keyword :: left :: (cs ++ right :: (ts ++ other :: us))) (.ifElse c s (some t))

end

/-- An expression without infix operators. -/
theorem Assignment.operand {ts : List Token} {e : Expr} (h : Operand none ts e) : Assignment ts e :=
  .value (.tighter (.tighter (.tighter (.tighter (.tighter (.tighter h))))))

end Lox.Derives
