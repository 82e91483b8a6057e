import Lox.Proofs.Sentences
import Lox.Proofs.Sites
import Lox.Proofs.Tasks

/-!
# Everywhere in a tree

`Occurs program n` says that the node `n` is somewhere in a program; of a statement a node also
tells the position it stands at. Being well formed is handed down from a node to its parts, one
lemma for each sort of part, and so to every node of a program (`Occurs.wellFormed`). What the
parser returns is therefore well formed everywhere, also where it went on behind an error
(`parse_wellFormed_everywhere`).
-/

namespace Lox

/-! ## Parts of well-formed trees -/

section

variable {P : Token → Prop}

theorem Expr.AllWellFormed.mem {es : List Expr} (h : Expr.AllWellFormed P es) {e : Expr}
    (he : e ∈ es) :
    e.WellFormed P := by
  induction es with
  | nil => cases he
  | cons e' es ih =>
    rcases List.mem_cons.1 he with rfl | he
    · exact h.1
    · exact ih h.2 he

theorem Expr.WellFormed.part {e e' : Expr} (h : e.WellFormed P) (he' : e' ∈ e.parts) :
    e'.WellFormed P := by
  cases e with
  | call callee paren arguments =>
    rcases List.mem_cons.1 he' with rfl | he'
    · exact h.1
    · exact h.2.2.mem he'
  | binary left op right => rcases List.mem_pair.1 he' with rfl | rfl; exacts [h.1, h.2.2.2]
  | logical left op right => rcases List.mem_pair.1 he' with rfl | rfl; exacts [h.1, h.2.2.2]
  | set object name value => rcases List.mem_pair.1 he' with rfl | rfl; exacts [h.1, h.2.2]
  | _ => simp_all [parts, WellFormed]

theorem Stmt.AllWellFormed.of_mem {ss : List Stmt} (h : Stmt.AllWellFormed P ss) {s : Stmt}
    (hs : s ∈ ss) :
    s.WellFormed P := by
  induction ss with
  | nil => cases hs
  | cons s' ss ih =>
    rcases List.mem_cons.1 hs with rfl | hs
    · exact h.1
    · exact ih h.2 hs

theorem Stmt.MethodsWellFormed.of_mem {fs : List FunDecl} (h : Stmt.MethodsWellFormed P fs)
    {f : FunDecl} (hf : f ∈ fs) : Stmt.FunctionWellFormed P f := by
  induction fs with
  | nil => cases hf
  | cons f' fs ih =>
    rcases List.mem_cons.1 hf with rfl | hf
    · exact h.1
    · exact ih h.2 hf

theorem Stmt.WellFormed.expr {s : Stmt} (h : s.WellFormed P) {e : Expr} (he : e ∈ s.exprs) :
    e.WellFormed P := by
  cases s with
  | expr value | print value =>
    obtain rfl := List.mem_singleton.1 he
    exact h
  | ifElse condition thenBranch elseBranch =>
    obtain rfl := List.mem_singleton.1 he
    cases elseBranch <;> exact h.1
  | whileDo condition body =>
    obtain rfl := List.mem_singleton.1 he
    exact h.1
  | ret keyword value =>
    cases value with
    | none => cases he
    | some value =>
      obtain rfl := List.mem_singleton.1 he
      exact h.2
  | _ => cases he

theorem Stmt.WellFormed.branch {s : Stmt} (h : s.WellFormed P) {b : Stmt} (hb : b ∈ s.branches) :
    b.WellFormed P ∧ ¬ b.IsDeclaration := by
  cases s with
  | ifElse condition thenBranch elseBranch =>
    cases elseBranch with
    | none =>
      obtain rfl := List.mem_singleton.1 hb
      exact h.2
    | some elseBranch =>
      rcases List.mem_pair.1 hb with rfl | rfl
      · exact h.2.1
      · exact h.2.2
  | whileDo condition body =>
    obtain rfl := List.mem_singleton.1 hb
    exact h.2
  | _ => cases hb

end

/-! ## Nodes -/

inductive Position where
  | topLevel
  /-- In the list of statements of a block. -/
  | block
  /-- In the list of statements of a function or method. -/
  | body
  /-- Alone, as a branch of an `if` or as the body of a loop. -/
  | branch
  deriving DecidableEq, Repr

inductive Node where
  | stmt (position : Position) (s : Stmt)
  | function (f : FunDecl)
  | expr (e : Expr)

/-- The names of a node itself: those it declares, refers to or assigns to, its parameters,
properties and methods, and its superclass. The name of a function is that of the function node. -/
def Node.names : Node → List Token
  | .stmt _ (.varDecl name _) => [name]
  | .stmt _ (.classDecl name superclass _) => name :: superclass.toList
  | .function f => f.name :: f.params
  | .expr (.var name) => [name]
  | .expr (.assign name _) => [name]
  | .expr (.get _ name) => [name]
  | .expr (.set _ name _) => [name]
  | .expr (.super _ method) => [method]
  | _ => []

/-- The node is somewhere in the program. -/
inductive Occurs (program : List Stmt) : Node → Prop where
  | topLevel {s : Stmt} : s ∈ program → Occurs program (.stmt .topLevel s)
  | block {p : Position} {body : List Stmt} {s : Stmt} : Occurs program (.stmt p (.block body)) →
      s ∈ body → Occurs program (.stmt .block s)
  | branch {p : Position} {s b : Stmt} : Occurs program (.stmt p s) → b ∈ s.branches →
      Occurs program (.stmt .branch b)
  | function {p : Position} {f : FunDecl} : Occurs program (.stmt p (.funDecl f)) →
      Occurs program (.function f)
  | method {p : Position} {name : Token} {superclass : Option Token} {methods : List FunDecl}
      {f : FunDecl} :
      Occurs program (.stmt p (.classDecl name superclass methods)) → f ∈ methods →
        Occurs program (.function f)
  | body {f : FunDecl} {s : Stmt} : Occurs program (.function f) → s ∈ f.body →
      Occurs program (.stmt .body s)
  | initializer {p : Position} {name : Token} {e : Expr} :
      Occurs program (.stmt p (.varDecl name (some e))) → Occurs program (.expr e)
  | value {p : Position} {s : Stmt} {e : Expr} : Occurs program (.stmt p s) → e ∈ s.exprs →
      Occurs program (.expr e)
  | part {e e' : Expr} : Occurs program (.expr e) → e' ∈ e.parts → Occurs program (.expr e')

def Node.WellFormed (P : Token → Prop) : Node → Prop
  | .stmt p s => s.WellFormed P ∧ (s.IsDeclaration → p ≠ .branch)
  | .function f => Stmt.FunctionWellFormed P f
  | .expr e => e.WellFormed P

section

variable {P : Token → Prop} {program : List Stmt} {n : Node}

/-- Every node of a well-formed program is well formed. -/
theorem Occurs.wellFormed (h : Stmt.AllWellFormed P program) (hn : Occurs program n) :
    n.WellFormed P := by
  induction hn with
  | topLevel hs => exact ⟨h.of_mem hs, fun _ => by decide⟩
  | block _ hs ih => exact ⟨Stmt.AllWellFormed.of_mem ih.1 hs, fun _ => by decide⟩
  | branch _ hb ih =>
    obtain ⟨hwf, hnot⟩ := Stmt.WellFormed.branch ih.1 hb
    exact ⟨hwf, fun hdecl => absurd hdecl hnot⟩
  | function _ ih => exact ih.1
  | method _ hf ih => exact Stmt.MethodsWellFormed.of_mem ih.1.2.2 hf
  | @body f _ _ hs ih =>
    obtain ⟨name, params, body⟩ := f
    exact ⟨Stmt.AllWellFormed.of_mem ih.2.2 hs, fun _ => by decide⟩
  | initializer _ ih => exact ih.1.2
  | value _ he ih => exact Stmt.WellFormed.expr ih.1 he
  | part _ he ih => exact Expr.WellFormed.part ih he

theorem Node.WellFormed.name (h : n.WellFormed P) {t : Token} (ht : t ∈ n.names) :
    t.Is P .identifier := by
  cases n with
  | stmt p s =>
    cases s with
    | varDecl name initializer =>
      obtain rfl := List.mem_singleton.1 ht
      exact h.1.1
    | classDecl name superclass methods =>
      rcases List.mem_cons.1 ht with rfl | ht
      · exact h.1.1
      · exact h.1.2.1 t (Option.mem_toList.1 ht)
    | _ => cases ht
  | function f =>
    obtain ⟨name, params, body⟩ := f
    rcases List.mem_cons.1 ht with rfl | ht
    · exact h.1
    · exact h.2.1 t ht
  | expr e =>
    cases e with
    | var name =>
      obtain rfl := List.mem_singleton.1 ht
      exact h
    | assign name value =>
      obtain rfl := List.mem_singleton.1 ht
      exact h.1
    | get object name =>
      obtain rfl := List.mem_singleton.1 ht
      exact h.2
    | set object name value =>
      obtain rfl := List.mem_singleton.1 ht
      exact h.2.1
    | super keyword method =>
      obtain rfl := List.mem_singleton.1 ht
      exact h.2
    | _ => cases ht

end

/-! ## Operators and constants -/

theorem Kind.mem_of_isBinaryOperator {k : Kind} (h : k.isBinaryOperator) :
    k ∈ [.plus, .minus, .star, .slash, .equalEqual, .bangEqual, .less, .lessEqual, .greater,
      .greaterEqual] := by
  revert h
  cases k <;> decide

theorem Kind.mem_of_isPrefixOperator {k : Kind} (h : k.isPrefixOperator) : k ∈ [.bang, .minus] := by
  revert h
  cases k <;> decide

theorem Kind.mem_of_isLogicalOperator {k : Kind} (h : k.isLogicalOperator) :
    k ∈ [.andKw, .orKw] := by
  revert h
  cases k <;> decide

theorem Token.literal?_constant {t : Token} (h : t.kind = .number ∨ t.kind = .string) :
    t.literal? = some t.constant := by
  rcases h with h | h <;> simp [constant, literal?, h]

/-- What holds everywhere in a program that was read from the tokens. -/
structure WellFormedEverywhere (tokens : List Token) (program : List Stmt) : Prop where
  /-- Declarations are no branches and no bodies of loops. -/
  declaration : ∀ p s, Occurs program (.stmt p s) → s.IsDeclaration → p = .topLevel ∨
    p = .block ∨ p = .body
  binary : ∀ left op right, Occurs program (.expr (.binary left op right)) → op ∈ tokens ∧
    op.kind ∈ [.plus, .minus, .star, .slash, .equalEqual, .bangEqual, .less, .lessEqual, .greater,
      .greaterEqual]
  unary : ∀ op operand, Occurs program (.expr (.unary op operand)) → op ∈ tokens ∧
    op.kind ∈ [.bang, .minus]
  logical : ∀ left op right, Occurs program (.expr (.logical left op right)) →
    op ∈ tokens ∧ op.kind ∈ [.andKw, .orKw]
  name : ∀ n, Occurs program n → ∀ t ∈ n.names,
    t ∈ tokens ∧ t.kind = .identifier ∧ ∀ k, (t.lexeme, k) ∉ Kind.keywords
  literal : ∀ v, Occurs program (.expr (.literal v)) → v = .nil ∨ (∃ b, v = .bool b) ∨
    ∃ t ∈ tokens, (t.kind = .number ∨ t.kind = .string) ∧ t.literal? = some v

/-- **Every tree of the parser is well formed.** Whatever a text is like, in everything that is read
of it, declarations stand only at the top level and in the lists of blocks and bodies; operators are
tokens of the text, each of a category that its node allows; names are identifiers of the text, and
no identifier is spelled like a keyword; and constants are `nil`, truth values, or those of numbers
and strings in the text. -/
theorem parse_wellFormed_everywhere (site : Nat) (source : String) :
    WellFormedEverywhere (scan site source).tokens
      (parse (scan site source).tokens (scan site source).eof).statements := by
  have hshape :=
    (parse_found (P := (· ∈ (scan site source).tokens)) (fun _ => id) (scan site source).eof).shape
  refine ⟨fun p s hs hdecl => ?_, fun left op right he => ?_, fun op operand he => ?_,
    fun left op right he => ?_,
    fun n hn t ht => ?_, fun v he => ?_⟩
  · have hp := (hs.wellFormed hshape).2 hdecl
    revert hp
    cases p <;> simp
  · obtain ⟨-, hmem, hop, -⟩ := he.wellFormed hshape
    exact ⟨hmem, Kind.mem_of_isBinaryOperator hop⟩
  · obtain ⟨hmem, hop, -⟩ := he.wellFormed hshape
    exact ⟨hmem, Kind.mem_of_isPrefixOperator hop⟩
  · obtain ⟨-, hmem, hop, -⟩ := he.wellFormed hshape
    exact ⟨hmem, Kind.mem_of_isLogicalOperator hop⟩
  · obtain ⟨hmem, hk⟩ := (hn.wellFormed hshape).name ht
    exact ⟨hmem, hk, Scan.not_keyword hmem hk⟩
  · rcases he.wellFormed hshape with rfl | ⟨b, rfl⟩ | ⟨t, ht, rfl⟩
    · exact .inl rfl
    · exact .inr (.inl ⟨b, rfl⟩)
    · have hkind : t.kind = .number ∨ t.kind = .string := ht.imp And.right And.right
      have hmem : t ∈ (scan site source).tokens := ht.elim And.left And.left
      exact .inr (.inr ⟨t, hmem, hkind, Token.literal?_constant hkind⟩)

/-- A block with a function that lacks its name, and behind it a loop that declares a variable. -/
def mended : String := "\x7b fun 1; for (var i = -n;;) i; \x7d"

/-- Reading goes on inside the block. The loop is read as a block of its own, in which its variable
is declared. -/
theorem parse_wellFormed_everywhere_mended :
    let tokens := (scan 0 mended).tokens
    let parsed := parse tokens (scan 0 mended).eof
    let i : Token := ⟨.identifier, "i", 1, 7⟩
    let minus : Token := ⟨.minus, "-", 1, 9⟩
    let n : Token := ⟨.identifier, "n", 1, 10⟩
    parsed.errors = [⟨1, .at "1", .calleeName .function⟩] ∧
    Occurs parsed.statements (.stmt .block (.varDecl i (some (.unary minus (.var n))))) ∧
    (i ∈ tokens ∧ i.kind = .identifier ∧ ∀ k, (i.lexeme, k) ∉ Kind.keywords) ∧
    minus ∈ tokens ∧ minus.kind ∈ [.bang, .minus] := by
  intro tokens parsed i minus n
  have htokens : tokens = [⟨.leftBrace, "\x7b", 1, 0⟩, ⟨.funKw, "fun", 1, 1⟩, ⟨.number, "1", 1, 2⟩,
      ⟨.semicolon, ";", 1, 3⟩, ⟨.forKw, "for", 1, 4⟩, ⟨.leftParen, "(", 1, 5⟩,
        ⟨.varKw, "var", 1, 6⟩, i,
      ⟨.equal, "=", 1, 8⟩, minus, n, ⟨.semicolon, ";", 1, 11⟩, ⟨.semicolon, ";", 1, 12⟩,
        ⟨.rightParen, ")", 1, 13⟩,
      ⟨.identifier, "i", 1, 14⟩, ⟨.semicolon, ";", 1, 15⟩,
        ⟨.rightBrace, "\x7d", 1, 16⟩] := by decide +kernel
  have hprogram : parsed.statements = [.block [.block [.varDecl i (some (.unary minus (.var n))),
      .whileDo (.literal (.bool true)) (.expr (.var ⟨.identifier, "i", 1, 14⟩))]]] := by
    show (parse tokens _).statements = _
    rw [htokens]
    rfl
  have hwf := parse_wellFormed_everywhere 0 mended
  have houter : Occurs parsed.statements (.stmt .topLevel _) :=
    .topLevel (hprogram ▸ List.mem_cons_self)
  have hdecl := (houter.block List.mem_cons_self).block List.mem_cons_self
  exact ⟨by decide +kernel, hdecl, hwf.name _ hdecl i List.mem_cons_self,
    hwf.unary minus _ hdecl.initializer⟩

end Lox
