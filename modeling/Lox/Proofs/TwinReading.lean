import Lox.Proofs.Reading
import Lox.Proofs.Twins

/-!
# Reading twins

The grammar looks at the categories of tokens, and at their lexemes for constants; lines and sites
are only handed on. So lists of paired tokens are read alike: `Rule.Twin` says it of two rules, and
`parse_twin` of whole texts. The trees are twins and the same complaints are made about paired
tokens.
-/

namespace Lox

/-- Paired tokens are of the same category and stand for the same constant. -/
structure Pairing.Read (R : Pairing) : Prop where
  kind : ∀ {t t'}, R t t' → t.kind = t'.kind
  constant : ∀ {t t'}, R t t' → t.constant = t'.constant

theorem Token.constant_congr {t t' : Token} (hk : t.kind = t'.kind) (hl : t.lexeme = t'.lexeme) :
    t.constant = t'.constant := by
  unfold constant literal? quotedText
  rw [hk, hl]

theorem Pairing.Spelled.read {R : Pairing} (hR : R.Spelled) : R.Read :=
  ⟨hR.kind, fun h => Token.constant_congr (hR.kind h) (hR.lexeme h)⟩

inductive Verdict.Twin {α β : Type} (A : α → β → Prop) : Verdict α → Verdict β → Prop where
  | done {a : α} {b : β} : A a b → Twin A (.done a) (.done b)
  | rejected : Twin A .rejected .rejected
  | exhausted : Twin A .exhausted .exhausted

structure Reading.Twin {α β : Type} (R : Pairing) (E : StaticError → StaticError → Prop)
    (A : α → β → Prop) (r : Reading α) (r' : Reading β) : Prop where
  verdict : r.verdict.Twin A r'.verdict
  errors : List.Forall₂ E r.errors r'.errors
  rest : List.Forall₂ R r.rest r'.rest

namespace Rule

/-- On lists of paired tokens both rules do the same. The ends of the texts need not be paired, but
complaints about them compare in the same way. -/
def Twin {α β : Type} (R : Pairing) (E : StaticError → StaticError → Prop) (A : α → β → Prop)
    (r : Rule α) (r' : Rule β) : Prop :=
  ∀ (eof eof' : Token) (ts ts' : List Token), (∀ c, E (.atToken eof c) (.atToken eof' c)) →
    List.Forall₂ R ts ts' → (r eof ts).Twin R E A (r' eof' ts')

section

variable {R : Pairing} {E : StaticError → StaticError → Prop} {α β γ δ : Type}
variable {A : α → β → Prop} {B : γ → δ → Prop}

namespace Twin

theorem pure {a : α} {b : β} (h : A a b) : Twin R E A (Pure.pure a) (Pure.pure b) :=
  fun _ _ _ _ _ hts => ⟨.done h, .nil, hts⟩

theorem bind {r : Rule α} {r' : Rule β} {f : α → Rule γ} {g : β → Rule δ} (hr : r.Twin R E A r')
    (hf : ∀ {a b}, A a b → (f a).Twin R E B (g b)) : (r >>= f).Twin R E B (r' >>= g) := by
  intro eof eof' ts ts' heof hts
  have hfirst := hr _ _ _ _ heof hts
  rw [bind_eq, bind_eq, Rule.bind, Rule.bind]
  generalize r eof ts = x at hfirst ⊢
  generalize r' eof' ts' = y at hfirst ⊢
  obtain ⟨v, es, rest⟩ := x
  obtain ⟨v', es', rest'⟩ := y
  obtain ⟨hv, hes, hrest⟩ := hfirst
  cases hv with
  | done hab =>
    have hsecond := hf hab _ _ _ _ heof hrest
    exact ⟨hsecond.verdict, List.rel_append hes hsecond.errors, hsecond.rest⟩
  | rejected => exact ⟨.rejected, hes, hrest⟩
  | exhausted => exact ⟨.exhausted, hes, hrest⟩

theorem map {r : Rule α} {r' : Rule β} {f : α → γ} {g : β → δ} (hr : r.Twin R E A r')
    (hf : ∀ {a b}, A a b → B (f a) (g b)) : (f <$> r).Twin R E B (g <$> r') := by
  rw [map_eq, map_eq]
  exact hr.bind fun h => pure (hf h)

theorem exhausted : Twin R E A Rule.exhausted Rule.exhausted :=
  fun _ _ _ _ _ hts => ⟨.exhausted, .nil, hts⟩

theorem nest {d : Depth} {r : Depth → Rule α} {r' : Depth → Rule β}
    (h : ∀ d, (r d).Twin R E A (r' d)) :
    (Rule.nest d r).Twin R E A (Rule.nest d r') := by
  cases d with
  | unlimited => exact h _
  | levels k =>
    cases k with
    | zero => exact exhausted
    | succ k => exact h _

theorem headKind_eq (hR : R.Read) {ts ts' : List Token} (h : List.Forall₂ R ts ts') :
    headKind ts = headKind ts' := by
  cases h with
  | nil => rfl
  | cons h _ => exact hR.kind h

/-- Both rules see the same category in front. -/
theorem peekKind (hR : R.Read) {f : Kind → Rule γ} {g : Kind → Rule δ}
    (h : ∀ k, (f k).Twin R E B (g k)) : (Rule.peekKind >>= f).Twin R E B (Rule.peekKind >>= g) := by
  intro eof eof' ts ts' heof hts
  rw [peekKind_bind, peekKind_bind, ← headKind_eq hR hts]
  exact h _ _ _ _ _ heof hts

/-- Both rules see paired tokens in front, if there are any. -/
theorem front (hR : R.Read) {f : Token → Kind → Rule γ} {g : Token → Kind → Rule δ}
    (hend : ∀ t t', (f t .eof).Twin R E B (g t' .eof))
    (hfront : ∀ {t t'}, R t t' → (f t t.kind).Twin R E B (g t' t.kind)) :
    (Rule.peek >>= fun t => Rule.peekKind >>= f t).Twin R E B
      (Rule.peek >>= fun t => Rule.peekKind >>= g t) := by
  intro eof eof' ts ts' heof hts
  rw [peek_bind, peek_bind, peekKind_bind, peekKind_bind, ← headKind_eq hR hts]
  cases hts with
  | nil => exact hend _ _ _ _ _ _ heof .nil
  | cons h hts => exact hfront h _ _ _ _ heof (.cons h hts)

theorem skip {r : Rule γ} {r' : Rule δ} (h : r.Twin R E B r') :
    (Rule.skip >>= fun _ => r).Twin R E B (Rule.skip >>= fun _ => r') := by
  refine bind (A := fun _ _ => True) (fun _ _ _ _ _ hts => ⟨.done trivial, .nil, ?_⟩) fun _ => h
  cases hts with
  | nil => exact .nil
  | cons _ hts => exact hts

theorem takeIf (hR : R.Read) (test : Kind → Bool) :
    Twin R E (Option.Rel R) (Rule.takeIf test) (Rule.takeIf test) := by
  intro eof eof' ts ts' _ hts
  cases hts with
  | nil => exact ⟨.done .none, .nil, .nil⟩
  | cons h hts =>
    rw [Rule.takeIf, Rule.takeIf]
    simp only [← hR.kind h]
    split
    · exact ⟨.done (.some h), .nil, hts⟩
    · exact ⟨.done .none, .nil, .cons h hts⟩

theorem accept (hR : R.Read) (k : Kind) : Twin R E (Option.Rel R) (Rule.accept k) (Rule.accept k) :=
  takeIf hR _

theorem note {t t' : Token} {c : Complaint} (h : E (.atToken t c) (.atToken t' c)) :
    Twin R E Eq (Rule.note t c) (Rule.note t' c) :=
  fun _ _ _ _ _ hts => ⟨.done rfl, .cons h .nil, hts⟩

theorem front_complaint (hE : R.Reports E) {eof eof' : Token} {ts ts' : List Token}
    (heof : ∀ c, E (.atToken eof c) (.atToken eof' c)) (hts : List.Forall₂ R ts ts')
    (c : Complaint) :
    E (.atToken (ts.head?.getD eof) c) (.atToken (ts'.head?.getD eof') c) := by
  cases hts with
  | nil => exact heof c
  | cons h _ => exact hE h c

/-- A complaint about the token in front. -/
theorem noteFront (hE : R.Reports E) (c : Complaint) :
    Twin R E Eq (Rule.peek >>= fun t => Rule.note t c) (Rule.peek >>= fun t => Rule.note t c) := by
  intro eof eof' ts ts' heof hts
  rw [peek_bind, peek_bind]
  exact note (front_complaint hE heof hts c) _ _ _ _ heof hts

/-- A rule that may begin with a complaint. -/
theorem noteFrontIf (hE : R.Reports E) (p : Prop) [Decidable p] (c : Complaint) {x : Rule α}
    {y : Rule β} (h : Twin R E A x y) :
    Twin R E A (if p then Rule.peek >>= fun t => Rule.note t c >>= fun _ => x else x)
      (if p then Rule.peek >>= fun t => Rule.note t c >>= fun _ => y else y) := by
  by_cases hp : p
  · rw [if_pos hp, if_pos hp]
    exact (noteFront hE c).bind fun _ => h
  · rw [if_neg hp, if_neg hp]
    exact h

theorem reject (hE : R.Reports E) (c : Complaint) : Twin R E A (Rule.reject c) (Rule.reject c) :=
  fun _ _ _ _ heof hts => ⟨.rejected, .cons (front_complaint hE heof hts c) .nil, hts⟩

theorem expect (hR : R.Read) (hE : R.Reports E) (k : Kind) (c : Complaint) :
    Twin R E R (Rule.expect k c) (Rule.expect k c) := by
  refine (accept hR k).bind fun h => ?_
  cases h with
  | none => exact reject hE c
  | some h => exact pure h

theorem skipToBoundary (hR : R.Read) {last last' : Token} (hlast : R last last')
    {ts ts' : List Token} (h : List.Forall₂ R ts ts') :
    List.Forall₂ R (Rule.skipToBoundary last ts) (Rule.skipToBoundary last' ts') := by
  induction h generalizing last last' with
  | nil => exact .nil
  | cons h hts ih =>
    rw [Rule.skipToBoundary, Rule.skipToBoundary, ← hR.kind h, ← hR.kind hlast]
    split
    · exact .cons h hts
    · exact ih h

theorem recover (hR : R.Read) {r : Rule α} {r' : Rule β} (hr : r.Twin R E A r') :
    (Rule.recover r).Twin R E (Option.Rel A) (Rule.recover r') := by
  intro eof eof' ts ts' heof hts
  have h := hr _ _ _ _ heof hts
  rw [Rule.recover, Rule.recover]
  generalize r eof ts = x at h ⊢
  generalize r' eof' ts' = y at h ⊢
  obtain ⟨v, es, rest⟩ := x
  obtain ⟨v', es', rest'⟩ := y
  obtain ⟨hv, hes, hrest⟩ := h
  cases hv with
  | done hab => exact ⟨.done (.some hab), hes, hrest⟩
  | exhausted => exact ⟨.exhausted, hes, hrest⟩
  | rejected =>
    refine ⟨.done .none, hes, ?_⟩
    cases hrest with
    | nil => exact .nil
    | cons h hts => exact skipToBoundary hR h hts

end Twin
end
end Rule

/-! ## Expressions -/

section

variable {R : Pairing} {E : StaticError → StaticError → Prop}

theorem Level.twin_join (l : Level) {e e' f f' : Expr} {t t' : Token} (he : e.Twin R e')
    (h : R t t') (hf : f.Twin R f') : (l.join e t f).Twin R (l.join e' t' f') := by
  cases l with
  | disjunction => exact .logical he h hf
  | conjunction => exact .logical he h hf
  | _ => exact .binary he h hf

theorem Expr.Twin.assigned? {e e' f f' : Expr} (he : e.Twin R e') (hf : f.Twin R f') :
    Option.Rel (Expr.Twin R) (e.assigned? f) (e'.assigned? f') := by
  cases he with
  | var h => exact .some (.assign h hf)
  | get he h => exact .some (.set he h hf)
  | _ => exact .none

theorem Stmt.twin_forLoop {o o' : Option Stmt} {c c' i i' : Option Expr} {s s' : Stmt}
    (ho : Option.Rel (Stmt.Twin R) o o') (hc : Option.Rel (Expr.Twin R) c c')
    (hi : Option.Rel (Expr.Twin R) i i') (hs : s.Twin R s') :
    (Stmt.forLoop o c i s).Twin R (Stmt.forLoop o' c' i' s') := by
  have hcondition :
      Expr.Twin R (c.getD (.literal (.bool true))) (c'.getD (.literal (.bool true))) := by
    cases hc with
    | none => exact .literal _
    | some hc => exact hc
  have hloop : (Stmt.forLoop none c i s).Twin R (Stmt.forLoop none c' i' s') := by
    cases hi with
    | none => exact .whileDo hcondition hs
    | some hi => exact .whileDo hcondition (.block (.cons hs (.cons (.expr hi) .nil)))
  cases ho with
  | none => exact hloop
  | some hfirst => exact .block (.cons hfirst (.cons hloop .nil))

namespace Grammar

open Rule

/-- The rules of expressions, with the same steps and depth, on paired tokens. -/
structure TwinExprs (R : Pairing) (E : StaticError → StaticError → Prop) (n : Nat) (d : Depth) :
    Prop where
  assignment : (assignment n d).Twin R E (Expr.Twin R) (assignment n d)
  operand : ∀ l, (operand n d l).Twin R E (Expr.Twin R) (operand n d l)
  chain : ∀ l {e e'}, e.Twin R e' → (chain n d l e).Twin R E (Expr.Twin R) (chain n d l e')
  suffixes : ∀ {e e'}, e.Twin R e' → (suffixes n d e).Twin R E (Expr.Twin R) (suffixes n d e')
  argumentList : (argumentList n d).Twin R E (List.Forall₂ (Expr.Twin R)) (argumentList n d)
  arguments : ∀ count,
    (arguments n d count).Twin R E (List.Forall₂ (Expr.Twin R)) (arguments n d count)
  primary : (primary n d).Twin R E (Expr.Twin R) (primary n d)

namespace TwinExprs

section

variable (hR : R.Read) (hE : R.Reports E) {n : Nat} (h : ∀ d, TwinExprs R E n d) (d : Depth)

include hR hE h in
theorem assignment_succ :
    (Grammar.assignment (n + 1) d).Twin R E (Expr.Twin R) (Grammar.assignment (n + 1) d) := by
  rw [Grammar.assignment]
  refine .nest fun d => ?_
  refine ((h d).operand _).bind fun htarget => (Rule.Twin.accept hR _).bind fun hequal => ?_
  cases hequal with
  | none => exact .pure htarget
  | some hequal =>
    refine (h d).assignment.bind fun hvalue => ?_
    have hassigned := htarget.assigned? hvalue
    generalize Expr.assigned? _ _ = o at hassigned ⊢
    generalize Expr.assigned? _ _ = o' at hassigned ⊢
    cases hassigned with
    | some he => exact .pure he
    | none => exact (Rule.Twin.note (hE hequal _)).bind fun _ => .pure htarget

include hR h in
theorem operand_succ (l : Option Level) :
    (Grammar.operand (n + 1) d l).Twin R E (Expr.Twin R) (Grammar.operand (n + 1) d l) := by
  cases l with
  | some l =>
    rw [Grammar.operand]
    refine .nest fun d => ?_
    exact ((h d).operand _).bind fun he => (h d).chain l he
  | none =>
    rw [Grammar.operand]
    refine .nest fun d => ?_
    refine (Rule.Twin.takeIf hR _).bind fun hop => ?_
    cases hop with
    | some hop => exact ((h d).operand _).bind fun he => .pure (.unary hop he)
    | none => exact (h d).primary.bind fun he => (h d).suffixes he

include hR h in
theorem chain_succ (l : Level) {e e' : Expr} (he : e.Twin R e') :
    (Grammar.chain (n + 1) d l e).Twin R E (Expr.Twin R) (Grammar.chain (n + 1) d l e') := by
  rw [Grammar.chain, Grammar.chain]
  refine (Rule.Twin.takeIf hR _).bind fun hop => ?_
  cases hop with
  | none => exact .pure he
  | some hop => exact ((h d).operand _).bind fun hf => (h d).chain l (l.twin_join he hop hf)

include hR hE h in
theorem suffixes_succ {e e' : Expr}
    (he : e.Twin R e') :
    (Grammar.suffixes (n + 1) d e).Twin R E (Expr.Twin R) (Grammar.suffixes (n + 1) d e') := by
  rw [Grammar.suffixes, Grammar.suffixes]
  refine Rule.Twin.peekKind hR fun k => ?_
  cases k with
  | leftParen =>
    refine .skip ((h d).argumentList.bind fun hes => ?_)
    exact (Rule.Twin.expect hR hE _ _).bind fun hparen => (h d).suffixes (.call he hparen hes)
  | dot =>
    exact .skip ((Rule.Twin.expect hR hE _ _).bind fun hname => (h d).suffixes (.get he hname))
  | _ => exact .pure he

include hR h in
theorem argumentList_succ :
    (Grammar.argumentList (n + 1) d).Twin R E (List.Forall₂ (Expr.Twin R))
      (Grammar.argumentList (n + 1) d) := by
  rw [Grammar.argumentList]
  refine Rule.Twin.peekKind hR fun k => ?_
  split
  · exact .pure .nil
  · exact (h d).arguments 0

include hR hE h in
theorem arguments_succ (count : Nat) :
    (Grammar.arguments (n + 1) d count).Twin R E (List.Forall₂ (Expr.Twin R))
      (Grammar.arguments (n + 1) d count) := by
  rw [Grammar.arguments]
  refine Rule.Twin.noteFrontIf hE _ _ ?_
  refine (h d).assignment.bind fun he => (Rule.Twin.accept hR _).bind fun hcomma => ?_
  cases hcomma with
  | none => exact .pure (.cons he .nil)
  | some _ => exact ((h d).arguments _).bind fun hes => .pure (.cons he hes)

include hR hE h in
theorem primary_succ :
    (Grammar.primary (n + 1) d).Twin R E (Expr.Twin R) (Grammar.primary (n + 1) d) := by
  rw [Grammar.primary]
  refine .nest fun d => ?_
  refine Rule.Twin.front hR (fun t t' => .reject hE _) fun {t t'} ht => ?_
  have hconstant := hR.constant ht
  cases t.kind with
  | falseKw => exact .skip (.pure (.literal _))
  | trueKw => exact .skip (.pure (.literal _))
  | nilKw => exact .skip (.pure (.literal _))
  | number => exact .skip (.pure (hconstant ▸ .literal _))
  | string => exact .skip (.pure (hconstant ▸ .literal _))
  | superKw =>
    exact .skip ((Rule.Twin.expect hR hE _ _).bind fun _ =>
      (Rule.Twin.expect hR hE _ _).bind fun hmethod =>
      .pure (.super ht hmethod))
  | thisKw => exact .skip (.pure (.this ht))
  | identifier => exact .skip (.pure (.var ht))
  | leftParen =>
    exact .skip ((h d).assignment.bind fun he => (Rule.Twin.expect hR hE _ _).bind fun _ =>
      .pure (.grouping he))
  | _ => exact .reject hE _

end

theorem of_steps (hR : R.Read) (hE : R.Reports E) (n : Nat) (d : Depth) : TwinExprs R E n d := by
  induction n generalizing d with
  | zero =>
    exact ⟨.exhausted, fun _ => .exhausted, fun _ _ _ _ => .exhausted,
      fun _ => .exhausted, .exhausted,
      fun _ => .exhausted, .exhausted⟩
  | succ n ih =>
    exact ⟨assignment_succ hR hE ih d, operand_succ hR ih d, chain_succ hR ih d,
      suffixes_succ hR hE ih d, argumentList_succ hR ih d, arguments_succ hR hE ih d,
      primary_succ hR hE ih d⟩

end TwinExprs

/-! ## Statements -/

theorem twin_expression (hR : R.Read) (hE : R.Reports E) (n : Nat) (d : Depth) :
    (expression n d).Twin R E (Expr.Twin R) (expression n d) :=
      (TwinExprs.of_steps hR hE n d).assignment

theorem twin_parameters (hR : R.Read) (hE : R.Reports E) (n count : Nat) :
    (parameters n count).Twin R E (List.Forall₂ R) (parameters n count) := by
  induction n generalizing count with
  | zero => exact .exhausted
  | succ n ih =>
    rw [parameters]
    refine Rule.Twin.noteFrontIf hE _ _ ?_
    refine (Rule.Twin.expect hR hE _ _).bind fun hname =>
      (Rule.Twin.accept hR _).bind fun hcomma => ?_
    cases hcomma with
    | none => exact .pure (.cons hname .nil)
    | some _ => exact (ih _).bind fun hnames => .pure (.cons hname hnames)

theorem twin_parameterList (hR : R.Read) (hE : R.Reports E) (n : Nat) :
    (parameterList n).Twin R E (List.Forall₂ R) (parameterList n) := by
  refine Rule.Twin.peekKind hR fun k => ?_
  split
  · exact .pure .nil
  · exact twin_parameters hR hE n 0

theorem twin_expressionUnless (hR : R.Read) (hE : R.Reports E) (n : Nat) (d : Depth) (kind : Kind) :
    (expressionUnless n d kind).Twin R E (Option.Rel (Expr.Twin R))
      (expressionUnless n d kind) := by
  refine Rule.Twin.peekKind hR fun k => ?_
  split
  · exact .pure .none
  · exact (twin_expression hR hE n d).map .some

theorem twin_varDeclaration (hR : R.Read) (hE : R.Reports E) (n : Nat) (d : Depth) :
    (varDeclaration n d).Twin R E (Stmt.Twin R) (varDeclaration n d) := by
  refine (Rule.Twin.expect hR hE _ _).bind fun hname =>
    (Rule.Twin.accept hR _).bind fun hequal => ?_
  have hend {o o' : Option Expr} (ho : Option.Rel (Expr.Twin R) o o') :=
    (Rule.Twin.expect hR hE .semicolon .variableEnd).bind fun _ =>
      Rule.Twin.pure (R := R) (E := E) (Stmt.Twin.varDecl hname ho)
  cases hequal with
  | none => exact (Rule.Twin.pure .none).bind hend
  | some _ => exact ((twin_expression hR hE n d).map .some).bind hend

theorem twin_expressionStatement (hR : R.Read) (hE : R.Reports E) (n : Nat) (d : Depth) :
    (expressionStatement n d).Twin R E (Stmt.Twin R) (expressionStatement n d) :=
  (twin_expression hR hE n d).bind fun he => (Rule.Twin.expect hR hE _ _).bind fun _ =>
    .pure (.expr he)

theorem twin_printStatement (hR : R.Read) (hE : R.Reports E) (n : Nat) (d : Depth) :
    (printStatement n d).Twin R E (Stmt.Twin R) (printStatement n d) :=
  (twin_expression hR hE n d).bind fun he => (Rule.Twin.expect hR hE _ _).bind fun _ =>
    .pure (.print he)

theorem twin_returnStatement (hR : R.Read) (hE : R.Reports E) (n : Nat) (d : Depth) {t t' : Token}
    (h : R t t') :
    (returnStatement n d t).Twin R E (Stmt.Twin R) (returnStatement n d t') :=
  (twin_expressionUnless hR hE n d _).bind fun ho => (Rule.Twin.expect hR hE _ _).bind fun _ =>
    .pure (.ret h ho)

theorem twin_forInitializer (hR : R.Read) (hE : R.Reports E) (n : Nat) (d : Depth) :
    (forInitializer n d).Twin R E (Option.Rel (Stmt.Twin R)) (forInitializer n d) := by
  refine Rule.Twin.peekKind hR fun k => ?_
  split
  · exact .skip (.pure .none)
  · exact .skip ((twin_varDeclaration hR hE n d).map .some)
  · exact (twin_expressionStatement hR hE n d).map .some

theorem twin_superclass (hR : R.Read) (hE : R.Reports E) :
    superclass.Twin R E (Option.Rel R) superclass := by
  refine (Rule.Twin.accept hR _).bind fun hless => ?_
  cases hless with
  | none => exact .pure .none
  | some _ => exact (Rule.Twin.expect hR hE _ _).map .some

/-- The rules of statements, with the same steps and depth, on paired tokens. -/
structure TwinStmts (R : Pairing) (E : StaticError → StaticError → Prop) (n : Nat) (d : Depth) :
    Prop where
  declaration : (declaration n d).Twin R E (Option.Rel (Stmt.Twin R)) (declaration n d)
  classDeclaration : (classDeclaration n d).Twin R E (Stmt.Twin R) (classDeclaration n d)
  methodList : (methodList n d).Twin R E (List.Forall₂ (FunDecl.Twin R)) (methodList n d)
  function : ∀ callee, (function n d callee).Twin R E (FunDecl.Twin R) (function n d callee)
  statement : (statement n d).Twin R E (Stmt.Twin R) (statement n d)
  forStatement : (forStatement n d).Twin R E (Stmt.Twin R) (forStatement n d)
  ifStatement : (ifStatement n d).Twin R E (Stmt.Twin R) (ifStatement n d)
  whileStatement : (whileStatement n d).Twin R E (Stmt.Twin R) (whileStatement n d)
  block : (block n d).Twin R E (List.Forall₂ (Stmt.Twin R)) (block n d)
  declarations : ∀ inBlock,
    (declarations n d inBlock).Twin R E (List.Forall₂ (Stmt.Twin R)) (declarations n d inBlock)

namespace TwinStmts

section

variable (hR : R.Read) (hE : R.Reports E) {n : Nat} (h : ∀ d, TwinStmts R E n d) (d : Depth)

include hR hE h in
theorem declaration_succ :
    (Grammar.declaration (n + 1) d).Twin R E (Option.Rel (Stmt.Twin R))
      (Grammar.declaration (n + 1) d) := by
  rw [Grammar.declaration]
  refine .nest fun d => ?_
  refine .recover hR (Rule.Twin.peekKind hR fun k => ?_)
  split
  · exact .skip (h d).classDeclaration
  · exact .skip (((h d).function _).map .funDecl)
  · exact .skip (twin_varDeclaration hR hE n d)
  · exact (h d).statement

include hR hE h in
theorem classDeclaration_succ :
    (Grammar.classDeclaration (n + 1) d).Twin R E (Stmt.Twin R)
      (Grammar.classDeclaration (n + 1) d) := by
  rw [Grammar.classDeclaration]
  refine .nest fun d => ?_
  refine (Rule.Twin.expect hR hE _ _).bind fun hname =>
    (twin_superclass hR hE).bind fun hparent => ?_
  refine (Rule.Twin.expect hR hE _ _).bind fun _ => (h d).methodList.bind fun hmethods => ?_
  exact (Rule.Twin.expect hR hE _ _).bind fun _ => .pure (.classDecl hname hparent hmethods)

include hR h in
theorem methodList_succ : (Grammar.methodList (n + 1) d).Twin R E
    (List.Forall₂ (FunDecl.Twin R)) (Grammar.methodList (n + 1) d) := by
  rw [Grammar.methodList]
  refine Rule.Twin.peekKind hR fun k => ?_
  split
  · exact .pure .nil
  · exact .pure .nil
  · exact ((h d).function _).bind fun hmethod => (h d).methodList.bind fun hmethods =>
      .pure (.cons hmethod hmethods)

include hR hE h in
theorem function_succ (callee : Callee) :
    (Grammar.function (n + 1) d callee).Twin R E (FunDecl.Twin R)
      (Grammar.function (n + 1) d callee) := by
  rw [Grammar.function]
  refine .nest fun d => ?_
  refine (Rule.Twin.expect hR hE _ _).bind fun hname =>
    (Rule.Twin.expect hR hE _ _).bind fun _ => ?_
  refine (twin_parameterList hR hE n).bind fun hparams =>
    (Rule.Twin.expect hR hE _ _).bind fun _ => ?_
  exact (Rule.Twin.expect hR hE _ _).bind fun _ => (h d).block.bind fun hbody =>
    .pure (.mk hname hparams hbody)

include hR hE h in
theorem statement_succ :
    (Grammar.statement (n + 1) d).Twin R E (Stmt.Twin R) (Grammar.statement (n + 1) d) := by
  rw [Grammar.statement]
  refine .nest fun d => ?_
  refine Rule.Twin.front hR (fun _ _ => twin_expressionStatement hR hE n d) fun ht => ?_
  split
  · exact .skip (h d).forStatement
  · exact .skip (h d).ifStatement
  · exact .skip (twin_printStatement hR hE n d)
  · exact .skip (twin_returnStatement hR hE n d ht)
  · exact .skip (h d).whileStatement
  · exact .skip ((h d).block.map .block)
  · exact twin_expressionStatement hR hE n d

include hR hE h in
theorem forStatement_succ :
    (Grammar.forStatement (n + 1) d).Twin R E (Stmt.Twin R) (Grammar.forStatement (n + 1) d) := by
  rw [Grammar.forStatement]
  refine .nest fun d => ?_
  refine (Rule.Twin.expect hR hE _ _).bind fun _ =>
    (twin_forInitializer hR hE n d).bind fun hinitial => ?_
  refine (twin_expressionUnless hR hE n d _).bind fun hcondition =>
    (Rule.Twin.expect hR hE _ _).bind fun _ => ?_
  refine (twin_expressionUnless hR hE n d _).bind fun hincrement =>
    (Rule.Twin.expect hR hE _ _).bind fun _ => ?_
  exact (h d).statement.bind fun hbody =>
    .pure (Stmt.twin_forLoop hinitial hcondition hincrement hbody)

include hR hE h in
theorem ifStatement_succ :
    (Grammar.ifStatement (n + 1) d).Twin R E (Stmt.Twin R) (Grammar.ifStatement (n + 1) d) := by
  rw [Grammar.ifStatement]
  refine .nest fun d => ?_
  refine (Rule.Twin.expect hR hE _ _).bind fun _ =>
    (twin_expression hR hE n d).bind fun hcondition => ?_
  refine (Rule.Twin.expect hR hE _ _).bind fun _ => (h d).statement.bind fun hthen => ?_
  refine (Rule.Twin.accept hR _).bind fun helse => ?_
  cases helse with
  | none => exact .pure (.ifElse hcondition hthen .none)
  | some _ => exact (h d).statement.bind fun helse => .pure (.ifElse hcondition hthen (.some helse))

include hR hE h in
theorem whileStatement_succ :
    (Grammar.whileStatement (n + 1) d).Twin R E (Stmt.Twin R)
      (Grammar.whileStatement (n + 1) d) := by
  rw [Grammar.whileStatement]
  refine .nest fun d => ?_
  refine (Rule.Twin.expect hR hE _ _).bind fun _ =>
    (twin_expression hR hE n d).bind fun hcondition => ?_
  exact (Rule.Twin.expect hR hE _ _).bind fun _ => (h d).statement.bind fun hbody =>
    .pure (.whileDo hcondition hbody)

include hR hE h in
theorem block_succ :
    (Grammar.block (n + 1) d).Twin R E (List.Forall₂ (Stmt.Twin R)) (Grammar.block (n + 1) d) := by
  rw [Grammar.block]
  refine .nest fun d => ?_
  exact ((h d).declarations _).bind fun hbody => (Rule.Twin.expect hR hE _ _).bind fun _ =>
    .pure hbody

include hR h in
theorem declarations_succ (inBlock : Bool) :
    (Grammar.declarations (n + 1) d inBlock).Twin R E (List.Forall₂ (Stmt.Twin R))
      (Grammar.declarations (n + 1) d inBlock) := by
  rw [Grammar.declarations]
  refine Rule.Twin.peekKind hR fun k => ?_
  split
  · exact .pure .nil
  · refine (h d).declaration.bind fun hfirst => ((h d).declarations _).bind fun hothers => .pure ?_
    cases hfirst with
    | none => exact hothers
    | some hfirst => exact .cons hfirst hothers

end

theorem of_steps (hR : R.Read) (hE : R.Reports E) (n : Nat) (d : Depth) : TwinStmts R E n d := by
  induction n generalizing d with
  | zero =>
    exact ⟨.exhausted, .exhausted, .exhausted, fun _ => .exhausted, .exhausted, .exhausted,
      .exhausted, .exhausted, .exhausted, fun _ => .exhausted⟩
  | succ n ih =>
    exact ⟨declaration_succ hR hE ih d, classDeclaration_succ hR hE ih d, methodList_succ hR ih d,
      function_succ hR hE ih d, statement_succ hR hE ih d, forStatement_succ hR hE ih d,
        ifStatement_succ hR hE ih d,
      whileStatement_succ hR hE ih d, block_succ hR hE ih d, declarations_succ hR ih d⟩

end TwinStmts
end Grammar

/-! ## Whole texts -/

theorem twins_takeWhile (hR : R.Read) (p : Kind → Bool) {ts ts' : List Token}
    (h : List.Forall₂ R ts ts') :
    List.Forall₂ R (ts.takeWhile (p ·.kind)) (ts'.takeWhile (p ·.kind)) := by
  induction h with
  | nil => exact .nil
  | cons h _ ih =>
    rw [List.takeWhile_cons, List.takeWhile_cons, ← hR.kind h]
    split
    · exact .cons h ih
    · exact .nil

theorem twins_dropWhile (hR : R.Read) (p : Kind → Bool) {ts ts' : List Token}
    (h : List.Forall₂ R ts ts') :
    List.Forall₂ R (ts.dropWhile (p ·.kind)) (ts'.dropWhile (p ·.kind)) := by
  induction h with
  | nil => exact .nil
  | cons h hts ih =>
    rw [List.dropWhile_cons, List.dropWhile_cons, ← hR.kind h]
    split
    · exact ih
    · exact .cons h hts

structure Parsed.Twin (R : Pairing) (E : StaticError → StaticError → Prop) (p p' : Parsed) :
    Prop where
  statements : List.Forall₂ (Stmt.Twin R) p.statements p'.statements
  errors : List.Forall₂ E p.errors p'.errors

/-- The ends of paired texts. -/
theorem twin_stop (hE : R.Reports E) {ts ts' : List Token} {eof eof' : Token}
    (heof : ∀ c, E (.atToken eof c) (.atToken eof' c)) (h : List.Forall₂ R ts ts') (c : Complaint) :
    E (.atToken (ts.headD eof) c) (.atToken (ts'.headD eof') c) := by
  cases h with
  | nil => exact heof c
  | cons h _ => exact hE h c

/-- Paired tokens are read alike, to whatever depth. -/
theorem twin_readAll (hR : R.Read) (hE : R.Reports E) (d : Depth) {ts ts' : List Token}
    {eof eof' : Token} (heof : ∀ c, E (.atToken eof c) (.atToken eof' c))
    (h : List.Forall₂ R ts ts') :
    (Grammar.readAll d ts eof).Twin R E (List.Forall₂ (Stmt.Twin R))
      (Grammar.readAll d ts' eof') := by
  have hbody := twins_takeWhile hR (· ≠ .eof) h
  have hstop := twin_stop hE heof (twins_dropWhile hR (· ≠ .eof) h)
  have hsteps : Grammar.stepsFor (ts.takeWhile (·.kind ≠ .eof)) =
      Grammar.stepsFor (ts'.takeWhile (·.kind ≠ .eof)) := by
    rw [Grammar.stepsFor, Grammar.stepsFor, hbody.length_eq]
  rw [Grammar.readAll, Grammar.readAll, ← hsteps]
  exact (Grammar.TwinStmts.of_steps hR hE _ d).declarations false _ _ _ _ hstop hbody

/-- Paired tokens are read to twins, with the same complaints. -/
theorem twin_parse (hR : R.Read) (hE : R.Reports E) {ts ts' : List Token} {eof eof' : Token}
    (heof : ∀ c, E (.atToken eof c) (.atToken eof' c)) (h : List.Forall₂ R ts ts') :
    (parse ts eof).Twin R E (parse ts' eof') := by
  obtain ⟨hverdict, herrors, _⟩ := twin_readAll hR hE .unlimited heof h
  rw [parse, parse]
  generalize Grammar.readAll _ ts eof = r at hverdict herrors ⊢
  generalize Grammar.readAll _ ts' eof' = r' at hverdict herrors ⊢
  obtain ⟨v, es, _⟩ := r
  obtain ⟨v', es', _⟩ := r'
  cases hverdict with
  | done hss => exact ⟨hss, herrors⟩
  | rejected => exact ⟨.nil, herrors⟩
  | exhausted => exact ⟨.nil, herrors⟩

/-- The depth is enough for both texts or for neither. -/
theorem twin_parseWithin (hR : R.Read) (hE : R.Reports E) (depth : Nat) {ts ts' : List Token}
    {eof eof' : Token} (heof : ∀ c, E (.atToken eof c) (.atToken eof' c))
    (h : List.Forall₂ R ts ts') :
    TwinExcept (List.Forall₂ E) (Parsed.Twin R E) (parseWithin depth ts eof)
      (parseWithin depth ts' eof') := by
  obtain ⟨hverdict, herrors, _⟩ := twin_readAll hR hE (.levels depth) heof h
  rw [parseWithin, parseWithin]
  generalize Grammar.readAll _ ts eof = r at hverdict herrors ⊢
  generalize Grammar.readAll _ ts' eof' = r' at hverdict herrors ⊢
  obtain ⟨v, es, _⟩ := r
  obtain ⟨v', es', _⟩ := r'
  cases hverdict with
  | done hss => exact .ok ⟨hss, herrors⟩
  | rejected => exact .error herrors
  | exhausted => exact .error herrors

end
end Lox
