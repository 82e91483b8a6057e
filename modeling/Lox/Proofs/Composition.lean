import Lox.Grammar.Stmt
import Lox.Proofs.Reading

/-!
# How rules are put together

Every rule of the grammar is put together from basic rules, by sequencing and by recovery. The
number of steps and the depth make no other difference than that the rule with less of them may be
exhausted where the other goes on. `Compatible R` lists what a relation of rules has to satisfy in
order to follow this; `ExprsRelated.of_le` and `StmtsRelated.of_le` then give the relation for the
rules of the grammar. What is to be said of all rules is said once in this way, with one clause for
each basic rule.
-/

namespace Lox

namespace Depth

/-- Every depth is within no limit. -/
def Le : Depth → Depth → Prop
  | _, .unlimited => True
  | .levels k, .levels k' => k ≤ k'
  | .unlimited, .levels _ => False

instance : LE Depth := ⟨Le⟩

theorem le_refl (d : Depth) : d ≤ d := by
  cases d with
  | unlimited => trivial
  | levels k => exact Nat.le_refl k

theorem le_unlimited (d : Depth) : d ≤ .unlimited := by cases d <;> trivial

theorem levels_le_levels {k k' : Nat} (h : k ≤ k') : levels k ≤ levels k' := h

end Depth

namespace Grammar

open Rule

/-- A declaration that does not recover yet. -/
def attempt (n : Nat) (d : Depth) : Rule Stmt := do
  match ← peekKind with
  | .classKw => skip; classDeclaration n d
  | .funKw => skip; .funDecl <$> function n d .function
  | .varKw => skip; varDeclaration n d
  | _ => statement n d

theorem declaration_eq (n : Nat) (d : Depth) :
    declaration (n + 1) d = nest d fun d => recover (attempt n d) := by
  rw [declaration]
  rfl

end Grammar

namespace Rule

/-- A relation of rules that is compatible with the way in which rules are put together. The flag
says that the rules are only used with a token in front: one is passed over, or rejected and then
passed over. -/
structure Compatible (R : ∀ {α : Type}, Bool → Rule α → Rule α → Prop) : Prop where
  pure {α : Type} (a : α) : R false (Pure.pure a) (Pure.pure a)
  /-- A rule that has no depth left is compared with any other. -/
  exhausted {α : Type} (r : Rule α) : R false exhausted r
  peek : R false peek peek
  /-- What comes after a look at the category in front knows whether there is a token. -/
  peekKind {α : Type} {f g : Kind → Rule α} :
    (∀ k, R (k != .eof) (f k) (g k)) → R false (peekKind >>= f) (peekKind >>= g)
  skip : R true skip skip
  takeIf (test : Kind → Bool) : R false (takeIf test) (takeIf test)
  note (t : Token) (c : Complaint) : R false (note t c) (note t c)
  reject {α : Type} (c : Complaint) : R false (reject c : Rule α) (reject c)
  /-- Only declarations recover. -/
  recover {n m : Nat} {d d' : Depth} : R false (Grammar.attempt n d) (Grammar.attempt m d') →
    R true (recover (Grammar.attempt n d)) (recover (Grammar.attempt m d'))
  bind {α β : Type} {front : Bool} {r r' : Rule α} {f g : α → Rule β} : R front r r' →
    (∀ a, R false (f a) (g a)) → R front (r >>= f) (r' >>= g)
  /-- What needs no token in front may also be used with one. -/
  weaken {α : Type} {r r' : Rule α} : R false r r' → R true r r'

namespace Compatible

variable {R : ∀ {α : Type}, Bool → Rule α → Rule α → Prop} {α β : Type}

theorem anywhere (h : Compatible R) {r r' : Rule α} (hr : R false r r') (front : Bool) :
    R front r r' := by
  cases front with
  | false => exact hr
  | true => exact h.weaken hr

theorem map (h : Compatible R) {front : Bool} {r r' : Rule α} (f : α → β) (hr : R front r r') :
    R front (f <$> r) (f <$> r') := by
  rw [map_eq, map_eq]
  exact h.bind hr fun _ => h.pure _

/-- Where there is less depth, the nested rule may be exhausted. -/
theorem nest (h : Compatible R) {front : Bool} {f g : Depth → Rule α} {d d' : Depth} (hd : d ≤ d')
    (hr : ∀ {e e' : Depth}, e ≤ e' → R front (f e) (g e')) :
    R front (Rule.nest d f) (Rule.nest d' g) := by
  cases d with
  | unlimited =>
    cases d' with
    | unlimited => exact hr hd
    | levels k' => exact hd.elim
  | levels k =>
    cases k with
    | zero => exact h.anywhere (h.exhausted _) front
    | succ k =>
      cases d' with
      | unlimited => exact hr (Depth.le_unlimited _)
      | levels k' =>
        have hk : k + 1 ≤ k' := hd
        obtain ⟨k', rfl⟩ : ∃ j, k' = j + 1 := ⟨k' - 1, by omega⟩
        exact hr (Depth.levels_le_levels (Nat.le_of_succ_le_succ hk))

theorem accept (h : Compatible R) (k : Kind) : R false (accept k) (accept k) := h.takeIf _

theorem expect (h : Compatible R) (k : Kind) (c : Complaint) :
    R false (expect k c) (expect k c) := by
  refine h.bind (h.accept k) fun o => ?_
  cases o with
  | none => exact h.reject c
  | some t => exact h.pure t

/-- A token is passed over and other rules follow. -/
theorem pass (h : Compatible R) {r r' : Rule α} (hr : R false r r') :
    R true (Rule.skip >>= fun _ => r) (Rule.skip >>= fun _ => r') := h.bind h.skip fun _ => hr

theorem noteIf (h : Compatible R) (p : Prop) [Decidable p] (c : Complaint) {r r' : Rule α}
    (hr : R false r r') :
    R false (if p then Rule.peek >>= fun t => Rule.note t c >>= fun _ => r else r)
      (if p then Rule.peek >>= fun t => Rule.note t c >>= fun _ => r' else r') := by
  by_cases hp : p
  · rw [if_pos hp, if_pos hp]
    exact h.bind h.peek fun t => h.bind (h.note t c) fun _ => hr
  · rw [if_neg hp, if_neg hp]
    exact hr

end Compatible
end Rule

namespace Grammar

open Rule

section

variable {R : ∀ {α : Type}, Bool → Rule α → Rule α → Prop}

/-! ## Expressions -/

/-- The rules of expressions to two depths. -/
structure ExprsRelated (R : ∀ {α : Type}, Bool → Rule α → Rule α → Prop) (n m : Nat)
    (d d' : Depth) : Prop where
  assignment : R false (assignment n d) (assignment m d')
  operand : ∀ o, R false (operand n d o) (operand m d' o)
  chain : ∀ l e, R false (chain n d l e) (chain m d' l e)
  suffixes : ∀ e, R false (suffixes n d e) (suffixes m d' e)
  argumentList : R false (argumentList n d) (argumentList m d')
  arguments : ∀ count, R false (arguments n d count) (arguments m d' count)
  primary : R false (primary n d) (primary m d')

namespace ExprsRelated

variable {n m : Nat} {d d' : Depth}

section

variable (h : Compatible R) (ih : ∀ {d d'}, d ≤ d' → ExprsRelated R n m d d') (hd : d ≤ d')

include h ih hd

theorem assignment_succ :
    R false (Grammar.assignment (n + 1) d) (Grammar.assignment (m + 1) d') := by
  rw [Grammar.assignment, Grammar.assignment]
  refine h.nest hd fun hd => ?_
  refine h.bind ((ih hd).operand _) fun target => h.bind (h.accept _) fun o => ?_
  cases o with
  | none => exact h.pure target
  | some equal =>
    refine h.bind (ih hd).assignment fun value => ?_
    cases target.assigned? value with
    | some e => exact h.pure e
    | none => exact h.bind (h.note _ _) fun _ => h.pure target

theorem operand_succ (o : Option Level) :
    R false (Grammar.operand (n + 1) d o) (Grammar.operand (m + 1) d' o) := by
  cases o with
  | some l =>
    rw [Grammar.operand, Grammar.operand]
    refine h.nest hd fun hd => ?_
    exact h.bind ((ih hd).operand _) fun left => (ih hd).chain l left
  | none =>
    rw [Grammar.operand, Grammar.operand]
    refine h.nest hd fun hd => ?_
    refine h.bind (h.takeIf _) fun o => ?_
    cases o with
    | some op => exact h.bind ((ih hd).operand none) fun e => h.pure _
    | none => exact h.bind (ih hd).primary (ih hd).suffixes

theorem chain_succ (l : Level) (left : Expr) :
    R false (Grammar.chain (n + 1) d l left) (Grammar.chain (m + 1) d' l left) := by
  rw [Grammar.chain, Grammar.chain]
  refine h.bind (h.takeIf _) fun o => ?_
  cases o with
  | none => exact h.pure left
  | some op => exact h.bind ((ih hd).operand _) fun right => (ih hd).chain l _

theorem suffixes_succ (e : Expr) :
    R false (Grammar.suffixes (n + 1) d e) (Grammar.suffixes (m + 1) d' e) := by
  rw [Grammar.suffixes, Grammar.suffixes]
  refine h.peekKind fun k => ?_
  split
  · refine h.pass (h.bind (ih hd).argumentList fun arguments => ?_)
    exact h.bind (h.expect _ _) fun paren => (ih hd).suffixes _
  · exact h.pass (h.bind (h.expect _ _) fun name => (ih hd).suffixes _)
  · exact h.anywhere (h.pure e) _

theorem argumentList_succ :
    R false (Grammar.argumentList (n + 1) d) (Grammar.argumentList (m + 1) d') := by
  rw [Grammar.argumentList, Grammar.argumentList]
  refine h.peekKind fun k => ?_
  split
  · exact h.anywhere (h.pure []) _
  · exact h.anywhere ((ih hd).arguments 0) _

theorem arguments_succ (count : Nat) :
    R false (Grammar.arguments (n + 1) d count) (Grammar.arguments (m + 1) d' count) := by
  rw [Grammar.arguments, Grammar.arguments]
  refine h.noteIf _ _ (h.bind (ih hd).assignment fun e => h.bind (h.accept _) fun o => ?_)
  cases o with
  | none => exact h.pure [e]
  | some _ => exact h.bind ((ih hd).arguments _) fun es => h.pure (e :: es)

theorem primary_succ :
    R false (Grammar.primary (n + 1) d) (Grammar.primary (m + 1) d') := by
  rw [Grammar.primary, Grammar.primary]
  refine h.nest hd fun hd => ?_
  refine h.bind h.peek fun t => h.peekKind fun k => ?_
  split
  · exact h.pass (h.pure _)
  · exact h.pass (h.pure _)
  · exact h.pass (h.pure _)
  · exact h.pass (h.pure _)
  · exact h.pass (h.pure _)
  · exact h.pass (h.bind (h.expect _ _) fun _ => h.bind (h.expect _ _) fun method => h.pure _)
  · exact h.pass (h.pure _)
  · exact h.pass (h.pure _)
  · exact h.pass (h.bind (ih hd).assignment fun e => h.bind (h.expect _ _) fun _ => h.pure _)
  · exact h.anywhere (h.reject _) _

end

theorem of_le (h : Compatible R) (hle : n ≤ m) (hd : d ≤ d') : ExprsRelated R n m d d' := by
  induction n generalizing m d d' with
  | zero =>
    exact ⟨h.exhausted _, fun _ => h.exhausted _, fun _ _ => h.exhausted _, fun _ => h.exhausted _,
      h.exhausted _, fun _ => h.exhausted _, h.exhausted _⟩
  | succ n ih =>
    obtain ⟨m, rfl⟩ : ∃ k, m = k + 1 := ⟨m - 1, by omega⟩
    have ih {e e' : Depth} (he : e ≤ e') : ExprsRelated R n m e e' :=
      ih (Nat.le_of_succ_le_succ hle) he
    exact ⟨assignment_succ h ih hd, operand_succ h ih hd, chain_succ h ih hd, suffixes_succ h ih hd,
      argumentList_succ h ih hd, arguments_succ h ih hd, primary_succ h ih hd⟩

end ExprsRelated

/-! ## Parts of statements -/

variable {n m : Nat} {d d' : Depth}

section

variable (h : Compatible R) (hle : n ≤ m) (hd : d ≤ d')

include h hle hd in
theorem related_expression : R false (expression n d) (expression m d') :=
  (ExprsRelated.of_le h hle hd).assignment

include h hle in
theorem related_parameters (count : Nat) :
    R false (parameters n count) (parameters m count) := by
  induction n generalizing m count with
  | zero => exact h.exhausted _
  | succ n ih =>
    obtain ⟨m, rfl⟩ : ∃ k, m = k + 1 := ⟨m - 1, by omega⟩
    rw [parameters, parameters]
    refine h.noteIf _ _ (h.bind (h.expect _ _) fun name => h.bind (h.accept _) fun o => ?_)
    cases o with
    | none => exact h.pure [name]
    | some _ => exact h.bind (ih (Nat.le_of_succ_le_succ hle) _) fun names => h.pure (name :: names)

include h hle in
theorem related_parameterList : R false (parameterList n) (parameterList m) := by
  refine h.peekKind fun k => ?_
  split
  · exact h.anywhere (h.pure []) _
  · exact h.anywhere (related_parameters h hle 0) _

include h hle hd in
theorem related_expressionUnless (kind : Kind) :
    R false (expressionUnless n d kind) (expressionUnless m d' kind) := by
  refine h.peekKind fun k => ?_
  split
  · exact h.anywhere (h.pure none) _
  · exact h.anywhere (h.map some (related_expression h hle hd)) _

include h hle hd in
theorem related_varDeclaration : R false (varDeclaration n d) (varDeclaration m d') := by
  refine h.bind (h.expect _ _) fun name => h.bind (h.accept _) fun o => ?_
  have hend (initializer : Option Expr) :=
    h.bind (h.expect .semicolon .variableEnd) fun _ => h.pure (Stmt.varDecl name initializer)
  cases o with
  | none => exact h.bind (h.pure none) hend
  | some _ => exact h.bind (h.map some (related_expression h hle hd)) hend

include h hle hd in
theorem related_expressionStatement :
    R false (expressionStatement n d) (expressionStatement m d') :=
  h.bind (related_expression h hle hd) fun _ => h.bind (h.expect _ _) fun _ => h.pure _

include h hle hd in
theorem related_printStatement : R false (printStatement n d) (printStatement m d') :=
  h.bind (related_expression h hle hd) fun _ => h.bind (h.expect _ _) fun _ => h.pure _

include h hle hd in
theorem related_returnStatement (keyword : Token) :
    R false (returnStatement n d keyword) (returnStatement m d' keyword) :=
  h.bind (related_expressionUnless h hle hd _) fun _ => h.bind (h.expect _ _) fun _ => h.pure _

include h hle hd in
theorem related_forInitializer : R false (forInitializer n d) (forInitializer m d') := by
  refine h.peekKind fun k => ?_
  split
  · exact h.pass (h.pure none)
  · exact h.pass (h.map some (related_varDeclaration h hle hd))
  · exact h.anywhere (h.map some (related_expressionStatement h hle hd)) _

include h in
theorem related_superclass : R false superclass superclass := by
  refine h.bind (h.accept _) fun o => ?_
  cases o with
  | none => exact h.pure none
  | some _ => exact h.map some (h.expect _ _)

end

/-! ## Statements and declarations -/

/-- The rules of statements to two depths. A declaration recovers, so it is only used with a token
in front. -/
structure StmtsRelated (R : ∀ {α : Type}, Bool → Rule α → Rule α → Prop) (n m : Nat)
    (d d' : Depth) : Prop where
  declaration : R true (declaration n d) (declaration m d')
  classDeclaration : R false (classDeclaration n d) (classDeclaration m d')
  methodList : R false (methodList n d) (methodList m d')
  function : ∀ callee, R false (function n d callee) (function m d' callee)
  statement : R false (statement n d) (statement m d')
  forStatement : R false (forStatement n d) (forStatement m d')
  ifStatement : R false (ifStatement n d) (ifStatement m d')
  whileStatement : R false (whileStatement n d) (whileStatement m d')
  block : R false (block n d) (block m d')
  declarations : ∀ inBlock, R false (declarations n d inBlock) (declarations m d' inBlock)

namespace StmtsRelated

section

variable (h : Compatible R) (hle : n ≤ m) (ih : ∀ {d d'}, d ≤ d' → StmtsRelated R n m d d')
  (hd : d ≤ d')

include h hle ih hd in
theorem attempt :
    R false (Grammar.attempt n d) (Grammar.attempt m d') := by
  refine h.peekKind fun k => ?_
  split
  · exact h.pass (ih hd).classDeclaration
  · exact h.pass (h.map _ ((ih hd).function _))
  · exact h.pass (related_varDeclaration h hle hd)
  · exact h.anywhere (ih hd).statement _

include h hle ih hd in
theorem declaration_succ :
    R true (Grammar.declaration (n + 1) d) (Grammar.declaration (m + 1) d') := by
  rw [declaration_eq, declaration_eq]
  exact h.nest hd fun hd => h.recover (attempt h hle ih hd)

include h ih hd in
theorem classDeclaration_succ :
    R false (Grammar.classDeclaration (n + 1) d) (Grammar.classDeclaration (m + 1) d') := by
  rw [Grammar.classDeclaration, Grammar.classDeclaration]
  refine h.nest hd fun hd => ?_
  refine h.bind (h.expect _ _) fun name => h.bind (related_superclass h) fun parent => ?_
  refine h.bind (h.expect _ _) fun _ => h.bind (ih hd).methodList fun methods => ?_
  exact h.bind (h.expect _ _) fun _ => h.pure _

include h ih hd in
theorem methodList_succ :
    R false (Grammar.methodList (n + 1) d) (Grammar.methodList (m + 1) d') := by
  rw [Grammar.methodList, Grammar.methodList]
  refine h.peekKind fun k => ?_
  split
  · exact h.anywhere (h.pure []) _
  · exact h.anywhere (h.pure []) _
  · refine h.anywhere (h.bind ((ih hd).function _) fun method => ?_) _
    exact h.bind (ih hd).methodList fun methods => h.pure (method :: methods)

include h hle ih hd in
theorem function_succ (callee : Callee) :
    R false (Grammar.function (n + 1) d callee) (Grammar.function (m + 1) d' callee) := by
  rw [Grammar.function, Grammar.function]
  refine h.nest hd fun hd => ?_
  refine h.bind (h.expect _ _) fun name => h.bind (h.expect _ _) fun _ => ?_
  refine h.bind (related_parameterList h hle) fun params => h.bind (h.expect _ _) fun _ => ?_
  exact h.bind (h.expect _ _) fun _ => h.bind (ih hd).block fun body => h.pure _

include h hle ih hd in
theorem statement_succ :
    R false (Grammar.statement (n + 1) d) (Grammar.statement (m + 1) d') := by
  rw [Grammar.statement, Grammar.statement]
  refine h.nest hd fun hd => ?_
  refine h.bind h.peek fun t => h.peekKind fun k => ?_
  split
  · exact h.pass (ih hd).forStatement
  · exact h.pass (ih hd).ifStatement
  · exact h.pass (related_printStatement h hle hd)
  · exact h.pass (related_returnStatement h hle hd t)
  · exact h.pass (ih hd).whileStatement
  · exact h.pass (h.map _ (ih hd).block)
  · exact h.anywhere (related_expressionStatement h hle hd) _

include h hle ih hd in
theorem forStatement_succ :
    R false (Grammar.forStatement (n + 1) d) (Grammar.forStatement (m + 1) d') := by
  rw [Grammar.forStatement, Grammar.forStatement]
  refine h.nest hd fun hd => ?_
  refine h.bind (h.expect _ _) fun _ =>
    h.bind (related_forInitializer h hle hd) fun initializer => ?_
  refine h.bind (related_expressionUnless h hle hd _) fun condition =>
    h.bind (h.expect _ _) fun _ => ?_
  refine h.bind (related_expressionUnless h hle hd _) fun increment =>
    h.bind (h.expect _ _) fun _ => ?_
  exact h.bind (ih hd).statement fun body => h.pure _

include h hle ih hd in
theorem ifStatement_succ :
    R false (Grammar.ifStatement (n + 1) d) (Grammar.ifStatement (m + 1) d') := by
  rw [Grammar.ifStatement, Grammar.ifStatement]
  refine h.nest hd fun hd => ?_
  refine h.bind (h.expect _ _) fun _ => h.bind (related_expression h hle hd) fun condition => ?_
  refine h.bind (h.expect _ _) fun _ => h.bind (ih hd).statement fun thenBranch =>
    h.bind (h.accept _) fun o => ?_
  cases o with
  | none => exact h.pure _
  | some _ => exact h.bind (ih hd).statement fun elseBranch => h.pure _

include h hle ih hd in
theorem whileStatement_succ :
    R false (Grammar.whileStatement (n + 1) d) (Grammar.whileStatement (m + 1) d') := by
  rw [Grammar.whileStatement, Grammar.whileStatement]
  refine h.nest hd fun hd => ?_
  refine h.bind (h.expect _ _) fun _ => h.bind (related_expression h hle hd) fun condition => ?_
  exact h.bind (h.expect _ _) fun _ => h.bind (ih hd).statement fun body => h.pure _

include h ih hd in
theorem block_succ :
    R false (Grammar.block (n + 1) d) (Grammar.block (m + 1) d') := by
  rw [Grammar.block, Grammar.block]
  refine h.nest hd fun hd => ?_
  exact h.bind ((ih hd).declarations _) fun body => h.bind (h.expect _ _) fun _ => h.pure body

include h ih hd in
theorem declarations_succ (inBlock : Bool) :
    R false (Grammar.declarations (n + 1) d inBlock) (Grammar.declarations (m + 1) d' inBlock) := by
  rw [Grammar.declarations, Grammar.declarations]
  refine h.peekKind fun k => ?_
  split
  · exact h.anywhere (h.pure []) _
  · rename_i hgo
    have hfront : (k != .eof) = true := by
      rw [bne_iff_ne]
      rintro rfl
      exact hgo rfl
    rw [hfront]
    exact h.bind (ih hd).declaration fun first => h.bind ((ih hd).declarations _) fun others =>
      h.pure _

end

theorem of_le (h : Compatible R) (hle : n ≤ m) (hd : d ≤ d') : StmtsRelated R n m d d' := by
  induction n generalizing m d d' with
  | zero =>
    exact ⟨h.weaken (h.exhausted _), h.exhausted _, h.exhausted _,
      fun _ => h.exhausted _, h.exhausted _, h.exhausted _, h.exhausted _, h.exhausted _,
      h.exhausted _, fun _ => h.exhausted _⟩
  | succ n ih =>
    obtain ⟨m, rfl⟩ : ∃ k, m = k + 1 := ⟨m - 1, by omega⟩
    have hle := Nat.le_of_succ_le_succ hle
    have ih {e e' : Depth} (he : e ≤ e') : StmtsRelated R n m e e' := ih hle he
    exact ⟨declaration_succ h hle ih hd, classDeclaration_succ h ih hd, methodList_succ h ih hd,
      function_succ h hle ih hd, statement_succ h hle ih hd, forStatement_succ h hle ih hd,
      ifStatement_succ h hle ih hd, whileStatement_succ h hle ih hd, block_succ h ih hd,
        declarations_succ h ih hd⟩

end StmtsRelated

theorem related_attempt (h : Compatible R) (hle : n ≤ m) (hd : d ≤ d') :
    R false (attempt n d) (attempt m d') :=
  StmtsRelated.attempt h hle (fun he => StmtsRelated.of_le h hle he) hd

end

end Grammar
end Lox
