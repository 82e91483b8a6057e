import Lox.Proofs.PhraseAcceptance
import Lox.Proofs.Sentences
import Mathlib.Data.List.TakeWhile

/-!
# Derived statements are read

The converse of `stmtRules`. What follows a statement matters in one case only: a statement that
ends in an `if` without `else` is not followed by an `else`. `parse_derived` puts both directions
together: a text is read without error if and only if it has a derivation, and then the statements
are its tree.
-/

namespace Lox

/-- The categories at which a statement begins that is no declaration. -/
def Kind.beginsStatement : Kind → Bool
  | .forKw | .ifKw | .printKw | .returnKw | .whileKw | .leftBrace => true
  | k => k.startsExpression

def Kind.beginsDeclaration : Kind → Bool
  | .classKw | .funKw | .varKw => true
  | k => k.beginsStatement

namespace Rule

theorem recover_done {α : Type} {r : Rule α} {eof : Token} {ts rest : List Token} {a : α}
    {es : List StaticError} (h : r eof ts = ⟨.done a, es, rest⟩) :
    recover r eof ts = ⟨.done (some a), es, rest⟩ := by
  rw [recover, h]

end Rule

namespace Derives

open Rule

theorem Effect.starts {ts : List Token} {s : Stmt} (h : Effect ts s) :
    (headKind ts).startsExpression := by
  obtain ⟨h, _⟩ := h
  rw [headKind_append h.ne_nil]
  exact h.starts

theorem Statement.begins {b : Bool} {ts : List Token} {s : Stmt} (h : Statement b ts s) :
    (headKind ts).beginsStatement := by
  cases h with
  | effect h =>
    have hs := h.starts
    revert hs
    cases headKind ts <;> simp [Kind.beginsStatement]
  | block h =>
    obtain ⟨hleft, _, _⟩ := h
    simp [Kind.beginsStatement, hleft]
  | _ => simp [Kind.beginsStatement, *]

theorem Declaration.begins {ts : List Token} {s : Stmt} (h : Declaration ts s) :
    (headKind ts).beginsDeclaration := by
  cases h with
  | cls hkey | function hkey => simp [Kind.beginsDeclaration, hkey]
  | «variable» h =>
    cases h with
    | plain hkey | initialized hkey => simp [Kind.beginsDeclaration, hkey]
  | statement h =>
    have hs := h.begins
    revert hs
    cases headKind ts <;> simp [Kind.beginsDeclaration]

theorem Declarations.begins {ts : List Token} {ss : List Stmt} (h : Declarations ts ss) :
    ts = [] ∨ (headKind ts).beginsDeclaration := by
  cases h with
  | nil => exact .inl rfl
  | cons h _ =>
    refine .inr ?_
    rw [headKind_append (ne_nil_of_headKind h.begins rfl)]
    exact h.begins

theorem Function.starts {ts : List Token} {f : FunDecl} (h : Function ts f) :
    headKind ts = .identifier := by
  obtain ⟨hname, _⟩ := h
  exact hname

end Derives

namespace Grammar

open Rule Derives

variable {used : List Token}

/-! ## Parts of statements -/

theorem parameters_of_lt {n count : Nat} (h : count < maxArguments) : parameters (n + 1) count = (do
    let name ← expect .identifier .parameterName
    match ← accept .comma with
    | none => pure [name]
    | some _ =>
      let names ← parameters n (count + 1)
      pure (name :: names)) := by
  rw [parameters]
  exact if_neg (Nat.not_le.2 h)

theorem parameters_read {ps : List Token} (h : Parameters used ps) (hne : ps ≠ []) {n count : Nat}
    (hn : used.length + 1 ≤ n) (hmax : count + ps.length ≤ maxArguments) (eof : Token)
    {rest : List Token} (hrest : headKind rest = .rightParen) :
    parameters n count eof (used ++ rest) = ⟨.done ps, [], rest⟩ := by
  induction h generalizing n count with
  | none => exact absurd rfl hne
  | one hk =>
    cases n with
    | zero => omega
    | succ n =>
      rw [parameters_of_lt hmax, List.singleton_append,
        bind_clean (expect_of_kind _ hk _ _), bind_clean (accept_of_not_kind (by simp [hrest]))]
      rfl
  | more hk hcomma _ ih =>
    simp only [List.length_cons] at hn hmax
    cases n with
    | zero => omega
    | succ n =>
      have hmore := ih (by simp) (show _ ≤ n by omega) (show count + 1 + _ ≤ _ by
        simp only [List.length_cons]; omega)
      rw [parameters_of_lt (by omega), List.cons_append, bind_clean (expect_of_kind _ hk _ _),
        List.cons_append, bind_clean (accept_of_kind hcomma _ _)]
      exact bind_clean hmore _

theorem parameterList_read {ps : List Token} (h : Parameters used ps) {n : Nat}
    (hn : used.length + 1 ≤ n) (hmax : ps.length ≤ maxArguments) (eof : Token)
    {rest : List Token} (hrest : headKind rest = .rightParen) :
    parameterList n eof (used ++ rest) = ⟨.done ps, [], rest⟩ := by
  rw [parameterList, peekKind_bind]
  by_cases hne : ps = []
  · subst hne
    cases h
    rw [List.nil_append, if_pos hrest, pure_apply]
  · have hkind : headKind (used ++ rest) = .identifier := by
      cases h with
      | none => exact absurd rfl hne
      | one hk => exact hk
      | more hk _ _ => exact hk
    rw [if_neg (by rw [hkind]; decide)]
    exact parameters_read h hne hn (by omega) eof hrest

/-- An expression in front of a token that ends it. -/
theorem expression_read {ts : List Token} {e : Expr} (h : Assignment ts e) {n : Nat}
    (hn : 16 * ts.length ≤ n) {stop : Token} (hstop : stop.kind = .semicolon ∨
      stop.kind = .rightParen)
    (eof : Token) (rest : List Token) :
    expression n .unlimited eof (ts ++ stop :: rest) = ⟨.done e, [], stop :: rest⟩ := by
  refine assignment_read h n eof _ hn ?_ ?_ <;> rcases hstop with hk | hk <;>
    rw [headKind_cons, hk] <;>
    decide

theorem expressionUnless_read {o : Option Expr} (h : OptionalExpression used o) {n : Nat}
    (hn : 16 * used.length ≤ n) {stop : Token}
    (hstop : stop.kind = .semicolon ∨ stop.kind = .rightParen) (eof : Token) (rest : List Token) :
    expressionUnless n .unlimited stop.kind eof (used ++ stop :: rest) =
      ⟨.done o, [], stop :: rest⟩ := by
  rw [expressionUnless, peekKind_bind]
  cases h with
  | none => rw [List.nil_append, headKind_cons, if_pos rfl, pure_apply]
  | some h =>
    have hkind : headKind (used ++ stop :: rest) ≠ stop.kind := by
      rw [headKind_append h.ne_nil]
      intro hk
      have hs := h.starts
      rw [hk] at hs
      rcases hstop with hk | hk <;> rw [hk] at hs <;> exact absurd hs (by decide)
    rw [if_neg hkind]
    exact bind_clean (expression_read h hn hstop eof rest) _

/-- What follows `var` is read. -/
theorem variable_read {s : Stmt} (h : Variable used s) : ∃ keyword ts, used = keyword :: ts ∧
    keyword.kind = .varKw ∧ ∀ {n : Nat}, 16 * ts.length ≤ n → ∀ (eof : Token) (rest : List Token),
      varDeclaration n .unlimited eof (ts ++ rest) = ⟨.done s, [], rest⟩ := by
  cases h with
  | plain hkey hk hstop =>
    refine ⟨_, _, rfl, hkey, fun _ eof rest => ?_⟩
    rw [varDeclaration, List.cons_append, bind_clean (expect_of_kind _ hk _ _),
      bind_clean (accept_of_not_kind (by simp [hstop]))]
    dsimp only
    rw [pure_bind_apply]
    exact bind_clean (expect_of_kind _ hstop _ _) _
  | initialized hkey hk hequal h hstop =>
    refine ⟨_, _, rfl, hkey, fun {n} hn eof rest => ?_⟩
    simp only [List.length_cons, List.length_append] at hn
    have hvalue := bind_clean (expression_read h (show _ ≤ n by omega) (.inl hstop) eof rest)
      fun e => pure (some e)
    rw [varDeclaration, List.cons_append, bind_clean (expect_of_kind _ hk _ _), List.cons_append,
      bind_clean (accept_of_kind hequal _ _), List.append_assoc]
    dsimp only
    rw [map_eq, List.singleton_append, bind_clean hvalue]
    exact bind_clean (expect_of_kind _ hstop _ _) _

theorem effect_read {s : Stmt} (h : Effect used s) {n : Nat} (hn : 16 * used.length ≤ n + 16)
    (eof : Token) (rest : List Token) :
    expressionStatement n .unlimited eof (used ++ rest) = ⟨.done s, [], rest⟩ := by
  obtain ⟨h, hstop⟩ := h
  simp only [List.length_append, List.length_cons, List.length_nil] at hn
  rw [expressionStatement, List.append_assoc, List.singleton_append,
    bind_clean (expression_read h (by omega) (.inl hstop) eof rest)]
  exact bind_clean (expect_of_kind _ hstop _ _) _

theorem initializer_read {i : Option Stmt} (h : Initializer used i) {n : Nat}
    (hn : 16 * used.length ≤ n) (eof : Token) (rest : List Token) :
    forInitializer n .unlimited eof (used ++ rest) = ⟨.done i, [], rest⟩ := by
  rw [forInitializer, peekKind_bind]
  cases h with
  | none hstop =>
    rw [List.singleton_append, headKind_cons, hstop]
    rfl
  | «variable» h =>
    obtain ⟨keyword, ts, rfl, hkey, hread⟩ := variable_read h
    simp only [List.length_cons] at hn
    rw [List.cons_append, headKind_cons, hkey]
    dsimp only
    rw [skip_bind, map_eq]
    exact bind_clean (hread (by omega) eof rest) _
  | effect h =>
    have hs := h.starts
    have hread :=
      bind_clean (effect_read h (show _ ≤ n + 16 by omega) eof rest) fun s => pure (some s)
    rw [headKind_append (ne_nil_of_headKind hs rfl)]
    revert hs
    cases headKind used <;> simp [Kind.startsExpression, Kind.startsPrimary, Kind.isPrefixOperator]
    all_goals exact hread

theorem superclass_read {parent : Option Token} (h : Superclass used parent) (eof : Token)
    {rest : List Token} (hrest : headKind rest = .leftBrace) :
    superclass eof (used ++ rest) = ⟨.done parent, [], rest⟩ := by
  rw [superclass]
  cases h with
  | none =>
    rw [List.nil_append, bind_clean (accept_of_not_kind (by simp [hrest]))]
    rfl
  | some hless hk =>
    rw [List.cons_append, bind_clean (accept_of_kind hless _ _)]
    exact bind_clean (expect_of_kind _ hk _ _) _

/-! ## Statements and declarations -/

def StatementRead (b : Bool) (used : List Token) (s : Stmt) : Prop :=
  ∀ (n : Nat) (eof : Token) (rest : List Token), 16 * used.length ≤ n →
    (b = true → headKind rest ≠ .elseKw) →
      statement n .unlimited eof (used ++ rest) = ⟨.done s, [], rest⟩

def DeclarationRead (used : List Token) (s : Stmt) : Prop :=
  ∀ (n : Nat) (eof : Token) (rest : List Token), 16 * used.length + 1 ≤ n →
    headKind rest ≠ .elseKw →
      declaration n .unlimited eof (used ++ rest) = ⟨.done (some s), [], rest⟩

def DeclarationsRead (used : List Token) (ss : List Stmt) : Prop :=
  ∀ (n : Nat) (inBlock : Bool) (eof : Token) (rest : List Token), 16 * used.length + 2 ≤ n →
    headKind rest = .eof ∨ inBlock = true ∧ headKind rest = .rightBrace →
    declarations n .unlimited inBlock eof (used ++ rest) = ⟨.done ss, [], rest⟩

/-- What follows the opening brace is read. -/
def BlockRead (used : List Token) (body : List Stmt) : Prop :=
  ∃ left ts, used = left :: ts ∧ left.kind = .leftBrace ∧
    ∀ (n : Nat) (eof : Token) (rest : List Token), 16 * ts.length ≤ n →
      block n .unlimited eof (ts ++ rest) = ⟨.done body, [], rest⟩

def FunctionRead (used : List Token) (f : FunDecl) : Prop :=
  ∀ (n : Nat) (c : Callee) (eof : Token) (rest : List Token), 16 * used.length ≤ n →
    function n .unlimited c eof (used ++ rest) = ⟨.done f, [], rest⟩

def MethodsRead (used : List Token) (fs : List FunDecl) : Prop :=
  ∀ (n : Nat) (eof : Token) (rest : List Token), 16 * used.length + 1 ≤ n →
    headKind rest = .rightBrace → methodList n .unlimited eof (used ++ rest) = ⟨.done fs, [], rest⟩

theorem StatementRead.effect {s : Stmt} (h : Effect used s) : StatementRead false used s := by
  intro n eof rest hn _
  have hs := h.starts
  have hlen := List.length_pos_iff.2 (ne_nil_of_headKind hs rfl)
  cases n with
  | zero => omega
  | succ n =>
    have hread := effect_read h (show _ ≤ n + 16 by omega) eof rest
    rw [statement, nest_unlimited, peek_bind, peekKind_bind,
      headKind_append (ne_nil_of_headKind hs rfl)]
    revert hs
    cases headKind used <;> simp [Kind.startsExpression, Kind.startsPrimary, Kind.isPrefixOperator]
    all_goals exact hread

theorem StatementRead.print {keyword stop : Token} {e : Expr} (hkey : keyword.kind = .printKw)
    (h : Assignment used e) (hstop : stop.kind = .semicolon) :
    StatementRead false (keyword :: (used ++ [stop])) (.print e) := by
  intro n eof rest hn _
  simp only [List.length_cons, List.length_append, List.length_nil] at hn
  cases n with
  | zero => omega
  | succ n =>
    rw [statement, nest_unlimited, peek_bind, peekKind_bind, List.cons_append, headKind_cons, hkey,
      List.append_assoc, List.singleton_append]
    dsimp only
    rw [skip_bind, printStatement,
      bind_clean (expression_read h (show _ ≤ n by omega) (.inl hstop) eof rest)]
    exact bind_clean (expect_of_kind _ hstop _ _) _

theorem StatementRead.ret {keyword stop : Token} {o : Option Expr} (hkey : keyword.kind = .returnKw)
    (h : OptionalExpression used o) (hstop : stop.kind = .semicolon) :
    StatementRead false (keyword :: (used ++ [stop])) (.ret keyword o) := by
  intro n eof rest hn _
  simp only [List.length_cons, List.length_append, List.length_nil] at hn
  cases n with
  | zero => omega
  | succ n =>
    have hread := expressionUnless_read h (show _ ≤ n by omega) (.inl hstop) eof rest
    rw [hstop] at hread
    rw [statement, nest_unlimited, peek_bind, peekKind_bind, List.cons_append, headKind_cons, hkey,
      List.append_assoc, List.singleton_append]
    dsimp only
    rw [skip_bind, returnStatement, bind_clean hread]
    exact bind_clean (expect_of_kind _ hstop _ _) _

theorem StatementRead.block {body : List Stmt} (h : BlockRead used body) :
    StatementRead false used (.block body) := by
  intro n eof rest hn _
  obtain ⟨left, ts, rfl, hleft, hread⟩ := h
  simp only [List.length_cons] at hn
  cases n with
  | zero => omega
  | succ n =>
    rw [statement, nest_unlimited, peek_bind, peekKind_bind, List.cons_append, headKind_cons, hleft]
    dsimp only
    rw [skip_bind, map_eq]
    exact bind_clean (hread n eof rest (by omega)) _

theorem StatementRead.whileDo {b : Bool} {keyword left right : Token} {ts : List Token} {c : Expr}
    {s : Stmt} (hkey : keyword.kind = .whileKw) (hleft : left.kind = .leftParen)
    (hc : Assignment used c) (hright : right.kind = .rightParen) (hs : StatementRead b ts s) :
    StatementRead b (keyword :: left :: (used ++ right :: ts)) (.whileDo c s) := by
  intro n eof rest hn hrest
  simp only [List.length_cons, List.length_append] at hn
  obtain ⟨n, rfl⟩ : ∃ k, n = k + 2 := ⟨n - 2, by omega⟩
  have hcond := expression_read hc (show _ ≤ n by omega) (.inr hright) eof (ts ++ rest)
  rw [statement, nest_unlimited, peek_bind, peekKind_bind, List.cons_append, headKind_cons, hkey]
  dsimp only
  rw [skip_bind, whileStatement, nest_unlimited, List.cons_append,
    bind_clean (expect_of_kind _ hleft _ _), List.append_assoc, List.cons_append, bind_clean hcond,
    bind_clean (expect_of_kind _ hright _ _)]
  exact bind_clean (hs n eof rest (by omega) hrest) _

theorem StatementRead.forDo {b : Bool} {keyword left stop right : Token} {cs ns ts : List Token}
    {i : Option Stmt} {c m : Option Expr} {s : Stmt} (hkey : keyword.kind = .forKw)
    (hleft : left.kind = .leftParen) (hi : Initializer used i) (hc : OptionalExpression cs c)
    (hstop : stop.kind = .semicolon) (hm : OptionalExpression ns m)
    (hright : right.kind = .rightParen) (hs : StatementRead b ts s) :
    StatementRead b (keyword :: left :: (used ++ (cs ++ stop :: (ns ++ right :: ts))))
      (.forLoop i c m s) := by
  intro n eof rest hn hrest
  simp only [List.length_cons, List.length_append] at hn
  obtain ⟨n, rfl⟩ : ∃ k, n = k + 2 := ⟨n - 2, by omega⟩
  have hinit := initializer_read hi (show _ ≤ n by omega) eof
    (cs ++ stop :: (ns ++ right :: (ts ++ rest)))
  have hcond := expressionUnless_read hc (show _ ≤ n by omega) (.inl hstop) eof
    (ns ++ right :: (ts ++ rest))
  have hinc := expressionUnless_read hm (show _ ≤ n by omega) (.inr hright) eof (ts ++ rest)
  rw [hstop] at hcond
  rw [hright] at hinc
  rw [statement, nest_unlimited, peek_bind, peekKind_bind, List.cons_append, headKind_cons, hkey]
  dsimp only
  rw [skip_bind, forStatement, nest_unlimited, List.cons_append,
    bind_clean (expect_of_kind _ hleft _ _)]
  simp only [List.append_assoc, List.cons_append]
  rw [bind_clean hinit, bind_clean hcond, bind_clean (expect_of_kind _ hstop _ _), bind_clean hinc,
    bind_clean (expect_of_kind _ hright _ _)]
  exact bind_clean (hs n eof rest (by omega) hrest) _

theorem StatementRead.ifThen {b : Bool} {keyword left right : Token} {ts : List Token} {c : Expr}
    {s : Stmt} (hkey : keyword.kind = .ifKw) (hleft : left.kind = .leftParen)
    (hc : Assignment used c) (hright : right.kind = .rightParen) (hs : StatementRead b ts s) :
    StatementRead true (keyword :: left :: (used ++ right :: ts)) (.ifElse c s none) := by
  intro n eof rest hn hrest
  simp only [List.length_cons, List.length_append] at hn
  obtain ⟨n, rfl⟩ : ∃ k, n = k + 2 := ⟨n - 2, by omega⟩
  have hcond := expression_read hc (show _ ≤ n by omega) (.inr hright) eof (ts ++ rest)
  rw [statement, nest_unlimited, peek_bind, peekKind_bind, List.cons_append, headKind_cons, hkey]
  dsimp only
  rw [skip_bind, ifStatement, nest_unlimited, List.cons_append,
    bind_clean (expect_of_kind _ hleft _ _), List.append_assoc, List.cons_append, bind_clean hcond,
    bind_clean (expect_of_kind _ hright _ _),
    bind_clean (hs n eof rest (by omega) fun _ => hrest rfl),
    bind_clean (accept_of_not_kind (hrest rfl))]
  rfl

theorem StatementRead.ifElse {b : Bool} {keyword left right other : Token} {ts us : List Token}
    {c : Expr} {s t : Stmt} (hkey : keyword.kind = .ifKw) (hleft : left.kind = .leftParen)
    (hc : Assignment used c) (hright : right.kind = .rightParen) (hs : StatementRead false ts s)
    (hother : other.kind = .elseKw) (ht : StatementRead b us t) :
    StatementRead b (keyword :: left :: (used ++ right :: (ts ++ other :: us)))
      (.ifElse c s (some t)) := by
  intro n eof rest hn hrest
  simp only [List.length_cons, List.length_append] at hn
  obtain ⟨n, rfl⟩ : ∃ k, n = k + 2 := ⟨n - 2, by omega⟩
  have hcond := expression_read hc (show _ ≤ n by omega) (.inr hright) eof
    (ts ++ other :: (us ++ rest))
  rw [statement, nest_unlimited, peek_bind, peekKind_bind, List.cons_append, headKind_cons, hkey]
  dsimp only
  rw [skip_bind, ifStatement, nest_unlimited, List.cons_append,
    bind_clean (expect_of_kind _ hleft _ _)]
  simp only [List.append_assoc, List.cons_append]
  rw [bind_clean hcond, bind_clean (expect_of_kind _ hright _ _),
    bind_clean (hs n eof _ (by omega) (by simp)), bind_clean (accept_of_kind hother _ _)]
  exact bind_clean (ht n eof rest (by omega) hrest) _

theorem DeclarationRead.statement {b : Bool} {s : Stmt} (h : StatementRead b used s)
    (hs : (headKind used).beginsStatement) : DeclarationRead used s := by
  intro n eof rest hn hrest
  cases n with
  | zero => omega
  | succ n =>
    have hread := h n eof rest (by omega) fun _ => hrest
    rw [declaration, nest_unlimited]
    apply recover_done
    rw [peekKind_bind, headKind_append (ne_nil_of_headKind hs rfl)]
    revert hs
    cases headKind used <;>
      simp [Kind.beginsStatement, Kind.startsExpression, Kind.startsPrimary, Kind.isPrefixOperator]
    all_goals exact hread

theorem DeclarationRead.variable {s : Stmt} (h : Variable used s) : DeclarationRead used s := by
  intro n eof rest hn _
  obtain ⟨keyword, ts, rfl, hkey, hread⟩ := variable_read h
  simp only [List.length_cons] at hn
  cases n with
  | zero => omega
  | succ n =>
    rw [declaration, nest_unlimited]
    apply recover_done
    rw [peekKind_bind, List.cons_append, headKind_cons, hkey]
    exact hread (by omega) eof rest

theorem DeclarationRead.function {keyword : Token} {f : FunDecl} (hkey : keyword.kind = .funKw)
    (h : FunctionRead used f) : DeclarationRead (keyword :: used) (.funDecl f) := by
  intro n eof rest hn _
  simp only [List.length_cons] at hn
  cases n with
  | zero => omega
  | succ n =>
    rw [declaration, nest_unlimited]
    apply recover_done
    rw [peekKind_bind, List.cons_append, headKind_cons, hkey]
    dsimp only
    rw [skip_bind, map_eq]
    exact bind_clean (h n .function eof rest (by omega)) _

theorem DeclarationRead.cls {keyword name left right : Token} {ms : List Token}
    {parent : Option Token} {methods : List FunDecl} (hkey : keyword.kind = .classKw)
    (hname : name.kind = .identifier) (hparent : Superclass used parent)
    (hleft : left.kind = .leftBrace) (h : MethodsRead ms methods)
    (hright : right.kind = .rightBrace) :
    DeclarationRead (keyword :: name :: (used ++ left :: (ms ++ [right])))
      (.classDecl name parent methods) := by
  intro n eof rest hn _
  simp only [List.length_cons, List.length_append] at hn
  obtain ⟨n, rfl⟩ : ∃ k, n = k + 2 := ⟨n - 2, by omega⟩
  have hsuper := superclass_read hparent eof
    (show headKind (left :: (ms ++ right :: rest)) = _ from hleft)
  rw [declaration, nest_unlimited]
  apply recover_done
  rw [peekKind_bind, List.cons_append, headKind_cons, hkey]
  dsimp only
  rw [skip_bind, classDeclaration, nest_unlimited, List.cons_append,
    bind_clean (expect_of_kind _ hname _ _)]
  simp only [List.append_assoc, List.cons_append, List.nil_append]
  rw [bind_clean hsuper, bind_clean (expect_of_kind _ hleft _ _),
    bind_clean (h n eof (right :: rest) (by omega) hright)]
  exact bind_clean (expect_of_kind _ hright _ _) _

theorem FunctionRead.mk {name left right : Token} {ts params : List Token} {body : List Stmt}
    (hname : name.kind = .identifier) (hleft : left.kind = .leftParen)
    (hparams : Parameters used params) (hmax : params.length ≤ maxArguments)
    (hright : right.kind = .rightParen) (h : BlockRead ts body) :
    FunctionRead (name :: left :: (used ++ right :: ts)) ⟨name, params, body⟩ := by
  intro n c eof rest hn
  obtain ⟨brace, us, rfl, hbrace, hread⟩ := h
  simp only [List.length_cons, List.length_append] at hn
  cases n with
  | zero => omega
  | succ n =>
    have hlist := parameterList_read hparams (show _ ≤ n by omega) hmax eof
      (show headKind (right :: brace :: (us ++ rest)) = _ from hright)
    rw [Grammar.function, nest_unlimited, List.cons_append, bind_clean (expect_of_kind _ hname _ _),
      List.cons_append, bind_clean (expect_of_kind _ hleft _ _)]
    simp only [List.append_assoc, List.cons_append]
    rw [bind_clean hlist, bind_clean (expect_of_kind _ hright _ _),
      bind_clean (expect_of_kind _ hbrace _ _)]
    exact bind_clean (hread n eof rest (by omega)) _

theorem MethodsRead.nil : MethodsRead [] [] := by
  intro n eof rest hn hrest
  cases n with
  | zero => omega
  | succ n =>
    rw [methodList, peekKind_bind, List.nil_append, hrest]
    rfl

theorem MethodsRead.cons {us : List Token} {f : FunDecl} {fs : List FunDecl}
    (hkind : headKind used = .identifier) (h : FunctionRead used f) (hs : MethodsRead us fs) :
    MethodsRead (used ++ us) (f :: fs) := by
  intro n eof rest hn hrest
  have hne : used ≠ [] := by
    rintro rfl
    exact absurd hkind (by decide)
  have hlen := List.length_pos_iff.2 hne
  simp only [List.length_append] at hn
  cases n with
  | zero => omega
  | succ n =>
    rw [methodList, peekKind_bind, List.append_assoc, headKind_append hne, hkind]
    dsimp only
    rw [bind_clean (h n .method eof _ (by omega))]
    exact bind_clean (hs n eof rest (by omega) hrest) _

theorem BlockRead.mk {left right : Token} {body : List Stmt} (hleft : left.kind = .leftBrace)
    (h : DeclarationsRead used body) (hright : right.kind = .rightBrace) :
    BlockRead (left :: (used ++ [right])) body := by
  refine ⟨left, _, rfl, hleft, fun n eof rest hn => ?_⟩
  simp only [List.length_append, List.length_cons, List.length_nil] at hn
  cases n with
  | zero => omega
  | succ n =>
    rw [Grammar.block, nest_unlimited, List.append_assoc, List.singleton_append,
      bind_clean (h n true eof (right :: rest) (by omega) (.inr ⟨rfl, hright⟩))]
    exact bind_clean (expect_of_kind _ hright _ _) _

theorem DeclarationsRead.nil : DeclarationsRead [] [] := by
  intro n inBlock eof rest hn hrest
  cases n with
  | zero => omega
  | succ n =>
    have hstop : (headKind rest = .eof || (inBlock && headKind rest = .rightBrace)) = true := by
      rcases hrest with h | ⟨rfl, h⟩ <;> simp [h]
    rw [declarations, peekKind_bind, List.nil_append, if_pos hstop, pure_apply]

/-- What follows a declaration is another one or the end, so that no `else` follows. -/
theorem DeclarationsRead.cons {us : List Token} {s : Stmt} {ss : List Stmt}
    (hkind : (headKind used).beginsDeclaration) (h : DeclarationRead used s)
    (hus : us = [] ∨ (headKind us).beginsDeclaration) (hs : DeclarationsRead us ss) :
    DeclarationsRead (used ++ us) (s :: ss) := by
  intro n inBlock eof rest hn hrest
  have hne := ne_nil_of_headKind hkind rfl
  have hlen := List.length_pos_iff.2 hne
  have helse : headKind (us ++ rest) ≠ .elseKw := by
    rcases hus with rfl | hus
    · rw [List.nil_append]
      rcases hrest with h | ⟨-, h⟩ <;> simp [h]
    · rw [headKind_append (ne_nil_of_headKind hus rfl)]
      intro hk
      rw [hk] at hus
      exact absurd hus (by decide)
  simp only [List.length_append] at hn
  cases n with
  | zero => omega
  | succ n =>
    have hgo : ¬ (headKind used = .eof || (inBlock && headKind used = .rightBrace)) = true := by
      revert hkind
      cases headKind used <;>
        simp [Kind.beginsDeclaration, Kind.beginsStatement, Kind.startsExpression,
          Kind.startsPrimary, Kind.isPrefixOperator]
    rw [declarations, peekKind_bind, List.append_assoc, headKind_append hne, if_neg hgo,
      bind_clean (h n eof _ (by omega) helse)]
    exact bind_clean (hs n inBlock eof rest (by omega) hrest) _

mutual

theorem declaration_read : ∀ {ts : List Token} {s : Stmt}, Declaration ts s → DeclarationRead ts s
  | _, _, .cls hkey hname hparent hleft hms hright =>
    .cls hkey hname hparent hleft (methods_read hms) hright
  | _, _, .function hkey h => .function hkey (function_read h)
  | _, _, .variable h => .variable h
  | _, _, .statement h => .statement (statement_read h) h.begins

theorem function_read : ∀ {ts : List Token} {f : FunDecl}, Function ts f → FunctionRead ts f
  | _, _, .mk hname hleft hparams hmax hright h =>
    .mk hname hleft hparams hmax hright (block_read h)

theorem methods_read : ∀ {ts : List Token} {fs : List FunDecl}, Methods ts fs → MethodsRead ts fs
  | _, _, .nil => .nil
  | _, _, .cons h hs => .cons h.starts (function_read h) (methods_read hs)

theorem block_read : ∀ {ts : List Token} {body : List Stmt}, Block ts body → BlockRead ts body
  | _, _, .mk hleft h hright => .mk hleft (declarations_read h) hright

theorem declarations_read : ∀ {ts : List Token} {ss : List Stmt}, Declarations ts ss →
    DeclarationsRead ts ss
  | _, _, .nil => .nil
  | _, _, .cons h hs => .cons h.begins (declaration_read h) hs.begins (declarations_read hs)

theorem statement_read : ∀ {b : Bool} {ts : List Token} {s : Stmt}, Statement b ts s →
    StatementRead b ts s
  | _, _, _, .effect h => .effect h
  | _, _, _, .print hkey h hstop => .print hkey h hstop
  | _, _, _, .ret hkey h hstop => .ret hkey h hstop
  | _, _, _, .block h => .block (block_read h)
  | _, _, _, .whileDo hkey hleft hc hright h => .whileDo hkey hleft hc hright (statement_read h)
  | _, _, _, .forDo hkey hleft hi hc hstop hm hright h =>
    .forDo hkey hleft hi hc hstop hm hright (statement_read h)
  | _, _, _, .ifThen hkey hleft hc hright h => .ifThen hkey hleft hc hright (statement_read h)
  | _, _, _, .ifElse hkey hleft hc hright h hother h' =>
    .ifElse hkey hleft hc hright (statement_read h) hother (statement_read h')

end

end Grammar

open Grammar Derives in
/-- A text is read without error if and only if it has a derivation, and the tree of the derivation
is then the one that is read. -/
theorem parse_derived {tokens : List Token} (htokens : ∀ t ∈ tokens, t.kind ≠ .eof) (eof : Token)
    (ss : List Stmt) : Declarations tokens ss ↔ parse tokens eof = ⟨ss, []⟩ := by
  have htake : tokens.takeWhile (·.kind ≠ .eof) = tokens :=
    List.takeWhile_eq_self_iff.2 fun t ht => by simpa using htokens t ht
  constructor
  · intro h
    have hread := declarations_read h (stepsFor tokens) false
      ((tokens.dropWhile (·.kind ≠ .eof)).headD eof) [] (by rw [stepsFor]; omega) (.inl rfl)
    rw [List.append_nil] at hread
    rw [parse, readAll, htake, hread]
  · intro h
    have hfound := parse_found (P := fun _ => True) (fun t (_ : t ∈ tokens) => trivial) eof
    rw [htake, h] at hfound
    exact hfound.derived rfl

end Lox
