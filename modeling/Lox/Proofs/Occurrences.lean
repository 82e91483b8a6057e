import Lox.Proofs.Derivation
import Lox.Proofs.Resolving

/-!
# Occurrences

`Stmt.occurrences` lists the tokens of a tree and what each of them does there: it names a local
variable, refers to a name of an enclosing scope, or does something else. A reference is listed with
the distance of the scope and with the token that declares the name in it. The references are those
that resolution finds, in the same order and at the same distances (`resolutions_eq_occurrences`),
and a tree has each token of the text that it is derived from at most once
(`Derives.Declarations.tally_le`).
-/

namespace Lox

/-! ## Scopes with declarations -/

/-- The local scopes around a piece of program, from the inside out. Each name says which token
declares it; `this` and `super` are declared by none. -/
abbrev Binders := List (Bindings (Option Token))

namespace Binders

/-- Declares a name in the innermost scope. Globals are not declared. -/
def declare (s : Binders) (name : Token) : Binders :=
  match s with
  | [] => []
  | scope :: outer => scope.set name.lexeme (some name) :: outer

def declareAll (s : Binders) (names : List Token) : Binders := names.foldl declare s

def implicit (name : String) : Bindings (Option Token) := Bindings.empty.set name none

/-- The nearest scope that declares a name: its distance, and the token that declares the name. -/
def find? (s : Binders) (name : String) : Option (Nat × Option Token) :=
  match s with
  | [] => none
  | scope :: outer =>
    match scope.get? name with
    | some declaration => some (0, declaration)
    | none => (find? outer name).map fun found => (found.1 + 1, found.2)

def forMethods (s : Binders) (superclass : Option Token) : Binders :=
  match superclass with
  | none => implicit "this" :: s
  | some _ => implicit "this" :: implicit "super" :: s

def after (s : Binders) : Stmt → Binders
  | .varDecl name _ => s.declare name
  | .funDecl decl => s.declare decl.name
  | .classDecl name _ _ => s.declare name
  | _ => s

end Binders

/-! ## Roles -/

/-- What a token does in a program. -/
inductive Role where
  /-- It names a variable or a parameter of a local scope. -/
  | binder
  /-- It refers to a name of the local scope at a distance, where the name is declared by the given
  token. -/
  | reference (sort : Reference) (distance : Nat) (declaration : Option Token)
  /-- All else: the names of globals, functions, classes and properties, operators, parentheses and
  keywords. -/
  | other
  deriving DecidableEq

def Role.distance? : Role → Option Nat
  | .reference _ distance _ => some distance
  | _ => none

structure Occurrence where
  token : Token
  role : Role
  deriving DecidableEq

namespace Occurrence

def resolution? (o : Occurrence) : Option Resolution :=
  match o.role with
  | .reference sort distance _ => some ⟨sort, o.token, distance⟩
  | _ => none

/-- Whether a token names the variable that `declaration` declares, or refers to it. -/
def isOf (declaration : Token) (o : Occurrence) : Bool :=
  match o.role with
  | .binder => o.token = declaration
  | .reference _ _ found => found = some declaration
  | .other => false

/-- A token that is no local name. -/
def plain (t : Token) : Occurrence := ⟨t, .other⟩

end Occurrence

def Occurrence.All (P : Occurrence → Prop) (os : List Occurrence) : Prop := ∀ o ∈ os, P o

namespace Occurrence.All

variable {P : Occurrence → Prop} {os os' : List Occurrence} {o : Occurrence}

theorem nil : Occurrence.All P [] := fun _ ho => by cases ho

theorem cons (ho : P o) (h : Occurrence.All P os) : Occurrence.All P (o :: os) :=
  List.forall_mem_cons.2 ⟨ho, h⟩

theorem append (h : Occurrence.All P os) (h' : Occurrence.All P os') :
    Occurrence.All P (os ++ os') :=
  List.forall_mem_append.2 ⟨h, h'⟩

theorem left (h : Occurrence.All P (os ++ os')) : Occurrence.All P os :=
  fun o ho => h o (List.mem_append_left _ ho)

theorem right (h : Occurrence.All P (os ++ os')) : Occurrence.All P os' :=
  fun o ho => h o (List.mem_append_right _ ho)

theorem head (h : Occurrence.All P (o :: os)) : P o := h o List.mem_cons_self

theorem tail (h : Occurrence.All P (o :: os)) : Occurrence.All P os :=
  fun o ho => h o (List.mem_cons_of_mem _ ho)

end Occurrence.All

namespace Binders

def binder (s : Binders) (name : Token) : Occurrence :=
  ⟨name, if s.isEmpty then .other else .binder⟩

def reference (s : Binders) (r : Reference) (t : Token) : Occurrence :=
  ⟨t, (s.find? t.lexeme).elim .other fun found => .reference r found.1 found.2⟩

/-- A reference by a keyword: nothing declares its name. -/
def keyword (s : Binders) (r : Reference) (t : Token) : Occurrence :=
  ⟨t, (s.find? t.lexeme).elim .other fun found => .reference r found.1 none⟩

end Binders

open Occurrence (plain)

mutual

/-- The tokens of an expression. Those of references come in the order in which they are
resolved. -/
def Expr.occurrences (s : Binders) : Expr → List Occurrence
  | .literal _ => []
  | .var name => [s.reference .var name]
  | .assign name value => value.occurrences s ++ [s.reference .assign name]
  | .unary op operand => plain op :: operand.occurrences s
  | .binary left op right => left.occurrences s ++ plain op :: right.occurrences s
  | .logical left op right => left.occurrences s ++ plain op :: right.occurrences s
  | .grouping inner => inner.occurrences s
  | .call callee paren arguments =>
    callee.occurrences s ++ plain paren :: Expr.allOccurrences s arguments
  | .get object name => object.occurrences s ++ [plain name]
  | .set object name value => value.occurrences s ++ plain name :: object.occurrences s
  | .super keyword method => [s.keyword .super keyword, plain method]
  | .this keyword => [s.keyword .this keyword]

def Expr.allOccurrences (s : Binders) : List Expr → List Occurrence
  | [] => []
  | e :: es => e.occurrences s ++ Expr.allOccurrences s es

end

def Expr.optionOccurrences (s : Binders) : Option Expr → List Occurrence
  | none => []
  | some e => e.occurrences s

mutual

def Stmt.occurrences (s : Binders) : Stmt → List Occurrence
  | .expr value => value.occurrences s
  | .print value => value.occurrences s
  | .varDecl name initializer =>
    s.binder name :: Expr.optionOccurrences (s.declare name) initializer
  | .block body => Stmt.allOccurrences (.empty :: s) body
  | .ifElse condition thenBranch none => condition.occurrences s ++ thenBranch.occurrences s
  | .ifElse condition thenBranch (some elseBranch) =>
    condition.occurrences s ++ (thenBranch.occurrences s ++ elseBranch.occurrences s)
  | .whileDo condition body => condition.occurrences s ++ body.occurrences s
  | .funDecl decl => Stmt.functionOccurrences (s.declare decl.name) decl
  | .ret keyword value => plain keyword :: Expr.optionOccurrences s value
  | .classDecl name superclass methods =>
    plain name :: (superclass.toList.map ((s.declare name).reference .var) ++
      Stmt.methodOccurrences ((s.declare name).forMethods superclass) methods)

def Stmt.allOccurrences (s : Binders) : List Stmt → List Occurrence
  | [] => []
  | st :: rest => st.occurrences s ++ Stmt.allOccurrences (s.after st) rest

def Stmt.functionOccurrences (s : Binders) : Callable Stmt → List Occurrence
  | ⟨name, params, body⟩ => plain name :: (params.map (⟨·, .binder⟩) ++
      Stmt.allOccurrences (Binders.declareAll (.empty :: s) params) body)

def Stmt.methodOccurrences (s : Binders) : List (Callable Stmt) → List Occurrence
  | [] => []
  | m :: ms => Stmt.functionOccurrences s m ++ Stmt.methodOccurrences s ms

end

/-! ## What resolution finds -/

def Binders.Matches (s : Binders) (Γ : Static) : Prop :=
  List.Forall₂ (fun b g => ∀ x, (b.get? x).isSome = (g.get? x).isSome) s Γ

namespace Binders.Matches

variable {s : Binders} {Γ : Static}

theorem distance (h : s.Matches Γ) (x : String) : (s.find? x).map Prod.fst = Γ.distance? x := by
  induction h with
  | nil => rfl
  | @cons b g s Γ hbg _ ih =>
    have hx := hbg x
    rw [find?]
    cases hb : b.get? x with
    | some declaration =>
      rw [hb] at hx
      rw [Static.distance?_cons_of_some hx.symm]
      rfl
    | none =>
      rw [hb] at hx
      have hg : g.get? x = none := by simpa using hx.symm
      rw [Static.distance?_cons_of_none hg, ← ih]
      cases find? s x <;> rfl

theorem declare (h : s.Matches Γ) (name : Token) : (s.declare name).Matches (Γ.declare name) := by
  cases h with
  | nil => exact .nil
  | cons hbg h =>
    refine .cons (fun x => ?_) h
    rw [Bindings.get?_set, Bindings.get?_set]
    split
    · rfl
    · exact hbg x

theorem complete (h : s.Matches Γ) {name : Token}
    (hname : ∀ g ∈ Γ.head?, (g.get? name.lexeme).isSome) :
    s.Matches (Γ.complete name) := by
  cases h with
  | nil => exact .nil
  | cons hbg h =>
    refine .cons (fun x => ?_) h
    rw [Bindings.get?_set, hbg]
    split
    · rename_i hx
      rw [hx]
      exact hname _ rfl
    · rfl

theorem extend (h : s.Matches Γ) (name : Token) : (s.declare name).Matches (Γ.extend name) := by
  refine (h.declare name).complete fun g hg => ?_
  cases Γ with
  | nil => cases hg
  | cons scope Γ =>
    cases hg
    simp

theorem declareParams (h : s.Matches Γ) (params : List Token) :
    (s.declareAll params).Matches (Γ.declareParams params).1 := by
  rw [Static.declareParams_fst]
  induction params generalizing s Γ with
  | nil => exact h
  | cons p ps ih => exact ih (h.extend p)

theorem enter (h : s.Matches Γ) : Binders.Matches (.empty :: s) (.empty :: Γ) :=
  .cons (fun _ => rfl) h

theorem forMethods (h : s.Matches Γ) (superclass : Option Token) :
    (s.forMethods superclass).Matches (Γ.forMethods superclass) := by
  have himplicit : ∀ name x,
      ((implicit name).get? x).isSome = ((Static.single name).get? x).isSome := by
    intro name x
    rw [implicit, Static.single, Bindings.get?_set, Bindings.get?_set]
    split <;> rfl
  cases superclass with
  | none => exact .cons (himplicit _) h
  | some _ => exact .cons (himplicit _) (.cons (himplicit _) h)

/-- A reference is found where it is resolved. -/
theorem refer (h : s.Matches Γ) (r : Reference) (t : Token) :
    (Γ.refer r t).resolutions = [s.reference r t].filterMap Occurrence.resolution? := by
  rw [Static.refer, ← h.distance]
  cases hfind : s.find? t.lexeme <;>
    simp [Binders.reference, Occurrence.resolution?, hfind, Findings.none]

theorem keyword (h : s.Matches Γ) (r : Reference) (t : Token) :
    (Γ.refer r t).resolutions = [s.keyword r t].filterMap Occurrence.resolution? := by
  rw [Static.refer, ← h.distance]
  cases hfind : s.find? t.lexeme <;>
    simp [Binders.keyword, Occurrence.resolution?, hfind, Findings.none]

theorem referVar (h : s.Matches Γ) (t : Token) :
    (Γ.referVar t).resolutions = [s.reference .var t].filterMap Occurrence.resolution? := by
  rw [Static.referVar, Findings.resolutions_append, Findings.resolutions_errorIf,
    List.nil_append, h.refer]

end Binders.Matches

@[simp] theorem Occurrence.filterMap_plain (t : Token) (os : List Occurrence) :
    (plain t :: os).filterMap resolution? = os.filterMap resolution? := rfl

@[simp] theorem Occurrence.filterMap_binder (s : Binders) (t : Token) (os : List Occurrence) :
    (s.binder t :: os).filterMap resolution? = os.filterMap resolution? := by
  cases s <;> rfl

@[simp] theorem Occurrence.resolution?_binder (t : Token) : resolution? ⟨t, .binder⟩ = none := rfl

mutual

theorem Expr.resolutions_eq_occurrences {s : Binders} {Γ : Static} (ctx : Context)
    (h : s.Matches Γ) :
    ∀ e : Expr, (e.resolve ctx Γ).errors = [] →
      (e.resolve ctx Γ).resolutions = (e.occurrences s).filterMap Occurrence.resolution?
  | .literal _, _ => rfl
  | .var name, _ => h.referVar name
  | .assign name value, herr => by
    simp only [Expr.resolve, Findings.errors_append, List.append_eq_nil_iff] at herr
    simp [Expr.resolve, Expr.occurrences, value.resolutions_eq_occurrences ctx h herr.1, h.refer]
  | .unary op operand, herr => by
    simp [Expr.resolve, Expr.occurrences, operand.resolutions_eq_occurrences ctx h herr]
  | .binary left op right, herr => by
    simp only [Expr.resolve, Findings.errors_append, List.append_eq_nil_iff] at herr
    simp [Expr.resolve, Expr.occurrences, left.resolutions_eq_occurrences ctx h herr.1,
      right.resolutions_eq_occurrences ctx h herr.2]
  | .logical left op right, herr => by
    simp only [Expr.resolve, Findings.errors_append, List.append_eq_nil_iff] at herr
    simp [Expr.resolve, Expr.occurrences, left.resolutions_eq_occurrences ctx h herr.1,
      right.resolutions_eq_occurrences ctx h herr.2]
  | .grouping inner, herr => inner.resolutions_eq_occurrences ctx h herr
  | .call callee paren arguments, herr => by
    simp only [Expr.resolve, Findings.errors_append, List.append_eq_nil_iff] at herr
    simp [Expr.resolve, Expr.occurrences, callee.resolutions_eq_occurrences ctx h herr.1,
      Expr.resolutions_eq_allOccurrences ctx h arguments herr.2]
  | .get object name, herr => by
    simp [Expr.resolve, Expr.occurrences, object.resolutions_eq_occurrences ctx h herr]
  | .set object name value, herr => by
    simp only [Expr.resolve, Findings.errors_append, List.append_eq_nil_iff] at herr
    simp [Expr.resolve, Expr.occurrences, value.resolutions_eq_occurrences ctx h herr.1,
      object.resolutions_eq_occurrences ctx h herr.2]
  | .super keyword method, _ => by
    rw [Expr.resolve, Findings.resolutions_append, Findings.resolutions_append,
      Findings.resolutions_errorIf, Findings.resolutions_errorIf, h.keyword]
    rfl
  | .this keyword, herr => by
    rw [Expr.resolve] at herr ⊢
    split at herr
    · cases herr
    · rw [if_neg ‹_›, h.keyword]
      rfl

theorem Expr.resolutions_eq_allOccurrences {s : Binders} {Γ : Static} (ctx : Context)
    (h : s.Matches Γ) :
    ∀ es : List Expr, (Expr.resolveAll ctx Γ es).errors = [] →
      (Expr.resolveAll ctx Γ es).resolutions =
        (Expr.allOccurrences s es).filterMap Occurrence.resolution?
  | [], _ => rfl
  | e :: es, herr => by
    simp only [Expr.resolveAll, Findings.errors_append, List.append_eq_nil_iff] at herr
    simp [Expr.resolveAll, Expr.allOccurrences, e.resolutions_eq_occurrences ctx h herr.1,
      Expr.resolutions_eq_allOccurrences ctx h es herr.2]

end

theorem Expr.resolutions_eq_optionOccurrences {s : Binders} {Γ : Static} (ctx : Context)
    (h : s.Matches Γ) (o : Option Expr) (herr : (Expr.resolveOption ctx Γ o).errors = []) :
    (Expr.resolveOption ctx Γ o).resolutions =
      (Expr.optionOccurrences s o).filterMap Occurrence.resolution? := by
  cases o with
  | none => rfl
  | some e => exact e.resolutions_eq_occurrences ctx h herr

theorem Binders.Matches.after {s : Binders} {Γ : Static} (h : s.Matches Γ) (st : Stmt) :
    (s.after st).Matches (Γ.after st) := by
  cases st with
  | varDecl name _ => exact h.extend name
  | funDecl decl => exact h.extend decl.name
  | classDecl name _ _ => exact h.extend name
  | _ => exact h

theorem Binders.Matches.referSuperclass {s : Binders} {Γ : Static} (h : s.Matches Γ) (name : Token)
    (superclass : Option Token) : (Γ.referSuperclass name superclass).resolutions =
      (superclass.toList.map (s.reference .var)).filterMap Occurrence.resolution? := by
  cases superclass with
  | none => rfl
  | some parent =>
    rw [Static.referSuperclass, Findings.resolutions_append, Findings.resolutions_errorIf,
      List.nil_append, h.referVar]
    rfl

mutual

theorem Stmt.resolutions_eq_occurrences {P : Token → Prop} :
    ∀ (st : Stmt) (ctx : Context) {s : Binders} {Γ : Static}, s.Matches Γ → st.WellFormed P →
    (st.resolve ctx Γ).2.errors = [] →
      (st.resolve ctx Γ).2.resolutions = (st.occurrences s).filterMap Occurrence.resolution?
  | .expr value, ctx, _, _, h, _, herr => value.resolutions_eq_occurrences ctx h herr
  | .print value, ctx, _, _, h, _, herr => value.resolutions_eq_occurrences ctx h herr
  | .varDecl name initializer, ctx, s, Γ, h, _, herr => by
    simp only [Stmt.resolve, Findings.errors_append, List.append_eq_nil_iff] at herr
    simp [Stmt.resolve, Stmt.occurrences, Static.resolutions_declareError,
      Expr.resolutions_eq_optionOccurrences ctx (h.declare name) initializer herr.2]
  | .block body, ctx, _, _, h, hwf, herr =>
    Stmt.resolutions_eq_allOccurrences body ctx h.enter hwf herr
  | .ifElse condition thenBranch none, ctx, s, Γ, h, hwf, herr => by
    simp only [Stmt.resolve, Findings.errors_append, List.append_eq_nil_iff] at herr
    simp [Stmt.resolve, Stmt.occurrences, condition.resolutions_eq_occurrences ctx h herr.1,
      thenBranch.resolutions_eq_occurrences ctx h hwf.2.1 herr.2]
  | .ifElse condition thenBranch (some elseBranch), ctx, s, Γ, h, hwf, herr => by
    have hscopes : (thenBranch.resolve ctx Γ).1 = Γ := Stmt.fst_resolve_branch ctx Γ hwf.2.1
    simp only [Stmt.resolve, Findings.errors_append, List.append_eq_nil_iff, hscopes] at herr
    simp [Stmt.resolve, Stmt.occurrences, hscopes,
      condition.resolutions_eq_occurrences ctx h herr.1.1,
      thenBranch.resolutions_eq_occurrences ctx h hwf.2.1.1 herr.1.2,
      elseBranch.resolutions_eq_occurrences ctx h hwf.2.2.1 herr.2]
  | .whileDo condition body, ctx, s, Γ, h, hwf, herr => by
    simp only [Stmt.resolve, Findings.errors_append, List.append_eq_nil_iff] at herr
    simp [Stmt.resolve, Stmt.occurrences, condition.resolutions_eq_occurrences ctx h herr.1,
      body.resolutions_eq_occurrences ctx h hwf.2.1 herr.2]
  | .funDecl decl, ctx, s, Γ, h, hwf, herr => by
    simp only [Stmt.resolve, Findings.errors_append, List.append_eq_nil_iff] at herr
    have hf := Stmt.resolutions_eq_functionOccurrences decl ctx (h.extend decl.name) _ hwf herr.2
    unfold Static.extend at hf
    simp [Stmt.resolve, Stmt.occurrences, Static.resolutions_declareError, hf]
  | .ret keyword value, ctx, s, Γ, h, _, herr => by
    simp only [Stmt.resolve, Findings.errors_append, List.append_eq_nil_iff] at herr
    simp [Stmt.resolve, Stmt.occurrences, Expr.resolutions_eq_optionOccurrences ctx h value herr.2]
  | .classDecl name superclass methods, ctx, s, Γ, h, hwf, herr => by
    simp only [Stmt.resolve, Findings.errors_append, List.append_eq_nil_iff] at herr
    have hscopes := h.extend name
    have hsuper := hscopes.referSuperclass name superclass
    have hmethods :=
      Stmt.resolutions_eq_methodOccurrences methods _ (hscopes.forMethods superclass) hwf.2.2 herr.2
    unfold Static.extend at hsuper hmethods
    simp [Stmt.resolve, Stmt.occurrences, Static.resolutions_declareError, hsuper, hmethods]

theorem Stmt.resolutions_eq_allOccurrences {P : Token → Prop} :
    ∀ (ss : List Stmt) (ctx : Context) {s : Binders} {Γ : Static}, s.Matches Γ →
    Stmt.AllWellFormed P ss → (Stmt.resolveAll ctx Γ ss).2.errors = [] →
      (Stmt.resolveAll ctx Γ ss).2.resolutions =
        (Stmt.allOccurrences s ss).filterMap Occurrence.resolution?
  | [], _, _, _, _, _, _ => rfl
  | st :: ss, ctx, s, Γ, h, hwf, herr => by
    have hscopes := Stmt.fst_resolve ctx Γ hwf.1
    simp only [Stmt.resolveAll, Findings.errors_append, List.append_eq_nil_iff, hscopes] at herr
    simp [Stmt.resolveAll, Stmt.allOccurrences, hscopes,
      st.resolutions_eq_occurrences ctx h hwf.1 herr.1,
      Stmt.resolutions_eq_allOccurrences ss ctx (h.after st) hwf.2 herr.2]

theorem Stmt.resolutions_eq_functionOccurrences {P : Token → Prop} :
    ∀ (f : Callable Stmt) (ctx : Context) {s : Binders} {Γ : Static}, s.Matches Γ →
    ∀ kind : FunctionContext, Stmt.FunctionWellFormed P f →
      (Stmt.resolveFunction ctx Γ kind f).errors = [] →
      (Stmt.resolveFunction ctx Γ kind f).resolutions =
        (Stmt.functionOccurrences s f).filterMap Occurrence.resolution?
  | ⟨name, params, body⟩, ctx, s, Γ, h, kind, hwf, herr => by
    simp only [Stmt.resolveFunction, Findings.errors_append, List.append_eq_nil_iff] at herr
    have hbody := Stmt.resolutions_eq_allOccurrences body { ctx with function := kind }
      (h.enter.declareParams params) hwf.2.2 herr.2
    simp [Stmt.resolveFunction, Stmt.functionOccurrences, Static.resolutions_declareParams, hbody]

theorem Stmt.resolutions_eq_methodOccurrences {P : Token → Prop} :
    ∀ (fs : List (Callable Stmt)) (ctx : Context) {s : Binders} {Γ : Static}, s.Matches Γ →
    Stmt.MethodsWellFormed P fs →
      (Stmt.resolveMethods ctx Γ fs).errors = [] →
      (Stmt.resolveMethods ctx Γ fs).resolutions =
        (Stmt.methodOccurrences s fs).filterMap Occurrence.resolution?
  | [], _, _, _, _, _, _ => rfl
  | f :: fs, ctx, s, Γ, h, hwf, herr => by
    simp only [Stmt.resolveMethods, Findings.errors_append, List.append_eq_nil_iff] at herr
    simp [Stmt.resolveMethods, Stmt.methodOccurrences,
      Stmt.resolutions_eq_functionOccurrences f ctx h _ hwf.1 herr.1,
      Stmt.resolutions_eq_methodOccurrences fs ctx h hwf.2 herr.2]

end

/-- The references that occur in a program are those that resolution finds. -/
theorem resolutions_eq_occurrences {P : Token → Prop} {program : List Stmt}
    (hwf : Stmt.AllWellFormed P program) (herr : (resolve program).errors = []) :
    (resolve program).resolutions =
      (Stmt.allOccurrences [] program).filterMap Occurrence.resolution? :=
  Stmt.resolutions_eq_allOccurrences program .topLevel .nil hwf herr

/-! ## Names are identifiers -/

/-- Whether a token is the name of a variable that some token declares. -/
def Role.isName : Role → Bool
  | .binder => true
  | .reference _ _ (some _) => true
  | _ => false

/-- The names of variables are identifiers. -/
def Occurrence.IsProper (o : Occurrence) : Prop := o.role.isName → o.token.kind = .identifier

namespace Occurrence

theorem isName_of_isOf {d : Token} {o : Occurrence} (h : o.isOf d) : o.role.isName := by
  obtain ⟨t, role⟩ := o
  cases role with
  | binder => rfl
  | reference sort distance declaration =>
    obtain rfl : declaration = some d := by simpa [isOf] using h
    rfl
  | other => cases h

theorem isProper_plain (t : Token) : (plain t).IsProper := fun h => by cases h

theorem isProper_of_is {P : Token → Prop} {o : Occurrence} (h : o.token.Is P .identifier) :
    o.IsProper :=
  fun _ => h.2

theorem isProper_keyword (s : Binders) (r : Reference) (t : Token) : (s.keyword r t).IsProper := by
  intro h
  rw [Binders.keyword] at h
  cases hfind : s.find? t.lexeme <;> rw [hfind] at h <;> cases h

end Occurrence

section

open Occurrence

variable {P : Token → Prop}

mutual

theorem Expr.WellFormed.proper (s : Binders) : ∀ {e : Expr}, e.WellFormed P →
    Occurrence.All IsProper (e.occurrences s)
  | .literal _, _ => .nil
  | .var _, h => .cons (isProper_of_is h) .nil
  | .assign .., h => (h.2.proper s).append (.cons (isProper_of_is h.1) .nil)
  | .unary op _, h => .cons (isProper_plain op) (h.2.2.proper s)
  | .binary _ op _, h => (h.1.proper s).append (.cons (isProper_plain op) (h.2.2.2.proper s))
  | .logical _ op _, h => (h.1.proper s).append (.cons (isProper_plain op) (h.2.2.2.proper s))
  | .grouping inner, h => Expr.WellFormed.proper s (e := inner) h
  | .call _ paren _, h =>
    (h.1.proper s).append (.cons (isProper_plain paren) (Expr.AllWellFormed.proper s h.2.2))
  | .get _ name, h => (h.1.proper s).append (.cons (isProper_plain name) .nil)
  | .set _ name _, h => (h.2.2.proper s).append (.cons (isProper_plain name) (h.1.proper s))
  | .super keyword method, _ =>
    .cons (isProper_keyword s _ keyword) (.cons (isProper_plain method) .nil)
  | .this keyword, _ => .cons (isProper_keyword s _ keyword) .nil

theorem Expr.AllWellFormed.proper (s : Binders) : ∀ {es : List Expr}, Expr.AllWellFormed P es →
    Occurrence.All IsProper (Expr.allOccurrences s es)
  | [], _ => .nil
  | _ :: _, h => (h.1.proper s).append (Expr.AllWellFormed.proper s h.2)

end

theorem Expr.OptionWellFormed.proper (s : Binders) {o : Option Expr}
    (h : Expr.OptionWellFormed P o) :
    Occurrence.All IsProper (Expr.optionOccurrences s o) := by
  cases o with
  | none => exact .nil
  | some e => exact Expr.WellFormed.proper s (e := e) h

theorem Occurrence.isProper_map {f : Token → Occurrence} (hf : ∀ t, (f t).token = t)
    {ts : List Token} (h : ∀ t ∈ ts, t.Is P .identifier) : Occurrence.All IsProper (ts.map f) := by
  intro o ho
  obtain ⟨t, ht, rfl⟩ := List.mem_map.1 ho
  refine isProper_of_is (P := P) ?_
  rw [hf]
  exact h t ht

mutual

theorem Stmt.WellFormed.proper : ∀ {st : Stmt} (s : Binders), st.WellFormed P →
    Occurrence.All IsProper (st.occurrences s)
  | .expr value, s, h => Expr.WellFormed.proper s (e := value) h
  | .print value, s, h => Expr.WellFormed.proper s (e := value) h
  | .varDecl .., s, h => .cons (isProper_of_is h.1) (h.2.proper _)
  | .block body, s, h => @Stmt.AllWellFormed.proper body (.empty :: s) h
  | .ifElse _ _ none, s, h => (h.1.proper s).append (h.2.1.proper s)
  | .ifElse _ _ (some _), s, h =>
    (h.1.proper s).append ((h.2.1.1.proper s).append (h.2.2.1.proper s))
  | .whileDo .., s, h => (h.1.proper s).append (h.2.1.proper s)
  | .funDecl f, s, h => Stmt.FunctionWellFormed.proper (f := f) _ h
  | .ret keyword _, s, h => .cons (isProper_plain keyword) (h.2.proper s)
  | .classDecl name superclass _, s, h => by
    have hsuper : ∀ t ∈ superclass.toList, t.Is P .identifier := by simpa using h.2.1
    exact .cons (isProper_plain name) ((isProper_map (fun _ => rfl) hsuper).append (h.2.2.proper _))

theorem Stmt.AllWellFormed.proper : ∀ {ss : List Stmt} (s : Binders), Stmt.AllWellFormed P ss →
    Occurrence.All IsProper (Stmt.allOccurrences s ss)
  | [], _, _ => .nil
  | _ :: _, s, h => (h.1.proper s).append (h.2.proper _)

theorem Stmt.FunctionWellFormed.proper :
    ∀ {f : Callable Stmt} (s : Binders), Stmt.FunctionWellFormed P f →
    Occurrence.All IsProper (Stmt.functionOccurrences s f)
  | ⟨name, _, _⟩, _, h =>
    .cons (isProper_plain name) ((isProper_map (fun _ => rfl) h.2.1).append (h.2.2.proper _))

theorem Stmt.MethodsWellFormed.proper :
    ∀ {fs : List (Callable Stmt)} (s : Binders), Stmt.MethodsWellFormed P fs →
    Occurrence.All IsProper (Stmt.methodOccurrences s fs)
  | [], _, _ => .nil
  | _ :: _, s, h => (h.1.proper s).append (h.2.proper s)

end

end

/-! ## Each token once -/

namespace Occurrence

def tally (t : Token) (os : List Occurrence) : Nat := (os.map token).count t

variable {t : Token}

@[simp] theorem tally_nil : tally t [] = 0 := rfl

@[simp] theorem tally_append (os os' : List Occurrence) :
    tally t (os ++ os') = tally t os + tally t os' := by
  simp [tally]

@[simp] theorem tally_cons (o : Occurrence) (os : List Occurrence) :
    tally t (o :: os) = tally t os + if o.token == t then 1 else 0 := by
  simp [tally, List.count_cons]

-- With these `simp` finds the token of each sort of occurrence, so that `tally_cons` can count it.
@[simp] theorem token_plain (t : Token) : (plain t).token = t := rfl

@[simp] theorem token_binder (s : Binders) (t : Token) : (s.binder t).token = t := rfl

@[simp] theorem token_reference (s : Binders) (r : Reference) (t : Token) :
    (s.reference r t).token = t :=
  rfl

@[simp] theorem token_keyword (s : Binders) (r : Reference) (t : Token) :
    (s.keyword r t).token = t :=
  rfl

theorem tally_map (f : Token → Occurrence) (hf : ∀ p, (f p).token = p) (ps : List Token) :
    tally t (ps.map f) = ps.count t := by
  have hid : Occurrence.token ∘ f = id := funext hf
  rw [tally, List.map_map, hid, List.map_id]

end Occurrence

open Occurrence (tally)

namespace Derives

mutual

theorem Assignment.tally_le (t : Token) : ∀ {ts : List Token} {e : Expr}, Assignment ts e →
    ∀ s : Binders, tally t (e.occurrences s) ≤ ts.count t
  | _, _, .value h, s => h.tally_le t s
  | _, _, @Assignment.variable name equal ts e _ _ h, s => by
    have := h.tally_le t s
    simp [Expr.occurrences, List.count_cons]
    omega
  | _, _, @Assignment.property dot name equal os ts o e h _ _ _ h', s => by
    have := h.tally_le t s
    have := h'.tally_le t s
    simp [Expr.occurrences, List.count_cons]
    omega

theorem Operand.tally_le (t : Token) :
    ∀ {o : Option Level} {ts : List Token} {e : Expr}, Operand o ts e →
    ∀ s : Binders, tally t (e.occurrences s) ≤ ts.count t
  | _, _, _, .tighter h, s => h.tally_le t s
  | _, _, _, @Operand.binary l op ls rs e f h _ h', s => by
    have := h.tally_le t s
    have := h'.tally_le t s
    have hjoin : (l.join e op f).occurrences s = e.occurrences s ++ Occurrence.plain op ::
        f.occurrences s := by
      cases l <;> rfl
    rw [hjoin]
    simp [List.count_cons]
    omega
  | _, _, _, @Operand.unary op ts e _ h, s => by
    have := h.tally_le t s
    simp [Expr.occurrences, List.count_cons]
    omega
  | _, _, _, .call h, s => h.tally_le t s

theorem Call.tally_le (t : Token) : ∀ {ts : List Token} {e : Expr}, Call ts e →
    ∀ s : Binders, tally t (e.occurrences s) ≤ ts.count t
  | _, _, .primary h, s => h.tally_le t s
  | _, _, @Call.apply left right ts as e es h _ h' _ _, s => by
    have := h.tally_le t s
    have := h'.tally_le t s
    simp [Expr.occurrences, List.count_cons]
    omega
  | _, _, @Call.get dot name ts e h _ _, s => by
    have := h.tally_le t s
    simp [Expr.occurrences, List.count_cons]
    omega

theorem Arguments.tally_le (t : Token) : ∀ {ts : List Token} {es : List Expr}, Arguments ts es →
    ∀ s : Binders, tally t (Expr.allOccurrences s es) ≤ ts.count t
  | _, _, .none, _ => Nat.zero_le _
  | _, _, .one h, s => by
    have := h.tally_le t s
    simpa [Expr.allOccurrences] using this
  | _, _, @Arguments.more comma ts us e f es h _ h', s => by
    have := h.tally_le t s
    have := h'.tally_le t s
    rw [Expr.allOccurrences]
    simp [List.count_cons]
    omega

theorem Primary.tally_le (t : Token) : ∀ {ts : List Token} {e : Expr}, Primary ts e →
    ∀ s : Binders, tally t (e.occurrences s) ≤ ts.count t
  | _, _, .false _, _ | _, _, .true _, _ | _, _, .nil _, _ | _, _, .constant _, _ => Nat.zero_le _
  | _, _, .this _, _ | _, _, .variable _, _ => by simp [Expr.occurrences, List.count_cons]
  | _, _, @Primary.group left right ts e _ h _, s => by
    have := h.tally_le t s
    simp [Expr.occurrences, List.count_cons]
    omega
  | _, _, .super _ _ _, _ => by
    simp [Expr.occurrences, List.count_cons]

end

variable (t : Token) {ts : List Token}

theorem OptionalExpression.tally_le {o : Option Expr} (h : OptionalExpression ts o) (s : Binders) :
    tally t (Expr.optionOccurrences s o) ≤ ts.count t := by
  cases h with
  | none => exact Nat.zero_le _
  | some h => exact h.tally_le t s

theorem Parameters.count_le {ps : List Token} (h : Parameters ts ps) : ps.count t ≤ ts.count t := by
  induction h with
  | none => exact Nat.le_refl _
  | one _ => exact Nat.le_refl _
  | more _ _ _ ih =>
    simp only [List.count_cons] at ih ⊢
    omega

theorem Variable.tally_le {st : Stmt} (h : Variable ts st) (s : Binders) :
    tally t (st.occurrences s) ≤ ts.count t := by
  cases h with
  | plain _ _ _ =>
    simp [Stmt.occurrences, Expr.optionOccurrences, List.count_cons]
    omega
  | @initialized _ name _ _ ts e _ _ _ h _ =>
    have hvalue := h.tally_le t (s.declare name)
    simp [Stmt.occurrences, Expr.optionOccurrences, List.count_cons]
    omega

theorem Effect.tally_le {st : Stmt} (h : Effect ts st) (s : Binders) :
    tally t (st.occurrences s) ≤ ts.count t := by
  cases h with
  | mk h _ =>
    have hvalue := h.tally_le t s
    simp only [Stmt.occurrences, List.count_append]
    omega

theorem Initializer.tally_le {i : Option Stmt} (h : Initializer ts i) :
    ∀ st ∈ i, ∀ s : Binders, tally t (st.occurrences s) ≤ ts.count t := by
  rintro st ⟨⟩
  rcases h with _ | h | h
  · exact h.tally_le t
  · exact h.tally_le t

theorem Superclass.count_le {o : Option Token} (h : Superclass ts o) :
    o.toList.count t ≤ ts.count t := by
  cases h with
  | none => exact Nat.le_refl _
  | some _ _ =>
    simp only [Option.toList, List.count_cons]
    omega

section ForLoops

variable {t} {i : Option Stmt} {c n : Option Expr} {st : Stmt} {is cs ns : List Token}

theorem tally_getD_le (hc : ∀ s, tally t (Expr.optionOccurrences s c) ≤ cs.count t) (s : Binders) :
    tally t ((c.getD (.literal (.bool true))).occurrences s) ≤ cs.count t := by
  cases c with
  | none => exact Nat.zero_le _
  | some c => exact hc s

/-- A loop without a first clause. -/
theorem tally_loop_le (hc : ∀ s, tally t (Expr.optionOccurrences s c) ≤ cs.count t)
    (hn : ∀ s, tally t (Expr.optionOccurrences s n) ≤ ns.count t)
    (hst : ∀ s, tally t (st.occurrences s) ≤ ts.count t) (s : Binders) :
    tally t ((Stmt.forLoop none c n st).occurrences s) ≤ cs.count t + ns.count t + ts.count t := by
  have hcondition := tally_getD_le hc s
  cases n with
  | none =>
    have hbody := hst s
    simp only [Stmt.forLoop, Stmt.occurrences, Occurrence.tally_append]
    omega
  | some e =>
    have hbody := hst (.empty :: s)
    have hnext : tally t (e.occurrences _) ≤ _ := hn (Binders.after (.empty :: s) st)
    simp only [Stmt.forLoop, Stmt.occurrences, Stmt.allOccurrences, Occurrence.tally_append,
      Occurrence.tally_nil]
    omega

theorem tally_forLoop_le (hi : ∀ st ∈ i, ∀ s, tally t (st.occurrences s) ≤ is.count t)
    (hc : ∀ s, tally t (Expr.optionOccurrences s c) ≤ cs.count t)
    (hn : ∀ s, tally t (Expr.optionOccurrences s n) ≤ ns.count t)
    (hst : ∀ s, tally t (st.occurrences s) ≤ ts.count t) (s : Binders) :
    tally t ((Stmt.forLoop i c n st).occurrences s) ≤
      is.count t + (cs.count t + ns.count t + ts.count t) := by
  cases i with
  | none => exact (tally_loop_le hc hn hst s).trans (Nat.le_add_left _ _)
  | some init =>
    have hinit := hi init rfl (.empty :: s)
    have hloop := tally_loop_le hc hn hst (Binders.after (.empty :: s) init)
    show tally t (init.occurrences (.empty :: s) ++
      ((Stmt.forLoop none c n st).occurrences (Binders.after (.empty :: s) init) ++ [])) ≤ _
    simp only [Occurrence.tally_append, Occurrence.tally_nil]
    omega

end ForLoops

mutual

theorem Declaration.tally_le (t : Token) : ∀ {ts : List Token} {st : Stmt}, Declaration ts st →
    ∀ s : Binders, tally t (st.occurrences s) ≤ ts.count t
  | _, _, @Declaration.cls _ name _ _ _ _ parent _ _ _ hs _ hm _, s => by
    have hsuper := hs.count_le t
    rw [← Occurrence.tally_map _ (Occurrence.token_reference (s.declare name) .var)] at hsuper
    have hmethods := hm.tally_le t ((s.declare name).forMethods parent)
    simp [Stmt.occurrences, List.count_cons]
    omega
  | _, _, @Declaration.function _ _ f _ h, s => by
    have hf := h.tally_le t (s.declare f.name)
    simp only [Stmt.occurrences, List.count_cons]
    omega
  | _, _, .variable h, s => h.tally_le t s
  | _, _, .statement h, s => h.tally_le t s

theorem Function.tally_le (t : Token) : ∀ {ts : List Token} {f : FunDecl}, Function ts f →
    ∀ s : Binders, tally t (Stmt.functionOccurrences s f) ≤ ts.count t
  | _, _, @Function.mk _ _ _ _ _ params _ _ _ hp _ _ hb, s => by
    have hparams := hp.count_le t
    rw [← Occurrence.tally_map (fun p => ⟨p, .binder⟩) fun _ => rfl] at hparams
    have hbody := hb.tally_le t (Binders.declareAll (.empty :: s) params)
    simp [Stmt.functionOccurrences, List.count_cons]
    omega

theorem Methods.tally_le (t : Token) : ∀ {ts : List Token} {fs : List FunDecl}, Methods ts fs →
    ∀ s : Binders, tally t (Stmt.methodOccurrences s fs) ≤ ts.count t
  | _, _, .nil, _ => Nat.le_refl _
  | _, _, .cons h h', s => by
    have hfirst := h.tally_le t s
    have hrest := h'.tally_le t s
    simp only [Stmt.methodOccurrences, Occurrence.tally_append, List.count_append]
    omega

theorem Block.tally_le (t : Token) : ∀ {ts : List Token} {body : List Stmt}, Block ts body →
    ∀ s : Binders, tally t (Stmt.allOccurrences s body) ≤ ts.count t
  | _, _, .mk _ h _, s => by
    have hbody := h.tally_le t s
    simp only [List.count_cons, List.count_append]
    omega

theorem Declarations.tally_le (t : Token) :
    ∀ {ts : List Token} {ss : List Stmt}, Declarations ts ss →
    ∀ s : Binders, tally t (Stmt.allOccurrences s ss) ≤ ts.count t
  | _, _, .nil, _ => Nat.le_refl _
  | _, _, @Declarations.cons _ _ st _ h h', s => by
    have hfirst := h.tally_le t s
    have hrest := h'.tally_le t (s.after st)
    simp only [Stmt.allOccurrences, Occurrence.tally_append, List.count_append]
    omega

theorem Statement.tally_le (t : Token) :
    ∀ {b : Bool} {ts : List Token} {st : Stmt}, Statement b ts st →
    ∀ s : Binders, tally t (st.occurrences s) ≤ ts.count t
  | _, _, _, .effect h, s => h.tally_le t s
  | _, _, _, .print _ h _, s => by
    have hvalue := h.tally_le t s
    simp only [Stmt.occurrences, List.count_cons, List.count_append]
    omega
  | _, _, _, .ret _ h _, s => by
    have hvalue := h.tally_le t s
    simp [Stmt.occurrences, List.count_cons]
    omega
  | _, _, _, .block h, s => h.tally_le t (.empty :: s)
  | _, _, _, .whileDo _ _ hc _ h, s => by
    have hcondition := hc.tally_le t s
    have hbody := h.tally_le t s
    simp [Stmt.occurrences, List.count_cons]
    omega
  | _, _, _, .forDo _ _ hi hc _ hn _ h, s => by
    have hloop := tally_forLoop_le (hi.tally_le t) (hc.tally_le t) (hn.tally_le t) (h.tally_le t) s
    simp only [List.count_cons, List.count_append]
    omega
  | _, _, _, .ifThen _ _ hc _ h, s => by
    have hcondition := hc.tally_le t s
    have hbranch := h.tally_le t s
    simp [Stmt.occurrences, List.count_cons]
    omega
  | _, _, _, .ifElse _ _ hc _ h _ h', s => by
    have hcondition := hc.tally_le t s
    have hthen := h.tally_le t s
    have helse := h'.tally_le t s
    simp [Stmt.occurrences, List.count_cons]
    omega

end

end Derives

end Lox
