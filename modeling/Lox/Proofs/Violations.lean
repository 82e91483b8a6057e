import Lox.Proofs.Placement
import Lox.Proofs.Recording

/-!
# Violations of the rules of names and returns

A `Use` is a node that a rule speaks of, with all that encloses it. `Use.Violates` states the rules,
each in terms of the innermost enclosure of a sort: the scope, the function, the class.
`Stmt.allUses` lists the uses of a program in the order of resolution. Resolution carries the
enclosures along in another form, a context and scopes; both agree at every node (`Surrounds`), so
that its errors are the violations (`Stmt.errors_resolve`). A `Hole` is a program without one of its
statements. What is outside of the hole has the same errors whatever statement is put there, if it
declares the same name (`Hole.errors_plug`).
-/

namespace Lox

/-! ## Uses -/

inductive Body where
  | block
  | function
  | method (name : Token)

def Body.function? : Body → Option FunctionContext
  | .block => none
  | .function => some .function
  | .method name => some (.ofMethod name)

/-- What a node can be in. -/
inductive Enclosure where
  /-- A body, behind its parameters and some statements. -/
  | body (kind : Body) (params : List Token) (earlier : List Stmt)
  | cls (superclass : Option Token)
  /-- The initializer of a variable. -/
  | initializer (name : Token)

namespace Enclosure

/-- The names that a body has declared. -/
def names? : Enclosure → Option (List String)
  | .body _ params earlier => some ((params ++ earlier.filterMap Stmt.declared?).map Token.lexeme)
  | _ => none

def function? : Enclosure → Option FunctionContext
  | .body kind _ _ => kind.function?
  | _ => none

def superclass? : Enclosure → Option (Option Token)
  | .cls superclass => some superclass
  | _ => none

end Enclosure

/-- Among the enclosures, given from the inside out, the innermost one of a sort is as said. -/
def Innermost {α : Type} (sort? : Enclosure → Option α) (path : List Enclosure) (a : α) : Prop :=
  ∃ inner e outer, path = inner ++ e :: outer ∧ sort? e = some a ∧ ∀ i ∈ inner, sort? i = none

/-- None of the enclosures is of the sort. -/
def Outside {α : Type} (sort? : Enclosure → Option α) (path : List Enclosure) : Prop :=
  ∀ e ∈ path, sort? e = none

def innermostNames (path : List Enclosure) : List String :=
  (path.findSome? Enclosure.names?).getD []

/-- What a node does that there is a rule for. -/
inductive Act where
  | declares (name : Token)
  | reads (name : Token)
  | returns (keyword : Token) (hasValue : Bool)
  | this (keyword : Token)
  | super (keyword : Token)
  | inherits (name parent : Token)

/-- There is no rule for the target of an assignment. -/
def Act.ofReference? : Reference × Token → Option Act
  | (.var, name) => some (.reads name)
  | (.assign, _) => none
  | (.this, keyword) => some (.this keyword)
  | (.super, keyword) => some (.super keyword)

structure Use where
  act : Act
  path : List Enclosure

namespace Use

/-- The rules: what is wrong with a use, and the token that is to blame. -/
inductive Violates : Use → Token → Complaint → Prop where
  | alreadyDeclared {name : Token} {path : List Enclosure} {names : List String} :
      Innermost Enclosure.names? path names → name.lexeme ∈ names →
      Violates ⟨.declares name, path⟩ name .alreadyDeclared
  /-- The scope of the variable that is initialized is a local one. -/
  | ownInitializer {name v : Token} {outer : List Enclosure} {names : List String} :
      Innermost Enclosure.names? outer names → v.lexeme = name.lexeme →
      Violates ⟨.reads name, .initializer v :: outer⟩ name .ownInitializer
  | topLevelReturn {keyword : Token} {hasValue : Bool} {path : List Enclosure} :
      Outside Enclosure.function? path →
        Violates ⟨.returns keyword hasValue, path⟩ keyword .topLevelReturn
  | initializerReturn {keyword : Token} {path : List Enclosure} :
      Innermost Enclosure.function? path .initializer →
      Violates ⟨.returns keyword true, path⟩ keyword .initializerReturn
  | thisOutsideClass {keyword : Token} {path : List Enclosure} :
      Outside Enclosure.superclass? path → Violates ⟨.this keyword, path⟩ keyword .thisOutsideClass
  | superOutsideClass {keyword : Token} {path : List Enclosure} :
      Outside Enclosure.superclass? path →
        Violates ⟨.super keyword, path⟩ keyword .superOutsideClass
  | superWithoutSuperclass {keyword : Token} {path : List Enclosure} :
      Innermost Enclosure.superclass? path none →
        Violates ⟨.super keyword, path⟩ keyword .superWithoutSuperclass
  | selfInheritance {name parent : Token} {path : List Enclosure} :
      name.lexeme = parent.lexeme → Violates ⟨.inherits name parent, path⟩ parent .selfInheritance

def complaint? : Use → Option (Token × Complaint)
  | ⟨.declares name, path⟩ =>
    if name.lexeme ∈ innermostNames path then some (name, .alreadyDeclared) else none
  | ⟨.reads name, .initializer v :: outer⟩ =>
    if v.lexeme = name.lexeme ∧ (outer.findSome? Enclosure.names?).isSome
      then some (name, .ownInitializer) else none
  | ⟨.reads _, _⟩ => none
  | ⟨.returns keyword hasValue, path⟩ =>
    match path.findSome? Enclosure.function? with
    | none => some (keyword, .topLevelReturn)
    | some f => if hasValue ∧ f = .initializer then some (keyword, .initializerReturn) else none
  | ⟨.this keyword, path⟩ =>
    match path.findSome? Enclosure.superclass? with
    | none => some (keyword, .thisOutsideClass)
    | some _ => none
  | ⟨.super keyword, path⟩ =>
    match path.findSome? Enclosure.superclass? with
    | none => some (keyword, .superOutsideClass)
    | some none => some (keyword, .superWithoutSuperclass)
    | some (some _) => none
  | ⟨.inherits name parent, _⟩ =>
    if name.lexeme = parent.lexeme then some (parent, .selfInheritance) else none

def error? (u : Use) : Option StaticError := u.complaint?.map fun (t, c) => StaticError.atToken t c

end Use

theorem innermost_iff {α : Type} {sort? : Enclosure → Option α} {path : List Enclosure} {a : α} :
    Innermost sort? path a ↔ path.findSome? sort? = some a := by
  rw [List.findSome?_eq_some_iff]
  rfl

theorem outside_iff {α : Type} {sort? : Enclosure → Option α} {path : List Enclosure} :
    Outside sort? path ↔ path.findSome? sort? = none := List.findSome?_eq_none_iff.symm

theorem mem_innermostNames {path : List Enclosure} {x : String} :
    x ∈ innermostNames path ↔ ∃ names, Innermost Enclosure.names? path names ∧ x ∈ names := by
  simp only [innermost_iff, innermostNames]
  cases path.findSome? Enclosure.names? <;> simp

/-- What is computed is what the rules say, so that a use violates one rule at most. -/
theorem Use.complaint?_eq_some_iff {u : Use} {t : Token} {c : Complaint} :
    u.complaint? = some (t, c) ↔ u.Violates t c := by
  constructor
  · intro h
    obtain ⟨act, path⟩ := u
    cases act with
    | declares name =>
      obtain ⟨hname, heq⟩ := Option.ite_none_right_eq_some.1 h
      obtain ⟨rfl, rfl⟩ := Prod.mk.inj (Option.some.inj heq)
      obtain ⟨names, hnames, hmem⟩ := mem_innermostNames.1 hname
      exact .alreadyDeclared hnames hmem
    | reads name =>
      match path, h with
      | .initializer v :: outer, h =>
        obtain ⟨⟨hname, hsome⟩, heq⟩ := Option.ite_none_right_eq_some.1 h
        obtain ⟨rfl, rfl⟩ := Prod.mk.inj (Option.some.inj heq)
        obtain ⟨names, hnames⟩ := Option.isSome_iff_exists.1 hsome
        exact .ownInitializer (innermost_iff.2 hnames) hname
    | returns keyword hasValue =>
      rw [complaint?] at h
      split at h
      · rename_i hnone
        obtain ⟨rfl, rfl⟩ := Prod.mk.inj (Option.some.inj h)
        exact .topLevelReturn (outside_iff.2 hnone)
      · rename_i f hsome
        obtain ⟨⟨rfl, rfl⟩, heq⟩ := Option.ite_none_right_eq_some.1 h
        obtain ⟨rfl, rfl⟩ := Prod.mk.inj (Option.some.inj heq)
        exact .initializerReturn (innermost_iff.2 hsome)
    | this keyword =>
      rw [complaint?] at h
      split at h
      · rename_i hnone
        obtain ⟨rfl, rfl⟩ := Prod.mk.inj (Option.some.inj h)
        exact .thisOutsideClass (outside_iff.2 hnone)
      · cases h
    | super keyword =>
      rw [complaint?] at h
      split at h
      · rename_i hnone
        obtain ⟨rfl, rfl⟩ := Prod.mk.inj (Option.some.inj h)
        exact .superOutsideClass (outside_iff.2 hnone)
      · rename_i hsome
        obtain ⟨rfl, rfl⟩ := Prod.mk.inj (Option.some.inj h)
        exact .superWithoutSuperclass (innermost_iff.2 hsome)
      · cases h
    | inherits name parent =>
      obtain ⟨hname, heq⟩ := Option.ite_none_right_eq_some.1 h
      obtain ⟨rfl, rfl⟩ := Prod.mk.inj (Option.some.inj heq)
      exact .selfInheritance hname
  · intro h
    cases h with
    | alreadyDeclared hnames hmem => exact if_pos (mem_innermostNames.2 ⟨_, hnames, hmem⟩)
    | ownInitializer hnames hname => simp [complaint?, innermost_iff.1 hnames, hname]
    | topLevelReturn h => simp [complaint?, outside_iff.1 h]
    | initializerReturn h => simp [complaint?, innermost_iff.1 h]
    | thisOutsideClass h => simp [complaint?, outside_iff.1 h]
    | superOutsideClass h => simp [complaint?, outside_iff.1 h]
    | superWithoutSuperclass h => simp [complaint?, innermost_iff.1 h]
    | selfInheritance hname => simp [complaint?, hname]

/-! ## The uses of a program -/

def usesOf (path : List Enclosure) (nodes : List (Reference × Token)) : List Use :=
  nodes.filterMap fun n => (Act.ofReference? n).map (⟨·, path⟩)

def Expr.uses (path : List Enclosure) (e : Expr) : List Use := usesOf path e.references

/-- Parameters are declared from the left. -/
def paramUses (kind : Body) (before : List Token) (path : List Enclosure) : List Token → List Use
  | [] => []
  | p :: ps => ⟨.declares p, .body kind before [] :: path⟩ :: paramUses kind (before ++ [p]) path ps

def superclassUses (name : Token) (path : List Enclosure) : Option Token → List Use
  | none => []
  | some parent => [⟨.inherits name parent, path⟩, ⟨.reads parent, path⟩]

mutual

def Stmt.uses (path : List Enclosure) : Stmt → List Use
  | .expr value => value.uses path
  | .print value => value.uses path
  | .varDecl name initializer =>
    ⟨.declares name, path⟩ :: usesOf (.initializer name :: path) (Expr.optionReferences initializer)
  | .block body => Stmt.bodyUses .block [] [] path body
  | .ifElse condition thenBranch none => condition.uses path ++ thenBranch.uses path
  | .ifElse condition thenBranch (some elseBranch) =>
    condition.uses path ++ (thenBranch.uses path ++ elseBranch.uses path)
  | .whileDo condition body => condition.uses path ++ body.uses path
  | .funDecl decl => ⟨.declares decl.name, path⟩ :: Stmt.functionUses .function path decl
  | .ret keyword value =>
    ⟨.returns keyword value.isSome, path⟩ :: usesOf path (Expr.optionReferences value)
  | .classDecl name superclass methods =>
    ⟨.declares name, path⟩ ::
      (superclassUses name path superclass ++ Stmt.methodUses (.cls superclass :: path) methods)

/-- The uses of the statements of a body that come after `earlier`. -/
def Stmt.bodyUses (kind : Body) (params : List Token) (earlier : List Stmt)
    (path : List Enclosure) :
    List Stmt → List Use
  | [] => []
  | s :: ss =>
    s.uses (.body kind params earlier :: path) ++ Stmt.bodyUses kind params (earlier ++ [s]) path ss

def Stmt.functionUses (kind : Body) (path : List Enclosure) : Callable Stmt → List Use
  | ⟨_, params, body⟩ => paramUses kind [] path params ++ Stmt.bodyUses kind params [] path body

def Stmt.methodUses (path : List Enclosure) : List (Callable Stmt) → List Use
  | [] => []
  | m :: ms => Stmt.functionUses (.method m.name) path m ++ Stmt.methodUses path ms

end

/-- The uses of a program. Its top level is no body. -/
def Stmt.allUses (program : List Stmt) : List Use := program.flatMap (Stmt.uses [])

def errorsOf (us : List Use) : List StaticError := us.filterMap Use.error?

theorem errorsOf_append (us vs : List Use) : errorsOf (us ++ vs) = errorsOf us ++ errorsOf vs :=
  List.filterMap_append

theorem errorsOf_cons (u : Use) (us : List Use) :
    errorsOf (u :: us) = u.error?.toList ++ errorsOf us := by
  rw [errorsOf, List.filterMap_cons]
  cases u.error? <;> rfl

theorem usesOf_append (path : List Enclosure) (ns ms : List (Reference × Token)) :
    usesOf path (ns ++ ms) = usesOf path ns ++ usesOf path ms := List.filterMap_append

/-! ## Enclosures and what resolution carries along -/

def Context.of (path : List Enclosure) : Context :=
  ⟨(path.findSome? Enclosure.function?).getD .none,
    (path.findSome? Enclosure.superclass?).elim .none .of⟩

theorem Context.of_body {kind : Body} {f : FunctionContext} (h : kind.function? = some f)
    (params : List Token) (earlier : List Stmt) (path : List Enclosure) :
    Context.of (.body kind params earlier :: path) = { Context.of path with function := f } := by
  rw [Context.of, List.findSome?_cons, Enclosure.function?, h]
  rfl

def Static.declares (Γ : Static) (x : String) : Bool :=
  match Γ with
  | [] => false
  | scope :: _ => (scope.get? x).isSome

/-- At a statement, the innermost of the scopes is the innermost enclosure that has names. -/
structure Surrounds (path : List Enclosure) (Γ : Static) : Prop where
  names : ∀ x, Γ.declares x = true ↔ x ∈ innermostNames path
  isEmpty : Γ.isEmpty = (path.findSome? Enclosure.names?).isNone
  complete : Γ.Complete
  statement : ∀ v outer, path ≠ .initializer v :: outer

theorem Static.Complete.isInitializing {Γ : Static} (h : Γ.Complete) (x : String) :
    Γ.isInitializing x = false := by
  cases Γ with
  | nil => rfl
  | cons scope Γ => simpa [Static.isInitializing] using h scope List.mem_cons_self x

theorem Static.errors_declareError (Γ : Static) (name : Token) : (Γ.declareError name).errors =
    if Γ.declares name.lexeme then [StaticError.atToken name .alreadyDeclared] else [] := by
  cases Γ with
  | nil => rfl
  | cons scope Γ =>
    rw [Static.declareError, Findings.errorIf, Static.declares]
    split <;> rfl

theorem Static.errors_refer (Γ : Static) (r : Reference) (t : Token) :
    (Γ.refer r t).errors = [] := by
  rw [Static.refer]
  split <;> rfl

/-- Outside of initializers every name may be read. -/
theorem errors_referVar {path : List Enclosure} {Γ : Static} (h : Γ.Complete)
    (hpath : ∀ v outer, path ≠ .initializer v :: outer) (name : Token) :
    (Γ.referVar name).errors = (Use.error? ⟨.reads name, path⟩).toList := by
  have hnone : Use.complaint? ⟨.reads name, path⟩ = none := by
    match path with
    | [] => rfl
    | .body .. :: _ => rfl
    | .cls _ :: _ => rfl
    | .initializer v :: outer => exact absurd rfl (hpath v outer)
  rw [Static.referVar, h.isInitializing, Findings.errors_append, Static.errors_refer,
    Use.error?, hnone]
  rfl

namespace Surrounds

variable {path : List Enclosure} {Γ : Static} {kind : Body} {params : List Token}
  {earlier : List Stmt}

theorem topLevel : Surrounds [] [] :=
  ⟨fun _ => iff_of_false Bool.false_ne_true List.not_mem_nil, rfl,
    fun _ h => absurd h List.not_mem_nil,
    fun _ _ h => by cases h⟩

/-- A body begins with no names. -/
theorem enter (h : Γ.Complete) (kind : Body) (path : List Enclosure) :
    Surrounds (.body kind [] [] :: path) (.empty :: Γ) where
  names x := by simp [Static.declares, innermostNames, Enclosure.names?]
  isEmpty := rfl
  complete := h.cons fun x => by simp
  statement _ _ h := by cases h

/-- A name that is declared in the innermost scope. -/
theorem extend {params' : List Token} {earlier' : List Stmt} {name : Token}
    (h : Surrounds (.body kind params earlier :: path) Γ)
    (hnames : ∀ x, x ∈ innermostNames (.body kind params' earlier' :: path) ↔
      x = name.lexeme ∨ x ∈ innermostNames (.body kind params earlier :: path)) :
    Surrounds (.body kind params' earlier' :: path) (Γ.extend name) := by
  have hempty := h.isEmpty
  cases Γ with
  | nil => cases hempty
  | cons scope Γ =>
    refine ⟨fun x => ?_, by rw [Static.extend_cons]; rfl, h.complete.extend name,
      fun _ _ h => by cases h⟩
    rw [hnames x, ← h.names x, Static.extend_cons, Static.declares, Static.declares,
      Bindings.get?_set]
    split <;> simp [*]

theorem param (h : Surrounds (.body kind params [] :: path) Γ) (p : Token) :
    Surrounds (.body kind (params ++ [p]) [] :: path) (Γ.extend p) :=
  h.extend fun x => by simp [innermostNames, Enclosure.names?, or_comm]

theorem extendAll (h : Surrounds (.body kind params [] :: path) Γ) (more : List Token) :
    Surrounds (.body kind (params ++ more) [] :: path) (Γ.extendAll more) := by
  induction more generalizing params Γ with
  | nil => rwa [List.append_nil]
  | cons p ps ih =>
    rw [List.append_cons]
    exact ih (h.param p)

/-- A statement comes before those that follow it. -/
theorem after (h : Surrounds (.body kind params earlier :: path) Γ) (s : Stmt) :
    Surrounds (.body kind params (earlier ++ [s]) :: path) (Γ.after s) := by
  cases hs : s.declared? with
  | none =>
    rw [Γ.after_of_not_declared hs]
    refine ⟨fun x => ?_, h.isEmpty, h.complete, fun _ _ h => by cases h⟩
    rw [h.names x]
    simp [innermostNames, Enclosure.names?, hs]
  | some name =>
    rw [Γ.after_of_declared hs]
    exact h.extend fun x => by simp [innermostNames, Enclosure.names?, hs, or_left_comm, or_comm]

/-! ### Single uses -/

theorem declares (h : Surrounds path Γ) (name : Token) :
    (Γ.declareError name).errors = (Use.error? ⟨.declares name, path⟩).toList := by
  rw [Static.errors_declareError, Use.error?, Use.complaint?]
  simp only [h.names]
  split <;> rfl

theorem reads (h : Surrounds path Γ) (name : Token) :
    (Γ.referVar name).errors = (Use.error? ⟨.reads name, path⟩).toList :=
  errors_referVar h.complete h.statement name

/-- In an initializer the name of the variable is not complete, unless it is global. -/
theorem readsOwn (h : Surrounds path Γ) (v name : Token) :
    ((Γ.declare v).referVar name).errors =
      (Use.error? ⟨.reads name, .initializer v :: path⟩).toList := by
  rw [Static.referVar, Findings.errors_append, Static.errors_refer, List.append_nil, Use.error?,
    Use.complaint?]
  have hempty := h.isEmpty
  cases Γ with
  | nil =>
    have hnone : path.findSome? Enclosure.names? = none := by simpa using hempty.symm
    rw [hnone, if_neg (by simp)]
    rfl
  | cons scope Γ =>
    have hsome : (path.findSome? Enclosure.names?).isSome = true := by
      rw [← Option.not_isNone, ← hempty]
      rfl
    have hcomplete := h.complete scope List.mem_cons_self name.lexeme
    rw [Static.declare, Static.isInitializing, Bindings.get?_set, hsome, Findings.errorIf]
    by_cases hname : name.lexeme = v.lexeme
    · simp [hname, Findings.error]
    · simp [hname, Ne.symm hname, hcomplete, Findings.none]

end Surrounds

theorem errors_this (path : List Enclosure) (Γ : Static) (keyword : Token) :
    (Expr.resolve (Context.of path) Γ (.this keyword)).errors =
      (Use.error? ⟨.this keyword, path⟩).toList := by
  rw [Expr.resolve, Use.error?, Use.complaint?, Context.of]
  cases path.findSome? Enclosure.superclass? with
  | none => rfl
  | some superclass =>
    have hcls : (ClassContext.of superclass == .none) = false := by cases superclass <;> rfl
    rw [Option.elim_some, hcls]
    exact Γ.errors_refer .this keyword

theorem errors_super (path : List Enclosure) (Γ : Static) (keyword method : Token) :
    (Expr.resolve (Context.of path) Γ (.super keyword method)).errors =
      (Use.error? ⟨.super keyword, path⟩).toList := by
  rw [Expr.resolve, Findings.errors_append, Static.errors_refer, List.append_nil, Use.error?,
    Use.complaint?, Context.of]
  rcases path.findSome? Enclosure.superclass? with _ | _ | _ <;> rfl

theorem Body.function?_ne_none {kind : Body} : kind.function? ≠ some .none := by
  cases kind with
  | block => exact fun h => by cases h
  | function => exact fun h => by cases h
  | method name =>
    intro h
    rw [Body.function?, FunctionContext.ofMethod] at h
    split at h <;> cases h

theorem errors_ret (path : List Enclosure) (keyword : Token) (hasValue : Bool) :
    (Findings.errorIf ((Context.of path).function == .none) keyword .topLevelReturn ++
      Findings.errorIf (hasValue && (Context.of path).function == .initializer) keyword
        .initializerReturn).errors =
      (Use.error? ⟨.returns keyword hasValue, path⟩).toList := by
  rw [Use.error?, Use.complaint?, Context.of]
  cases hf : path.findSome? Enclosure.function? with
  | none => cases hasValue <;> rfl
  | some f =>
    have hne : f ≠ .none := by
      rintro rfl
      obtain ⟨e, -, he⟩ := List.exists_of_findSome?_eq_some hf
      cases e with
      | body kind => exact Body.function?_ne_none he
      | cls => cases he
      | initializer => cases he
    cases f with
    | none => exact absurd rfl hne
    | function | method | initializer => cases hasValue <;> rfl

/-! ## The errors of resolution -/

section

variable {path : List Enclosure} {Γ : Static}

theorem errorsOf_singleton (u : Use) : errorsOf [u] = u.error?.toList := by
  rw [errorsOf_cons]
  exact List.append_nil _

mutual

/-- In an expression, enclosures and scopes are the same everywhere. -/
theorem Expr.errors_resolve
    (hreads : ∀ name, (Γ.referVar name).errors = (Use.error? ⟨.reads name, path⟩).toList) :
    ∀ e : Expr, (e.resolve (Context.of path) Γ).errors = errorsOf (e.uses path)
  | .literal _ => rfl
  | .var name => by
    rw [Expr.resolve, hreads name]
    exact (errorsOf_singleton _).symm
  | .assign name value => by
    rw [Expr.resolve, Findings.errors_append, Static.errors_refer, value.errors_resolve hreads,
      Expr.uses, Expr.uses, Expr.references, usesOf_append, errorsOf_append]
    rfl
  | .unary _ operand => operand.errors_resolve hreads
  | .binary left _ right => by
    rw [Expr.resolve, Findings.errors_append, left.errors_resolve hreads,
      right.errors_resolve hreads, Expr.uses, Expr.uses, Expr.uses, Expr.references, usesOf_append,
      errorsOf_append]
  | .logical left _ right => by
    rw [Expr.resolve, Findings.errors_append, left.errors_resolve hreads,
      right.errors_resolve hreads, Expr.uses, Expr.uses, Expr.uses, Expr.references, usesOf_append,
      errorsOf_append]
  | .grouping inner => inner.errors_resolve hreads
  | .call callee _ arguments => by
    rw [Expr.resolve, Findings.errors_append, callee.errors_resolve hreads,
      Expr.errors_resolveAll hreads arguments, Expr.uses, Expr.uses, Expr.references, usesOf_append,
      errorsOf_append]
  | .get object _ => object.errors_resolve hreads
  | .set object _ value => by
    rw [Expr.resolve, Findings.errors_append, value.errors_resolve hreads,
      object.errors_resolve hreads, Expr.uses, Expr.uses, Expr.uses, Expr.references, usesOf_append,
      errorsOf_append]
  | .super keyword method => by
    rw [errors_super]
    exact (errorsOf_singleton _).symm
  | .this keyword => by
    rw [errors_this]
    exact (errorsOf_singleton _).symm

theorem Expr.errors_resolveAll
    (hreads : ∀ name, (Γ.referVar name).errors = (Use.error? ⟨.reads name, path⟩).toList) :
    ∀ es : List Expr, (Expr.resolveAll (Context.of path) Γ es).errors =
      errorsOf (usesOf path (Expr.allReferences es))
  | [] => rfl
  | e :: es => by
    rw [Expr.resolveAll, Findings.errors_append, e.errors_resolve hreads,
      Expr.errors_resolveAll hreads es, Expr.uses, Expr.allReferences, usesOf_append,
      errorsOf_append]

end

theorem Expr.errors_resolveOption
    (hreads : ∀ name, (Γ.referVar name).errors = (Use.error? ⟨.reads name, path⟩).toList)
    (o : Option Expr) :
    (Expr.resolveOption (Context.of path) Γ o).errors =
      errorsOf (usesOf path (Expr.optionReferences o)) := by
  cases o with
  | none => rfl
  | some e => exact e.errors_resolve hreads

theorem Surrounds.errors_declareParams {kind : Body} {before : List Token}
    (h : Surrounds (.body kind before [] :: path) Γ) (ps : List Token) :
    (Γ.declareParams ps).2.errors = errorsOf (paramUses kind before path ps) := by
  induction ps generalizing before Γ with
  | nil => rfl
  | cons p ps ih =>
    rw [paramUses, errorsOf_cons, ← h.declares p, ← ih (h.param p)]
    rfl

/-- A class has its name before its superclass is looked up. -/
theorem Surrounds.errors_referSuperclass (h : Surrounds path Γ) (name : Token)
    (superclass : Option Token) :
    ((Γ.extend name).referSuperclass name superclass).errors =
      errorsOf (superclassUses name path superclass) := by
  cases superclass with
  | none => rfl
  | some parent =>
    have hself : (Findings.errorIf (name.lexeme == parent.lexeme) parent .selfInheritance).errors =
        (Use.error? ⟨.inherits name parent, path⟩).toList := by
      by_cases hname : name.lexeme = parent.lexeme <;>
        simp [hname, Findings.errorIf, Findings.error, Findings.none, Use.error?, Use.complaint?]
    rw [Static.referSuperclass, Findings.errors_append, hself,
      errors_referVar (h.complete.extend name) h.statement, superclassUses, errorsOf_cons,
      errorsOf_singleton]

mutual

theorem Stmt.errors_resolve {P : Token → Prop} : ∀ (s : Stmt) {path : List Enclosure} {Γ : Static},
    Surrounds path Γ → s.WellFormed P →
      (s.resolve (Context.of path) Γ).2.errors = errorsOf (s.uses path)
  | .expr value, _, _, h, _ => value.errors_resolve h.reads
  | .print value, _, _, h, _ => value.errors_resolve h.reads
  | .varDecl name initializer, path, Γ, h, _ => by
    rw [Stmt.resolve, Findings.errors_append, h.declares name, Stmt.uses, errorsOf_cons]
    exact congrArg _ (Expr.errors_resolveOption (h.readsOwn name) initializer)
  | .block body, path, _, h, hwf =>
    Stmt.errors_resolveBody body (Surrounds.enter h.complete .block path) hwf
  | .ifElse condition thenBranch none, path, Γ, h, hwf => by
    rw [Stmt.uses, errorsOf_append, ← condition.errors_resolve h.reads,
      ← thenBranch.errors_resolve h hwf.2.1]
    rfl
  | .ifElse condition thenBranch (some elseBranch), path, Γ, h, hwf => by
    rw [Stmt.uses, errorsOf_append, errorsOf_append, ← condition.errors_resolve h.reads,
      ← thenBranch.errors_resolve h hwf.2.1.1, ← elseBranch.errors_resolve h hwf.2.2.1,
      Stmt.snd_resolve_ifElse _ Γ condition hwf.2.1]
    rfl
  | .whileDo condition body, path, Γ, h, hwf => by
    rw [Stmt.uses, errorsOf_append, ← condition.errors_resolve h.reads,
      ← body.errors_resolve h hwf.2.1]
    rfl
  | .funDecl decl, path, Γ, h, hwf => by
    have hbody :
        (Stmt.resolveFunction (Context.of path) (Γ.extend decl.name) .function decl).errors =
        errorsOf (Stmt.functionUses .function path decl) :=
      Stmt.errors_resolveFunction decl (h.complete.extend decl.name) rfl hwf
    rw [Stmt.uses, errorsOf_cons, ← h.declares decl.name, ← hbody]
    rfl
  | .ret keyword value, path, Γ, h, _ => by
    rw [Stmt.resolve, Findings.errors_append, errors_ret, Expr.errors_resolveOption h.reads,
      Stmt.uses, errorsOf_cons]
  | .classDecl name superclass methods, path, Γ, h, hwf => by
    have hmethods : (Stmt.resolveMethods (Context.of (.cls superclass :: path))
        ((Γ.extend name).forMethods superclass) methods).errors =
        errorsOf (Stmt.methodUses (.cls superclass :: path) methods) :=
      Stmt.errors_resolveMethods methods ((h.complete.extend name).forMethods superclass) hwf.2.2
    rw [Stmt.uses, errorsOf_cons, errorsOf_append, ← h.declares name, ← h.errors_referSuperclass,
      ← hmethods, ← List.append_assoc]
    rfl

theorem Stmt.errors_resolveBody {P : Token → Prop} :
    ∀ (ss : List Stmt) {kind : Body} {params : List Token} {earlier : List Stmt}
    {path : List Enclosure} {Γ : Static}, Surrounds (.body kind params earlier :: path) Γ →
    Stmt.AllWellFormed P ss →
      (Stmt.resolveAll (Context.of (.body kind params earlier :: path)) Γ ss).2.errors =
      errorsOf (Stmt.bodyUses kind params earlier path ss)
  | [], _, _, _, _, _, _, _ => rfl
  | s :: ss, kind, params, earlier, path, Γ, h, hwf => by
    have hrest := Stmt.errors_resolveBody ss (h.after s) hwf.2
    rw [Stmt.bodyUses, errorsOf_append, ← s.errors_resolve h hwf.1, ← hrest,
      ← Stmt.fst_resolve (Context.of (.body kind params earlier :: path)) Γ hwf.1]
    rfl

theorem Stmt.errors_resolveFunction {P : Token → Prop} : ∀ (f : Callable Stmt) {kind : Body}
    {context : FunctionContext} {path : List Enclosure} {Γ : Static}, Γ.Complete →
    kind.function? = some context →
    Stmt.FunctionWellFormed P f →
    (Stmt.resolveFunction (Context.of path) Γ context f).errors =
      errorsOf (Stmt.functionUses kind path f)
  | ⟨_, params, body⟩, kind, context, path, Γ, h, hkind, hwf => by
    have henter := Surrounds.enter h kind path
    have hbody := Stmt.errors_resolveBody body (henter.extendAll params) hwf.2.2
    rw [List.nil_append, Context.of_body hkind] at hbody
    rw [Stmt.functionUses, errorsOf_append, ← henter.errors_declareParams params, ← hbody,
      ← Static.declareParams_fst]
    rfl

theorem Stmt.errors_resolveMethods {P : Token → Prop} :
    ∀ (fs : List (Callable Stmt)) {path : List Enclosure} {Γ : Static}, Γ.Complete →
      Stmt.MethodsWellFormed P fs →
      (Stmt.resolveMethods (Context.of path) Γ fs).errors = errorsOf (Stmt.methodUses path fs)
  | [], _, _, _, _ => rfl
  | f :: fs, path, Γ, h, hwf => by
    rw [Stmt.methodUses, errorsOf_append, ← Stmt.errors_resolveFunction f h rfl hwf.1,
      ← Stmt.errors_resolveMethods fs h hwf.2]
    rfl

end

end

/-- The errors of resolution are the violations of a program. -/
theorem errors_eq_allUses {P : Token → Prop} {program : List Stmt}
    (hwf : Stmt.AllWellFormed P program) :
    (resolve program).errors = errorsOf (Stmt.allUses program) := by
  rw [resolve]
  induction program with
  | nil => rfl
  | cons s ss ih =>
    -- There is no scope to declare a name in.
    have hafter : Static.after [] s = [] := by cases s <;> rfl
    rw [Stmt.allUses, List.flatMap_cons, errorsOf_append, ← s.errors_resolve .topLevel hwf.1]
    have hrest : (Stmt.resolveAll .topLevel (s.resolve .topLevel []).1 ss).2.errors =
        errorsOf (ss.flatMap (Stmt.uses [])) := by
      rw [Stmt.fst_resolve .topLevel [] hwf.1, hafter]
      exact ih hwf.2
    rw [← hrest]
    rfl

/-! ## Holes -/

def Stmt.declaredName? (s : Stmt) : Option String := s.declared?.map Token.lexeme

theorem Static.after_congr (Γ : Static) {s r : Stmt} (h : r.declaredName? = s.declaredName?) :
    Γ.after r = Γ.after s := by
  rw [Stmt.declaredName?, Stmt.declaredName?] at h
  cases hs : s.declared? with
  | none =>
    have hr : r.declared? = none := by rwa [hs, Option.map_none, Option.map_eq_none_iff] at h
    rw [Γ.after_of_not_declared hs, Γ.after_of_not_declared hr]
  | some t =>
    obtain ⟨u, hr, hname⟩ := Option.map_eq_some_iff.1 (h.trans (by rw [hs, Option.map_some]))
    rw [Γ.after_of_declared hs, Γ.after_of_declared hr]
    cases Γ with
    | nil => rfl
    | cons scope Γ => rw [Static.extend_cons, Static.extend_cons, hname]

theorem Stmt.bodyUses_append (kind : Body) (params : List Token) (earlier : List Stmt)
    (path : List Enclosure) (ss rs : List Stmt) :
    Stmt.bodyUses kind params earlier path (ss ++ rs) =
      Stmt.bodyUses kind params earlier path ss ++ Stmt.bodyUses kind params (earlier ++ ss)
        path rs := by
  induction ss generalizing earlier with
  | nil => rw [List.append_nil]; rfl
  | cons s ss ih =>
    rw [List.cons_append, bodyUses, bodyUses, ih, List.append_assoc, List.append_assoc]; rfl

theorem Stmt.methodUses_append (path : List Enclosure) (fs gs : List FunDecl) :
    Stmt.methodUses path (fs ++ gs) = Stmt.methodUses path fs ++ Stmt.methodUses path gs := by
  induction fs with
  | nil => rfl
  | cons f fs ih => rw [List.cons_append, methodUses, methodUses, ih, List.append_assoc]

theorem Stmt.AllWellFormed.behind {P : Token → Prop} {before after : List Stmt} {s : Stmt}
    (h : Stmt.AllWellFormed P (before ++ s :: after)) :
    s.WellFormed P ∧ Stmt.AllWellFormed P after := by
  induction before with
  | nil => exact h
  | cons _ _ ih => exact ih h.2

theorem Surrounds.afterAll {kind : Body} {params : List Token} {earlier : List Stmt}
    {path : List Enclosure} {Γ : Static} (h : Surrounds (.body kind params earlier :: path) Γ)
    (ss : List Stmt) :
    Surrounds (.body kind params (earlier ++ ss) :: path) (ss.foldl Static.after Γ) := by
  induction ss generalizing earlier Γ with
  | nil => rwa [List.append_nil]
  | cons s ss ih =>
    rw [List.append_cons]
    exact ih (h.after s)

/-- Of a statement only its name is of account for those that follow it. -/
theorem errorsOf_behind {P : Token → Prop} (kind : Body) (params : List Token) (before : List Stmt)
    (path : List Enclosure) {after : List Stmt} (hafter : Stmt.AllWellFormed P after) {s r : Stmt}
    (hname : r.declaredName? = s.declaredName?) :
    errorsOf (Stmt.bodyUses kind params (before ++ [r]) path after) =
      errorsOf (Stmt.bodyUses kind params (before ++ [s]) path after) := by
  -- Resolution reaches them with the same scopes.
  have hparams := (Surrounds.enter Surrounds.topLevel.complete kind path).extendAll params
  have hbefore := hparams.afterAll before
  rw [List.nil_append] at hbefore
  have hs := Stmt.errors_resolveBody after (hbefore.after s) hafter
  have hr := Stmt.errors_resolveBody after (hbefore.after r) hafter
  rw [Static.after_congr _ hname] at hr
  exact hr.symm.trans hs

/-- A statement of which a part is missing that is itself a statement. -/
inductive Hole where
  | here
  | block (before : List Stmt) (inner : Hole) (after : List Stmt)
  | ifThen (condition : Expr) (inner : Hole) (elseBranch : Option Stmt)
  | ifElse (condition : Expr) (thenBranch : Stmt) (inner : Hole)
  | whileDo (condition : Expr) (inner : Hole)
  | function (name : Token) (params : List Token) (before : List Stmt) (inner : Hole)
      (after : List Stmt)
  | method (cls : Token) (superclass : Option Token) (others : List FunDecl) (name : Token)
      (params : List Token) (before : List Stmt) (inner : Hole) (after : List Stmt)
      (more : List FunDecl)

namespace Hole

def plug : Hole → Stmt → Stmt
  | .here, s => s
  | .block before inner after, s => .block (before ++ inner.plug s :: after)
  | .ifThen condition inner elseBranch, s => .ifElse condition (inner.plug s) elseBranch
  | .ifElse condition thenBranch inner, s => .ifElse condition thenBranch (some (inner.plug s))
  | .whileDo condition inner, s => .whileDo condition (inner.plug s)
  | .function name params before inner after, s =>
    .funDecl ⟨name, params, before ++ inner.plug s :: after⟩
  | .method cls superclass others name params before inner after more, s =>
    .classDecl cls superclass (others ++ ⟨name, params, before ++ inner.plug s :: after⟩ :: more)

/-- What encloses the missing statement. -/
def path : Hole → List Enclosure → List Enclosure
  | .here, outer => outer
  | .block before inner _, outer => inner.path (.body .block [] before :: outer)
  | .ifThen _ inner _, outer => inner.path outer
  | .ifElse _ _ inner, outer => inner.path outer
  | .whileDo _ inner, outer => inner.path outer
  | .function _ params before inner _, outer => inner.path (.body .function params before :: outer)
  | .method _ superclass _ name params before inner _ _, outer =>
    inner.path (.body (.method name) params before :: .cls superclass :: outer)

theorem declaredName?_plug (hole : Hole) {s r : Stmt} (h : r.declaredName? = s.declaredName?) :
    (hole.plug r).declaredName? = (hole.plug s).declaredName? := by
  cases hole with
  | here => exact h
  | _ => rfl

end Hole

/-- Errors of a program with a statement in a hole: for all statements that declare the same name as
`s` they are the same around the errors of the statement itself, which is inside of `path`. -/
def Isolates (s : Stmt) (path : List Enclosure) (errors : Stmt → List StaticError) : Prop :=
  ∃ front back, ∀ r : Stmt, r.declaredName? = s.declaredName? →
    errors r = front ++ errorsOf (r.uses path) ++ back

section

variable {P : Token → Prop} {s : Stmt} {path : List Enclosure}
  {errors errors' : Stmt → List StaticError}

theorem Isolates.surround (h : Isolates s path errors) (left right : List StaticError)
    (herrors : ∀ r : Stmt, r.declaredName? = s.declaredName? →
      errors' r = left ++ errors r ++ right) :
    Isolates s path errors' := by
  obtain ⟨front, back, hinner⟩ := h
  refine ⟨left ++ front, back ++ right, fun r hr => ?_⟩
  rw [herrors r hr, hinner r hr]
  simp only [List.append_assoc]

/-- A hole in a body. -/
theorem Isolates.body {inner : Hole} {kind : Body} {params : List Token} {before after : List Stmt}
    {outer : List Enclosure} (hafter : Stmt.AllWellFormed P after)
    (h : Isolates s path fun r =>
      errorsOf ((inner.plug r).uses (.body kind params before :: outer))) :
    Isolates s path fun r =>
      errorsOf (Stmt.bodyUses kind params [] outer (before ++ inner.plug r :: after)) := by
  refine h.surround (errorsOf (Stmt.bodyUses kind params [] outer before))
    (errorsOf (Stmt.bodyUses kind params (before ++ [inner.plug s]) outer after)) fun r hr => ?_
  rw [← errorsOf_behind kind params before outer hafter (inner.declaredName?_plug hr),
    Stmt.bodyUses_append, List.nil_append, Stmt.bodyUses, errorsOf_append, errorsOf_append,
    List.append_assoc]

theorem Hole.isolates (hole : Hole) (outer : List Enclosure) (hwf : (hole.plug s).WellFormed P) :
    Isolates s (hole.path outer) fun r => errorsOf ((hole.plug r).uses outer) := by
  induction hole generalizing outer with
  | here => exact ⟨[], [], fun r _ => (List.append_nil _).symm⟩
  | block before inner after ih =>
    obtain ⟨hinner, hafter⟩ := hwf.behind
    exact (ih _ hinner).body hafter
  | ifThen condition inner elseBranch ih =>
    cases elseBranch with
    | none =>
      refine (ih outer hwf.2.1).surround (errorsOf (condition.uses outer)) [] fun r _ => ?_
      show errorsOf (Stmt.uses outer (.ifElse condition (inner.plug r) none)) = _
      rw [Stmt.uses, errorsOf_append, List.append_nil]
    | some elseBranch =>
      refine (ih outer hwf.2.1.1).surround (errorsOf (condition.uses outer))
        (errorsOf (elseBranch.uses outer))
        fun r _ => ?_
      show errorsOf (Stmt.uses outer (.ifElse condition (inner.plug r) (some elseBranch))) = _
      rw [Stmt.uses, errorsOf_append, errorsOf_append, List.append_assoc]
  | ifElse condition thenBranch inner ih =>
    refine (ih outer hwf.2.2.1).surround
      (errorsOf (condition.uses outer) ++ errorsOf (thenBranch.uses outer)) []
      fun r _ => ?_
    show errorsOf (Stmt.uses outer (.ifElse condition thenBranch (some (inner.plug r)))) = _
    rw [Stmt.uses, errorsOf_append, errorsOf_append, List.append_nil, List.append_assoc]
  | whileDo condition inner ih =>
    refine (ih outer hwf.2.1).surround (errorsOf (condition.uses outer)) [] fun r _ => ?_
    show errorsOf (Stmt.uses outer (.whileDo condition (inner.plug r))) = _
    rw [Stmt.uses, errorsOf_append, List.append_nil]
  | function name params before inner after ih =>
    obtain ⟨hinner, hafter⟩ := hwf.2.2.behind
    refine ((ih _ hinner).body hafter).surround
      ((Use.error? ⟨.declares name, outer⟩).toList ++
        errorsOf (paramUses .function [] outer params)) [] fun r _ => ?_
    show errorsOf (Stmt.uses outer (.funDecl ⟨name, params, before ++ inner.plug r :: after⟩)) = _
    rw [Stmt.uses, errorsOf_cons, Stmt.functionUses, errorsOf_append, List.append_nil,
      List.append_assoc]
  | method cls superclass others name params before inner after more ih =>
    obtain ⟨hinner, hafter⟩ := (hwf.2.2.of_mem (List.mem_append_cons_self)).2.2.behind
    refine ((ih _ hinner).body hafter).surround
      ((Use.error? ⟨.declares cls, outer⟩).toList ++
        (errorsOf (superclassUses cls outer superclass) ++
        (errorsOf (Stmt.methodUses (.cls superclass :: outer) others) ++
          errorsOf (paramUses (.method name) [] (.cls superclass :: outer) params))))
      (errorsOf (Stmt.methodUses (.cls superclass :: outer) more)) fun r _ => ?_
    show errorsOf (Stmt.uses outer (.classDecl cls superclass
      (others ++ ⟨name, params, before ++ inner.plug r :: after⟩ :: more))) = _
    rw [Stmt.uses, errorsOf_cons, errorsOf_append, Stmt.methodUses_append, errorsOf_append,
      Stmt.methodUses, errorsOf_append, Stmt.functionUses, errorsOf_append]
    simp only [List.append_assoc]

end

/-- **Static errors are the violations of the rules.** For every program that can be read, with
errors or without, the errors of resolution are, in its order, the violations among the uses of
names, `return`, `this`, `super` and superclasses, one error for each. What is wrong with a use
depends on nothing but what encloses it. If two programs differ in one statement that declares the
same name, or none, then the errors around that statement are the same. -/
theorem errors_are_violations (tokens : List Token) (eof : Token) :
    let program := (parse tokens eof).statements
    (resolve program).errors = (Stmt.allUses program).filterMap Use.error? ∧
    (∀ (u : Use) (e : StaticError), u.error? = some e ↔ ∃ t c, u.Violates t c ∧
      e = StaticError.atToken t c) ∧
    (∀ (u : Use) (t t' : Token) (c c' : Complaint), u.Violates t c → u.Violates t' c' →
      t = t' ∧ c = c') ∧
    ∀ (before after : List Stmt) (hole : Hole) (s : Stmt),
      program = before ++ hole.plug s :: after →
      ∃ front back, ∀ (r : Stmt) (tokens' : List Token) (eof' : Token),
        (parse tokens' eof').statements = before ++ hole.plug r :: after →
          r.declaredName? = s.declaredName? →
        (resolve (before ++ hole.plug r :: after)).errors =
          front ++ (r.uses (hole.path [])).filterMap Use.error? ++ back := by
  intro program
  have hshape (tokens : List Token) (eof : Token) :
      Stmt.AllWellFormed (fun _ => True) (parse tokens eof).statements :=
    (parse_found (fun _ _ => trivial) eof).shape
  refine ⟨errors_eq_allUses (hshape tokens eof), fun u e => ?_, fun u t t' c c' h h' => ?_,
    fun before after hole s hprogram => ?_⟩
  · rw [Use.error?, Option.map_eq_some_iff, Prod.exists]
    exact exists₂_congr fun t c => and_congr Use.complaint?_eq_some_iff eq_comm
  · have hsame := (Use.complaint?_eq_some_iff.2 h).symm.trans (Use.complaint?_eq_some_iff.2 h')
    exact Prod.mk.inj (Option.some.inj hsame)
  · have hwf := hshape tokens eof
    rw [show (parse tokens eof).statements = _ from hprogram] at hwf
    have hisolates : Isolates s (hole.path []) fun r =>
        errorsOf (Stmt.allUses (before ++ hole.plug r :: after)) := by
      refine (hole.isolates [] hwf.behind.1).surround (errorsOf (Stmt.allUses before))
        (errorsOf (Stmt.allUses after))
        fun r _ => ?_
      rw [Stmt.allUses, List.flatMap_append, List.flatMap_cons, errorsOf_append, errorsOf_append,
        List.append_assoc]
      rfl
    obtain ⟨front, back, herrors⟩ := hisolates
    refine ⟨front, back, fun r tokens' eof' hother hname => ?_⟩
    rw [errors_eq_allUses (hother ▸ hshape tokens' eof')]
    exact herrors r hname

/-- The tokens of a class with an initializer that begins with `return`, followed by the given
tokens up to a semicolon, and then uses `super`. -/
def returningInit (value : List Token) : List Token :=
  [⟨.classKw, "class", 1, 0⟩, ⟨.identifier, "B", 1, 1⟩, ⟨.leftBrace, "\x7b", 1, 2⟩,
    ⟨.identifier, "init", 1, 3⟩, ⟨.leftParen, "(", 1, 4⟩, ⟨.rightParen, ")", 1, 5⟩,
    ⟨.leftBrace, "\x7b", 1, 6⟩, ⟨.returnKw, "return", 1, 7⟩] ++
  value ++
  [⟨.semicolon, ";", 1, 9⟩, ⟨.superKw, "super", 1, 10⟩, ⟨.dot, ".", 1, 11⟩,
    ⟨.identifier, "m", 1, 12⟩, ⟨.semicolon, ";", 1, 13⟩, ⟨.rightBrace, "\x7d", 1, 14⟩,
    ⟨.rightBrace, "\x7d", 1, 15⟩]

/-- An initializer may return, but not a value. The error behind it stays when the value is left
out. -/
theorem errors_are_violations_initializer :
    let eof : Token := ⟨.eof, "", 1, 16⟩
    let program := (parse (returningInit [⟨.nilKw, "nil", 1, 8⟩]) eof).statements
    let program' := (parse (returningInit []) eof).statements
    let hole := Hole.method ⟨.identifier, "B", 1, 1⟩ none [] ⟨.identifier, "init", 1, 3⟩ [] [] .here
      [.expr (.super ⟨.superKw, "super", 1, 10⟩ ⟨.identifier, "m", 1, 12⟩)] []
    let s := Stmt.ret ⟨.returnKw, "return", 1, 7⟩ (some (.literal .nil))
    let r := Stmt.ret ⟨.returnKw, "return", 1, 7⟩ none
    (program = [] ++ hole.plug s :: [] ∧ program' = [] ++ hole.plug r :: [] ∧
      r.declaredName? = s.declaredName?) ∧
    Use.Violates ⟨.returns ⟨.returnKw, "return", 1, 7⟩ true, hole.path []⟩
      ⟨.returnKw, "return", 1, 7⟩ .initializerReturn ∧
    (resolve program).errors =
      [⟨1, .at "return", .initializerReturn⟩, ⟨1, .at "super", .superWithoutSuperclass⟩] ∧
    ∃ front back,
      (resolve program).errors = front ++ [⟨1, .at "return", .initializerReturn⟩] ++ back ∧
      (resolve program').errors = front ++ [] ++ back := by
  intro eof program program' hole s r
  obtain ⟨herrors, -, -, hisolates⟩ :=
    errors_are_violations (returningInit [⟨.nilKw, "nil", 1, 8⟩]) eof
  have hprogram : program = [] ++ hole.plug s :: [] := rfl
  have hprogram' : program' = [] ++ hole.plug r :: [] := rfl
  obtain ⟨front, back, hsame⟩ := hisolates [] [] hole s hprogram
  have hs := hsame s _ eof hprogram rfl
  have hr := hsame r _ eof hprogram' rfl
  refine ⟨⟨hprogram, hprogram', rfl⟩, ?_, ?_, front, back, ?_, ?_⟩
  · exact Use.complaint?_eq_some_iff.1 rfl
  · rw [herrors]
    rfl
  · rw [hprogram]
    exact hs
  · rw [hprogram']
    exact hr

end Lox
