import Lox.Proofs.Shape
import Lox.Proofs.Sites

/-!
# Resolved programs

`Resolved T Γ` says of a piece of program inside the static scopes `Γ` what its execution relies on:
the table `T` has the distance of each reference, a variable is not read while it is being
initialized, names are declared once in a scope, and operators are of the right category.
`Stmt.resolved_of_resolve` shows it of what `resolve` passes without error. The table may grow later
(`Stmt.AllResolved.mono`).
-/

namespace Lox

namespace Static

/-- Whether the nearest declaration of a name is complete. -/
def flag? (Γ : Static) (x : String) : Option Bool := Γ.findSome? fun scope => scope.get? x

def extend (Γ : Static) (name : Token) : Static := (Γ.declare name).complete name

/-- The table has the distance of a reference. -/
def Finds (Γ : Static) (T : SiteTable) (t : Token) : Prop := T t.site (Γ.distance? t.lexeme)

/-- A name can be declared in the innermost scope. -/
def Admits (Γ : Static) (name : Token) : Prop :=
  name.lexeme ≠ "super" ∧ ∀ scope ∈ Γ.head?, scope.get? name.lexeme = none

/-- The parameters can be declared one after another. -/
def AdmitsAll : Static → List Token → Prop
  | _, [] => True
  | Γ, p :: ps => Γ.Admits p ∧ (Γ.extend p).AdmitsAll ps

def extendAll (Γ : Static) (params : List Token) : Static := params.foldl extend Γ

def after (Γ : Static) : Stmt → Static
  | .varDecl name _ => Γ.extend name
  | .funDecl decl => Γ.extend decl.name
  | .classDecl name _ _ => Γ.extend name
  | _ => Γ

end Static

mutual

def Expr.Resolved (T : SiteTable) (Γ : Static) : Expr → Prop
  | .literal _ => True
  | .var name => Γ.Finds T name ∧ Γ.flag? name.lexeme ≠ some false
  | .assign name value => value.Resolved T Γ ∧ name.lexeme ≠ "super" ∧ Γ.Finds T name
  | .unary op operand => op.kind.isPrefixOperator ∧ operand.Resolved T Γ
  | .binary left op right => left.Resolved T Γ ∧ op.kind.isBinaryOperator ∧ right.Resolved T Γ
  | .logical left _ right => left.Resolved T Γ ∧ right.Resolved T Γ
  | .grouping inner => inner.Resolved T Γ
  | .call callee _ arguments => callee.Resolved T Γ ∧ Expr.AllResolved T Γ arguments
  | .get object _ => object.Resolved T Γ
  | .set object _ value => object.Resolved T Γ ∧ value.Resolved T Γ
  -- The instance is bound one scope inside the superclass.
  | .super keyword _ => ∃ d, T keyword.site (some (d + 1)) ∧
      (Γ.distance? "super" = some (d + 1) ∧ Γ.flag? "super" = some true) ∧
      Γ.distance? "this" = some d ∧ Γ.flag? "this" = some true
  | .this keyword => Γ.Finds T keyword ∧ Γ.flag? keyword.lexeme ≠ some false

def Expr.AllResolved (T : SiteTable) (Γ : Static) : List Expr → Prop
  | [] => True
  | e :: es => e.Resolved T Γ ∧ Expr.AllResolved T Γ es

end

def Expr.OptionResolved (T : SiteTable) (Γ : Static) : Option Expr → Prop
  | none => True
  | some e => e.Resolved T Γ

mutual

/-- `inside` tells whether a `return` is allowed. -/
def Stmt.Resolved (T : SiteTable) (inside : Bool) (Γ : Static) : Stmt → Prop
  | .expr value => value.Resolved T Γ
  | .print value => value.Resolved T Γ
  | .varDecl name initializer => Γ.Admits name ∧ Expr.OptionResolved T (Γ.declare name) initializer
  | .block body => Stmt.AllResolved T inside (.empty :: Γ) body
  | .ifElse condition thenBranch none =>
    condition.Resolved T Γ ∧ thenBranch.Resolved T inside Γ ∧ ¬ thenBranch.IsDeclaration
  | .ifElse condition thenBranch (some elseBranch) =>
    condition.Resolved T Γ ∧ (thenBranch.Resolved T inside Γ ∧ ¬ thenBranch.IsDeclaration) ∧
      elseBranch.Resolved T inside Γ ∧ ¬ elseBranch.IsDeclaration
  | .whileDo condition body =>
    condition.Resolved T Γ ∧ body.Resolved T inside Γ ∧ ¬ body.IsDeclaration
  | .funDecl decl => Γ.Admits decl.name ∧ Stmt.FunctionResolved T (Γ.extend decl.name) decl
  | .ret _ value => inside = true ∧ Expr.OptionResolved T Γ value
  | .classDecl name superclass methods =>
    Γ.Admits name ∧ (∀ t ∈ superclass, (Expr.var t).Resolved T (Γ.extend name)) ∧
      Stmt.MethodsResolved T ((Γ.extend name).forMethods superclass) methods

def Stmt.AllResolved (T : SiteTable) (inside : Bool) (Γ : Static) : List Stmt → Prop
  | [] => True
  | s :: ss => s.Resolved T inside Γ ∧ Stmt.AllResolved T inside (Γ.after s) ss

def Stmt.FunctionResolved (T : SiteTable) (Γ : Static) : Callable Stmt → Prop
  | ⟨_, params, body⟩ => Static.AdmitsAll (.empty :: Γ) params ∧
      Stmt.AllResolved T true (Static.extendAll (.empty :: Γ) params) body

def Stmt.MethodsResolved (T : SiteTable) (Γ : Static) : List (Callable Stmt) → Prop
  | [] => True
  | m :: ms => Stmt.FunctionResolved T Γ m ∧ Stmt.MethodsResolved T Γ ms

end

theorem Stmt.MethodsResolved.mem {T : SiteTable} {Γ : Static} {fs : List (Callable Stmt)}
    (h : Stmt.MethodsResolved T Γ fs) {f : Callable Stmt} (hf : f ∈ fs) :
    Stmt.FunctionResolved T Γ f := by
  induction fs with
  | nil => cases hf
  | cons g fs ih =>
    rcases List.mem_cons.1 hf with rfl | hf
    · exact h.1
    · exact ih h.2 hf

/-! ## Growing tables -/

mutual

theorem Expr.Resolved.mono {T T' : SiteTable} (hT : ∀ s o, T s o → T' s o) :
    ∀ {e : Expr} {Γ : Static}, e.Resolved T Γ → e.Resolved T' Γ
  | .literal _, _, _ => trivial
  | .var _, _, h => ⟨hT _ _ h.1, h.2⟩
  | .assign .., _, h => ⟨h.1.mono hT, h.2.1, hT _ _ h.2.2⟩
  | .unary .., _, h => ⟨h.1, h.2.mono hT⟩
  | .binary .., _, h => ⟨h.1.mono hT, h.2.1, h.2.2.mono hT⟩
  | .logical .., _, h => ⟨h.1.mono hT, h.2.mono hT⟩
  | .grouping inner, _, h => Expr.Resolved.mono hT (e := inner) h
  | .call .., _, h => ⟨h.1.mono hT, h.2.mono hT⟩
  | .get object _, _, h => Expr.Resolved.mono hT (e := object) h
  | .set .., _, h => ⟨h.1.mono hT, h.2.mono hT⟩
  | .super .., _, ⟨d, h, hrest⟩ => ⟨d, hT _ _ h, hrest⟩
  | .this _, _, h => ⟨hT _ _ h.1, h.2⟩

theorem Expr.AllResolved.mono {T T' : SiteTable} (hT : ∀ s o, T s o → T' s o) :
    ∀ {es : List Expr} {Γ : Static}, Expr.AllResolved T Γ es → Expr.AllResolved T' Γ es
  | [], _, _ => trivial
  | _ :: _, _, h => ⟨h.1.mono hT, h.2.mono hT⟩

end

theorem Expr.OptionResolved.mono {T T' : SiteTable} (hT : ∀ s o, T s o → T' s o) {o : Option Expr}
    {Γ : Static} (h : Expr.OptionResolved T Γ o) : Expr.OptionResolved T' Γ o := by
  cases o with
  | none => trivial
  | some e => exact Expr.Resolved.mono hT (e := e) h

mutual

theorem Stmt.Resolved.mono {T T' : SiteTable} (hT : ∀ s o, T s o → T' s o) :
    ∀ {s : Stmt} {inside : Bool} {Γ : Static}, s.Resolved T inside Γ → s.Resolved T' inside Γ
  | .expr value, _, _, h => Expr.Resolved.mono hT (e := value) h
  | .print value, _, _, h => Expr.Resolved.mono hT (e := value) h
  | .varDecl .., _, _, h => ⟨h.1, h.2.mono hT⟩
  | .block body, inside, Γ, h => @Stmt.AllResolved.mono _ _ hT body inside (.empty :: Γ) h
  | .ifElse _ _ none, _, _, h => ⟨h.1.mono hT, h.2.1.mono hT, h.2.2⟩
  | .ifElse _ _ (some _), _, _, h =>
    ⟨h.1.mono hT, ⟨h.2.1.1.mono hT, h.2.1.2⟩, h.2.2.1.mono hT, h.2.2.2⟩
  | .whileDo .., _, _, h => ⟨h.1.mono hT, h.2.1.mono hT, h.2.2⟩
  | .funDecl .., _, _, h => ⟨h.1, h.2.mono hT⟩
  | .ret .., _, _, h => ⟨h.1, h.2.mono hT⟩
  | .classDecl .., _, _, h => ⟨h.1, fun t ht => (h.2.1 t ht).mono hT, h.2.2.mono hT⟩

theorem Stmt.AllResolved.mono {T T' : SiteTable} (hT : ∀ s o, T s o → T' s o) :
    ∀ {ss : List Stmt} {inside : Bool} {Γ : Static},
      Stmt.AllResolved T inside Γ ss → Stmt.AllResolved T' inside Γ ss
  | [], _, _, _ => trivial
  | _ :: _, _, _, h => ⟨h.1.mono hT, h.2.mono hT⟩

theorem Stmt.FunctionResolved.mono {T T' : SiteTable} (hT : ∀ s o, T s o → T' s o) :
    ∀ {f : Callable Stmt} {Γ : Static}, Stmt.FunctionResolved T Γ f → Stmt.FunctionResolved T' Γ f
  | ⟨_, _, _⟩, _, h => ⟨h.1, h.2.mono hT⟩

theorem Stmt.MethodsResolved.mono {T T' : SiteTable} (hT : ∀ s o, T s o → T' s o) :
    ∀ {fs : List (Callable Stmt)} {Γ : Static}, Stmt.MethodsResolved T Γ fs →
      Stmt.MethodsResolved T' Γ fs
  | [], _, _ => trivial
  | _ :: _, _, h => ⟨h.1.mono hT, h.2.mono hT⟩

end

/-! ## Static scopes -/

theorem Bindings.set_set {α : Type} (b : Bindings α) (x : String) (v w : α) :
    (b.set x v).set x w = b.set x w := by
  have hentries : ∀ l : List (String × α), setIn x w (setIn x v l) = setIn x w l := by
    intro l
    induction l with
    | nil => simp [setIn]
    | cons p l ih =>
      by_cases hp : p.1 = x
      · simp [setIn, hp]
      · simp [setIn, hp, ih]
  simp only [set, hentries]

namespace Static

variable {Γ : Static} {scope : Bindings Bool} {x : String}

theorem distance?_cons_of_some (h : (scope.get? x).isSome) : distance? (scope :: Γ) x = some 0 := by
  simp [distance?, List.findIdx?_cons, h]

theorem distance?_cons_of_none (h : scope.get? x = none) :
    distance? (scope :: Γ) x = (Γ.distance? x).map (· + 1) := by
  simp [distance?, List.findIdx?_cons, h]

theorem flag?_cons_of_some {b : Bool} (h : scope.get? x = some b) :
    flag? (scope :: Γ) x = some b := by
  simp [flag?, h]

theorem flag?_cons_of_none (h : scope.get? x = none) : flag? (scope :: Γ) x = Γ.flag? x := by
  simp [flag?, h]

theorem extend_cons (t : Token) : extend (scope :: Γ) t = scope.set t.lexeme true :: Γ := by
  simp [extend, declare, complete, Bindings.set_set]

theorem after_of_declared (Γ : Static) {s : Stmt} {t : Token} (ht : s.declared? = some t) :
    Γ.after s = Γ.extend t := by
  cases s <;> cases ht <;> rfl

theorem after_of_not_declared (Γ : Static) {s : Stmt} (h : s.declared? = none) : Γ.after s = Γ := by
  cases s with
  | varDecl | funDecl | classDecl => cases h
  | _ => rfl

/-- Another name keeps its distance. -/
theorem distance?_set {name : String} (h : x ≠ name) (b : Bool) :
    distance? (scope.set name b :: Γ) x = distance? (scope :: Γ) x := by
  simp [distance?, List.findIdx?_cons, h]

theorem flag?_set {name : String} (h : x ≠ name) (b : Bool) :
    flag? (scope.set name b :: Γ) x = flag? (scope :: Γ) x := by
  simp [flag?, List.findSome?_cons, h]

theorem declareParams_fst (Γ : Static) (params : List Token) :
    (Γ.declareParams params).1 = Γ.extendAll params := by
  induction params generalizing Γ with
  | nil => rfl
  | cons p ps ih => exact ih (Γ.extend p)

def Complete (Γ : Static) : Prop := ∀ scope ∈ Γ, ∀ x, scope.get? x ≠ some false

/-- All declarations are complete but for those of the innermost scope. -/
def Settled (Γ : Static) : Prop := Complete Γ.tail

theorem Complete.settled (h : Γ.Complete) : Γ.Settled :=
  fun scope hs => h scope (List.mem_of_mem_tail hs)

theorem Complete.declare (h : Γ.Complete) (name : Token) : (Γ.declare name).Settled := by
  cases Γ with
  | nil => exact h
  | cons scope Γ => exact fun s hs => h s (List.mem_cons_of_mem _ hs)

theorem Complete.extend (h : Γ.Complete) (name : Token) : (Γ.extend name).Complete := by
  cases Γ with
  | nil => exact h
  | cons scope Γ =>
    rw [extend_cons]
    intro s hs x
    rcases List.mem_cons.1 hs with rfl | hs
    · rw [Bindings.get?_set]
      split
      · simp
      · exact h scope (by simp) x
    · exact h s (by simp [hs]) x

theorem Complete.extendAll (h : Γ.Complete) (params : List Token) :
    (Γ.extendAll params).Complete := by
  induction params generalizing Γ with
  | nil => exact h
  | cons p ps ih => exact ih (h.extend p)

theorem Complete.cons (h : Γ.Complete) (hs : ∀ x, scope.get? x ≠ some false) :
    Complete (scope :: Γ) := List.forall_mem_cons.2 ⟨hs, h⟩

theorem single_ne_false (name x : String) : (single name).get? x ≠ some false := by
  rw [single, Bindings.get?_set]
  split <;> simp

theorem Complete.forMethods (h : Γ.Complete) (superclass : Option Token) :
    (Γ.forMethods superclass).Complete := by
  cases superclass with
  | none => exact h.cons (single_ne_false "this")
  | some _ => exact (h.cons (single_ne_false "super")).cons (single_ne_false "this")

/-- A name whose initializer is not being read is complete. -/
theorem Settled.flag?_ne (h : Γ.Settled) (hx : Γ.isInitializing x = false) :
    Γ.flag? x ≠ some false := by
  cases Γ with
  | nil => simp [flag?]
  | cons scope Γ =>
    intro hflag
    rw [flag?, List.findSome?_eq_some_iff] at hflag
    obtain ⟨before, s, after, hsplit, hs, -⟩ := hflag
    cases before with
    | nil =>
      obtain ⟨rfl, -⟩ : scope = s ∧ Γ = after := by simpa using hsplit
      simp [isInitializing, hs] at hx
    | cons b before =>
      obtain ⟨-, rfl⟩ : scope = b ∧ Γ = before ++ s :: after := by simpa using hsplit
      exact h s (by simp) x hs

end Static

/-! ### Names of one scope -/

/-- The names can be declared in the scope one after another. -/
structure Bindings.Accepts (scope : Bindings Bool) (names : List Token) : Prop where
  nodup : (names.map Token.lexeme).Nodup
  new : ∀ t ∈ names, scope.get? t.lexeme = none

theorem Bindings.Accepts.nil (scope : Bindings Bool) : scope.Accepts [] := ⟨List.nodup_nil, by simp⟩

theorem Bindings.Accepts.cons {scope : Bindings Bool} {t : Token} {names : List Token} {b : Bool}
    (ht : scope.get? t.lexeme = none) (h : (scope.set t.lexeme b).Accepts names) :
    scope.Accepts (t :: names) := by
  have hdiff : ∀ u ∈ names, u.lexeme ≠ t.lexeme ∧ scope.get? u.lexeme = none := by
    intro u hu
    have hnew := h.new u hu
    rw [Bindings.get?_set] at hnew
    split at hnew
    · cases hnew
    · exact ⟨‹_›, hnew⟩
  refine ⟨List.nodup_cons.2 ⟨fun hmem => ?_, h.nodup⟩,
    List.forall_mem_cons.2 ⟨ht, fun u hu => (hdiff u hu).2⟩⟩
  obtain ⟨u, hu, heq⟩ := List.mem_map.1 hmem
  exact (hdiff u hu).1 heq

section

variable {scope : Bindings Bool} {Γ : Static}

theorem Static.extendAll_cons (scope : Bindings Bool) (Γ : Static) (params : List Token) :
    ∃ scope', Static.extendAll (scope :: Γ) params = scope' :: Γ := by
  induction params generalizing scope with
  | nil => exact ⟨scope, rfl⟩
  | cons p ps ih =>
    rw [Static.extendAll, List.foldl_cons, Static.extend_cons]
    exact ih _

/-- Parameters have different names, and so have the names declared behind them. -/
theorem Static.AdmitsAll.accepts_append {params names : List Token}
    (h : Static.AdmitsAll (scope :: Γ) params)
    (hnames : ∀ scope', Static.extendAll (scope :: Γ) params = scope' :: Γ → scope'.Accepts names) :
    scope.Accepts (params ++ names) := by
  induction params generalizing scope with
  | nil => exact hnames scope rfl
  | cons p ps ih =>
    obtain ⟨hp, hps⟩ := h
    rw [Static.extend_cons] at hps
    refine .cons (hp.2 scope rfl) (ih hps fun scope' hscope => hnames scope' ?_)
    rw [Static.extendAll, List.foldl_cons, Static.extend_cons]
    exact hscope

theorem Static.AdmitsAll.accepts {params : List Token} (h : Static.AdmitsAll (scope :: Γ) params) :
    scope.Accepts params := by
  rw [← List.append_nil params]
  exact h.accepts_append fun scope' _ => .nil scope'

theorem Stmt.Resolved.admits {T : SiteTable} {inside : Bool} {s : Stmt} (h : s.Resolved T inside Γ)
    {t : Token} (ht : s.declared? = some t) : Γ.Admits t := by
  cases s <;> cases ht <;> exact h.1

/-- The statements of a list declare different names. -/
theorem Stmt.AllResolved.accepts {T : SiteTable} {inside : Bool} {ss : List Stmt}
    (h : Stmt.AllResolved T inside (scope :: Γ) ss) :
    scope.Accepts (ss.filterMap Stmt.declared?) := by
  induction ss generalizing scope with
  | nil => exact .nil scope
  | cons s ss ih =>
    obtain ⟨hs, hss⟩ := h
    cases ht : s.declared? with
    | none =>
      rw [Static.after_of_not_declared _ ht] at hss
      rw [List.filterMap_cons_none ht]
      exact ih hss
    | some t =>
      rw [Static.after_of_declared _ ht, Static.extend_cons] at hss
      rw [List.filterMap_cons_some ht]
      exact .cons ((hs.admits ht).2 scope rfl) (ih hss)

end

/-- The implicit variables of the enclosing class are in scope, `this` one scope inside `super`. -/
def Context.Fits (ctx : Context) (Γ : Static) : Prop :=
  ctx.cls ≠ .none → ∃ d, (Γ.distance? "this" = some d ∧ Γ.flag? "this" = some true) ∧
    (ctx.cls = .subclass → Γ.distance? "super" = some (d + 1) ∧ Γ.flag? "super" = some true)

namespace Context.Fits

variable {ctx : Context} {Γ : Static}

theorem declare (h : ctx.Fits Γ) {name : Token} (hthis : name.lexeme ≠ "this")
    (hsuper : name.lexeme ≠ "super") : ctx.Fits (Γ.declare name) := by
  cases Γ with
  | nil => exact h
  | cons scope Γ =>
    unfold Context.Fits at h ⊢
    rwa [Static.declare, Static.distance?_set hthis.symm, Static.flag?_set hthis.symm,
      Static.distance?_set hsuper.symm, Static.flag?_set hsuper.symm]

theorem extend (h : ctx.Fits Γ) {name : Token} (hthis : name.lexeme ≠ "this")
    (hsuper : name.lexeme ≠ "super") : ctx.Fits (Γ.extend name) := by
  cases Γ with
  | nil => exact h
  | cons scope Γ =>
    unfold Context.Fits at h ⊢
    rwa [Static.extend_cons, Static.distance?_set hthis.symm, Static.flag?_set hthis.symm,
      Static.distance?_set hsuper.symm, Static.flag?_set hsuper.symm]

theorem enter (h : ctx.Fits Γ) : ctx.Fits (.empty :: Γ) := by
  intro hc
  obtain ⟨d, ⟨hthis, hflag⟩, hsuper⟩ := h hc
  have hnone : ∀ x, (Bindings.empty : Bindings Bool).get? x = none := fun x => rfl
  refine ⟨d + 1, ⟨?_, ?_⟩, fun hs => ⟨?_, ?_⟩⟩
  · rw [Static.distance?_cons_of_none (hnone _), hthis]
    rfl
  · rw [Static.flag?_cons_of_none (hnone _), hflag]
  · rw [Static.distance?_cons_of_none (hnone _), (hsuper hs).1]
    rfl
  · rw [Static.flag?_cons_of_none (hnone _), (hsuper hs).2]

theorem extendAll (h : ctx.Fits Γ) {params : List Token}
    (hp : ∀ p ∈ params, p.lexeme ≠ "this" ∧ p.lexeme ≠ "super") :
    ctx.Fits (Γ.extendAll params) := by
  induction params generalizing Γ with
  | nil => exact h
  | cons p ps ih =>
    exact ih (h.extend (hp p (by simp)).1 (hp p (by simp)).2) fun q hq => hp q (by simp [hq])

theorem forMethods (ctx : Context) (Γ : Static) (superclass : Option Token) :
    ({ ctx with cls := .of superclass } : Context).Fits (Γ.forMethods superclass) := by
  intro _
  cases superclass with
  | none => exact ⟨0, ⟨rfl, rfl⟩, fun h => by cases h⟩
  | some _ => exact ⟨0, ⟨rfl, rfl⟩, fun _ => ⟨rfl, rfl⟩⟩

end Context.Fits

end Lox
