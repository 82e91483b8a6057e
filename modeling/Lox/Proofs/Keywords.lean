import Lox.Proofs.Recording

/-!
# The keywords of methods

A `this` or `super` belongs to the method around it, through blocks and inner functions, but not
into classes that are declared inside. `FunDecl.keywords` lists the keywords of a method with the
distances at which they are to be found, and `Stmt.methods` the methods of all classes that are
declared somewhere in a statement. If resolution finds no errors then it finds each keyword of each
method at its distance, and `super` only where there is a superclass (`methods_resolve`).
-/

namespace Lox

/-! ## Keywords -/

def Reference.isKeyword : Reference → Bool
  | this | super => true
  | _ => false

/-- The distance of a keyword, `depth` scopes inside the one that binds `this`: `super` is one scope
further out. -/
def Reference.distanceAt (depth : Nat) : Reference → Nat
  | super => depth + 1
  | _ => depth

def keywordsOf (depth : Nat) (nodes : List (Reference × Token)) : List Resolution :=
  (nodes.filter (·.1.isKeyword)).map fun n => ⟨n.1, n.2, n.1.distanceAt depth⟩

mutual

/-- The keywords of a statement that do not belong to a class inside it. -/
def Stmt.keywords (depth : Nat) : Stmt → List Resolution
  | .expr value => keywordsOf depth value.references
  | .print value => keywordsOf depth value.references
  | .varDecl _ initializer => keywordsOf depth (Expr.optionReferences initializer)
  | .block body => Stmt.allKeywords (depth + 1) body
  | .ifElse condition thenBranch none =>
    keywordsOf depth condition.references ++ thenBranch.keywords depth
  | .ifElse condition thenBranch (some elseBranch) =>
    keywordsOf depth condition.references ++
      (thenBranch.keywords depth ++ elseBranch.keywords depth)
  | .whileDo condition body => keywordsOf depth condition.references ++ body.keywords depth
  | .funDecl decl => Stmt.functionKeywords depth decl
  | .ret _ value => keywordsOf depth (Expr.optionReferences value)
  | .classDecl _ _ _ => []

def Stmt.allKeywords (depth : Nat) : List Stmt → List Resolution
  | [] => []
  | s :: ss => s.keywords depth ++ Stmt.allKeywords depth ss

/-- The body of a function has a scope of its own. -/
def Stmt.functionKeywords (depth : Nat) : Callable Stmt → List Resolution
  | ⟨_, _, body⟩ => Stmt.allKeywords (depth + 1) body

end

def FunDecl.keywords (method : FunDecl) : List Resolution := Stmt.functionKeywords 0 method

mutual

/-- The methods of all classes that are declared in a statement, each with whether its class has a
superclass. -/
def Stmt.methods : Stmt → List (FunDecl × Bool)
  | .expr _ => []
  | .print _ => []
  | .varDecl _ _ => []
  | .block body => Stmt.allMethods body
  | .ifElse _ thenBranch none => thenBranch.methods
  | .ifElse _ thenBranch (some elseBranch) => thenBranch.methods ++ elseBranch.methods
  | .whileDo _ body => body.methods
  | .funDecl decl => Stmt.functionMethods decl
  | .ret _ _ => []
  | .classDecl _ superclass methods => Stmt.classMethods superclass.isSome methods

def Stmt.allMethods : List Stmt → List (FunDecl × Bool)
  | [] => []
  | s :: ss => s.methods ++ Stmt.allMethods ss

def Stmt.functionMethods : Callable Stmt → List (FunDecl × Bool)
  | ⟨_, _, body⟩ => Stmt.allMethods body

def Stmt.classMethods (isSubclass : Bool) : List (Callable Stmt) → List (FunDecl × Bool)
  | [] => []
  | m :: ms => (m, isSubclass) :: (Stmt.functionMethods m ++ Stmt.classMethods isSubclass ms)

end

theorem keywordsOf_append (depth : Nat) (nodes nodes' : List (Reference × Token)) :
    keywordsOf depth (nodes ++ nodes') = keywordsOf depth nodes ++ keywordsOf depth nodes' := by
  simp [keywordsOf]

/-! ## What resolution finds -/

/-- The reference may stand in such a class. -/
def ClassContext.Allows (c : ClassContext) (r : Reference) : Prop :=
  c ≠ .none ∧ (r = .super → c = .subclass)

/-- The keywords of the enclosing class were found, and those of the methods of classes inside. -/
structure Findings.HasKeywords (c : ClassContext) (f : Findings) (own : List Resolution)
    (methods : List (FunDecl × Bool)) : Prop where
  own : ∀ r ∈ own, c.Allows r.reference ∧ r ∈ f.resolutions
  methods : ∀ p ∈ methods, ∀ r ∈ p.1.keywords, (r.reference = .super → p.2 = true) ∧
    r ∈ f.resolutions

namespace Findings.HasKeywords

variable {c : ClassContext} {f g : Findings} {own own' : List Resolution}
  {methods methods' : List (FunDecl × Bool)}

theorem nil (c : ClassContext) (f : Findings) : f.HasKeywords c [] [] := ⟨nofun, nofun⟩

theorem append (hf : f.HasKeywords c own methods) (hg : g.HasKeywords c own' methods') :
    (f ++ g).HasKeywords c (own ++ own') (methods ++ methods') where
  own r hr := (List.mem_append.1 hr).elim
    (fun hr => (hf.own r hr).imp_right (List.mem_append_left _)) fun hr =>
    (hg.own r hr).imp_right (List.mem_append_right _)
  methods p hp r hr := (List.mem_append.1 hp).elim
    (fun hp => (hf.methods p hp r hr).imp_right (List.mem_append_left _)) fun hp =>
    (hg.methods p hp r hr).imp_right (List.mem_append_right _)

theorem of_right (f : Findings) (hg : g.HasKeywords c own methods) :
    (f ++ g).HasKeywords c own methods :=
  (nil c f).append hg

/-- The keywords of a method belong to its class. -/
theorem method {isSubclass : Bool} {m : FunDecl} (hf : f.HasKeywords c m.keywords methods)
    (hc : c = .subclass → isSubclass = true) {outer : ClassContext} :
    f.HasKeywords outer [] ((m, isSubclass) :: methods) where
  own := nofun
  methods p hp r hr := by
    rcases List.mem_cons.1 hp with rfl | hp
    · obtain ⟨⟨-, hsuper⟩, hmem⟩ := hf.own r hr
      exact ⟨fun h => hc (hsuper h), hmem⟩
    · exact hf.methods p hp r hr

end Findings.HasKeywords

open Findings (HasKeywords)

theorem Findings.errors_append_eq_nil {f g : Findings} :
    (f ++ g).errors = [] ↔ f.errors = [] ∧ g.errors = [] := by
  rw [errors_append, List.append_eq_nil_iff]

/-! ## Distances -/

namespace Static

variable {Γ : Static} {x : String}

theorem distance?_declare {name : Token} (h : name.lexeme ≠ x) :
    (Γ.declare name).distance? x = Γ.distance? x := by
  cases Γ with
  | nil => rfl
  | cons scope Γ => exact distance?_set h.symm false

theorem distance?_extend {name : Token} (h : name.lexeme ≠ x) :
    (Γ.extend name).distance? x = Γ.distance? x := by
  cases Γ with
  | nil => rfl
  | cons scope Γ =>
    rw [extend_cons]
    exact distance?_set h.symm true

theorem distance?_extendAll {params : List Token} (h : ∀ p ∈ params, p.lexeme ≠ x) :
    (Γ.extendAll params).distance? x = Γ.distance? x := by
  induction params generalizing Γ with
  | nil => rfl
  | cons p ps ih =>
    exact (ih fun q hq => h q (List.mem_cons_of_mem _ hq)).trans
      (distance?_extend (h p List.mem_cons_self))

end Static

/-- In a class, `this` is at the given distance, and `super` one scope further out if there is a
superclass. -/
def ClassContext.Seats (c : ClassContext) (Γ : Static) (depth : Nat) : Prop :=
  c ≠ .none → Γ.distance? "this" = some depth ∧
    (c = .subclass → Γ.distance? "super" = some (depth + 1))

namespace ClassContext.Seats

variable {c : ClassContext} {Γ Γ' : Static} {depth : Nat}

theorem congr (h : c.Seats Γ depth)
    (heq : ∀ x, x = "this" ∨ x = "super" → Γ'.distance? x = Γ.distance? x) :
    c.Seats Γ' depth := by
  intro hc
  rw [heq _ (.inl rfl), heq _ (.inr rfl)]
  exact h hc

theorem declare (h : c.Seats Γ depth) {name : Token} (hname : name.Is Token.Spelled .identifier) :
    c.Seats (Γ.declare name) depth :=
  h.congr fun _ hx =>
    Static.distance?_declare (hx.elim (· ▸ (hname.1.1 hname.2).1) (· ▸ (hname.1.1 hname.2).2))

theorem extend (h : c.Seats Γ depth) {name : Token} (hname : name.Is Token.Spelled .identifier) :
    c.Seats (Γ.extend name) depth :=
  h.congr fun _ hx =>
    Static.distance?_extend (hx.elim (· ▸ (hname.1.1 hname.2).1) (· ▸ (hname.1.1 hname.2).2))

theorem extendAll (h : c.Seats Γ depth) {params : List Token}
    (hps : ∀ p ∈ params, p.Is Token.Spelled .identifier) :
    c.Seats (Γ.extendAll params) depth :=
  h.congr fun _ hx => Static.distance?_extendAll fun p hp =>
    hx.elim (· ▸ ((hps p hp).1.1 (hps p hp).2).1) (· ▸ ((hps p hp).1.1 (hps p hp).2).2)

theorem enter (h : c.Seats Γ depth) : c.Seats (.empty :: Γ) (depth + 1) := by
  intro hc
  have hempty : ∀ x, Static.distance? (.empty :: Γ) x = (Γ.distance? x).map (· + 1) :=
    fun x => Static.distance?_cons_of_none rfl
  rw [hempty, hempty, (h hc).1]
  exact ⟨rfl, fun hsub => by rw [(h hc).2 hsub]; rfl⟩

theorem after (h : c.Seats Γ depth) {s : Stmt} (hs : s.WellFormed Token.Spelled) :
    c.Seats (Γ.after s) depth := by
  cases s with
  | varDecl name initializer => exact h.extend hs.1
  | funDecl decl =>
    obtain ⟨name, params, body⟩ := decl
    exact h.extend hs.1
  | classDecl name superclass methods => exact h.extend hs.1
  | _ => exact h

theorem forMethods (Γ : Static) (superclass : Option Token) :
    (ClassContext.of superclass).Seats (Γ.forMethods superclass) 0 := by
  intro _
  cases superclass with
  | none => exact ⟨rfl, nofun⟩
  | some t => exact ⟨rfl, fun _ => rfl⟩

/-- A keyword that is in its place is found. -/
theorem refer (h : c.Seats Γ depth) {r : Reference} (hr : r.isKeyword) (hc : c.Allows r) {t : Token}
    (ht : t.lexeme = if r = .super then "super" else "this") :
    (Γ.refer r t).HasKeywords c (keywordsOf depth [(r, t)]) [] := by
  have hd : Γ.distance? t.lexeme = some (r.distanceAt depth) := by
    rw [ht]
    cases r with
    | super => exact (h hc.1).2 (hc.2 rfl)
    | this => exact (h hc.1).1
    | _ => cases hr
  have hkeywords : keywordsOf depth [(r, t)] = [⟨r, t, r.distanceAt depth⟩] := by
    simp [keywordsOf, hr]
  unfold Static.refer
  rw [hd, hkeywords]
  exact ⟨List.forall_mem_singleton.2 ⟨hc, List.mem_singleton_self _⟩, nofun⟩

end ClassContext.Seats

/-! ## The walk -/

section

variable {ctx : Context} {Γ : Static} {depth : Nat}

open Findings (errors_append_eq_nil)

mutual

theorem Expr.keywords_resolve (hΓ : ctx.cls.Seats Γ depth) : ∀ e :
    Expr, e.WellFormed Token.Spelled → (e.resolve ctx Γ).errors = [] →
    (e.resolve ctx Γ).HasKeywords ctx.cls (keywordsOf depth e.references) []
  | .literal _, _, _ => .nil _ _
  | .var _, _, _ => .nil _ _
  | .assign name value, hwf, herr => by
    rw [Expr.references, keywordsOf_append]
    exact (value.keywords_resolve hΓ hwf.2 (errors_append_eq_nil.1 herr).1).append (.nil _ _)
  | .unary _ operand, hwf, herr => operand.keywords_resolve hΓ hwf.2.2 herr
  | .binary left _ right, hwf, herr => by
    rw [Expr.references, keywordsOf_append]
    exact (left.keywords_resolve hΓ hwf.1 (errors_append_eq_nil.1 herr).1).append
      (right.keywords_resolve hΓ hwf.2.2.2 (errors_append_eq_nil.1 herr).2)
  | .logical left _ right, hwf, herr => by
    rw [Expr.references, keywordsOf_append]
    exact (left.keywords_resolve hΓ hwf.1 (errors_append_eq_nil.1 herr).1).append
      (right.keywords_resolve hΓ hwf.2.2.2 (errors_append_eq_nil.1 herr).2)
  | .grouping inner, hwf, herr => inner.keywords_resolve hΓ hwf herr
  | .call callee _ arguments, hwf, herr => by
    rw [Expr.references, keywordsOf_append]
    exact (callee.keywords_resolve hΓ hwf.1 (errors_append_eq_nil.1 herr).1).append
      (Expr.keywords_resolveAll hΓ arguments hwf.2.2 (errors_append_eq_nil.1 herr).2)
  | .get object _, hwf, herr => object.keywords_resolve hΓ hwf.1 herr
  | .set object _ value, hwf, herr => by
    rw [Expr.references, keywordsOf_append]
    exact (value.keywords_resolve hΓ hwf.2.2 (errors_append_eq_nil.1 herr).1).append
      (object.keywords_resolve hΓ hwf.1 (errors_append_eq_nil.1 herr).2)
  | .super keyword _, hwf, herr => by
    obtain ⟨herr, -⟩ := errors_append_eq_nil.1 herr
    obtain ⟨hnone, hplain⟩ := errors_append_eq_nil.1 herr
    have hnone : ctx.cls ≠ .none := by simpa using hnone
    have hplain : ctx.cls ≠ .plain := by simpa using hplain
    have hsub : ctx.cls = .subclass := by
      cases hc : ctx.cls with
      | none => exact absurd hc hnone
      | plain => exact absurd hc hplain
      | subclass => rfl
    exact .of_right _ (hΓ.refer rfl ⟨hnone, fun _ => hsub⟩ (hwf.1.1.2.2 hwf.1.2))
  | .this keyword, hwf, herr => by
    rw [Expr.resolve] at herr ⊢
    split at herr
    · cases herr
    · rename_i hnone
      rw [if_neg hnone]
      exact hΓ.refer (r := .this) rfl ⟨by simpa using hnone, nofun⟩ (hwf.1.2.1 hwf.2)

theorem Expr.keywords_resolveAll (hΓ : ctx.cls.Seats Γ depth) : ∀ es :
    List Expr, Expr.AllWellFormed Token.Spelled es → (Expr.resolveAll ctx Γ es).errors = [] →
    (Expr.resolveAll ctx Γ es).HasKeywords ctx.cls (keywordsOf depth (Expr.allReferences es)) []
  | [], _, _ => .nil _ _
  | e :: es, hwf, herr => by
    rw [Expr.allReferences, keywordsOf_append]
    exact (e.keywords_resolve hΓ hwf.1 (errors_append_eq_nil.1 herr).1).append
      (Expr.keywords_resolveAll hΓ es hwf.2 (errors_append_eq_nil.1 herr).2)

end

theorem Expr.keywords_resolveOption (hΓ : ctx.cls.Seats Γ depth) (o : Option Expr)
    (hwf : Expr.OptionWellFormed Token.Spelled o)
    (herr : (Expr.resolveOption ctx Γ o).errors = []) :
    (Expr.resolveOption ctx Γ o).HasKeywords ctx.cls (keywordsOf depth (Expr.optionReferences o))
      [] := by
  cases o with
  | none => exact .nil _ _
  | some e => exact e.keywords_resolve hΓ hwf herr

end

open Findings (errors_append_eq_nil)

mutual

theorem Stmt.keywords_resolve :
    ∀ (s : Stmt) {ctx : Context} {Γ : Static} {depth : Nat}, ctx.cls.Seats Γ depth →
    s.WellFormed Token.Spelled → (s.resolve ctx Γ).2.errors = [] →
    (s.resolve ctx Γ).2.HasKeywords ctx.cls (s.keywords depth) s.methods
  | .expr value, _, _, _, hΓ, hwf, herr => value.keywords_resolve hΓ hwf herr
  | .print value, _, _, _, hΓ, hwf, herr => value.keywords_resolve hΓ hwf herr
  | .varDecl name initializer, _, _, _, hΓ, hwf, herr =>
    .of_right _ (Expr.keywords_resolveOption (hΓ.declare hwf.1) initializer hwf.2
      (errors_append_eq_nil.1 herr).2)
  | .block body, _, _, _, hΓ, hwf, herr => Stmt.keywords_resolveAll body hΓ.enter hwf herr
  | .ifElse condition thenBranch none, _, _, _, hΓ, hwf, herr =>
    (condition.keywords_resolve hΓ hwf.1 (errors_append_eq_nil.1 herr).1).append
      (thenBranch.keywords_resolve hΓ hwf.2.1 (errors_append_eq_nil.1 herr).2)
  | .ifElse condition thenBranch (some elseBranch), ctx, Γ, depth, hΓ, hwf, herr => by
    obtain ⟨herr, helse⟩ := errors_append_eq_nil.1 herr
    obtain ⟨hcondition, hthen⟩ := errors_append_eq_nil.1 herr
    have hbranch : ctx.cls.Seats (thenBranch.resolve ctx Γ).1 depth := by
      rw [Stmt.fst_resolve ctx Γ hwf.2.1.1]
      exact hΓ.after hwf.2.1.1
    have hfound := ((condition.keywords_resolve hΓ hwf.1 hcondition).append
      (thenBranch.keywords_resolve hΓ hwf.2.1.1 hthen)).append
        (elseBranch.keywords_resolve hbranch hwf.2.2.1 helse)
    rw [List.append_assoc] at hfound
    exact hfound
  | .whileDo condition body, _, _, _, hΓ, hwf, herr =>
    (condition.keywords_resolve hΓ hwf.1 (errors_append_eq_nil.1 herr).1).append
      (body.keywords_resolve hΓ hwf.2.1 (errors_append_eq_nil.1 herr).2)
  | .funDecl ⟨name, params, body⟩, _, _, _, hΓ, hwf, herr =>
    .of_right _ (Stmt.keywords_resolveFunction ⟨name, params, body⟩ (hΓ.extend hwf.1) hwf
      (errors_append_eq_nil.1 herr).2)
  | .ret _ value, _, _, _, hΓ, hwf, herr =>
    .of_right _ (Expr.keywords_resolveOption hΓ value hwf.2 (errors_append_eq_nil.1 herr).2)
  | .classDecl name superclass methods, ctx, Γ, _, _, hwf, herr => by
    have hmethods :
        (Stmt.resolveMethods { ctx with cls := .of superclass }
        ((Γ.extend name).forMethods superclass)
          methods).HasKeywords ctx.cls [] (Stmt.classMethods superclass.isSome methods) :=
      Stmt.keywords_resolveMethods methods (.forMethods _ superclass)
        (fun h => by cases superclass <;> trivial) hwf.2.2 (errors_append_eq_nil.1 herr).2
    exact .of_right _ hmethods

theorem Stmt.keywords_resolveAll : ∀ (ss : List Stmt) {ctx : Context} {Γ : Static} {depth : Nat},
    ctx.cls.Seats Γ depth → Stmt.AllWellFormed Token.Spelled ss →
      (Stmt.resolveAll ctx Γ ss).2.errors = [] →
    (Stmt.resolveAll ctx Γ ss).2.HasKeywords ctx.cls (Stmt.allKeywords depth ss)
      (Stmt.allMethods ss)
  | [], _, _, _, _, _, _ => .nil _ _
  | s :: ss, ctx, Γ, depth, hΓ, hwf, herr => by
    have hrest : ctx.cls.Seats (s.resolve ctx Γ).1 depth := by
      rw [Stmt.fst_resolve ctx Γ hwf.1]
      exact hΓ.after hwf.1
    exact (s.keywords_resolve hΓ hwf.1 (errors_append_eq_nil.1 herr).1).append
      (Stmt.keywords_resolveAll ss hrest hwf.2 (errors_append_eq_nil.1 herr).2)

theorem Stmt.keywords_resolveFunction :
    ∀ (f : Callable Stmt) {ctx : Context} {Γ : Static} {depth : Nat} {kind : FunctionContext},
    ctx.cls.Seats Γ depth → Stmt.FunctionWellFormed Token.Spelled f →
    (Stmt.resolveFunction ctx Γ kind f).errors = [] →
    (Stmt.resolveFunction ctx Γ kind f).HasKeywords ctx.cls (Stmt.functionKeywords depth f)
    (Stmt.functionMethods f)
  | ⟨_, params, body⟩, ctx, Γ, depth, kind, hΓ, hwf, herr => by
    have hbody :
        (Context.mk kind ctx.cls).cls.Seats (Static.declareParams (.empty :: Γ) params).1
        (depth + 1) := by
      rw [Static.declareParams_fst]
      exact hΓ.enter.extendAll hwf.2.1
    exact .of_right _ (Stmt.keywords_resolveAll body hbody hwf.2.2 (errors_append_eq_nil.1 herr).2)

theorem Stmt.keywords_resolveMethods : ∀ (fs : List (Callable Stmt)) {ctx : Context} {Γ : Static}
    {isSubclass : Bool} {outer : ClassContext}, ctx.cls.Seats Γ 0 →
    (ctx.cls = .subclass → isSubclass = true) →
    Stmt.MethodsWellFormed Token.Spelled fs → (Stmt.resolveMethods ctx Γ fs).errors = [] →
    (Stmt.resolveMethods ctx Γ fs).HasKeywords outer [] (Stmt.classMethods isSubclass fs)
  | [], _, _, _, _, _, _, _, _ => .nil _ _
  | f :: fs, _, _, _, _, hΓ, hsub, hwf, herr =>
    ((Stmt.keywords_resolveFunction f hΓ hwf.1 (errors_append_eq_nil.1 herr).1).method hsub).append
      (Stmt.keywords_resolveMethods fs hΓ hsub hwf.2 (errors_append_eq_nil.1 herr).2)

end

/-- A program without static errors has keywords in methods only, and resolution finds them all. -/
theorem methods_resolve {program : List Stmt} (hwf : Stmt.AllWellFormed Token.Spelled program)
    (herr : (resolve program).errors = []) (depth : Nat) : Stmt.allKeywords depth program = [] ∧
      ∀ p ∈ Stmt.allMethods program, ∀ r ∈ p.1.keywords,
        (r.reference = .super → p.2 = true) ∧ r ∈ (resolve program).resolutions := by
  have hfound :
      (Stmt.resolveAll .topLevel [] program).2.HasKeywords .none (Stmt.allKeywords depth program)
      (Stmt.allMethods program) := Stmt.keywords_resolveAll program (fun h => absurd rfl h) hwf herr
  exact ⟨List.eq_nil_iff_forall_not_mem.2 fun r hr => (hfound.own r hr).1.1 rfl, hfound.methods⟩

end Lox
