import Lox.Proofs.Recording

/-!
# The spots of references

A spot is a reference node together with the regions of the program around it that have local names:
bodies, and the `this` and `super` of classes. A region is given by the text in it that comes before
the node, so that its names are those that are declared there (`Region.names`). `Stmt.allSpots`
lists the spots of a program in the order in which resolution comes to them.
`Stmt.resolutions_eq_allSpots` says that resolution finds for each spot the nearest region with the
name of the node, and `distances_lexical` says the same of every program that can be read.
-/

namespace Lox

/-- A region of a program with local names, as far as it comes before a node in it. -/
inductive Region where
  /-- The body of a block, a function or a method, up to the statement that the node is in. A
  statement that declares a name declares it for itself too: for the initializer of a variable, for
  the body of a function or for a class. -/
  | body (params : List Token) (upTo : List Stmt)
  /-- The methods of a class. -/
  | this
  /-- A class with a superclass. -/
  | super

namespace Region

/-- The names that are declared in a region before the node. -/
def names : Region → List String
  | .body params upTo => (params ++ upTo.filterMap Stmt.declared?).map Token.lexeme
  | .this => ["this"]
  | .super => ["super"]

theorem names_body_append (params : List Token) (earlier : List Stmt) (s : Stmt) (x : String) :
    x ∈ (body params (earlier ++ [s])).names ↔
      s.declared?.map Token.lexeme = some x ∨ x ∈ (body params earlier).names := by
  have hs : [s].filterMap Stmt.declared? = s.declared?.toList := by
    cases hs : s.declared? <;> simp [hs]
  simp only [names, List.filterMap_append, List.map_append, List.mem_append, hs,
    ← Option.mem_toList, Option.toList_map]
  tauto

def isThis : Region → Bool
  | .this => true
  | _ => false

def ofClass (superclass : Option Token) : List Region :=
  match superclass with
  | none => [.this]
  | some _ => [.this, .super]

end Region

/-- A reference node and the regions around it, from the inside out. -/
structure Spot where
  node : Reference × Token
  regions : List Region

namespace Spot

/-- The name that is looked for: that of the variable, or the keyword. -/
def name (p : Spot) : String := p.node.2.lexeme

/-- The spot is a `this` outside of all classes. -/
def IsStray (p : Spot) : Prop := p.node.1 = .this ∧ ∀ r ∈ p.regions, r.isThis = false

/-- The region at a distance declares the name before the node, and none of the nearer ones does. -/
def DeclaredAt (p : Spot) (distance : Nat) : Prop :=
  (∃ r, p.regions[distance]? = some r ∧ p.name ∈ r.names) ∧
    ∀ nearer < distance, ∀ r, p.regions[nearer]? = some r → p.name ∉ r.names

/-- No region declares the name before the node. -/
def Undeclared (p : Spot) : Prop := ∀ r ∈ p.regions, p.name ∉ r.names

def distance? (p : Spot) : Option Nat :=
  if p.node.1 == .this && !p.regions.any Region.isThis then none
  else p.regions.findIdx? fun r => r.names.contains p.name

def resolution? (p : Spot) : Option Resolution := p.distance?.map fun d => ⟨p.node.1, p.node.2, d⟩

end Spot

def Expr.spots (σ : List Region) (e : Expr) : List Spot := e.references.map (⟨·, σ⟩)

mutual

def Stmt.spots (σ : List Region) : Stmt → List Spot
  | .expr value => value.spots σ
  | .print value => value.spots σ
  | .varDecl _ initializer => (Expr.optionReferences initializer).map (⟨·, σ⟩)
  | .block body => Stmt.bodySpots [] [] σ body
  | .ifElse condition thenBranch none => condition.spots σ ++ thenBranch.spots σ
  | .ifElse condition thenBranch (some elseBranch) =>
    condition.spots σ ++ (thenBranch.spots σ ++ elseBranch.spots σ)
  | .whileDo condition body => condition.spots σ ++ body.spots σ
  | .funDecl decl => Stmt.functionSpots σ decl
  | .ret _ value => (Expr.optionReferences value).map (⟨·, σ⟩)
  | .classDecl _ superclass methods =>
    (superclassReferences superclass).map (⟨·, σ⟩) ++
      Stmt.methodSpots (Region.ofClass superclass ++ σ) methods

/-- The spots of the statements of a body that come after `earlier`. -/
def Stmt.bodySpots (params : List Token) (earlier : List Stmt) (σ : List Region) :
    List Stmt → List Spot
  | [] => []
  | s :: ss =>
    s.spots (.body params (earlier ++ [s]) :: σ) ++ Stmt.bodySpots params (earlier ++ [s]) σ ss

def Stmt.functionSpots (σ : List Region) : Callable Stmt → List Spot
  | ⟨_, params, body⟩ => Stmt.bodySpots params [] σ body

def Stmt.methodSpots (σ : List Region) : List (Callable Stmt) → List Spot
  | [] => []
  | m :: ms => Stmt.functionSpots σ m ++ Stmt.methodSpots σ ms

end

/-- The spots of a program. Its top level is no region: what is declared there is global. -/
def Stmt.allSpots (program : List Stmt) : List Spot := program.flatMap (Stmt.spots [])

/-! ## All nodes have a spot -/

theorem Spot.map_node_mk (nodes : List (Reference × Token)) (σ : List Region) :
    (nodes.map (Spot.mk · σ)).map Spot.node = nodes := by
  rw [List.map_map]
  exact List.map_id nodes

theorem Expr.map_node_spots (e : Expr) (σ : List Region) :
    (e.spots σ).map Spot.node = e.references :=
  Spot.map_node_mk e.references σ

mutual

theorem Stmt.map_node_spots :
    ∀ (s : Stmt) (σ : List Region), (s.spots σ).map Spot.node = s.references
  | .expr value, σ => value.map_node_spots σ
  | .print value, σ => value.map_node_spots σ
  | .varDecl _ initializer, σ => Spot.map_node_mk _ σ
  | .block body, σ => Stmt.map_node_bodySpots body [] [] σ
  | .ifElse condition thenBranch none, σ => by
    rw [spots, references, List.map_append, condition.map_node_spots, thenBranch.map_node_spots]
  | .ifElse condition thenBranch (some elseBranch), σ => by
    rw [spots, references, List.map_append, List.map_append, condition.map_node_spots,
      thenBranch.map_node_spots, elseBranch.map_node_spots]
  | .whileDo condition body, σ => by
    rw [spots, references, List.map_append, condition.map_node_spots, body.map_node_spots]
  | .funDecl decl, σ => Stmt.map_node_functionSpots decl σ
  | .ret _ value, σ => Spot.map_node_mk _ σ
  | .classDecl _ superclass methods, σ => by
    rw [spots, references, List.map_append, Spot.map_node_mk, Stmt.map_node_methodSpots methods]

theorem Stmt.map_node_bodySpots :
    ∀ (ss : List Stmt) (params : List Token) (earlier : List Stmt) (σ : List Region),
      (Stmt.bodySpots params earlier σ ss).map Spot.node = Stmt.allReferences ss
  | [], _, _, _ => rfl
  | s :: ss, params, earlier, σ => by
    rw [bodySpots, allReferences, List.map_append, s.map_node_spots, Stmt.map_node_bodySpots ss]

theorem Stmt.map_node_functionSpots : ∀ (f : Callable Stmt) (σ : List Region),
    (Stmt.functionSpots σ f).map Spot.node = Stmt.functionReferences f
  | ⟨_, params, body⟩, σ => Stmt.map_node_bodySpots body params [] σ

theorem Stmt.map_node_methodSpots : ∀ (fs : List (Callable Stmt)) (σ : List Region),
    (Stmt.methodSpots σ fs).map Spot.node = Stmt.methodReferences fs
  | [], _ => rfl
  | f :: fs, σ => by
    rw [methodSpots, methodReferences, List.map_append, Stmt.map_node_functionSpots f,
      Stmt.map_node_methodSpots fs]

end

/-- Each reference node of a program has its spot, in the order of resolution. -/
theorem Stmt.map_node_allSpots (program : List Stmt) :
    (Stmt.allSpots program).map Spot.node = Stmt.allReferences program := by
  induction program with
  | nil => rfl
  | cons s ss ih =>
    rw [allSpots, List.flatMap_cons, List.map_append, s.map_node_spots, allReferences]
    exact congrArg _ ih

/-! ## Regions and static scopes -/

/-- The scopes that resolution has at a node are the regions around the node: they declare the same
names, and resolution knows whether there is a class. -/
structure Region.Match (σ : List Region) (ctx : Context) (Γ : Static) : Prop where
  names : List.Forall₂ (fun r scope => ∀ x, x ∈ r.names ↔ (scope.get? x).isSome) σ Γ
  cls : (ctx.cls == .none) = !σ.any Region.isThis

namespace Region.Match

variable {σ : List Region} {ctx : Context} {Γ : Static}

theorem topLevel : Match [] .topLevel [] := ⟨.nil, rfl⟩

theorem findIdx? (h : Match σ ctx Γ) (x : String) :
    (σ.findIdx? fun r => r.names.contains x) = Γ.distance? x := by
  obtain ⟨hnames, -⟩ := h
  induction hnames with
  | nil => rfl
  | @cons r scope σ Γ hr _ ih =>
    rw [List.findIdx?_cons]
    by_cases hx : x ∈ r.names
    · rw [Static.distance?_cons_of_some ((hr x).1 hx), if_pos (List.contains_iff_mem.2 hx)]
    · have hnone : scope.get? x = none := by simpa using fun hsome => hx ((hr x).2 hsome)
      rw [Static.distance?_cons_of_none hnone, ← ih,
        if_neg (fun hc => hx (List.contains_iff_mem.1 hc))]

/-- Whether the declaration of a name is complete makes no difference. -/
theorem declare {name : Token} (h : Match σ ctx (Γ.extend name)) :
    Match σ ctx (Γ.declare name) := by
  refine ⟨?_, h.cls⟩
  have hnames := h.names
  cases Γ with
  | nil => exact hnames
  | cons scope Γ =>
    rw [Static.extend_cons] at hnames
    cases hnames with
    | cons hr hrest =>
      refine .cons (fun x => ?_) hrest
      rw [hr x, Bindings.get?_set, Bindings.get?_set]
      split <;> rfl

/-- A name that is declared in the innermost scope belongs to the innermost region. -/
theorem extend {r r' : Region} (h : Match (r :: σ) ctx Γ) {name : Token}
    (hnames : ∀ x, x ∈ r'.names ↔ x = name.lexeme ∨ x ∈ r.names) (hthis : r'.isThis = r.isThis) :
    Match (r' :: σ) ctx (Γ.extend name) := by
  obtain ⟨hscopes, hcls⟩ := h
  refine ⟨?_, by rw [hcls, List.any_cons, List.any_cons, hthis]⟩
  cases hscopes with
  | @cons _ scope _ Γ hr hrest =>
    rw [Static.extend_cons]
    refine .cons (fun x => ?_) hrest
    rw [hnames x, hr x, Bindings.get?_set]
    split <;> simp [*]

theorem extendAll {params : List Token} (h : Match (.body params [] :: σ) ctx Γ)
    (more : List Token) :
    Match (.body (params ++ more) [] :: σ) ctx (Γ.extendAll more) := by
  induction more generalizing params Γ with
  | nil => rwa [List.append_nil]
  | cons p ps ih =>
    have hp : Match (.body (params ++ [p]) [] :: σ) ctx (Γ.extend p) :=
      h.extend (fun x => by simp [Region.names, or_comm]) rfl
    rw [List.append_cons]
    exact ih hp

/-- A statement comes before those that follow it. -/
theorem after {params : List Token} {earlier : List Stmt}
    (h : Match (.body params earlier :: σ) ctx Γ) (s : Stmt) :
    Match (.body params (earlier ++ [s]) :: σ) ctx (Γ.after s) := by
  cases hs : s.declared? with
  | none =>
    obtain ⟨hscopes, hcls⟩ := h
    rw [Γ.after_of_not_declared hs]
    cases hscopes with
    | cons hr hrest =>
      exact ⟨.cons (fun x => by rw [← hr x, names_body_append, hs]; simp) hrest, hcls⟩
  | some name =>
    rw [Γ.after_of_declared hs]
    exact h.extend (fun x => by rw [names_body_append, hs]; simp [eq_comm]) rfl

theorem enter (h : Match σ ctx Γ) : Match (.body [] [] :: σ) ctx (.empty :: Γ) :=
  ⟨.cons (fun x => by simp [Region.names]) h.names, h.cls⟩

theorem forMethods {ctx : Context} (h : Match σ ctx Γ) (superclass : Option Token) :
    Match (Region.ofClass superclass ++ σ) { ctx with cls := .of superclass }
      (Γ.forMethods superclass) := by
  have hsingle : ∀ name x : String, x ∈ [name] ↔ ((Static.single name).get? x).isSome := by
    intro name x
    rw [Static.single, Bindings.get?_set]
    split <;> simp [*]
  cases superclass with
  | none => exact ⟨.cons (hsingle _) h.names, rfl⟩
  | some _ => exact ⟨.cons (hsingle _) (.cons (hsingle _) h.names), rfl⟩

/-- Parameters and body of a function are one region. -/
theorem function (h : Match σ ctx Γ) (params : List Token) (kind : FunctionContext) :
    Match (.body params [] :: σ) { ctx with function := kind }
      (Static.declareParams (.empty :: Γ) params).1 := by
  rw [Static.declareParams_fst]
  have hparams := h.enter.extendAll params
  exact ⟨hparams.names, hparams.cls⟩

/-! ### Single references -/

theorem refer (h : Match σ ctx Γ) {r : Reference} (hr : r ≠ .this) (t : Token) :
    (Γ.refer r t).resolutions = [Spot.mk (r, t) σ].filterMap Spot.resolution? := by
  have hdistance : Spot.distance? ⟨(r, t), σ⟩ = Γ.distance? t.lexeme := by
    rw [Spot.distance?, if_neg (by simp [hr])]
    exact h.findIdx? t.lexeme
  rw [Static.refer, List.filterMap_cons, Spot.resolution?, hdistance]
  cases Γ.distance? t.lexeme <;> rfl

theorem referVar (h : Match σ ctx Γ) (t : Token) :
    (Γ.referVar t).resolutions = [Spot.mk (.var, t) σ].filterMap Spot.resolution? := by
  rw [Static.referVar, Findings.resolutions_append, Findings.resolutions_errorIf, List.nil_append,
    h.refer (by decide)]

theorem referThis (h : Match σ ctx Γ) (t : Token) :
    (Expr.resolve ctx Γ (.this t)).resolutions =
      [Spot.mk (.this, t) σ].filterMap Spot.resolution? := by
  have hdistance : Spot.distance? ⟨(.this, t), σ⟩ = if ctx.cls == .none then none
      else Γ.distance? t.lexeme := by
    rw [h.cls, ← h.findIdx?]
    rfl
  rw [Expr.resolve, List.filterMap_cons, Spot.resolution?, hdistance]
  cases ctx.cls == .none with
  | true => rfl
  | false =>
    show (Γ.refer .this t).resolutions = _
    rw [Static.refer]
    cases Γ.distance? t.lexeme <;> rfl

theorem referSuperclass (h : Match σ ctx Γ) (name : Token) (superclass : Option Token) :
    (Γ.referSuperclass name superclass).resolutions =
      ((superclassReferences superclass).map (Spot.mk · σ)).filterMap Spot.resolution? := by
  cases superclass with
  | none => rfl
  | some parent =>
    rw [Static.referSuperclass, Findings.resolutions_append, Findings.resolutions_errorIf,
      List.nil_append, h.referVar]
    rfl

end Region.Match

/-! ## What resolution finds -/

mutual

theorem Expr.resolutions_eq_spots {σ : List Region} {ctx : Context} {Γ : Static}
    (h : Region.Match σ ctx Γ) :
    ∀ e : Expr,
      (e.resolve ctx Γ).resolutions = (e.references.map (Spot.mk · σ)).filterMap Spot.resolution?
  | .literal _ => rfl
  | .var name => h.referVar name
  | .assign name value => by
    rw [Expr.resolve, Expr.references, Findings.resolutions_append, value.resolutions_eq_spots h,
      h.refer (by decide), List.map_append, List.filterMap_append]
    rfl
  | .unary _ operand => operand.resolutions_eq_spots h
  | .binary left _ right => by
    rw [Expr.resolve, Expr.references, Findings.resolutions_append, left.resolutions_eq_spots h,
      right.resolutions_eq_spots h, List.map_append, List.filterMap_append]
  | .logical left _ right => by
    rw [Expr.resolve, Expr.references, Findings.resolutions_append, left.resolutions_eq_spots h,
      right.resolutions_eq_spots h, List.map_append, List.filterMap_append]
  | .grouping inner => inner.resolutions_eq_spots h
  | .call callee _ arguments => by
    rw [Expr.resolve, Expr.references, Findings.resolutions_append, callee.resolutions_eq_spots h,
      Expr.resolutions_eq_allSpots h arguments, List.map_append, List.filterMap_append]
  | .get object _ => object.resolutions_eq_spots h
  | .set object _ value => by
    rw [Expr.resolve, Expr.references, Findings.resolutions_append, value.resolutions_eq_spots h,
      object.resolutions_eq_spots h, List.map_append, List.filterMap_append]
  | .super keyword _ => by
    rw [Expr.resolve, Findings.resolutions_append, Findings.resolutions_append,
      Findings.resolutions_errorIf, Findings.resolutions_errorIf, h.refer (by decide)]
    rfl
  | .this keyword => h.referThis keyword

theorem Expr.resolutions_eq_allSpots {σ : List Region} {ctx : Context} {Γ : Static}
    (h : Region.Match σ ctx Γ) :
    ∀ es : List Expr, (Expr.resolveAll ctx Γ es).resolutions =
      ((Expr.allReferences es).map (Spot.mk · σ)).filterMap Spot.resolution?
  | [] => rfl
  | e :: es => by
    rw [Expr.resolveAll, Expr.allReferences, Findings.resolutions_append, e.resolutions_eq_spots h,
      Expr.resolutions_eq_allSpots h es, List.map_append, List.filterMap_append]

end

theorem Expr.resolutions_eq_optionSpots {σ : List Region} {ctx : Context} {Γ : Static}
    (h : Region.Match σ ctx Γ) (o : Option Expr) : (Expr.resolveOption ctx Γ o).resolutions =
      ((Expr.optionReferences o).map (Spot.mk · σ)).filterMap Spot.resolution? := by
  cases o with
  | none => rfl
  | some e => exact e.resolutions_eq_spots h

mutual

/-- The regions have the name that the statement itself declares, and so do the scopes after it. -/
theorem Stmt.resolutions_eq_spots {P : Token → Prop} :
    ∀ (s : Stmt) {σ : List Region} {ctx : Context} {Γ : Static}, Region.Match σ ctx (Γ.after s) →
    s.WellFormed P →
      (s.resolve ctx Γ).2.resolutions = (s.spots σ).filterMap Spot.resolution?
  | .expr value, _, _, _, h, _ => value.resolutions_eq_spots h
  | .print value, _, _, _, h, _ => value.resolutions_eq_spots h
  | .varDecl name initializer, σ, ctx, Γ, h, _ => by
    rw [Stmt.resolve, Findings.resolutions_append, Static.resolutions_declareError, List.nil_append,
      Expr.resolutions_eq_optionSpots h.declare, Stmt.spots]
  | .block body, σ, ctx, Γ, h, hwf => Stmt.resolutions_eq_bodySpots body h.enter hwf
  | .ifElse condition thenBranch none, σ, ctx, Γ, h, hwf => by
    have hΓ : Region.Match σ ctx Γ := h
    have hthen : Region.Match σ ctx (Γ.after thenBranch) := by
      rwa [Γ.after_of_not_isDeclaration hwf.2.2]
    rw [Stmt.spots, List.filterMap_append]
    show (condition.resolve ctx Γ ++ (thenBranch.resolve ctx Γ).2).resolutions = _
    rw [Findings.resolutions_append, condition.resolutions_eq_spots hΓ,
      thenBranch.resolutions_eq_spots hthen hwf.2.1]
    rfl
  | .ifElse condition thenBranch (some elseBranch), σ, ctx, Γ, h, hwf => by
    have hΓ : Region.Match σ ctx Γ := h
    have hthen : Region.Match σ ctx (Γ.after thenBranch) := by
      rwa [Γ.after_of_not_isDeclaration hwf.2.1.2]
    have helse : Region.Match σ ctx (Γ.after elseBranch) := by
      rwa [Γ.after_of_not_isDeclaration hwf.2.2.2]
    rw [Stmt.spots, List.filterMap_append, List.filterMap_append,
      Stmt.snd_resolve_ifElse ctx Γ condition hwf.2.1, Findings.resolutions_append,
      Findings.resolutions_append, condition.resolutions_eq_spots hΓ,
      thenBranch.resolutions_eq_spots hthen hwf.2.1.1,
      elseBranch.resolutions_eq_spots helse hwf.2.2.1]
    rfl
  | .whileDo condition body, σ, ctx, Γ, h, hwf => by
    have hΓ : Region.Match σ ctx Γ := h
    have hbody : Region.Match σ ctx (Γ.after body) := by rwa [Γ.after_of_not_isDeclaration hwf.2.2]
    rw [Stmt.spots, List.filterMap_append]
    show (condition.resolve ctx Γ ++ (body.resolve ctx Γ).2).resolutions = _
    rw [Findings.resolutions_append, condition.resolutions_eq_spots hΓ,
      body.resolutions_eq_spots hbody hwf.2.1]
    rfl
  | .funDecl decl, σ, ctx, Γ, h, hwf => by
    rw [Stmt.spots, ← Stmt.resolutions_eq_functionSpots decl h .function hwf]
    show (Γ.declareError decl.name ++ Stmt.resolveFunction ctx (Γ.extend decl.name) .function
      decl).resolutions = _
    rw [Findings.resolutions_append, Static.resolutions_declareError]
    rfl
  | .ret keyword value, σ, ctx, Γ, h, _ => by
    have hΓ : Region.Match σ ctx Γ := h
    rw [Stmt.resolve, Findings.resolutions_append, Findings.resolutions_append,
      Findings.resolutions_errorIf, Findings.resolutions_errorIf,
      Expr.resolutions_eq_optionSpots hΓ]
    rfl
  | .classDecl name superclass methods, σ, ctx, Γ, h, hwf => by
    rw [Stmt.spots, List.filterMap_append,
      ← Stmt.resolutions_eq_methodSpots methods (h.forMethods superclass) hwf.2.2,
      ← h.referSuperclass name superclass]
    show (Γ.declareError name ++
      (Γ.extend name).referSuperclass name superclass ++ _).resolutions = _
    rw [Findings.resolutions_append, Findings.resolutions_append, Static.resolutions_declareError]
    rfl

theorem Stmt.resolutions_eq_bodySpots {P : Token → Prop} : ∀ (ss : List Stmt) {params : List Token}
    {earlier : List Stmt} {σ : List Region} {ctx : Context} {Γ : Static},
    Region.Match (.body params earlier :: σ) ctx Γ → Stmt.AllWellFormed P ss →
      (Stmt.resolveAll ctx Γ ss).2.resolutions =
        (Stmt.bodySpots params earlier σ ss).filterMap Spot.resolution?
  | [], _, _, _, _, _, _, _ => rfl
  | s :: ss, params, earlier, σ, ctx, Γ, h, hwf => by
    have hrest := Stmt.resolutions_eq_bodySpots ss (h.after s) hwf.2
    rw [Stmt.bodySpots, List.filterMap_append, ← s.resolutions_eq_spots (h.after s) hwf.1, ← hrest,
      ← Stmt.fst_resolve ctx Γ hwf.1]
    rfl

theorem Stmt.resolutions_eq_functionSpots {P : Token → Prop} :
    ∀ (f : Callable Stmt) {σ : List Region} {ctx : Context} {Γ : Static}, Region.Match σ ctx Γ →
    ∀ kind : FunctionContext, Stmt.FunctionWellFormed P f →
      (Stmt.resolveFunction ctx Γ kind f).resolutions =
        (Stmt.functionSpots σ f).filterMap Spot.resolution?
  | ⟨_, params, body⟩, σ, ctx, Γ, h, kind, hwf => by
    rw [Stmt.functionSpots, ← Stmt.resolutions_eq_bodySpots body (h.function params kind) hwf.2.2,
      Stmt.resolveFunction, Findings.resolutions_append, Static.resolutions_declareParams,
        List.nil_append]

theorem Stmt.resolutions_eq_methodSpots {P : Token → Prop} :
    ∀ (fs : List (Callable Stmt)) {σ : List Region} {ctx : Context} {Γ : Static},
    Region.Match σ ctx Γ → Stmt.MethodsWellFormed P fs →
      (Stmt.resolveMethods ctx Γ fs).resolutions =
        (Stmt.methodSpots σ fs).filterMap Spot.resolution?
  | [], _, _, _, _, _ => rfl
  | f :: fs, σ, ctx, Γ, h, hwf => by
    rw [Stmt.methodSpots, List.filterMap_append, Stmt.resolveMethods, Findings.resolutions_append,
      Stmt.resolutions_eq_functionSpots f h _ hwf.1, Stmt.resolutions_eq_methodSpots fs h hwf.2]

end

/-- Resolution finds for the spots of a program what they are defined to have. -/
theorem resolutions_eq_allSpots {P : Token → Prop} {program : List Stmt}
    (hwf : Stmt.AllWellFormed P program) :
    (resolve program).resolutions = (Stmt.allSpots program).filterMap Spot.resolution? := by
  rw [resolve]
  induction program with
  | nil => rfl
  | cons s ss ih =>
    -- There is no scope to declare a name in.
    have hafter : Static.after [] s = [] := by cases s <;> rfl
    have hs : Region.Match [] .topLevel (Static.after [] s) := by
      rw [hafter]
      exact .topLevel
    rw [Stmt.allSpots, List.flatMap_cons, List.filterMap_append, ← s.resolutions_eq_spots hs hwf.1]
    have hrest : (Stmt.resolveAll .topLevel (s.resolve .topLevel []).1 ss).2.resolutions =
        (ss.flatMap (Stmt.spots [])).filterMap Spot.resolution? := by
      rw [Stmt.fst_resolve .topLevel [] hwf.1, hafter]
      exact ih hwf.2
    rw [← hrest]
    rfl

namespace Spot

variable {p : Spot}

theorem isStray_iff : p.IsStray ↔ (p.node.1 == .this && !p.regions.any Region.isThis) = true := by
  simp [IsStray]

theorem findIdx?_eq_some_iff {d : Nat} :
    (p.regions.findIdx? fun r => r.names.contains p.name) = some d ↔ p.DeclaredAt d := by
  rw [List.findIdx?_eq_some_iff_getElem, DeclaredAt]
  constructor
  · rintro ⟨hd, hhere, hnearer⟩
    refine ⟨⟨_, List.getElem?_eq_getElem hd, List.contains_iff_mem.1 hhere⟩,
      fun i hi r hr hmem => ?_⟩
    obtain ⟨hlt, rfl⟩ := List.getElem?_eq_some_iff.1 hr
    exact hnearer i hi (List.contains_iff_mem.2 hmem)
  · rintro ⟨⟨r, hr, hmem⟩, hnearer⟩
    obtain ⟨hd, rfl⟩ := List.getElem?_eq_some_iff.1 hr
    refine ⟨hd, List.contains_iff_mem.2 hmem, fun i hi hc => ?_⟩
    exact hnearer i hi _ (List.getElem?_eq_getElem (hi.trans hd)) (List.contains_iff_mem.1 hc)

theorem findIdx?_eq_none_iff :
    (p.regions.findIdx? fun r => r.names.contains p.name) = none ↔ p.Undeclared := by
  simp [List.findIdx?_eq_none_iff, Undeclared]

theorem DeclaredAt.not_undeclared {d : Nat} (h : p.DeclaredAt d) : ¬ p.Undeclared := by
  obtain ⟨⟨r, hr, hmem⟩, -⟩ := h
  exact fun hnone => hnone r (List.mem_of_getElem? hr) hmem

theorem distance?_eq_some_iff {d : Nat} : p.distance? = some d ↔ ¬ p.IsStray ∧ p.DeclaredAt d := by
  rw [distance?, isStray_iff, ← findIdx?_eq_some_iff]
  split <;> simp [*]

theorem distance?_eq_none_iff : p.distance? = none ↔ p.Undeclared ∨ p.IsStray := by
  rw [distance?, isStray_iff, ← findIdx?_eq_none_iff]
  split <;> simp [*]

end Spot

/-! ## Stray references -/

/-- No name of a program is spelled like the keyword. -/
def Region.Spelled (r : Region) : Prop := r.isThis = false → "this" ∉ r.names

/-- A node for `this` is spelled so. -/
def Reference.Spelled (n : Reference × Token) : Prop := n.1 = .this → n.2.lexeme = "this"

def Spot.Spelled (p : Spot) : Prop := Reference.Spelled p.node ∧ ∀ r ∈ p.regions, r.Spelled

theorem Spot.Spelled.undeclared {p : Spot} (hp : p.Spelled) (h : p.IsStray) : p.Undeclared := by
  intro r hr
  rw [Spot.name, hp.1 h.1]
  exact hp.2 r hr (h.2 r hr)

theorem Spot.spelled_mk {nodes : List (Reference × Token)} {σ : List Region}
    (hnodes : ∀ n ∈ nodes, Reference.Spelled n) (hσ : ∀ r ∈ σ, r.Spelled) :
    ∀ p ∈ nodes.map (Spot.mk · σ), p.Spelled :=
  List.forall_mem_map.2 fun n hn => ⟨hnodes n hn, hσ⟩

theorem Region.spelled_body {params : List Token} {upTo : List Stmt}
    (hparams : ∀ t ∈ params, t.Is Token.Spelled .identifier)
    (hupTo : ∀ s ∈ upTo, ∀ t ∈ s.declared?, t.Is Token.Spelled .identifier) :
    (body params upTo).Spelled := by
  intro _ hthis
  obtain ⟨t, ht, hname⟩ := List.mem_map.1 hthis
  have hident : t.Is Token.Spelled .identifier := by
    rcases List.mem_append.1 ht with ht | ht
    · exact hparams t ht
    · obtain ⟨s, hs, hdeclared⟩ := List.mem_filterMap.1 ht
      exact hupTo s hs t hdeclared
  exact (hident.1.1 hident.2).1 hname

theorem Region.spelled_ofClass {σ : List Region} (hσ : ∀ r ∈ σ, r.Spelled)
    (superclass : Option Token) :
    ∀ r ∈ Region.ofClass superclass ++ σ, r.Spelled := by
  have hthis : Region.this.Spelled := fun h => by cases h
  have hsuper : Region.super.Spelled := fun _ h => absurd h (by decide)
  cases superclass with
  | none => exact List.forall_mem_cons.2 ⟨hthis, hσ⟩
  | some _ => exact List.forall_mem_cons.2 ⟨hthis, List.forall_mem_cons.2 ⟨hsuper, hσ⟩⟩

mutual

theorem Expr.spelled_references :
    ∀ (e : Expr), e.WellFormed Token.Spelled → ∀ n ∈ e.references, Reference.Spelled n
  | .literal _, _ => List.forall_mem_nil _
  | .var _, _ => List.forall_mem_singleton.2 fun h => by cases h
  | .assign _ value, h =>
    List.forall_mem_append.2
      ⟨value.spelled_references h.2, List.forall_mem_singleton.2 fun h => by cases h⟩
  | .unary _ operand, h => operand.spelled_references h.2.2
  | .binary left _ right, h =>
    List.forall_mem_append.2 ⟨left.spelled_references h.1, right.spelled_references h.2.2.2⟩
  | .logical left _ right, h =>
    List.forall_mem_append.2 ⟨left.spelled_references h.1, right.spelled_references h.2.2.2⟩
  | .grouping inner, h => inner.spelled_references h
  | .call callee _ arguments, h =>
    List.forall_mem_append.2
      ⟨callee.spelled_references h.1, Expr.spelled_allReferences arguments h.2.2⟩
  | .get object _, h => object.spelled_references h.1
  | .set object _ value, h =>
    List.forall_mem_append.2 ⟨value.spelled_references h.2.2, object.spelled_references h.1⟩
  | .super _ _, _ => List.forall_mem_singleton.2 fun h => by cases h
  | .this _, h => List.forall_mem_singleton.2 fun _ => h.1.2.1 h.2

theorem Expr.spelled_allReferences : ∀ (es : List Expr), Expr.AllWellFormed Token.Spelled es →
    ∀ n ∈ Expr.allReferences es, Reference.Spelled n
  | [], _ => List.forall_mem_nil _
  | e :: es, h =>
    List.forall_mem_append.2 ⟨e.spelled_references h.1, Expr.spelled_allReferences es h.2⟩

end

theorem Expr.spelled_spots {e : Expr} {σ : List Region} (h : e.WellFormed Token.Spelled)
    (hσ : ∀ r ∈ σ, r.Spelled) :
    ∀ p ∈ e.spots σ, p.Spelled := Spot.spelled_mk (e.spelled_references h) hσ

theorem Expr.spelled_optionReferences {o : Option Expr}
    (h : Expr.OptionWellFormed Token.Spelled o) :
    ∀ n ∈ Expr.optionReferences o, Reference.Spelled n := by
  cases o with
  | none => exact List.forall_mem_nil _
  | some e => exact e.spelled_references h

theorem spelled_superclassReferences (superclass : Option Token) :
    ∀ n ∈ superclassReferences superclass, Reference.Spelled n :=
  List.forall_mem_map.2 fun _ _ h => by cases h

mutual

theorem Stmt.spelled_spots : ∀ (s : Stmt) {σ : List Region}, s.WellFormed Token.Spelled →
    (∀ r ∈ σ, r.Spelled) → ∀ p ∈ s.spots σ, p.Spelled
  | .expr _, _, h, hσ => Expr.spelled_spots h hσ
  | .print _, _, h, hσ => Expr.spelled_spots h hσ
  | .varDecl _ _, _, h, hσ => Spot.spelled_mk (Expr.spelled_optionReferences h.2) hσ
  | .block body, _, h, hσ =>
    Stmt.spelled_bodySpots body h hσ (List.forall_mem_nil _) (List.forall_mem_nil _)
  | .ifElse _ thenBranch none, _, h, hσ =>
    List.forall_mem_append.2 ⟨Expr.spelled_spots h.1 hσ, thenBranch.spelled_spots h.2.1 hσ⟩
  | .ifElse _ thenBranch (some elseBranch), _, h, hσ =>
    List.forall_mem_append.2 ⟨Expr.spelled_spots h.1 hσ, List.forall_mem_append.2
      ⟨thenBranch.spelled_spots h.2.1.1 hσ, elseBranch.spelled_spots h.2.2.1 hσ⟩⟩
  | .whileDo _ body, _, h, hσ =>
    List.forall_mem_append.2 ⟨Expr.spelled_spots h.1 hσ, body.spelled_spots h.2.1 hσ⟩
  | .funDecl decl, _, h, hσ => Stmt.spelled_functionSpots decl h hσ
  | .ret _ _, _, h, hσ => Spot.spelled_mk (Expr.spelled_optionReferences h.2) hσ
  | .classDecl _ superclass methods, _, h, hσ =>
    List.forall_mem_append.2 ⟨Spot.spelled_mk (spelled_superclassReferences superclass) hσ,
      Stmt.spelled_methodSpots methods h.2.2 (Region.spelled_ofClass hσ superclass)⟩

theorem Stmt.spelled_bodySpots :
    ∀ (ss : List Stmt) {params : List Token} {earlier : List Stmt} {σ : List Region},
    Stmt.AllWellFormed Token.Spelled ss → (∀ r ∈ σ, r.Spelled) →
    (∀ t ∈ params, t.Is Token.Spelled .identifier) →
    (∀ s ∈ earlier, ∀ t ∈ s.declared?, t.Is Token.Spelled .identifier) →
    ∀ p ∈ Stmt.bodySpots params earlier σ ss, p.Spelled
  | [], _, _, _, _, _, _, _ => List.forall_mem_nil _
  | s :: ss, params, earlier, σ, h, hσ, hparams, hearlier => by
    have hupTo : ∀ s' ∈ earlier ++ [s], ∀ t ∈ s'.declared?, t.Is Token.Spelled .identifier :=
      List.forall_mem_append.2 ⟨hearlier, List.forall_mem_singleton.2 h.1.declared⟩
    have hregions : ∀ r ∈ Region.body params (earlier ++ [s]) :: σ, r.Spelled :=
      List.forall_mem_cons.2 ⟨Region.spelled_body hparams hupTo, hσ⟩
    exact List.forall_mem_append.2
      ⟨s.spelled_spots h.1 hregions, Stmt.spelled_bodySpots ss h.2 hσ hparams hupTo⟩

theorem Stmt.spelled_functionSpots : ∀ (f : Callable Stmt) {σ : List Region},
    Stmt.FunctionWellFormed Token.Spelled f → (∀ r ∈ σ, r.Spelled) →
      ∀ p ∈ Stmt.functionSpots σ f, p.Spelled
  | ⟨_, _, body⟩, _, h, hσ => Stmt.spelled_bodySpots body h.2.2 hσ h.2.1 (List.forall_mem_nil _)

theorem Stmt.spelled_methodSpots : ∀ (fs : List (Callable Stmt)) {σ : List Region},
    Stmt.MethodsWellFormed Token.Spelled fs → (∀ r ∈ σ, r.Spelled) →
      ∀ p ∈ Stmt.methodSpots σ fs, p.Spelled
  | [], _, _, _ => List.forall_mem_nil _
  | f :: fs, _, h, hσ =>
    List.forall_mem_append.2
      ⟨Stmt.spelled_functionSpots f h.1 hσ, Stmt.spelled_methodSpots fs h.2 hσ⟩

end

theorem Stmt.spelled_allSpots {program : List Stmt} (h : Stmt.AllWellFormed Token.Spelled program) :
    ∀ p ∈ Stmt.allSpots program, p.Spelled := by
  induction program with
  | nil => exact List.forall_mem_nil _
  | cons s ss ih =>
    exact List.forall_mem_append.2 ⟨s.spelled_spots h.1 (List.forall_mem_nil _), ih h.2⟩

/-- **Distances are lexical.** For every program that can be read, with errors or without,
resolution records in the order of its nodes, each with its spot: the distance of the nearest region
that declares the name before the node, and nothing if there is none or if the node is a `this`
outside of all classes. In the tokens of a text no name is spelled like such a `this`, so that the
two reasons for nothing are one. -/
theorem distances_lexical (tokens : List Token) (eof : Token) :
    let program := (parse tokens eof).statements
    let spots := Stmt.allSpots program
    spots.map Spot.node = Stmt.allReferences program ∧
    (resolve program).resolutions = spots.filterMap Spot.resolution? ∧
    (∀ p : Spot, (∀ d, p.distance? = some d ↔ ¬ p.IsStray ∧ p.DeclaredAt d) ∧
      (p.distance? = none ↔ p.Undeclared ∨ p.IsStray)) ∧
    ∀ k source, tokens = (scan k source).tokens →
      ∀ p ∈ spots, ∀ d, p.distance? = some d ↔ p.DeclaredAt d := by
  intro program spots
  have hshape : Stmt.AllWellFormed (fun _ => True) program :=
    (parse_found (fun _ _ => trivial) eof).shape
  refine ⟨Stmt.map_node_allSpots program, resolutions_eq_allSpots hshape,
    fun p => ⟨fun d => Spot.distance?_eq_some_iff, Spot.distance?_eq_none_iff⟩, ?_⟩
  rintro k source rfl p hp d
  have hspelled : Stmt.AllWellFormed Token.Spelled program :=
    (parse_found (fun t ht => Scan.spelled_of_mem ht) eof).shape
  have hstray : p.IsStray → p.Undeclared := (Stmt.spelled_allSpots hspelled p hp).undeclared
  rw [Spot.distance?_eq_some_iff, and_iff_right_iff_imp]
  exact fun hd hs => hd.not_undeclared (hstray hs)

/-- A text with a name that is declared in several regions, once too late, and with `this` and
`super` in an inner function. -/
def lateName : String :=
  "var a; class B \x7b\x7d
class C < B \x7b m(a) \x7b fun f() \x7b a = this; super.m(b); var b = b; \x7d \x7d \x7d
this;"

theorem distances_lexical_shadowing :
    (∀ p ∈ Stmt.allSpots (statementsOf 0 lateName), ∀ d, p.distance? = some d ↔ p.DeclaredAt d) ∧
    ((resolve (statementsOf 0 lateName)).resolutions.map fun r =>
      (r.token.lexeme, r.token.site, r.distance)) =
      [("this", 24, 2), ("a", 22, 1), ("super", 26, 3), ("b", 36, 0)] := by
  have hlexical := distances_lexical (scan 0 lateName).tokens (scan 0 lateName).eof
  exact ⟨hlexical.2.2.2 0 lateName rfl, by decide +kernel⟩

end Lox
