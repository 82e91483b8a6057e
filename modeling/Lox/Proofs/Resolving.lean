import Lox.Proofs.Resolved

/-!
# What resolution guarantees

A walk over a well-formed program that finds no error leaves the program resolved, if the table
holds what the walk found (`resolved_of_resolve`). The walk finds at most one resolution for each
reference, in their order (`Stmt.within_resolve`), so that `Accepted` can be split along the tree.
-/

namespace Lox

namespace Findings

@[simp] theorem resolutions_none : Findings.none.resolutions = [] := rfl

@[simp] theorem errors_none : Findings.none.errors = [] := rfl

@[simp] theorem resolutions_errorIf (c : Bool) (t : Token) (x : Complaint) :
    (errorIf c t x).resolutions = [] := by
  cases c <;> rfl

@[simp] theorem errors_errorIf (c : Bool) (t : Token) (x : Complaint) :
    (errorIf c t x).errors = [] ↔ c = false := by
  cases c <;> simp [errorIf, error]

theorem Within.of_errors {f g : Findings} {refs : List (Reference × Token)}
    (hf : f.resolutions = []) (hg : g.Within refs) : (f ++ g).Within refs := by
  rw [Within, resolutions_append, hf]
  exact hg

end Findings

open Findings (within_of_nil)

theorem Static.within_refer (Γ : Static) (r : Reference) (t : Token) :
    (Γ.refer r t).Within [(r, t)] := by
  unfold Static.refer
  split
  · exact .refl _
  · exact within_of_nil rfl _

theorem Static.within_referVar (Γ : Static) (t : Token) : (Γ.referVar t).Within [(.var, t)] :=
  .of_errors (by simp) (Γ.within_refer .var t)

mutual

theorem Expr.within_resolve (ctx : Context) (Γ : Static) : ∀ e :
    Expr, (e.resolve ctx Γ).Within e.references
  | .literal _ => within_of_nil rfl _
  | .var name => Γ.within_referVar name
  | .assign name value => (value.within_resolve ctx Γ).append (Γ.within_refer .assign name)
  | .unary _ operand => operand.within_resolve ctx Γ
  | .binary left _ right => (left.within_resolve ctx Γ).append (right.within_resolve ctx Γ)
  | .logical left _ right => (left.within_resolve ctx Γ).append (right.within_resolve ctx Γ)
  | .grouping inner => inner.within_resolve ctx Γ
  | .call callee _ arguments =>
    (callee.within_resolve ctx Γ).append (Expr.within_resolveAll ctx Γ arguments)
  | .get object _ => object.within_resolve ctx Γ
  | .set object _ value => (value.within_resolve ctx Γ).append (object.within_resolve ctx Γ)
  | .super keyword _ => .of_errors (by simp) (Γ.within_refer .super keyword)
  | .this keyword => by
    rw [Expr.resolve]
    split
    · exact within_of_nil rfl _
    · exact Γ.within_refer .this keyword

theorem Expr.within_resolveAll (ctx : Context) (Γ : Static) : ∀ es : List Expr,
    (Expr.resolveAll ctx Γ es).Within (Expr.allReferences es)
  | [] => within_of_nil rfl _
  | e :: es => (e.within_resolve ctx Γ).append (Expr.within_resolveAll ctx Γ es)

end

theorem Expr.within_resolveOption (ctx : Context) (Γ : Static) (o : Option Expr) :
    (Expr.resolveOption ctx Γ o).Within (Expr.optionReferences o) := by
  cases o with
  | none => exact within_of_nil rfl _
  | some e => exact e.within_resolve ctx Γ

theorem Static.resolutions_declareError (Γ : Static) (t : Token) :
    (Γ.declareError t).resolutions = [] := by
  unfold Static.declareError
  split <;> simp

theorem Static.resolutions_declareParams (Γ : Static) (params : List Token) :
    (Γ.declareParams params).2.resolutions = [] := by
  induction params generalizing Γ with
  | nil => rfl
  | cons p ps ih =>
    show (Γ.declareError p ++ _).resolutions = []
    rw [Findings.resolutions_append, resolutions_declareError, ih]
    rfl

theorem Static.within_referSuperclass (Γ : Static) (name : Token) (superclass : Option Token) :
    (Γ.referSuperclass name superclass).Within (superclassReferences superclass) := by
  cases superclass with
  | none => exact within_of_nil rfl _
  | some t => exact .of_errors (by simp) (Γ.within_referVar t)

mutual

theorem Stmt.within_resolve (ctx : Context) : ∀ (s : Stmt) (Γ : Static),
    (s.resolve ctx Γ).2.Within s.references
  | .expr value, Γ => value.within_resolve ctx Γ
  | .print value, Γ => value.within_resolve ctx Γ
  | .varDecl name initializer, Γ =>
    .of_errors (Γ.resolutions_declareError name) (Expr.within_resolveOption ctx _ initializer)
  | .block body, Γ => Stmt.within_resolveAll ctx body _
  | .ifElse condition thenBranch none, Γ =>
    (condition.within_resolve ctx Γ).append (thenBranch.within_resolve ctx Γ)
  | .ifElse condition thenBranch (some elseBranch), Γ => by
    have h := (condition.within_resolve ctx Γ).append
      ((thenBranch.within_resolve ctx Γ).append
        (elseBranch.within_resolve ctx (thenBranch.resolve ctx Γ).1))
    unfold Findings.Within at h ⊢
    simpa [Stmt.resolve, Stmt.references] using h
  | .whileDo condition body, Γ =>
    (condition.within_resolve ctx Γ).append (body.within_resolve ctx Γ)
  | .funDecl decl, Γ =>
    .of_errors (Γ.resolutions_declareError decl.name) (Stmt.within_resolveFunction ctx decl _ _)
  | .ret keyword value, Γ =>
    .of_errors (by simp) (Expr.within_resolveOption ctx Γ value)
  | .classDecl name superclass methods, Γ =>
    have hname := Findings.Within.of_errors (Γ.resolutions_declareError name)
      (Static.within_referSuperclass _ name superclass)
    hname.append (Stmt.within_resolveMethods _ methods _)

theorem Stmt.within_resolveAll (ctx : Context) : ∀ (ss : List Stmt) (Γ : Static),
    (Stmt.resolveAll ctx Γ ss).2.Within (Stmt.allReferences ss)
  | [], _ => within_of_nil rfl _
  | s :: ss, Γ => (s.within_resolve ctx Γ).append (Stmt.within_resolveAll ctx ss _)

theorem Stmt.within_resolveFunction (ctx : Context) :
    ∀ (f : Callable Stmt) (Γ : Static) (kind : FunctionContext),
      (Stmt.resolveFunction ctx Γ kind f).Within (Stmt.functionReferences f)
  | ⟨_, params, body⟩, _, _ =>
    .of_errors (Static.resolutions_declareParams _ params) (Stmt.within_resolveAll _ body _)

theorem Stmt.within_resolveMethods (ctx : Context) : ∀ (fs : List (Callable Stmt)) (Γ : Static),
    (Stmt.resolveMethods ctx Γ fs).Within (Stmt.methodReferences fs)
  | [], _ => within_of_nil rfl _
  | f :: fs, Γ =>
    (Stmt.within_resolveFunction ctx f Γ _).append (Stmt.within_resolveMethods ctx fs Γ)

end

/-! ## Programs without errors -/

/-- The walk found no error, and the table holds what it found of the references. -/
structure Accepted (T : SiteTable) (f : Findings) (refs : List (Reference × Token)) : Prop where
  errors : f.errors = []
  recorded : Recorded T f refs
  nodup : refs.Nodup

section

variable {T : SiteTable} {ctx : Context} {Γ : Static}

namespace Accepted

variable {f g : Findings} {refs refs' : List (Reference × Token)}

theorem left (h : Accepted T (f ++ g) (refs ++ refs')) (hg : g.Within refs') :
    Accepted T f refs where
  errors := (List.append_eq_nil_iff.1 h.errors).1
  recorded := h.recorded.left h.nodup hg
  nodup := h.nodup.of_append_left

theorem right (h : Accepted T (f ++ g) (refs ++ refs')) (hf : f.Within refs) :
    Accepted T g refs' where
  errors := (List.append_eq_nil_iff.1 h.errors).2
  recorded := h.recorded.right h.nodup hf
  nodup := h.nodup.of_append_right

/-- A first part that looks for errors alone found none. -/
theorem check (h : Accepted T (f ++ g) refs) (hf : f.resolutions = []) :
    f.errors = [] ∧ Accepted T g refs := by
  obtain ⟨herr, herr'⟩ := List.append_eq_nil_iff.1 h.errors
  exact ⟨herr, herr', h.recorded.of_errors hf, h.nodup⟩

end Accepted

theorem Static.finds_of_recorded {r : Reference} {t : Token}
    (h : Recorded T (Γ.refer r t) [(r, t)]) :
    Γ.Finds T t := by
  unfold Static.refer at h
  unfold Static.Finds
  cases hd : Γ.distance? t.lexeme with
  | none =>
    rw [hd] at h
    exact h.missing (r, t) (by simp) (by simp)
  | some d =>
    rw [hd] at h
    exact h.found ⟨r, t, d⟩ (by simp)

theorem Expr.resolved_var {name : Token} (hΓ : Γ.Settled)
    (h : Accepted T (Γ.referVar name) [(.var, name)]) :
    (Expr.var name).Resolved T Γ := by
  obtain ⟨herr, h⟩ := h.check (by simp)
  rw [Findings.errors_errorIf] at herr
  exact ⟨Static.finds_of_recorded h.recorded, hΓ.flag?_ne herr⟩

mutual

theorem Expr.resolved_of_resolve (hfit : ctx.Fits Γ) (hΓ : Γ.Settled) : ∀ {e : Expr},
    e.WellFormed Token.Spelled → Accepted T (e.resolve ctx Γ) e.references → e.Resolved T Γ
  | .literal _, _, _ => trivial
  | .var name, _, h => Expr.resolved_var hΓ h
  | .assign name value, hwf, h => by
    have hvalue := h.left (Γ.within_refer .assign name)
    have hname := h.right (value.within_resolve ctx Γ)
    exact ⟨value.resolved_of_resolve hfit hΓ hwf.2 hvalue, (hwf.1.1.1 hwf.1.2).2,
      Static.finds_of_recorded hname.recorded⟩
  | .unary op operand, hwf, h => ⟨hwf.2.1, operand.resolved_of_resolve hfit hΓ hwf.2.2 h⟩
  | .binary left op right, hwf, h => by
    have hl := h.left (right.within_resolve ctx Γ)
    have hr := h.right (left.within_resolve ctx Γ)
    exact ⟨left.resolved_of_resolve hfit hΓ hwf.1 hl, hwf.2.2.1,
      right.resolved_of_resolve hfit hΓ hwf.2.2.2 hr⟩
  | .logical left op right, hwf, h => by
    have hl := h.left (right.within_resolve ctx Γ)
    have hr := h.right (left.within_resolve ctx Γ)
    exact ⟨left.resolved_of_resolve hfit hΓ hwf.1 hl,
      right.resolved_of_resolve hfit hΓ hwf.2.2.2 hr⟩
  | .grouping inner, hwf, h => inner.resolved_of_resolve hfit hΓ hwf h
  | .call callee _ arguments, hwf, h => by
    have hl := h.left (Expr.within_resolveAll ctx Γ arguments)
    have hr := h.right (callee.within_resolve ctx Γ)
    exact ⟨callee.resolved_of_resolve hfit hΓ hwf.1 hl,
      Expr.allResolved_of_resolve hfit hΓ hwf.2.2 hr⟩
  | .get object _, hwf, h => object.resolved_of_resolve hfit hΓ hwf.1 h
  | .set object _ value, hwf, h => by
    -- The value is resolved before the object.
    have hl := h.left (object.within_resolve ctx Γ)
    have hr := h.right (value.within_resolve ctx Γ)
    exact ⟨object.resolved_of_resolve hfit hΓ hwf.1 hr,
      value.resolved_of_resolve hfit hΓ hwf.2.2 hl⟩
  | .super keyword method, hwf, h => by
    obtain ⟨herr, h⟩ := h.check (by simp)
    simp only [Findings.errors_append, List.append_eq_nil_iff, Findings.errors_errorIf] at herr
    have hcls : ctx.cls = .subclass := by
      revert herr
      cases ctx.cls <;> simp
    obtain ⟨d, hthis, hsuper⟩ := hfit (by rw [hcls]; simp)
    have hfound := Static.finds_of_recorded h.recorded
    unfold Static.Finds at hfound
    rw [hwf.1.1.2.2 hwf.1.2, (hsuper hcls).1] at hfound
    exact ⟨d, hfound, hsuper hcls, hthis⟩
  | .this keyword, hwf, h => by
    rw [Expr.resolve] at h
    split at h
    · exact absurd h.errors (by simp [Findings.error])
    · rename_i hcls
      obtain ⟨d, hthis, -⟩ := hfit (by simpa using hcls)
      refine ⟨Static.finds_of_recorded h.recorded, ?_⟩
      rw [hwf.1.2.1 hwf.2, hthis.2]
      simp

theorem Expr.allResolved_of_resolve (hfit : ctx.Fits Γ) (hΓ : Γ.Settled) : ∀ {es : List Expr},
    Expr.AllWellFormed Token.Spelled es →
      Accepted T (Expr.resolveAll ctx Γ es) (Expr.allReferences es) →
    Expr.AllResolved T Γ es
  | [], _, _ => trivial
  | e :: es, hwf, h => by
    have hl := h.left (Expr.within_resolveAll ctx Γ es)
    have hr := h.right (e.within_resolve ctx Γ)
    exact ⟨e.resolved_of_resolve hfit hΓ hwf.1 hl, Expr.allResolved_of_resolve hfit hΓ hwf.2 hr⟩

end

theorem Expr.optionResolved_of_resolve (hfit : ctx.Fits Γ) (hΓ : Γ.Settled) {o : Option Expr}
    (hwf : Expr.OptionWellFormed Token.Spelled o)
    (h : Accepted T (Expr.resolveOption ctx Γ o) (Expr.optionReferences o)) :
    Expr.OptionResolved T Γ o := by
  cases o with
  | none => trivial
  | some e => exact e.resolved_of_resolve hfit hΓ hwf h

end

theorem Static.after_of_not_isDeclaration (Γ : Static) {s : Stmt} (h : ¬ s.IsDeclaration) :
    Γ.after s = Γ := Γ.after_of_not_declared (Stmt.declared?_of_not_isDeclaration h)

/-- The scopes that the walk goes on with. -/
theorem Stmt.fst_resolve {P : Token → Prop} (ctx : Context) : ∀ {s : Stmt} (Γ : Static),
    s.WellFormed P → (s.resolve ctx Γ).1 = Γ.after s
  | .expr _, _, _ => rfl
  | .print _, _, _ => rfl
  | .varDecl .., _, _ => rfl
  | .block _, _, _ => rfl
  | .ifElse _ thenBranch none, Γ, h => by
    show (thenBranch.resolve ctx Γ).1 = Γ
    rw [fst_resolve ctx Γ h.2.1, Γ.after_of_not_isDeclaration h.2.2]
  | .ifElse _ thenBranch (some elseBranch), Γ, h => by
    show (elseBranch.resolve ctx (thenBranch.resolve ctx Γ).1).1 = Γ
    rw [fst_resolve ctx _ h.2.2.1, fst_resolve ctx Γ h.2.1.1,
      Static.after_of_not_isDeclaration _ h.2.2.2, Γ.after_of_not_isDeclaration h.2.1.2]
  | .whileDo _ body, Γ, h => by
    show (body.resolve ctx Γ).1 = Γ
    rw [fst_resolve ctx Γ h.2.1, Γ.after_of_not_isDeclaration h.2.2]
  | .funDecl _, _, _ => rfl
  | .ret .., _, _ => rfl
  | .classDecl .., _, _ => rfl

/-- A branch declares nothing, so that the walk goes on with the same scopes. -/
theorem Stmt.fst_resolve_branch {P : Token → Prop} (ctx : Context) (Γ : Static) {s : Stmt}
    (h : s.WellFormed P ∧ ¬ s.IsDeclaration) : (s.resolve ctx Γ).1 = Γ := by
  rw [Stmt.fst_resolve ctx Γ h.1, Γ.after_of_not_isDeclaration h.2]

/-- Both branches are resolved in the scopes that the condition is resolved in. -/
theorem Stmt.snd_resolve_ifElse {P : Token → Prop} (ctx : Context) (Γ : Static) (condition : Expr)
    {thenBranch elseBranch : Stmt} (h : thenBranch.WellFormed P ∧ ¬ thenBranch.IsDeclaration) :
    (Stmt.resolve ctx Γ (.ifElse condition thenBranch (some elseBranch))).2 =
      condition.resolve ctx Γ ++
        ((thenBranch.resolve ctx Γ).2 ++ (elseBranch.resolve ctx Γ).2) := by
  show condition.resolve ctx Γ ++ (thenBranch.resolve ctx Γ).2 ++
    (elseBranch.resolve ctx (thenBranch.resolve ctx Γ).1).2 = _
  rw [Stmt.fst_resolve_branch ctx Γ h, Findings.append_assoc]

theorem Static.admits_of_declareError {Γ : Static} {name : Token} (h : name.lexeme ≠ "super")
    (herr : (Γ.declareError name).errors = []) : Γ.Admits name := by
  refine ⟨h, fun scope hs => ?_⟩
  cases Γ with
  | nil => simp at hs
  | cons s Γ =>
    obtain rfl : s = scope := by simpa using hs
    simpa [Static.declareError] using herr

theorem Static.admitsAll_of_declareParams {Γ : Static} {params : List Token}
    (h : ∀ p ∈ params, p.lexeme ≠ "super") (herr : (Γ.declareParams params).2.errors = []) :
    Γ.AdmitsAll params := by
  induction params generalizing Γ with
  | nil => trivial
  | cons p ps ih =>
    have herr : (Γ.declareError p ++ ((Γ.extend p).declareParams ps).2).errors = [] := herr
    rw [Findings.errors_append, List.append_eq_nil_iff] at herr
    exact ⟨admits_of_declareError (h p (by simp)) herr.1,
      ih (fun q hq => h q (by simp [hq])) herr.2⟩

def Context.inside (ctx : Context) : Bool := ctx.function != .none

section

variable {T : SiteTable} {ctx : Context} {Γ : Static}

theorem Context.Fits.after (h : ctx.Fits Γ) {s : Stmt} (hs : s.WellFormed Token.Spelled) :
    ctx.Fits (Γ.after s) := by
  cases s with
  | varDecl name _ =>
    have hname := hs.1.1.1 hs.1.2
    exact h.extend hname.1 hname.2
  | funDecl decl =>
    obtain ⟨name, params, body⟩ := decl
    have hname := hs.1.1.1 hs.1.2
    exact h.extend hname.1 hname.2
  | classDecl name _ _ =>
    have hname := hs.1.1.1 hs.1.2
    exact h.extend hname.1 hname.2
  | _ => exact h

theorem Static.Complete.after (h : Γ.Complete) (s : Stmt) : (Γ.after s).Complete := by
  cases s with
  | varDecl name _ => exact h.extend name
  | funDecl decl => exact h.extend decl.name
  | classDecl name _ _ => exact h.extend name
  | _ => exact h

mutual

theorem Stmt.resolved_of_resolve :
    ∀ {s : Stmt} {ctx : Context} {Γ : Static}, ctx.Fits Γ → Γ.Complete →
    s.WellFormed Token.Spelled → Accepted T (s.resolve ctx Γ).2 s.references →
    s.Resolved T ctx.inside Γ
  | .expr value, _, _, hfit, hΓ, hwf, h => value.resolved_of_resolve hfit hΓ.settled hwf h
  | .print value, _, _, hfit, hΓ, hwf, h => value.resolved_of_resolve hfit hΓ.settled hwf h
  | .varDecl name initializer, _, Γ, hfit, hΓ, hwf, h => by
    have hname := hwf.1.1.1 hwf.1.2
    obtain ⟨herr, h⟩ := h.check (Γ.resolutions_declareError name)
    exact ⟨Static.admits_of_declareError hname.2 herr,
      Expr.optionResolved_of_resolve (hfit.declare hname.1 hname.2) (hΓ.declare name) hwf.2 h⟩
  | .block body, _, Γ, hfit, hΓ, hwf, h =>
    show Stmt.AllResolved T _ (.empty :: Γ) body from
      Stmt.allResolved_of_resolve hfit.enter (hΓ.cons (by simp)) hwf h
  | .ifElse condition thenBranch none, ctx, Γ, hfit, hΓ, hwf, h => by
    have hl := h.left (thenBranch.within_resolve ctx Γ)
    have hr := h.right (condition.within_resolve ctx Γ)
    exact ⟨condition.resolved_of_resolve hfit hΓ.settled hwf.1 hl,
      thenBranch.resolved_of_resolve hfit hΓ hwf.2.1 hr, hwf.2.2⟩
  | .ifElse condition thenBranch (some elseBranch), ctx, Γ, hfit, hΓ, hwf, h => by
    rw [Stmt.snd_resolve_ifElse ctx Γ condition hwf.2.1] at h
    have hc := h.left ((thenBranch.within_resolve ctx Γ).append (elseBranch.within_resolve ctx Γ))
    have hbranches := h.right (condition.within_resolve ctx Γ)
    have ht := hbranches.left (elseBranch.within_resolve ctx Γ)
    have he := hbranches.right (thenBranch.within_resolve ctx Γ)
    exact ⟨condition.resolved_of_resolve hfit hΓ.settled hwf.1 hc,
      ⟨thenBranch.resolved_of_resolve hfit hΓ hwf.2.1.1 ht, hwf.2.1.2⟩,
      elseBranch.resolved_of_resolve hfit hΓ hwf.2.2.1 he, hwf.2.2.2⟩
  | .whileDo condition body, ctx, Γ, hfit, hΓ, hwf, h => by
    have hl := h.left (body.within_resolve ctx Γ)
    have hr := h.right (condition.within_resolve ctx Γ)
    exact ⟨condition.resolved_of_resolve hfit hΓ.settled hwf.1 hl,
      body.resolved_of_resolve hfit hΓ hwf.2.1 hr, hwf.2.2⟩
  | .funDecl ⟨name, params, body⟩, _, Γ, hfit, hΓ, hwf, h => by
    have hname := hwf.1.1.1 hwf.1.2
    obtain ⟨herr, h⟩ := h.check (Γ.resolutions_declareError name)
    exact ⟨Static.admits_of_declareError hname.2 herr,
      Stmt.functionResolved_of_resolve (hfit.extend hname.1 hname.2) (hΓ.extend name) hwf
        (by simp) h⟩
  | .ret keyword value, ctx, Γ, hfit, hΓ, hwf, h => by
    obtain ⟨herr, h⟩ := h.check (by simp)
    have htop := (List.append_eq_nil_iff.1 herr).1
    rw [Findings.errors_errorIf] at htop
    refine ⟨by simpa [Context.inside] using htop, ?_⟩
    exact Expr.optionResolved_of_resolve hfit hΓ.settled hwf.2 h
  | .classDecl name superclass methods, ctx, Γ, hfit, hΓ, hwf, h => by
    have hname := hwf.1.1.1 hwf.1.2
    have hhead := Findings.Within.of_errors (Γ.resolutions_declareError name)
      ((Γ.extend name).within_referSuperclass name superclass)
    obtain ⟨herr, hparent⟩ := (h.left (Stmt.within_resolveMethods _ methods _)).check
      (Γ.resolutions_declareError name)
    refine ⟨Static.admits_of_declareError hname.2 herr, fun t ht => ?_,
      Stmt.methodsResolved_of_resolve (Context.Fits.forMethods ctx _ superclass)
        ((hΓ.extend name).forMethods superclass) hwf.2.2 (h.right hhead)⟩
    obtain rfl : superclass = some t := ht
    exact Expr.resolved_var (hΓ.extend name).settled (hparent.check (by simp)).2

theorem Stmt.allResolved_of_resolve : ∀ {ss : List Stmt} {ctx : Context} {Γ : Static}, ctx.Fits Γ →
    Γ.Complete → Stmt.AllWellFormed Token.Spelled ss →
    Accepted T (Stmt.resolveAll ctx Γ ss).2 (Stmt.allReferences ss) →
      Stmt.AllResolved T ctx.inside Γ ss
  | [], _, _, _, _, _, _ => trivial
  | s :: ss, ctx, Γ, hfit, hΓ, hwf, h => by
    have hl := h.left (Stmt.within_resolveAll ctx ss _)
    have hr := h.right (s.within_resolve ctx Γ)
    rw [Stmt.fst_resolve ctx Γ hwf.1] at hr
    exact ⟨s.resolved_of_resolve hfit hΓ hwf.1 hl,
      Stmt.allResolved_of_resolve (hfit.after hwf.1) (hΓ.after s) hwf.2 hr⟩

theorem Stmt.functionResolved_of_resolve :
    ∀ {f : Callable Stmt} {ctx : Context} {Γ : Static} {kind : FunctionContext},
      ctx.Fits Γ → Γ.Complete → Stmt.FunctionWellFormed Token.Spelled f →
    kind ≠ .none → Accepted T (Stmt.resolveFunction ctx Γ kind f) (Stmt.functionReferences f) →
    Stmt.FunctionResolved T Γ f
  | ⟨_, params, body⟩, ctx, Γ, kind, hfit, hΓ, hwf, hkind, h => by
    have hspelled : ∀ p ∈ params, p.lexeme ≠ "this" ∧ p.lexeme ≠ "super" :=
      fun p hp => (hwf.2.1 p hp).1.1 (hwf.2.1 p hp).2
    obtain ⟨herr, h⟩ := h.check (Static.resolutions_declareParams _ params)
    have hadmits := Static.admitsAll_of_declareParams (fun p hp => (hspelled p hp).2) herr
    rw [Static.declareParams_fst] at h
    have hinside : ({ ctx with function := kind } : Context).inside = true := by
      simpa [Context.inside] using hkind
    have hfit' :
        ({ ctx with function := kind } : Context).Fits (Static.extendAll (.empty :: Γ) params) :=
      Context.Fits.extendAll hfit.enter hspelled
    have hbody :=
      Stmt.allResolved_of_resolve hfit' (Static.Complete.extendAll (hΓ.cons (by simp)) params)
        hwf.2.2 h
    rw [hinside] at hbody
    exact ⟨hadmits, hbody⟩

theorem Stmt.methodsResolved_of_resolve :
    ∀ {fs : List (Callable Stmt)} {ctx : Context} {Γ : Static}, ctx.Fits Γ → Γ.Complete →
    Stmt.MethodsWellFormed Token.Spelled fs →
    Accepted T (Stmt.resolveMethods ctx Γ fs) (Stmt.methodReferences fs) →
    Stmt.MethodsResolved T Γ fs
  | [], _, _, _, _, _, _ => trivial
  | f :: fs, ctx, Γ, hfit, hΓ, hwf, h => by
    have hl := h.left (Stmt.within_resolveMethods ctx fs Γ)
    have hr := h.right (Stmt.within_resolveFunction ctx f Γ _)
    have hkind : FunctionContext.ofMethod f.name ≠ .none := by
      unfold FunctionContext.ofMethod
      split <;> simp
    exact ⟨Stmt.functionResolved_of_resolve hfit hΓ hwf.1 hkind hl,
      Stmt.methodsResolved_of_resolve hfit hΓ hwf.2 hr⟩

end

end

/-! ## Whole programs -/

theorem within_resolve (program : List Stmt) :
    (resolve program).Within (Stmt.allReferences program) :=
  Stmt.within_resolveAll .topLevel program []

theorem resolved_of_resolve {T : SiteTable} {program : List Stmt}
    (hwf : Stmt.AllWellFormed Token.Spelled program)
    (h : Accepted T (resolve program) (Stmt.allReferences program)) :
    Stmt.AllResolved T false [] program := by
  have hfits : Context.topLevel.Fits [] := fun h => absurd rfl h
  exact Stmt.allResolved_of_resolve hfits (fun _ h => nomatch h) hwf h

end Lox
