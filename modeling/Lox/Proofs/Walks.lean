import Lox.Walk
import Mathlib.Data.List.Infix
import Mathlib.Tactic.Common

/-!
# What the walk finds

A walk that is given as much depth as the program is high (`Stmt.heightAll`) finds what resolution
finds, and the scopes and the context are afterwards what they were around the program. With less
depth it fails, and has found a first part of that. `Walking.Does` says both of a part of a walk,
and parts are put together by `Does.bind`. `resolveWithin_ok_iff` and `resolveWithin_error` are the
outcome for whole programs.
-/

namespace Lox

/-! ## Heights -/

mutual

/-- How deep visits are nested in the visit of an expression. -/
def Expr.height : Expr → Nat
  | .literal _ | .var _ | .super .. | .this _ => 1
  | .assign _ e | .unary _ e | .grouping e | .get e _ => e.height + 1
  | .binary e _ f | .logical e _ f | .set e _ f => max e.height f.height + 1
  | .call e _ es => max e.height (Expr.heightAll es) + 1

def Expr.heightAll : List Expr → Nat
  | [] => 0
  | e :: es => max e.height (Expr.heightAll es)

end

def Expr.heightOption (o : Option Expr) : Nat := o.elim 0 Expr.height

mutual

def Stmt.height : Stmt → Nat
  | .expr e | .print e => e.height + 1
  | .varDecl _ o | .ret _ o => Expr.heightOption o + 1
  | .block ss => Stmt.heightAll ss + 1
  | .ifElse e s none => max e.height s.height + 1
  | .ifElse e s (some t) => max e.height (max s.height t.height) + 1
  | .whileDo e s => max e.height s.height + 1
  | .funDecl f => Stmt.heightFunction f + 1
  -- The name of a superclass is visited as a variable.
  | .classDecl _ o fs => max (o.elim 0 fun _ => 1) (Stmt.heightMethods fs) + 1

def Stmt.heightAll : List Stmt → Nat
  | [] => 0
  | s :: ss => max s.height (Stmt.heightAll ss)

def Stmt.heightFunction : Callable Stmt → Nat
  | ⟨_, _, body⟩ => Stmt.heightAll body

def Stmt.heightMethods : List (Callable Stmt) → Nat
  | [] => 0
  | f :: fs => max (Stmt.heightFunction f) (Stmt.heightMethods fs)

end

theorem Expr.height_pos (e : Expr) : 0 < e.height := by
  cases e <;> rw [Expr.height] <;> omega

theorem Stmt.height_pos (s : Stmt) : 0 < s.height := by
  cases s with
  | ifElse e s o => cases o <;> rw [Stmt.height] <;> omega
  | _ => rw [Stmt.height]; omega

theorem Stmt.heightAll_append (ss rs : List Stmt) :
    Stmt.heightAll (ss ++ rs) = max (Stmt.heightAll ss) (Stmt.heightAll rs) := by
  induction ss with
  | nil => rw [List.nil_append, Stmt.heightAll, Nat.zero_max]
  | cons s ss ih => rw [List.cons_append, Stmt.heightAll, Stmt.heightAll, ih, Nat.max_assoc]

/-! ## Parts of a walk -/

/-- The first part of what was found. -/
structure Findings.IsPrefix (f g : Findings) : Prop where
  resolutions : f.resolutions <+: g.resolutions
  errors : f.errors <+: g.errors

theorem Findings.IsPrefix.append_right {f g : Findings} (h : f.IsPrefix g) (k : Findings) :
    f.IsPrefix (g ++ k) :=
  ⟨h.resolutions.trans (List.prefix_append _ _), h.errors.trans (List.prefix_append _ _)⟩

theorem Findings.IsPrefix.append_left {f g : Findings} (h : f.IsPrefix g) (k : Findings) :
    (k ++ f).IsPrefix (k ++ g) :=
  ⟨(List.prefix_append_right_inj _).2 h.resolutions, (List.prefix_append_right_inj _).2 h.errors⟩

theorem Findings.isPrefix_none (f : Findings) : Findings.none.IsPrefix f :=
  ⟨List.nil_prefix, List.nil_prefix⟩

namespace Walking

/-- If the depth is enough, the walk goes from the first place to the second and adds the findings;
otherwise it fails, and has added a first part of them. -/
structure Does (x : Walking Unit) (enough : Prop) (s : Static) (c : Context) (s' : Static)
    (c' : Context) (f : Findings) : Prop where
  ok : ∀ found, enough → x ⟨s, c, found⟩ = .ok () ⟨s', c', found ++ f⟩
  error : ∀ found, ¬enough →
    ∃ w g, x ⟨s, c, found⟩ = .error () w ∧ w.found = found ++ g ∧ g.IsPrefix f

namespace Does

variable {x y : Walking Unit} {p q : Prop} {s s' s'' : Static} {c c' c'' : Context} {f g : Findings}

theorem imp_iff (h : x.Does p s c s' c' f) (hpq : p ↔ q) : x.Does q s c s' c' f := by
  obtain rfl : p = q := propext hpq
  exact h

theorem pure : Does (Pure.pure ()) True s c s c .none :=
  ⟨fun found _ => by rw [Findings.append_none]; rfl, fun _ h => absurd trivial h⟩

theorem fail : Does (throw ()) False s c s' c' f :=
  ⟨fun _ h => h.elim, fun _ _ => ⟨_, .none, rfl, (Findings.append_none _).symm, f.isPrefix_none⟩⟩

theorem bind (hx : x.Does p s c s' c' f) (hy : y.Does q s' c' s'' c'' g) :
    Does (x >>= fun _ => y) (p ∧ q) s c s'' c'' (f ++ g) where
  ok found h := by
    show EStateM.bind x (fun _ => y) _ = _
    rw [EStateM.bind, hx.ok found h.1]
    dsimp only
    rw [hy.ok _ h.2, Findings.append_assoc]
  error found h := by
    show ∃ w k, EStateM.bind x (fun _ => y) _ = _ ∧ _
    by_cases hp : p
    · obtain ⟨w, k, hrun, hfound, hk⟩ := hy.error (found ++ f) fun hq => h ⟨hp, hq⟩
      refine ⟨w, f ++ k, ?_, ?_, hk.append_left f⟩
      · rw [EStateM.bind, hx.ok found hp]
        exact hrun
      · rw [hfound, Findings.append_assoc]
    · obtain ⟨w, k, hrun, hfound, hk⟩ := hx.error found hp
      exact ⟨w, k, by rw [EStateM.bind, hrun], hfound, hk.append_right g⟩

/-- A step that nests nothing. -/
theorem step (hx : x.Does True s c s' c' f) (hy : y.Does q s' c' s'' c'' g) :
    Does (x >>= fun _ => y) q s c s'' c'' (f ++ g) := (hx.bind hy).imp_iff (iff_of_eq (true_and q))

/-- The state is looked at. -/
theorem get {k : Walker → Walking Unit} (h : ∀ found, (k ⟨s, c, found⟩).Does p s c s' c' f) :
    Does (MonadState.get >>= k) p s c s' c' f :=
  ⟨fun found => (h found).ok found, fun found => (h found).error found⟩

theorem find (h : Context → Static → Findings) : Does (find h) True s c s c (h c s) :=
  ⟨fun _ _ => rfl, fun _ h => absurd trivial h⟩

theorem changeScopes (h : Static → Static) : Does (changeScopes h) True s c (h s) c .none :=
  ⟨fun found _ => by rw [Findings.append_none]; rfl, fun _ h => absurd trivial h⟩

theorem setFunction (k : FunctionContext) :
    Does (setFunction k) True s c s { c with function := k } .none :=
  ⟨fun found _ => by rw [Findings.append_none]; rfl, fun _ h => absurd trivial h⟩

theorem setClass (k : ClassContext) : Does (setClass k) True s c s { c with cls := k } .none :=
  ⟨fun found _ => by rw [Findings.append_none]; rfl, fun _ h => absurd trivial h⟩

theorem declare (name : Token) :
    Does (declare name) True s c (s.declare name) c (s.declareError name) := by
  have hdeclare := (find (s := s) (c := c) fun _ s => s.declareError name).step
    (changeScopes (·.declare name))
  rwa [Findings.append_none] at hdeclare

/-- A name is declared and complete at once. -/
theorem introduce (name : Token) : Does (do Walking.declare name; complete name) True s c
    ((s.declare name).complete name) c (s.declareError name) := by
  have hname := (declare (s := s) (c := c) name).step (changeScopes (·.complete name))
  rwa [Findings.append_none] at hname

theorem params (ps : List Token) :
    Does (ps.forM fun p => do Walking.declare p; complete p) True s c (s.declareParams ps).1 c
      (s.declareParams ps).2 := by
  induction ps generalizing s with
  | nil => exact pure
  | cons p ps ih => exact (introduce p).step ih

end Does
end Walking

open Walking

/-! ## Expressions -/

section

variable {d : Nat} {s : Static} {c : Context}

theorem Expr.visitAll_does
    (ih : ∀ e : Expr, (e.visit d).Does (e.height ≤ d) s c s c (e.resolve c s)) (es : List Expr) :
    Does (es.forM (Expr.visit d)) (Expr.heightAll es ≤ d) s c s c
      (Expr.resolveAll c s es) := by
  induction es with
  | nil => exact Does.pure.imp_iff (by simp [Expr.heightAll])
  | cons e es ihs => exact ((ih e).bind ihs).imp_iff (by rw [Expr.heightAll, Nat.max_le])

/-- A visit of an expression leaves the place as it is. -/
theorem Expr.visit_does (d : Nat) (e : Expr) :
    (e.visit d).Does (e.height ≤ d) s c s c (e.resolve c s) := by
  induction d generalizing e with
  | zero => exact Does.fail.imp_iff (by simp [Nat.ne_of_gt e.height_pos])
  | succ d ih =>
    cases e with
    | literal v => exact Does.pure.imp_iff (by simp [Expr.height])
    | var name => exact (Does.find _).imp_iff (by simp [Expr.height])
    | assign name e =>
      exact ((ih e).bind (Does.find fun _ s => s.refer .assign name)).imp_iff
        (by simp [Expr.height])
    | unary op e => exact (ih e).imp_iff (by simp [Expr.height])
    | binary e op f =>
      exact ((ih e).bind (ih f)).imp_iff
        (by simp only [Expr.height, Nat.add_le_add_iff_right, Nat.max_le])
    | logical e op f =>
      exact ((ih e).bind (ih f)).imp_iff
        (by simp only [Expr.height, Nat.add_le_add_iff_right, Nat.max_le])
    | grouping e => exact (ih e).imp_iff (by simp [Expr.height])
    | call e paren es =>
      exact ((ih e).bind (Expr.visitAll_does ih es)).imp_iff
        (by simp only [Expr.height, Nat.add_le_add_iff_right, Nat.max_le])
    | get e name => exact (ih e).imp_iff (by simp [Expr.height])
    | set e name f =>
      exact ((ih f).bind (ih e)).imp_iff
        (by simp only [Expr.height, Nat.add_le_add_iff_right, Nat.max_le, and_comm])
    | super keyword method =>
      have hvisit := (Does.find (s := s) (c := c) fun ctx _ => .errorIf (ctx.cls == .none) keyword
        .superOutsideClass).step ((Does.find fun ctx _ => .errorIf (ctx.cls == .plain) keyword
          .superWithoutSuperclass).step (Does.find fun _ s => s.refer .super keyword))
      rw [← Findings.append_assoc] at hvisit
      exact hvisit.imp_iff (by simp [Expr.height])
    | this keyword => exact (Does.find _).imp_iff (by simp [Expr.height])

theorem Expr.visitOption_does (d : Nat) (o : Option Expr) :
    Does (o.forM (Expr.visit d)) (Expr.heightOption o ≤ d) s c s c (Expr.resolveOption c s o) := by
  cases o with
  | none => exact Does.pure.imp_iff (by simp [Expr.heightOption])
  | some e => exact Expr.visit_does d e

end

/-! ## Statements -/

namespace Static

@[simp] theorem tail_declare (s : Static) (name : Token) : (s.declare name).tail = s.tail := by
  cases s <;> rfl

@[simp] theorem tail_complete (s : Static) (name : Token) : (s.complete name).tail = s.tail := by
  cases s <;> rfl

theorem tail_declareParams (s : Static) (ps : List Token) :
    (s.declareParams ps).1.tail = s.tail := by
  induction ps generalizing s with
  | nil => rfl
  | cons p ps ih => exact (ih _).trans (by simp)

end Static

namespace Stmt

/-- A statement declares names in the innermost scope only. -/
theorem tail_resolve (c : Context) : ∀ (st : Stmt) (s : Static), (st.resolve c s).1.tail = s.tail
  | .expr _, _ | .print _, _ | .block _, _ | .ret .., _ => rfl
  | .varDecl .., s | .funDecl _, s | .classDecl .., s => by simp [Stmt.resolve]
  | .ifElse _ st none, s => tail_resolve c st s
  | .ifElse _ st (some st'), s => (tail_resolve c st' _).trans (tail_resolve c st s)
  | .whileDo _ st, s => tail_resolve c st s

theorem tail_resolveAll (c : Context) (s : Static) (ss : List Stmt) :
    (resolveAll c s ss).1.tail = s.tail := by
  induction ss generalizing s with
  | nil => rfl
  | cons st ss ih => exact (ih _).trans (st.tail_resolve c s)

def VisitsDo (d : Nat) : Prop := ∀ (st : Stmt) (s : Static) (c : Context),
  (st.visit d).Does (st.height ≤ d) s c (st.resolve c s).1 c (st.resolve c s).2

namespace VisitsDo

variable {d : Nat} {s : Static} {c : Context}

theorem all (ih : VisitsDo d) (ss : List Stmt) :
    Does (ss.forM (Stmt.visit d)) (heightAll ss ≤ d) s c (resolveAll c s ss).1 c
    (resolveAll c s ss).2 := by
  induction ss generalizing s with
  | nil => exact Does.pure.imp_iff (by simp [heightAll])
  | cons st ss ihs => exact ((ih st s c).bind ihs).imp_iff (by rw [heightAll, Nat.max_le])

/-- Statements in a scope of their own. The scope is left when they are over. -/
theorem scope (ih : VisitsDo d) (scope : Bindings Bool) (ss : List Stmt) :
    Does (do beginScope scope; ss.forM (Stmt.visit d); endScope) (heightAll ss ≤ d) s c s c
      (resolveAll c (scope :: s) ss).2 := by
  have hvisit := (Does.changeScopes (s := s) (c := c) (scope :: ·)).step
    ((ih.all ss).bind (Does.changeScopes List.tail))
  rw [tail_resolveAll, Findings.append_none] at hvisit
  exact hvisit.imp_iff (iff_of_eq (and_true _))

/-- A function is left with the scopes and the context it was entered with. -/
theorem function (ih : VisitsDo d) (kind : FunctionContext) (f : FunDecl) :
    Does (Walking.function (Stmt.visit d) kind f) (heightFunction f ≤ d) s c s c
      (resolveFunction c s kind f) := by
  obtain ⟨name, params, body⟩ := f
  refine Does.get fun found => ?_
  have hvisit :=
    (Does.setFunction (s := s) (c := c) kind).step ((Does.changeScopes (.empty :: ·)).step
      ((Does.params params).step ((ih.all body).bind
        ((Does.changeScopes List.tail).step (Does.setFunction c.function)))))
  rw [tail_resolveAll, Static.tail_declareParams, Findings.append_none,
    Findings.append_none] at hvisit
  exact hvisit.imp_iff (iff_of_eq (and_true _))

theorem methods (ih : VisitsDo d) (fs : List FunDecl) :
    Does (fs.forM fun f => Walking.function (Stmt.visit d) (.ofMethod f.name) f)
      (heightMethods fs ≤ d) s c s c (resolveMethods c s fs) := by
  induction fs with
  | nil => exact Does.pure.imp_iff (by simp [heightMethods])
  | cons f fs ihs => exact ((ih.function _ f).bind ihs).imp_iff (by rw [heightMethods, Nat.max_le])

/-- The name of a superclass is found outside of the scope with `super`, in which the walk goes
on. -/
theorem superclass (d : Nat) (name parent : Token) :
    Does (Walking.superclass d name parent) (1 ≤ d) s c (Static.single "super" :: s)
    { c with cls := .subclass } (s.referSuperclass name (some parent)) := by
  have hvisit := (Does.find (s := s) (c := c) fun _ _ =>
    .errorIf (name.lexeme == parent.lexeme) parent .selfInheritance).step
      ((Does.setClass .subclass).step ((Expr.visit_does d (.var parent)).bind
        (Does.changeScopes (Static.single "super" :: ·))))
  rw [Findings.append_none] at hvisit
  exact hvisit.imp_iff (iff_of_eq (and_true _))

/-- The methods of a class, in a scope with `this`. -/
theorem body (ih : VisitsDo d) (fs : List FunDecl) {y : Walking Unit} {s' : Static} {c' : Context}
    (hy : y.Does True s c s' c' .none) : Does (do
      beginScope (Static.single "this")
      fs.forM fun f => Walking.function (Stmt.visit d) (.ofMethod f.name) f
      endScope
      y) (heightMethods fs ≤ d) s c s' c' (resolveMethods c (Static.single "this" :: s) fs) := by
  have hvisit := (Does.changeScopes (s := s) (c := c) (Static.single "this" :: ·)).step
    ((ih.methods fs).bind ((Does.changeScopes List.tail).step hy))
  rw [Findings.append_none, Findings.none_append, Findings.append_none] at hvisit
  exact hvisit.imp_iff (iff_of_eq (and_true _))

/-- A class is left with the scopes and the context it was entered with, but for its name. -/
theorem classDecl (ih : VisitsDo d) (name : Token) (parent : Option Token) (fs : List FunDecl) :
    (Stmt.visit (d + 1) (.classDecl name parent fs)).Does
      (height (.classDecl name parent fs) ≤ d + 1) s c ((s.declare name).complete name) c
      (resolve c s (.classDecl name parent fs)).2 := by
  have hfound : (resolve c s (.classDecl name parent fs)).2 = s.declareError name ++
      (((s.declare name).complete name).referSuperclass name parent ++
        resolveMethods { c with cls := .of parent }
            (((s.declare name).complete name).forMethods parent) fs) := by
    rw [resolve, Findings.append_assoc]
  rw [hfound]
  refine Does.get fun found => ?_
  cases parent with
  | none =>
    have hvisit := (Does.setClass (s := s) (c := c) .plain).step ((Does.declare name).step
      ((Does.changeScopes (·.complete name)).step (Does.pure.step
        (ih.body fs (Does.pure.step (Does.setClass c.cls))))))
    exact hvisit.imp_iff (by simp [height])
  | some parent =>
    have hvisit := (Does.setClass (s := s) (c := c) .plain).step ((Does.declare name).step
      ((Does.changeScopes (·.complete name)).step ((superclass d name parent).bind
        (ih.body fs ((Does.changeScopes List.tail).step (Does.setClass c.cls))))))
    exact hvisit.imp_iff
      (by simp only [height, Nat.add_le_add_iff_right, Nat.max_le, Option.elim_some])

end VisitsDo

theorem visit_does (d : Nat) : VisitsDo d := by
  induction d with
  | zero => exact fun st _ _ => Does.fail.imp_iff (by simp [Nat.ne_of_gt st.height_pos])
  | succ d ih =>
    intro st s c
    cases st with
    | expr e => exact (Expr.visit_does d e).imp_iff (by simp [height])
    | print e => exact (Expr.visit_does d e).imp_iff (by simp [height])
    | varDecl name o =>
      have hvisit := (Does.declare (s := s) (c := c) name).step
        ((Expr.visitOption_does d o).bind (Does.changeScopes (·.complete name)))
      rw [Findings.append_none] at hvisit
      exact hvisit.imp_iff (by simp [height])
    | block ss => exact (ih.scope .empty ss).imp_iff (by simp [height])
    | ifElse e st o =>
      cases o with
      | none =>
        have hvisit := (Expr.visit_does (s := s) (c := c) d e).bind ((ih st s c).bind Does.pure)
        rw [Findings.append_none] at hvisit
        exact hvisit.imp_iff
          (by simp only [height, Nat.add_le_add_iff_right, Nat.max_le, and_true])
      | some st' =>
        have hvisit := (Expr.visit_does d e).bind ((ih st s c).bind (ih st' _ c))
        rw [← Findings.append_assoc] at hvisit
        exact hvisit.imp_iff (by simp only [height, Nat.add_le_add_iff_right, Nat.max_le])
    | whileDo e st =>
      exact ((Expr.visit_does d e).bind (ih st s c)).imp_iff
        (by simp only [height, Nat.add_le_add_iff_right, Nat.max_le])
    | funDecl f =>
      exact ((Does.declare f.name).step ((Does.changeScopes (·.complete f.name)).step
        (ih.function .function f))).imp_iff (by simp [height])
    | ret keyword o =>
      have hvisit := (Does.find (s := s) (c := c) fun ctx _ =>
        .errorIf (ctx.function == .none) keyword .topLevelReturn).step ((Does.find fun ctx _ =>
          .errorIf (o.isSome && ctx.function == .initializer) keyword .initializerReturn).step
          (Expr.visitOption_does d o))
      rw [← Findings.append_assoc] at hvisit
      exact hvisit.imp_iff (by simp [height])
    | classDecl name parent fs => exact ih.classDecl name parent fs

end Stmt

/-! ## Programs -/

section

variable {depth : Nat} {program : List Stmt} {f : Findings}

theorem resolveWithin_eq :
    resolveWithin depth program = match program.forM (Stmt.visit depth) .start with
    | .ok _ w => .ok w.found
    | .error _ w => .error w.found := rfl

/-- Resolution to a depth finds everything if and only if the program is not higher. -/
theorem resolveWithin_ok_iff :
    resolveWithin depth program = .ok f ↔ Stmt.heightAll program ≤ depth ∧ resolve program = f := by
  have hvisit := (Stmt.visit_does depth).all (s := []) (c := .topLevel) program
  by_cases henough : Stmt.heightAll program ≤ depth
  · rw [resolveWithin_eq, Walker.start, hvisit.ok .none henough]
    simp [henough, resolve]
  · obtain ⟨w, g, hfail, -, -⟩ := hvisit.error .none henough
    rw [resolveWithin_eq, Walker.start, hfail]
    simp [henough]

/-- What is found before the depth is exceeded is a first part of what there is. -/
theorem isPrefix_of_resolveWithin (h : resolveWithin depth program = .error f) :
    f.IsPrefix (resolve program) := by
  have hvisit := (Stmt.visit_does depth).all (s := []) (c := .topLevel) program
  by_cases henough : Stmt.heightAll program ≤ depth
  · rw [resolveWithin_ok_iff.2 ⟨henough, rfl⟩] at h
    cases h
  · obtain ⟨w, g, hfail, hfound, hg⟩ := hvisit.error .none henough
    have hrun : resolveWithin depth program = .error w.found := by
      rw [resolveWithin_eq, Walker.start, hfail]
    rw [hrun] at h
    injection h with h
    rwa [← h, hfound]

end

end Lox
