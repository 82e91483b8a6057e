import Lox.Proofs.Restoring

/-!
# Limits

The limits on nesting and on loops decide only whether a run is cut short. `Extends deeper longer x
y` says that `x` ends as `y` does, unless `x` meets a limit that is larger for `y`; then all that
`x` has printed is also printed by `y`. With larger limits expressions, calls and statements extend
what they do with smaller ones (`EvalExtends.of_le`), and so do runs (`Machine.run_cutShort_or_eq`).
A run that meets no limit is the same with larger ones (`Machine.run_of_le`).
-/

namespace Lox

def Exit.exhausted : Exit → Bool
  | .overflow => true
  | .unfinished => true
  | _ => false

def Outcome.exhausted : Outcome → Bool
  | .stopped why => why.exhausted
  | .unread => true
  | .unresolved => true
  | _ => false

def Report.exhausted (r : Report) : Bool := r.outcome.exhausted

/-- The exit would not be there if evaluation could nest deeper, or loops could go on longer. -/
def Exit.Premature (deeper longer : Prop) : Exit → Prop
  | .overflow => deeper
  | .unfinished => longer
  | _ => False

theorem Exit.Premature.exhausted {deeper longer : Prop} {e : Exit} (h : e.Premature deeper longer) :
    e.exhausted = true := by
  cases e with
  | overflow | unfinished => rfl
  | returned | failed | fault => exact h.elim

/-- The first computation meets a limit where the second one goes on. What was printed until then
the second one prints as well. -/
def Exec.CutShort {α : Type} (deeper longer : Prop) (x y : Exec α) (m : Machine) : Prop :=
  ∃ e m', x m = .error e m' ∧ e.Premature deeper longer ∧
    m'.printed.toList <+: (y.after m).printed.toList

/-- The two computations end in the same way unless the first one is cut short. -/
structure Extends {α : Type} (deeper longer : Prop) (x y : Exec α) : Prop where
  restores : Exec.Restores y
  ends : ∀ m, x.CutShort deeper longer y m ∨ x m = y m

namespace Extends

open Exec (Restores)

variable {deeper longer : Prop} {α β γ : Type} {x y : Exec α} {f g : α → Exec β}

theorem refl (hx : Restores x) : Extends deeper longer x x := ⟨hx, fun _ => .inr rfl⟩

theorem of_premature {e : Exit} (he : e.Premature deeper longer) (hy : Restores y) :
    Extends deeper longer (throw e) y := ⟨hy, fun m => .inl ⟨e, m, rfl, he, (hy m).printed⟩⟩

theorem bind (hx : Extends deeper longer x y) (hf : ∀ a, Extends deeper longer (f a) (g a)) :
    Extends deeper longer (x >>= f) (y >>= g) := by
  refine ⟨hx.restores.bind fun a => (hf a).restores, fun m => ?_⟩
  rcases hx.ends m with ⟨e, m', hm, he, hprinted⟩ | hm
  · refine .inl ⟨e, m', Exec.bind_of_error hm, he, hprinted.trans ?_⟩
    cases hy : y m with
    | ok a m₁ =>
      rw [Exec.after_of_ok hy, Exec.after_bind_of_ok hy]
      exact ((hf a).restores m₁).printed
    | error e₁ m₁ =>
      have hsame : Exec.after (y >>= g) m = y.after m := by
        rw [Exec.after_bind_of_error hy, Exec.after_of_error hy]
      exact hsame ▸ List.prefix_rfl
  · cases hy : y m with
    | ok a m₁ =>
      rw [Exec.CutShort, Exec.bind_of_ok (hm.trans hy), Exec.bind_of_ok hy,
        Exec.after_bind_of_ok hy]
      exact (hf a).ends m₁
    | error e₁ m₁ =>
      right
      rw [Exec.bind_of_error (hm.trans hy), Exec.bind_of_error hy]

/-- The same is done with the result. -/
theorem before (hx : Extends deeper longer x y) (hf : ∀ a, Restores (f a)) :
    Extends deeper longer (x >>= f) (y >>= f) := hx.bind fun a => refl (hf a)

/-- The same is done first. -/
theorem behind (hx : Restores x) (hf : ∀ a, Extends deeper longer (f a) (g a)) :
    Extends deeper longer (x >>= f) (x >>= g) := (refl hx).bind hf

theorem map (f : α → β) (hx : Extends deeper longer x y) :
    Extends deeper longer (f <$> x) (f <$> y) := by
  rw [map_eq_pure_bind, map_eq_pure_bind]
  exact hx.before fun _ => .pure _

theorem within (i : ScopeId) (hx : Extends deeper longer x y) :
    Extends deeper longer (Exec.within i x) (Exec.within i y) := by
  refine ⟨hx.restores.within i, fun m => ?_⟩
  rcases hx.ends { m with current := i } with ⟨e, m', hm, he, hprinted⟩ | hm
  · refine .inl ⟨e, { m' with current := m.current }, ?_, he, ?_⟩
    · simp only [Exec.within, hm]
    · rw [Exec.after_within]
      exact hprinted
  · right
    simp only [Exec.within, hm]

/-- Being cut short is not a `return`. -/
theorem catchReturn {x y : Exec Unit} (hx : Extends deeper longer x y) :
    Extends deeper longer (Exec.catchReturn x) (Exec.catchReturn y) := by
  refine ⟨hx.restores.catchReturn, fun m => ?_⟩
  rcases hx.ends m with ⟨e, m', hm, he, hprinted⟩ | hm
  · rw [← Exec.after_catchReturn] at hprinted
    refine .inl ⟨e, m', ?_, he, hprinted⟩
    cases e with
    | overflow | unfinished => simp only [Exec.catchReturn, hm]
    | returned | failed | fault => exact he.elim
  · right
    simp only [Exec.catchReturn, hm]

theorem loop {bound bound' : Nat} (hle : bound ≤ bound') (hlonger : bound < bound' → longer)
    {test test' : Exec Bool} {body body' : Exec Unit} (htest : Extends deeper longer test test')
    (hbody : Extends deeper longer body body') :
    Extends deeper longer (Exec.loop bound test body) (Exec.loop bound' test' body') := by
  induction bound generalizing bound' with
  | zero =>
    cases bound' with
    | zero => exact refl (.throw _)
    | succ bound' =>
      exact of_premature (hlonger (Nat.succ_pos _)) (.loop htest.restores hbody.restores _)
  | succ bound ih =>
    obtain ⟨bound', rfl⟩ := Nat.exists_eq_succ_of_ne_zero (Nat.ne_of_gt (Nat.zero_lt_of_lt hle))
    refine htest.bind fun again => ?_
    cases again with
    | false => exact refl (.pure ())
    | true =>
      have ih := ih (Nat.le_of_succ_le_succ hle) fun hlt => hlonger (Nat.succ_lt_succ hlt)
      exact hbody.bind fun _ => ih

theorem mapM {f g : γ → Exec α} (hf : ∀ c, Extends deeper longer (f c) (g c)) (cs : List γ) :
    Extends deeper longer (cs.mapM f) (cs.mapM g) := by
  induction cs with
  | nil => exact refl (.pure _)
  | cons c cs ih =>
    rw [List.mapM_cons, List.mapM_cons]
    exact (hf c).bind fun _ => ih.before fun _ => .pure _

theorem forM {f g : γ → Exec Unit} (hf : ∀ c, Extends deeper longer (f c) (g c)) (cs : List γ) :
    Extends deeper longer (cs.forM f) (cs.forM g) := by
  induction cs with
  | nil => exact refl (.pure ())
  | cons c cs ih => exact (hf c).bind fun _ => ih

theorem invoke {run run' : List Stmt → Exec Unit}
    (hrun : ∀ body, Extends deeper longer (run body) (run' body)) (f : Closure)
    (args : List Value) :
    Extends deeper longer (Exec.invoke f args run) (Exec.invoke f args run') := by
  unfold Exec.invoke
  refine behind (.newScope _ _) fun scope => ?_
  exact ((hrun f.decl.body).within scope).catchReturn.before (.finishCall f)

theorem construct {run run' : List Stmt → Exec Unit}
    (hrun : ∀ body, Extends deeper longer (run body) (run' body)) (c : Class) (args : List Value) :
    Extends deeper longer (Exec.construct c args run) (Exec.construct c args run') := by
  unfold Exec.construct
  refine behind (.newInstance c) fun i => ?_
  cases c.initializer? with
  | none => exact refl (.pure _)
  | some f =>
    exact behind (.bindMethod f _) fun bound => (invoke hrun bound args).before fun _ => .pure _

theorem declareClass {ev ev' : Token → Exec Value} (hev : ∀ t, Extends deeper longer (ev t) (ev' t))
    (name : Token) (superclass : Option Token) (methods : List FunDecl) :
    Extends deeper longer (Exec.declareClass name superclass methods ev)
      (Exec.declareClass name superclass methods ev') := by
  unfold Exec.declareClass
  refine behind (.define _ _) fun _ => ?_
  cases superclass with
  | none => exact refl ((Restores.pure none).bind (.makeClass name methods))
  | some t => exact (((hev t).before (.asSuperclass t)).map some).before (.makeClass name methods)

end Extends

/-! ## Evaluation -/

/-- With the second limits evaluation extends what it does with the first. -/
structure EvalExtends (deeper longer : Prop) (bound bound' depth depth' : Nat) : Prop where
  eval : ∀ e, Extends deeper longer (eval bound depth e) (Lox.eval bound' depth' e)
  call : ∀ v args, Extends deeper longer (call bound depth v args) (Lox.call bound' depth' v args)
  exec : ∀ s, Extends deeper longer (exec bound depth s) (Lox.exec bound' depth' s)

namespace EvalExtends

variable {deeper longer : Prop} {bound bound' depth depth' : Nat}

open Extends (refl behind)

theorem eval_succ (ih : EvalExtends deeper longer bound bound' depth depth') (e : Expr) :
    Extends deeper longer (Lox.eval bound (depth + 1) e) (Lox.eval bound' (depth' + 1) e) := by
  cases e with
  | literal v => exact refl (.pure _)
  | var name => exact refl (.lookUp name)
  | this keyword => exact refl (.lookUp keyword)
  | super keyword method => exact refl (.superMethod keyword method)
  | grouping inner => exact ih.eval inner
  | assign name value =>
    rw [Lox.eval, Lox.eval]
    exact (ih.eval value).before fun v => (Exec.Restores.assign name v).bind fun _ => .pure v
  | unary op operand =>
    rw [Lox.eval, Lox.eval]
    exact (ih.eval operand).before fun v => .ofResult _
  | binary left op right =>
    rw [Lox.eval, Lox.eval]
    exact (ih.eval left).bind fun v => (ih.eval right).before fun w => .ofResult _
  | logical left op right =>
    rw [Lox.eval, Lox.eval]
    refine (ih.eval left).bind fun v => ?_
    split
    · exact refl (.pure v)
    · exact ih.eval right
  | call callee paren arguments =>
    rw [Lox.eval, Lox.eval]
    refine (ih.eval callee).bind fun f => (Extends.mapM ih.eval arguments).bind fun args => ?_
    exact behind (.checkCall paren f args.length) fun _ => ih.call f args
  | get object name =>
    rw [Lox.eval, Lox.eval]
    refine (ih.eval object).before fun v => ?_
    cases v with
    | inst i => exact .getProperty i name
    | _ => exact .throw _
  | set object name value =>
    rw [Lox.eval, Lox.eval]
    refine (ih.eval object).bind fun v => ?_
    cases v with
    | inst i =>
      exact (ih.eval value).before fun w => (Exec.Restores.setField i name.lexeme w).bind fun _ =>
        .pure w
    | _ => exact refl (.throw _)

theorem call_succ (ih : EvalExtends deeper longer bound bound' depth depth') (v : Value)
    (args : List Value) :
    Extends deeper longer (Lox.call bound (depth + 1) v args)
      (Lox.call bound' (depth' + 1) v args) := by
  cases v with
  | function f => exact Extends.invoke (Extends.forM ih.exec) f args
  | cls c => exact Extends.construct (Extends.forM ih.exec) c args
  | native n => exact refl (.callNative n args)
  | _ => exact refl (.throw _)

theorem exec_succ (hle : bound ≤ bound') (hlonger : bound < bound' → longer)
    (ih : EvalExtends deeper longer bound bound' depth depth') (s : Stmt) :
    Extends deeper longer (Lox.exec bound (depth + 1) s) (Lox.exec bound' (depth' + 1) s) := by
  cases s with
  | expr value =>
    rw [Lox.exec, Lox.exec]
    exact (ih.eval value).before fun _ => .pure ()
  | print value =>
    rw [Lox.exec, Lox.exec]
    exact (ih.eval value).before fun v => .print v.shown
  | varDecl name initializer =>
    cases initializer with
    | none => exact refl (.define name.lexeme .nil)
    | some e => exact (ih.eval e).before fun v => .define name.lexeme v
  | block body =>
    rw [Lox.exec, Lox.exec]
    exact behind .get fun m => behind (.newScope _ _) fun scope =>
      (Extends.forM ih.exec body).within scope
  | ifElse condition thenBranch elseBranch =>
    cases elseBranch with
    | none =>
      rw [Lox.exec, Lox.exec]
      refine (ih.eval condition).bind fun v => ?_
      split
      · exact ih.exec thenBranch
      · exact refl (.pure ())
    | some elseBranch =>
      rw [Lox.exec, Lox.exec]
      refine (ih.eval condition).bind fun v => ?_
      split
      · exact ih.exec thenBranch
      · exact ih.exec elseBranch
  | whileDo condition body =>
    rw [Lox.exec, Lox.exec]
    exact Extends.loop hle hlonger ((ih.eval condition).map _) (ih.exec body)
  | funDecl decl => exact refl ((Restoring.of_depth bound' (depth' + 1)).exec (.funDecl decl))
  | ret keyword value =>
    cases value with
    | none => exact refl (.throw _)
    | some e => exact (ih.eval e).before fun _ => .throw _
  | classDecl name superclass methods =>
    rw [Lox.exec, Lox.exec]
    exact Extends.declareClass (fun t => ih.eval (.var t)) name superclass methods

theorem of_le (hbound : bound ≤ bound') (hlonger : bound < bound' → longer)
    (hdepth : depth ≤ depth') (hdeeper : depth < depth' → deeper) :
    EvalExtends deeper longer bound bound' depth depth' := by
  induction depth generalizing depth' with
  | zero =>
    cases depth' with
    | zero => exact ⟨fun _ => refl (.throw _), fun _ _ => refl (.throw _), fun _ => refl (.throw _)⟩
    | succ depth' =>
      have hdeeper := hdeeper (Nat.succ_pos _)
      have hrestoring := Restoring.of_depth bound' (depth' + 1)
      exact ⟨fun e => .of_premature hdeeper (hrestoring.eval e),
        fun v args => .of_premature hdeeper (hrestoring.call v args),
        fun s => .of_premature hdeeper (hrestoring.exec s)⟩
  | succ depth ih =>
    obtain ⟨depth', rfl⟩ := Nat.exists_eq_succ_of_ne_zero (Nat.ne_of_gt (Nat.zero_lt_of_lt hdepth))
    have ih := ih (Nat.le_of_succ_le_succ hdepth) fun hlt => hdeeper (Nat.succ_lt_succ hlt)
    exact ⟨ih.eval_succ, ih.call_succ, ih.exec_succ hbound hlonger⟩

end EvalExtends

/-! ## Runs -/

instance : LE Limits where
  le l l' := l.depth ≤ l'.depth ∧ l.iterations ≤ l'.iterations

/-- The outcome would not be there if a text could nest deeper, or loops could go on longer. -/
def Outcome.Premature (deeper longer : Prop) : Outcome → Prop
  | .stopped e => e.Premature deeper longer
  | .unread => deeper
  | .unresolved => deeper
  | _ => False

theorem Outcome.Premature.exhausted {deeper longer : Prop} {o : Outcome}
    (h : o.Premature deeper longer) :
    o.exhausted = true := by
  cases o with
  | stopped e => exact Exit.Premature.exhausted h
  | unread | unresolved => rfl
  | refused | completed => exact h.elim

/-- What ended with the outcome and left the first machine was cut short, and printed a part of what
was printed on the second machine. -/
structure Outcome.CutShort (deeper longer : Prop) (o : Outcome) (m m' : Machine) : Prop where
  premature : o.Premature deeper longer
  printed : m.printed.toList <+: m'.printed.toList

theorem Machine.printed_execute (m : Machine) (l : Limits) (program : List Stmt) :
    (m.execute l program).2.printed =
      ((execAll l.iterations l.depth program).after { m with lastError := none }).printed := by
  unfold Machine.execute Exec.after
  cases execAll l.iterations l.depth program { m with lastError := none } with
  | ok _ m' => rfl
  | error e m' => cases e <;> rfl

theorem Machine.execute_cutShort_or_eq {l l' : Limits} (hl : l ≤ l') (m : Machine)
    (program : List Stmt) :
    (m.execute l program).1.CutShort (l.depth < l'.depth) (l.iterations < l'.iterations)
      (m.execute l program).2
        (m.execute l' program).2 ∨
      m.execute l program = m.execute l' program := by
  have hexec : Extends (l.depth < l'.depth) (l.iterations < l'.iterations)
      (execAll l.iterations l.depth program) (execAll l'.iterations l'.depth program) :=
    Extends.forM (EvalExtends.of_le hl.2 id hl.1 id).exec program
  rcases hexec.ends { m with lastError := none } with ⟨e, m', hm, he, hprinted⟩ | hm
  · rw [← Machine.printed_execute] at hprinted
    have hstop : m.execute l program = (.stopped e, m') := by
      unfold Machine.execute
      rw [hm]
      cases e with
      | overflow | unfinished => rfl
      | returned | failed | fault => exact he.elim
    rw [hstop]
    exact .inl ⟨he, hprinted⟩
  · right
    unfold Machine.execute
    rw [hm]

/-- A larger depth changes the analysis of a text only if the smaller one is met. Then nothing is
executed. -/
theorem Machine.analysis_premature_or_eq {l l' : Limits} (hl : l ≤ l') (longer : Prop) (m : Machine)
    (source : String) :
    (∃ o, (m.analysis l source).program = .error o ∧ o.Premature (l.depth < l'.depth) longer) ∨
      m.analysis l' source = m.analysis l source := by
  obtain hlt | heq := Nat.lt_or_eq_of_le hl.1
  · rcases (Lox.scan m.nextSite source).analyse_of_le hl.1 with hunread | hunresolved | hsame
    · exact .inl ⟨.unread, hunread, hlt⟩
    · exact .inl ⟨.unresolved, hunresolved, hlt⟩
    · exact .inr hsame
  · right
    rw [analysis, analysis, heq]

/-- Larger limits change a run only if it meets one that is larger. -/
theorem Machine.run_cutShort_or_eq {l l' : Limits} (hl : l ≤ l') (m : Machine) (source : String) :
    (m.run l source).1.outcome.CutShort (l.depth < l'.depth) (l.iterations < l'.iterations)
      (m.run l source).2
        (m.run l' source).2 ∨
      m.run l source = m.run l' source := by
  rcases m.analysis_premature_or_eq hl (l.iterations < l'.iterations) source with
    ⟨o, hprogram, ho⟩ | hsame
  · left
    have hprinted := (m.ran_run l' source).printed
    rw [run_of_error hprogram]
    refine ⟨ho, ?_⟩
    dsimp only
    rw [printed_analysed]
    exact hprinted
  · have hanalysed : m.analysed l' source = m.analysed l source := by
      rw [analysed, analysed, hsame]
    cases hprogram : (m.analysis l source).program with
    | error o =>
      right
      rw [run_of_error hprogram, run_of_error (hsame ▸ hprogram), hsame, hanalysed]
    | ok program =>
      rw [run_of_ok hprogram, run_of_ok (hsame ▸ hprogram), hsame, hanalysed]
      rcases execute_cutShort_or_eq hl (m.analysed l source) program with hcut | heq
      · exact .inl hcut
      · exact .inr (by rw [heq])

/-- Larger limits change nothing about a run that met none. -/
theorem Machine.run_of_le {l l' : Limits} (hl : l ≤ l') (m : Machine) (source : String)
    (h : (m.run l source).1.exhausted = false) : m.run l' source = m.run l source := by
  rcases Machine.run_cutShort_or_eq hl m source with hcut | heq
  · exact absurd hcut.premature.exhausted (ne_true_of_eq_false h)
  · exact heq.symm

end Lox
