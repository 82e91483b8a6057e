import Lox.Proofs.Calls
import Lox.Proofs.Resolving

/-!
# Distances implement lexical scoping

`Simulated T bound depth` says that expressions, calls and statements which are resolved by the
table `T` evaluate in lockstep by distance and by name. It holds at every depth (`simulated`), by
induction on the depth and one case for each form. `Simulated.execAll` extends it to sequences of
statements.
-/

namespace Lox

/-- Evaluation by distance and evaluation by name are in lockstep to a depth. -/
structure Simulated (T : SiteTable) (bound depth : Nat) : Prop where
  eval : ∀ {W m n Γ e}, Agree T W m n → Placed W Γ m n → Expr.Resolved T Γ e →
    Lockstep T .quiet W m n (Lox.eval bound depth e) (Lexical.eval bound depth e) (.alike T)
  call : ∀ {W m n v w args args'}, Agree T W m n → Value.Alike T W v w →
    List.Forall₂ (Value.Alike T W) args args' → v.arity? = some args.length →
    Lockstep T .quiet W m n (Lox.call bound depth v args) (Lexical.call bound depth w args')
      (.alike T)
  exec : ∀ {W m n Γ inside s}, Agree T W m n → Placed W Γ m n → Stmt.Resolved T inside Γ s →
    Lockstep T ⟨!Γ.isEmpty, inside⟩ W m n (Lox.exec bound depth s)
      (Lexical.exec bound depth (!Γ.isEmpty) s) fun W' m' n' _ _ => Placed W' (Γ.after s) m' n'

theorem Static.isEmpty_after (Γ : Static) (s : Stmt) : (Γ.after s).isEmpty = Γ.isEmpty := by
  cases Γ with
  | nil => cases s <;> rfl
  | cons scope Γ => cases s <;> rfl

section

variable {T : SiteTable} {bound depth : Nat} {W : World} {m n : Machine} {Γ : Static}

theorem simulated_zero (T : SiteTable) (bound : Nat) : Simulated T bound 0 where
  eval hA _ _ := Lockstep.throw hA .overflow
  call hA _ _ _ := Lockstep.throw hA .overflow
  exec hA _ _ := Lockstep.throw hA .overflow

/-! ## Sequences -/

/-- The arguments of a call. -/
theorem Simulated.evalAll (ih : Simulated T bound depth) {es : List Expr} (hA : Agree T W m n)
    (hP : Placed W Γ m n) (hes : Expr.AllResolved T Γ es) :
    Lockstep T .quiet W m n (es.mapM (Lox.eval bound depth)) (es.mapM (Lexical.eval bound depth))
      fun W' _ _ vs ws => List.Forall₂ (Value.Alike T W') vs ws := by
  induction es generalizing W m n with
  | nil => exact Lockstep.pure hA .nil
  | cons e es ihes =>
    rw [List.mapM_cons, List.mapM_cons]
    refine Lockstep.bind (Mode.le_refl _) (ih.eval hA hP hes.1) ?_
    intro W₁ m₁ n₁ v w hs₁ hvw
    refine Lockstep.bind (Mode.le_refl _) (ihes hs₁.agree (hP.step hs₁) hes.2) ?_
    intro W₂ m₂ n₂ vs ws hs₂ hvws
    exact Lockstep.pure hs₂.agree (.cons (hvw.grow hs₂.le) hvws)

/-- The statements of a block, of a function or of a program. -/
theorem Simulated.execAll (ih : Simulated T bound depth) {inside : Bool} {ss : List Stmt}
    (hA : Agree T W m n) (hP : Placed W Γ m n) (hss : Stmt.AllResolved T inside Γ ss) :
    Lockstep T ⟨!Γ.isEmpty, inside⟩ W m n (ss.forM (Lox.exec bound depth))
      (ss.forM (Lexical.exec bound depth (!Γ.isEmpty))) .any := by
  induction ss generalizing W m n Γ with
  | nil => exact Lockstep.pure hA trivial
  | cons s ss ihss =>
    refine Lockstep.bind (Mode.le_refl _) (ih.exec hA hP hss.1) ?_
    intro W₁ m₁ n₁ _ _ hs₁ hP₁
    rw [← Γ.isEmpty_after s]
    exact ihss hs₁.agree hP₁ hss.2

theorem Simulated.runsBodies (ih : Simulated T bound depth) :
    RunsBodies T (fun body => body.forM (Lox.exec bound depth))
      fun body => body.forM (Lexical.exec bound depth true) :=
  fun hA hP hbody => ih.execAll hA hP hbody

/-! ## One level deeper -/

theorem Simulated.eval_succ (ih : Simulated T bound depth) {e : Expr} (hA : Agree T W m n)
    (hP : Placed W Γ m n) (he : e.Resolved T Γ) :
    Lockstep T .quiet W m n (Lox.eval bound (depth + 1) e) (Lexical.eval bound (depth + 1) e)
      (.alike T) := by
  cases e with
  | literal v => exact Lockstep.pure hA v.alike_toValue
  | var name => exact Lockstep.lookUp hA hP.view he.1 he.2
  | this keyword => exact Lockstep.lookUp hA hP.view he.1 he.2
  | super keyword method => exact Lockstep.superMethod hA hP.view he
  | grouping inner => exact ih.eval hA hP he
  | assign name value =>
    rw [Lox.eval, Lexical.eval]
    refine Lockstep.bind (Mode.le_refl _) (ih.eval hA hP he.1) ?_
    intro W₁ m₁ n₁ v w hs₁ hvw
    refine Lockstep.bind (Mode.le_refl _)
      (Lockstep.assign hs₁.agree (hP.step hs₁).view he.2.2 he.2.1 hvw) ?_
    intro W₂ m₂ n₂ _ _ hs₂ _
    exact Lockstep.pure hs₂.agree (hvw.grow hs₂.le)
  | unary op operand =>
    rw [Lox.eval, Lexical.eval]
    refine Lockstep.bind (Mode.le_refl _) (ih.eval hA hP he.2) ?_
    intro W₁ m₁ n₁ v w hs₁ hvw
    exact Lockstep.unary hs₁.agree he.1 hvw
  | binary left op right =>
    rw [Lox.eval, Lexical.eval]
    refine Lockstep.bind (Mode.le_refl _) (ih.eval hA hP he.1) ?_
    intro W₁ m₁ n₁ v w hs₁ hvw
    refine Lockstep.bind (Mode.le_refl _) (ih.eval hs₁.agree (hP.step hs₁) he.2.2) ?_
    intro W₂ m₂ n₂ v' w' hs₂ hvw'
    exact Lockstep.binary hs₂.agree he.2.1 (hvw.grow hs₂.le) hvw'
  | logical left op right =>
    rw [Lox.eval, Lexical.eval]
    refine Lockstep.bind (Mode.le_refl _) (ih.eval hA hP he.1) ?_
    intro W₁ m₁ n₁ v w hs₁ hvw
    rw [hvw.truthy_eq]
    split
    · exact Lockstep.pure hs₁.agree hvw
    · exact ih.eval hs₁.agree (hP.step hs₁) he.2
  | call callee paren arguments =>
    rw [Lox.eval, Lexical.eval]
    refine Lockstep.bind (Mode.le_refl _) (ih.eval hA hP he.1) ?_
    intro W₁ m₁ n₁ v w hs₁ hvw
    refine Lockstep.bind (Mode.le_refl _) (ih.evalAll hs₁.agree (hP.step hs₁) he.2) ?_
    intro W₂ m₂ n₂ args args' hs₂ hargs
    rw [← hargs.length_eq]
    refine Lockstep.bind (Mode.le_refl _)
      (Lockstep.checkCall hs₂.agree paren (hvw.grow hs₂.le) _) ?_
    intro W₃ m₃ n₃ _ _ hs₃ harity
    exact ih.call hs₃.agree ((hvw.grow hs₂.le).grow hs₃.le) (hargs.imp fun _ _ h => h.grow hs₃.le)
      harity
  | get object name =>
    rw [Lox.eval, Lexical.eval]
    refine Lockstep.bind (Mode.le_refl _) (ih.eval hA hP he) ?_
    intro W₁ m₁ n₁ v w hs₁ hvw
    cases hvw with
    | inst hij => exact Lockstep.getProperty hs₁.agree hij name
    | _ => exact Lockstep.fail hs₁.agree name _
  | set object name value =>
    rw [Lox.eval, Lexical.eval]
    refine Lockstep.bind (Mode.le_refl _) (ih.eval hA hP he.1) ?_
    intro W₁ m₁ n₁ v w hs₁ hvw
    cases hvw with
    | @inst i j hij =>
      refine Lockstep.bind (Mode.le_refl _) (ih.eval hs₁.agree (hP.step hs₁) he.2) ?_
      intro W₂ m₂ n₂ v w hs₂ hvw
      have hij₂ : i.Alike T W₂ j := ⟨hij.id, hij.cls.mono (fun _ _ h => h) hs₂.le⟩
      refine Lockstep.bind (Mode.le_refl _) (Lockstep.setField hs₂.agree hij₂ name.lexeme hvw) ?_
      intro W₃ m₃ n₃ _ _ hs₃ _
      exact Lockstep.pure hs₃.agree (hvw.grow hs₃.le)
    | _ => exact Lockstep.fail hs₁.agree name _

theorem Simulated.call_succ (ih : Simulated T bound depth) {v w : Value} {args args' : List Value}
    (hA : Agree T W m n) (hvw : v.Alike T W w) (hargs : List.Forall₂ (Value.Alike T W) args args')
    (harity : v.arity? = some args.length) :
    Lockstep T .quiet W m n (Lox.call bound (depth + 1) v args)
      (Lexical.call bound (depth + 1) w args') (.alike T) := by
  cases hvw with
  | function hfg => exact Lockstep.invoke ih.runsBodies hA hfg hargs (Option.some.inj harity).symm
  | cls hcd => exact Lockstep.construct ih.runsBodies hA hcd hargs (Option.some.inj harity).symm
  | native hclock hzero =>
    -- The clock takes no arguments.
    have hnil : args = [] :=
      List.eq_nil_of_length_eq_zero ((Option.some.inj harity).symm.trans hzero)
    subst hnil
    cases hargs
    exact Lockstep.callClock hA hclock
  | _ => cases harity

/-- A piece of a statement that is an expression. -/
theorem Simulated.evalOption (ih : Simulated T bound depth) {o : Option Expr} (hA : Agree T W m n)
    (hP : Placed W Γ m n) (ho : Expr.OptionResolved T Γ o) :
    Lockstep T .quiet W m n (o.elim (pure .nil) (Lox.eval bound depth))
      (o.elim (pure .nil) (Lexical.eval bound depth)) (.alike T) := by
  cases o with
  | none => exact Lockstep.pure hA .nil
  | some e => exact ih.eval hA hP ho

theorem exec_varDecl (name : Token) (o : Option Expr) :
    Lox.exec bound (depth + 1) (.varDecl name o) = o.elim (pure .nil) (Lox.eval bound depth) >>=
    Exec.define name.lexeme := by
  cases o <;> rfl

theorem exec_ret (keyword : Token) (o : Option Expr) : Lox.exec bound (depth + 1) (.ret keyword o) =
    o.elim (pure .nil) (Lox.eval bound depth) >>= fun v => throw (.returned v) := by
  cases o <;> rfl

/-- A block has a scope of its own on one machine; on the other it only ends with the frame it began
with. -/
theorem Simulated.block (ih : Simulated T bound depth) {inside : Bool} {body : List Stmt}
    (hA : Agree T W m n) (hP : Placed W Γ m n)
    (hbody : Stmt.AllResolved T inside (.empty :: Γ) body) :
    Lockstep T ⟨false, inside⟩ W m n (Lox.exec bound (depth + 1) (.block body))
      (Lexical.exec bound (depth + 1) (!Γ.isEmpty) (.block body)) .any := by
  have hA₁ := hA.enter m.current .empty
  obtain ⟨hA₂, hP₂⟩ := hA.placed hP.view .empty
  rw [Lox.exec, Lexical.exec]
  refine Lockstep.withState (Lockstep.left (.of_frame_eq (W.le_enter _ _) hA₁ rfl rfl rfl) rfl ?_)
  exact Lockstep.within hA₁ (hA.scopes.lt_next hA.active) (ih.execAll hA₂ hP₂ hbody)

theorem Simulated.varDecl (ih : Simulated T bound depth) {inside : Bool} {name : Token}
    {o : Option Expr} (hA : Agree T W m n) (hP : Placed W Γ m n)
    (hs : (Stmt.varDecl name o).Resolved T inside Γ) :
    Lockstep T ⟨!Γ.isEmpty, inside⟩ W m n (Lox.exec bound (depth + 1) (.varDecl name o))
      (Lexical.exec bound (depth + 1) (!Γ.isEmpty) (.varDecl name o))
      fun W' m' n' _ _ => Placed W' (Γ.extend name) m' n' := by
  rw [exec_varDecl, Lexical.exec_varDecl]
  obtain ⟨W₁, n₁, hn₁, hs₁, hD⟩ := Declaring.declare hA hP hs.1
  refine Lockstep.right hs₁ hn₁ ?_
  refine Lockstep.bind (Mode.quiet_le _) (ih.evalOption hs₁.agree hD.placed hs.2) ?_
  intro W₂ m₂ n₂ v w hs₂ hvw
  exact (Lockstep.define hs₂.agree (hD.step hs₂) hs.1.1 fun _ hle _ => hvw.grow hle).weaken
    (Mode.le_refl _) fun _ h => h.2

/-- A function is closed over its own name. -/
theorem Simulated.funDecl {inside : Bool} {decl : FunDecl} (hA : Agree T W m n)
    (hP : Placed W Γ m n) (hs : (Stmt.funDecl decl).Resolved T inside Γ) :
    Lockstep T ⟨!Γ.isEmpty, inside⟩ W m n (Lox.exec bound (depth + 1) (.funDecl decl))
      (Lexical.exec bound (depth + 1) (!Γ.isEmpty) (.funDecl decl))
      fun W' m' n' _ _ => Placed W' (Γ.extend decl.name) m' n' := by
  rw [Lox.exec, Lexical.exec]
  obtain ⟨W₁, n₁, hn₁, hs₁, hD⟩ := Declaring.declare hA hP hs.1
  refine Lockstep.right hs₁ hn₁ (Lockstep.withState ?_)
  refine Lockstep.bind (Mode.quiet_le _)
    (Lockstep.newClosure hs₁.agree decl m.current n₁.current false) ?_
  intro W₂ m₂ n₂ _ _ hs₂ hclosures
  obtain ⟨rfl, id, rfl, rfl⟩ := hclosures
  refine (Lockstep.define hs₂.agree (hD.step hs₂) hs.1.1 fun W' _ hP' => .function ?_).weaken
    (Mode.le_refl _) fun _ h => h.2
  have hview := hP'.view
  rw [hs₂.current, hs₂.current' rfl] at hview
  exact ⟨rfl, rfl, rfl, Γ.extend decl.name, hview, hs.2, fun h => absurd h Bool.false_ne_true⟩

theorem Simulated.classDecl (ih : Simulated T bound depth) {inside : Bool} {name : Token}
    {superclass : Option Token} {methods : List FunDecl} (hA : Agree T W m n) (hP : Placed W Γ m n)
    (hs : (Stmt.classDecl name superclass methods).Resolved T inside Γ) :
    Lockstep T ⟨!Γ.isEmpty, inside⟩ W m n
      (Lox.exec bound (depth + 1) (.classDecl name superclass methods))
      (Lexical.exec bound (depth + 1) (!Γ.isEmpty) (.classDecl name superclass methods))
      fun W' m' n' _ _ => Placed W' (Γ.extend name) m' n' := by
  rw [Lox.exec, Lexical.exec]
  obtain ⟨W₁, n₁, hn₁, hs₁, hD⟩ := Declaring.declare hA hP hs.1
  refine Lockstep.right hs₁ hn₁ ?_
  refine (Lockstep.declareClass hs₁.agree hD hs.1.1 hs.2.2 ?_).weaken (Mode.quiet_le _) fun _ h => h
  intro t ht W m n hA hP
  exact ih.eval hA hP (hs.2.1 t ht)

theorem Simulated.branch (ih : Simulated T bound depth) {inside : Bool} {s : Stmt}
    (hA : Agree T W m n) (hP : Placed W Γ m n) (hs : s.Resolved T inside Γ)
    (hdecl : ¬ s.IsDeclaration) :
    Lockstep T ⟨!Γ.isEmpty, inside⟩ W m n (Lox.exec bound depth s)
      (Lexical.exec bound depth (!Γ.isEmpty) s) fun W' m' n' _ _ => Placed W' Γ m' n' := by
  have h := ih.exec hA hP hs
  rwa [Γ.after_of_not_isDeclaration hdecl] at h

theorem Simulated.ifElse (ih : Simulated T bound depth) {inside : Bool} {condition : Expr}
    {thenBranch : Stmt} {elseBranch : Option Stmt} (hA : Agree T W m n) (hP : Placed W Γ m n)
    (hs : (Stmt.ifElse condition thenBranch elseBranch).Resolved T inside Γ) :
    Lockstep T ⟨!Γ.isEmpty, inside⟩ W m n
      (Lox.exec bound (depth + 1) (.ifElse condition thenBranch elseBranch))
      (Lexical.exec bound (depth + 1) (!Γ.isEmpty) (.ifElse condition thenBranch elseBranch))
      fun W' m' n' _ _ => Placed W' Γ m' n' := by
  cases elseBranch with
  | none =>
    rw [Lox.exec, Lexical.exec]
    refine Lockstep.bind (Mode.quiet_le _) (ih.eval hA hP hs.1) ?_
    intro W₁ m₁ n₁ v w hs₁ hvw
    rw [hvw.truthy_eq]
    split
    · exact ih.branch hs₁.agree (hP.step hs₁) hs.2.1 hs.2.2
    · exact Lockstep.pure hs₁.agree (hP.step hs₁)
  | some s =>
    rw [Lox.exec, Lexical.exec]
    refine Lockstep.bind (Mode.quiet_le _) (ih.eval hA hP hs.1) ?_
    intro W₁ m₁ n₁ v w hs₁ hvw
    rw [hvw.truthy_eq]
    split
    · exact ih.branch hs₁.agree (hP.step hs₁) hs.2.1.1 hs.2.1.2
    · exact ih.branch hs₁.agree (hP.step hs₁) hs.2.2.1 hs.2.2.2

theorem Simulated.whileDo (ih : Simulated T bound depth) {inside : Bool} {condition : Expr}
    {body : Stmt} (hA : Agree T W m n) (hP : Placed W Γ m n)
    (hs : (Stmt.whileDo condition body).Resolved T inside Γ) :
    Lockstep T ⟨!Γ.isEmpty, inside⟩ W m n (Lox.exec bound (depth + 1) (.whileDo condition body))
      (Lexical.exec bound (depth + 1) (!Γ.isEmpty) (.whileDo condition body))
      fun W' m' n' _ _ => Placed W' Γ m' n' := by
  rw [Lox.exec, Lexical.exec]
  refine Lockstep.loop (fun hA hP => ?_) (fun hA hP => ih.branch hA hP hs.2.1 hs.2.2) bound hA hP
  exact Lockstep.map (P := fun W' m' n' v w => v.Alike T W' w ∧ Placed W' Γ m' n')
    ((ih.eval hA hP hs.1).weaken (Mode.quiet_le _) fun hs' hvw => ⟨hvw, hP.step hs'⟩)
    fun h => ⟨h.1.truthy_eq, h.2⟩

theorem Simulated.exec_succ (ih : Simulated T bound depth) {inside : Bool} {s : Stmt}
    (hA : Agree T W m n) (hP : Placed W Γ m n) (hs : s.Resolved T inside Γ) :
    Lockstep T ⟨!Γ.isEmpty, inside⟩ W m n (Lox.exec bound (depth + 1) s)
      (Lexical.exec bound (depth + 1) (!Γ.isEmpty) s) fun W' m' n' _ _ =>
        Placed W' (Γ.after s) m' n' := by
  cases s with
  | varDecl name o => exact ih.varDecl hA hP hs
  | funDecl decl => exact Simulated.funDecl hA hP hs
  | classDecl name superclass methods => exact ih.classDecl hA hP hs
  | ifElse condition thenBranch elseBranch => exact ih.ifElse hA hP hs
  | whileDo condition body => exact ih.whileDo hA hP hs
  | block body =>
    have hmode : (⟨false, inside⟩ : Mode) ≤ ⟨!Γ.isEmpty, inside⟩ := ⟨nofun, id⟩
    exact (ih.block hA hP hs).weaken hmode fun hs' _ => hP.step hs'
  | expr value =>
    rw [Lox.exec, Lexical.exec]
    refine Lockstep.bind (Mode.quiet_le _) (ih.eval hA hP hs) ?_
    intro W₁ m₁ n₁ _ _ hs₁ _
    exact Lockstep.pure hs₁.agree (hP.step hs₁)
  | print value =>
    rw [Lox.exec, Lexical.exec]
    refine Lockstep.bind (Mode.quiet_le _) (ih.eval hA hP hs) ?_
    intro W₁ m₁ n₁ v w hs₁ hvw
    rw [hvw.shown_eq]
    refine (Lockstep.print hs₁.agree w.shown).weaken (Mode.quiet_le _) fun hs₂ _ => ?_
    exact (hP.step hs₁).step hs₂
  | ret keyword o =>
    rw [exec_ret, Lexical.exec_ret]
    refine Lockstep.bind (Mode.quiet_le _) (ih.evalOption hA hP hs.2) ?_
    intro W₁ m₁ n₁ v w hs₁ hvw
    exact Lockstep.throw hs₁.agree (.returned hs.1 hvw)

theorem simulated (T : SiteTable) (bound depth : Nat) : Simulated T bound depth := by
  induction depth with
  | zero => exact simulated_zero T bound
  | succ depth ih => exact ⟨ih.eval_succ, ih.call_succ, ih.exec_succ⟩

end

end Lox
