import Lox.Proofs.Objects

/-!
# Calls and class declarations in lockstep

A call makes one scope with all parameters on one machine and a frame for each of them on the other
(`Declaring.pushAll`). `Lockstep.invoke` and `Lockstep.construct` say so for functions and classes,
given that bodies are executed in lockstep (`RunsBodies`), and `Lockstep.declareClass` for the
declaration of a class.
-/

namespace Lox

/-! ## Parameters -/

namespace Bindings

variable {α : Type}

theorem setAll_cons (b : Bindings α) (x : String) (xs : List String) (v : α) (vs : List α) :
    b.setAll (x :: xs) (v :: vs) = (b.set x v).setAll xs vs := rfl

theorem get?_setAll_of_not_mem {x : String} {xs : List String} (hx : x ∉ xs) (b : Bindings α)
    (vs : List α) :
    (b.setAll xs vs).get? x = b.get? x := by
  induction xs generalizing b vs with
  | nil => rfl
  | cons y ys ih =>
    cases vs with
    | nil => rfl
    | cons v vs =>
      rw [setAll_cons, ih (fun h => hx (List.mem_cons_of_mem _ h)), get?_set,
        if_neg (fun h : x = y => hx (h ▸ List.mem_cons_self))]

theorem get?_setAll_of_mem {xs : List String} (hn : xs.Nodup) {x : String} {v : α} (b : Bindings α)
    {vs : List α} (h : (x, v) ∈ xs.zip vs) : (b.setAll xs vs).get? x = some v := by
  induction xs generalizing b vs with
  | nil => simp at h
  | cons y ys ih =>
    rw [List.nodup_cons] at hn
    cases vs with
    | nil => simp at h
    | cons w vs =>
      rw [setAll_cons]
      rcases List.mem_cons.1 h with h | h
      · cases h
        rw [get?_setAll_of_not_mem hn.1, get?_set, if_pos rfl]
      · exact ih hn.2 _ h

/-- What is bound afterwards was bound before or is one of the values. -/
theorem mem_of_get?_setAll {b : Bindings α} {xs : List String} {vs : List α} {x : String} {v : α}
    (h : (b.setAll xs vs).get? x = some v) : b.get? x = some v ∨ v ∈ vs := by
  induction xs generalizing b vs with
  | nil => exact .inl h
  | cons y ys ih =>
    cases vs with
    | nil => exact .inl h
    | cons w vs =>
      rcases ih h with h | h
      · rw [get?_set] at h
        split at h
        · cases h
          exact .inr List.mem_cons_self
        · exact .inl h
      · exact .inr (List.mem_cons_of_mem _ h)

end Bindings

section

variable {T : SiteTable} {mode : Mode} {W : World} {m n : Machine} {Γ : Static}

/-- The frames of parameters that the active scope binds from the start. -/
theorem Declaring.pushAll {params : List Token} {args args' : List Value}
    (hargs : List.Forall₂ (Value.Alike T W) args args') (hlen : args.length = params.length)
    {scope : Bindings Bool} (hA : Agree T W m n) (hP : Placed W (scope :: Γ) m n)
    (hadmits : Static.AdmitsAll (scope :: Γ) params)
    (hbound : ∀ x v, (x, v) ∈ (params.map Token.lexeme).zip args →
      m.scopes.local? m.current x = some v) :
    ∃ W' n', Lexical.pushAll (params.zip args') n = .ok () n' ∧ Step T true W m n W' m n' ∧
      Placed W' (Static.extendAll (scope :: Γ) params) m n' := by
  induction params generalizing args args' scope W n with
  | nil => exact ⟨W, n, rfl, .refl hA, hP⟩
  | cons p ps ih =>
    cases hargs with
    | nil => cases hlen
    | @cons v w vs ws hvw hrest =>
      obtain ⟨hp, hps⟩ := hadmits
      obtain ⟨W₁, n₁, hpush, hs₁, hw, hD⟩ := Declaring.push hA hP hp w
      obtain ⟨q, hq⟩ := hD.frame
      have hle := W₁.le_bind m.current p.lexeme
      have hA₂ := hs₁.agree.bind hq (hbound _ v (by simp)) hw
        ⟨(hvw.grow hs₁.le).grow hle, fun h => absurd h hp.1⟩
      have hs₂ : ∀ declares, Step T declares W₁ m n₁ _ m n₁ := fun _ =>
        .of_frame_eq hle hA₂ rfl rfl rfl
      have hP₂ := (hD.step (hs₂ false)).extended fun _ => .inr ⟨rfl, rfl⟩
      rw [Static.extend_cons] at hP₂ hps
      have hrest' := hrest.imp fun _ _ h => (h.grow hs₁.le).grow hle
      obtain ⟨W₃, n₃, hpushAll, hs₃, hP₃⟩ := ih hrest' (Nat.succ.inj hlen) hA₂ hP₂ hps
        fun x u hx => hbound x u (List.mem_cons_of_mem _ hx)
      refine ⟨W₃, n₃, ?_, (hs₁.trans (hs₂ true)).trans hs₃, ?_⟩
      · rw [List.zip_cons_cons, Lexical.pushAll]
        exact (Exec.bind_of_ok hpush).trans hpushAll
      · rw [Static.extendAll, List.foldl_cons, Static.extend_cons]
        exact hP₃

/-! ## Functions and classes -/

/-- The two ways of executing the body of a function are in lockstep. -/
def RunsBodies (T : SiteTable) (run run' : List Stmt → Exec Unit) : Prop :=
  ∀ {W m n scope Γ body}, Agree T W m n → Placed W (scope :: Γ) m n →
    Stmt.AllResolved T true (scope :: Γ) body →
    Lockstep T ⟨true, true⟩ W m n (run body) (run' body) .any

/-- The instance that an initializer is bound to. -/
theorem Lockstep.this (hA : Agree T W m n) {i p : ScopeId} {Δ : Static}
    (hview : View W (Static.single "this" :: Δ) i p) (name : Token) :
    Lockstep T mode W m n
      (get >>= fun m : Machine => Exec.ofFault (m.scopes.getAt i 0 "this"))
      (Exec.within p (Lexical.lookUp { name with lexeme := "this" })) (.alike T) := by
  obtain ⟨v, w, hv, hw, hvw⟩ := hA.read hview (x := "this") (d := 0) rfl rfl
  show Ends T mode W m n _ (Exec.ofFault (m.scopes.getAt i 0 "this") m)
    (Exec.within p (Lexical.lookUp { name with lexeme := "this" }) n)
  have href : Lexical.lookUp { name with lexeme := "this" } { n with current := p } =
      .ok w { n with current := p } := by
    show Exec.ofFailure (n.scopes.lookup p { name with lexeme := "this" }) _ = _
    rw [hw _ rfl]
    rfl
  rw [hv, Exec.within]
  simp only [href]
  exact .ok (.refl hA) hvw.1

/-- The body of a function, after its scope was made and before its parameters have frames. -/
theorem Lockstep.body {run run' : List Stmt → Exec Unit} (hrun : RunsBodies T run run')
    (hA : Agree T W m n) {i p : ScopeId} (hview : View W Γ i p) {decl : FunDecl}
    (hdecl : Stmt.FunctionResolved T Γ decl) {args args' : List Value}
    (hargs : List.Forall₂ (Value.Alike T W) args args')
    (hcount : args.length = decl.params.length) :
    Lockstep T ⟨true, true⟩ (W.enter m.scopes.next i)
      { m with
        scopes := m.scopes.add (some i) (Bindings.empty.setAll (decl.params.map Token.lexeme) args)
        current := m.scopes.next }
      { n with current := p } (run decl.body)
      (Lexical.pushAll (decl.params.zip args') >>= fun _ => run' decl.body) .any := by
  obtain ⟨name, params, body⟩ := decl
  obtain ⟨hadmits, hbody⟩ := hdecl
  obtain ⟨hA₁, hP₁⟩ := hA.placed hview (Bindings.empty.setAll (params.map Token.lexeme) args)
  have hargs₁ := hargs.imp fun _ _ h => h.grow (W.le_enter m.scopes.next i)
  -- The scope has all parameters from the start, the frames come one after another.
  obtain ⟨W₂, n₂, hpush, hs, hP₂⟩ :=
    Declaring.pushAll hargs₁ hcount hA₁ hP₁ hadmits fun x v hx => by
    rw [Scopes.local?_add, if_pos rfl]
    exact Bindings.get?_setAll_of_mem hadmits.accepts.nodup _ hx
  refine Lockstep.right hs hpush ?_
  obtain ⟨scope, hscope⟩ := Static.extendAll_cons .empty Γ params
  rw [hscope] at hP₂ hbody
  exact hrun hs.agree hP₂ hbody

/-- A call of a function, its parameters declared one after another. -/
theorem Lockstep.invoke {run run' : List Stmt → Exec Unit} (hrun : RunsBodies T run run')
    (hA : Agree T W m n) {f g : Closure} (hfg : f.Alike T W [] g) {args args' : List Value}
    (hargs : List.Forall₂ (Value.Alike T W) args args') (hcount : args.length = f.arity) :
    Lockstep T .quiet W m n (Exec.invoke f args run) (Lexical.invoke g args' run') (.alike T) := by
  obtain ⟨Γ, hview, hdecl, hinit⟩ := hfg.closed
  have hle := W.le_enter m.scopes.next f.scope
  have hA₁ := hA.enter f.scope (Bindings.empty.setAll (f.decl.params.map Token.lexeme) args)
  have hlt := hA.scopes.lt_next hA.active
  unfold Exec.invoke Lexical.invoke
  rw [← hfg.decl, ← hfg.isInitializer]
  refine Lockstep.left (.of_frame_eq hle hA₁ rfl rfl rfl) rfl ?_
  refine Lockstep.bind (Mode.le_refl _) (Lockstep.catchReturn (Lockstep.within hA₁ hlt
    (Lockstep.body hrun hA hview hdecl hargs hcount))) ?_
  intro W' m' n' v w hs hvw
  cases hb : f.isInitializer with
  | false => exact Lockstep.pure hs.agree hvw
  | true =>
    obtain ⟨Δ, hΔ⟩ := hinit hb
    have hview' := hview.mono (World.le_trans hle hs.le)
    rw [List.nil_append] at hΔ
    rw [hΔ] at hview'
    exact Lockstep.this hs.agree hview' f.decl.name

theorem Lockstep.construct {run run' : List Stmt → Exec Unit} (hrun : RunsBodies T run run')
    (hA : Agree T W m n) {c d : Class} (hcd : c.Alike T W d) {args args' : List Value}
    (hargs : List.Forall₂ (Value.Alike T W) args args') (hcount : args.length = c.arity) :
    Lockstep T .quiet W m n (Exec.construct c args run) (Lexical.construct d args' run')
      (.alike T) := by
  unfold Exec.construct Lexical.construct
  refine Lockstep.bind (Mode.le_refl _) (Lockstep.newInstance hA hcd) ?_
  intro W₁ m₁ n₁ i j hs₁ hij
  have hinit := hcd.method? Class.initializerName
  unfold Class.arity at hcount
  unfold Class.initializer? at hcount ⊢
  generalize c.method? Class.initializerName = f at hinit hcount ⊢
  generalize d.method? Class.initializerName = g at hinit ⊢
  cases hinit with
  | none => exact Lockstep.pure hs₁.agree (.inst hij)
  | some hfg =>
    have hfg' := hfg.mono (fun _ _ h => h) hs₁.le
    refine Lockstep.bind (Mode.le_refl _) (Lockstep.bindMethod hs₁.agree hfg' (.inst hij)) ?_
    intro W₂ m₂ n₂ f' g' hs₂ hbound
    obtain ⟨hfg₂, hdecl⟩ := hbound
    have hargs₂ := hargs.imp fun _ _ h => h.grow (World.le_trans hs₁.le hs₂.le)
    have harity : args.length = f'.arity := by
      rw [Closure.arity, hdecl]
      exact hcount
    refine Lockstep.bind (Mode.le_refl _) (Lockstep.invoke hrun hs₂.agree hfg₂ hargs₂ harity) ?_
    intro W₃ m₃ n₃ _ _ hs₃ _
    have hij₃ : (Value.inst i).Alike T W₁ (.inst j) := .inst hij
    exact Lockstep.pure hs₃.agree (hij₃.grow (World.le_trans hs₂.le hs₃.le))

/-! ## Superclasses -/

theorem Exec.superMethod_eq {keyword method : Token} {d : Nat} {c : Class} {this : Value}
    (h : m.distances.find? keyword.site = some (d + 1))
    (hsuper : m.scopes.getAt m.current (d + 1) "super" = .ok (.cls c))
    (hthis : m.scopes.getAt m.current d "this" = .ok this) :
    Exec.superMethod keyword method m = (c.method? method.lexeme).elim
      (Exec.fail method (.undefinedProperty method.lexeme) m)
      fun f => (Value.function <$> Exec.bindMethod f this) m := by
  have hp : Exec.ofFault (m.scopes.getAt m.current (d + 1) "super") m = .ok (.cls c) m := by
    rw [hsuper]
    rfl
  have ht : Exec.ofFault (m.scopes.getAt m.current d "this") m = .ok this m := by
    rw [hthis]
    rfl
  simp only [Exec.superMethod, Exec.get_bind, h, Nat.add_sub_cancel]
  rw [Exec.bind_of_ok hp, Exec.bind_of_ok ht]
  dsimp only
  cases c.method? method.lexeme <;> rfl

theorem Lexical.superMethod_eq {keyword method : Token} {d : Class} {this : Value}
    (hsuper : n.scopes.lookup n.current { keyword with lexeme := "super" } = .ok (.cls d))
    (hthis : n.scopes.lookup n.current { keyword with lexeme := "this" } = .ok this) :
    Lexical.superMethod keyword method n = (d.method? method.lexeme).elim
      (Exec.fail method (.undefinedProperty method.lexeme) n)
      fun f => (Value.function <$> Exec.bindMethod f this) n := by
  have hp : Lexical.lookUp { keyword with lexeme := "super" } n = .ok (.cls d) n := by
    rw [Lexical.lookUp, Exec.get_bind, hsuper]
    rfl
  have ht : Lexical.lookUp { keyword with lexeme := "this" } n = .ok this n := by
    rw [Lexical.lookUp, Exec.get_bind, hthis]
    rfl
  rw [Lexical.superMethod, Exec.bind_of_ok hp, Exec.bind_of_ok ht]
  dsimp only
  cases d.method? method.lexeme <;> rfl

theorem Lockstep.superMethod (hA : Agree T W m n) (hview : View W Γ m.current n.current)
    {keyword method : Token} (hsuper : (Expr.super keyword method).Resolved T Γ) :
    Lockstep T mode W m n (Exec.superMethod keyword method) (Lexical.superMethod keyword method)
      (.alike T) := by
  obtain ⟨d, hsite, ⟨hsuper, hsuperFlag⟩, hthis, hthisFlag⟩ := hsuper
  obtain ⟨v, w, hv, hw, hvw, hcls⟩ := hA.read hview hsuper hsuperFlag
  obtain ⟨v', w', hv', hw', hvw', -⟩ := hA.read hview hthis hthisFlag
  obtain ⟨c, rfl⟩ := hcls rfl
  cases hvw with
  | cls hcd =>
    unfold Lockstep
    rw [Exec.superMethod_eq (hA.table _ _ hsite) hv hv',
      Lexical.superMethod_eq (hw _ rfl) (hw' _ rfl)]
    have hmethod := hcd.method? method.lexeme
    generalize c.method? method.lexeme = f at hmethod ⊢
    generalize Class.method? _ method.lexeme = g at hmethod ⊢
    cases hmethod with
    | some hfg => exact Lockstep.boundMethod hA hfg hvw'
    | none => exact Lockstep.fail hA method _

theorem Lockstep.asSuperclass (hA : Agree T W m n) (name : Token) {v w : Value}
    (hvw : v.Alike T W w) :
    Lockstep T mode W m n (Exec.asSuperclass name v) (Exec.asSuperclass name w)
      fun W' _ _ c d => c.Alike T W' d := by
  cases hvw with
  | cls hcd => exact Lockstep.pure hA hcd
  | _ => exact Lockstep.fail hA name _

/-- The value of the name of a superclass. -/
theorem Lockstep.superclass (hA : Agree T W m n) (hP : Placed W Γ m n) (name : Token)
    {ev ev' : Token → Exec Value} (hev : ∀ {W m n}, Agree T W m n → Placed W Γ m n →
      Lockstep T mode W m n (ev name) (ev' name) (.alike T)) :
    Lockstep T mode W m n (ev name >>= Exec.asSuperclass name) (ev' name >>= Exec.asSuperclass name)
      fun W' _ _ c d => c.Alike T W' d :=
  Lockstep.bind mode.le_refl (hev hA hP) fun hs hvw => Lockstep.asSuperclass hs.agree name hvw

theorem Exec.declareClass_none (name : Token) (methods : List FunDecl) (ev : Token → Exec Value) :
    Exec.declareClass name none methods ev = (do
      Exec.define name.lexeme .nil
      let m ← get
      let c ← Exec.newClass name.lexeme none methods m.current
      Exec.define name.lexeme (.cls c)) := rfl

theorem Exec.declareClass_some (name parent : Token) (methods : List FunDecl)
    (ev : Token → Exec Value) :
    Exec.declareClass name (some parent) methods ev = (do
      Exec.define name.lexeme .nil
      let c ← ev parent >>= Exec.asSuperclass parent
      let m ← get
      let scope ← Exec.newScope m.current (Bindings.empty.set "super" (.cls c))
      let d ← Exec.newClass name.lexeme (some c) methods scope
      Exec.define name.lexeme (.cls d)) := by
  unfold Exec.declareClass
  simp only [map_eq_pure_bind, bind_assoc, pure_bind]

/-- The declaration of a class after its name is declared. -/
theorem Lockstep.declareClass {name : Token} (hA : Agree T W m n) (hD : Declaring W name Γ m n)
    (hname : name.lexeme ≠ "super") {superclass : Option Token} {methods : List FunDecl}
    (hmethods : Stmt.MethodsResolved T ((Γ.extend name).forMethods superclass) methods)
    {ev ev' : Token → Exec Value}
    (hev : ∀ t ∈ superclass, ∀ {W m n}, Agree T W m n → Placed W (Γ.extend name) m n →
      Lockstep T .quiet W m n (ev t) (ev' t) (.alike T)) :
    Lockstep T .quiet W m n (Exec.declareClass name superclass methods ev)
      (Exec.declareClass name superclass methods ev')
      fun W' m' n' _ _ => Placed W' (Γ.extend name) m' n' := by
  cases superclass with
  | none =>
    rw [Exec.declareClass_none, Exec.declareClass_none]
    refine Lockstep.bind (Mode.le_refl _) (Lockstep.define hA hD hname fun _ _ _ => .nil) ?_
    intro W₁ m₁ n₁ _ _ hs₁ h₁
    obtain ⟨hD₁, hP₁⟩ := h₁
    refine Lockstep.withState ?_
    refine Lockstep.bind (Mode.le_refl _) (Lockstep.newClass hs₁.agree _ hP₁.view .none hmethods) ?_
    intro W₂ m₂ n₂ c d hs₂ hcd
    exact (Lockstep.define hs₂.agree (hD₁.step hs₂) hname fun _ hle _ =>
      .grow hle (.cls hcd)).weaken (Mode.le_refl _) fun _ h => h.2
  | some t =>
    rw [Exec.declareClass_some, Exec.declareClass_some]
    refine Lockstep.bind (Mode.le_refl _) (Lockstep.define hA hD hname fun _ _ _ => .nil) ?_
    intro W₁ m₁ n₁ _ _ hs₁ h₁
    obtain ⟨hD₁, hP₁⟩ := h₁
    refine Lockstep.bind (Mode.le_refl _) (Lockstep.superclass hs₁.agree hP₁ t (hev t rfl)) ?_
    intro W₂ m₂ n₂ c d hs₂ hcd
    refine Lockstep.withState ?_
    have hP₂ := hP₁.step hs₂
    have hsuper : (Value.cls c).AlikeAs T W₂ "super" (.cls d) := ⟨.cls hcd, fun _ => ⟨c, rfl⟩⟩
    refine Lockstep.bind (Mode.le_refl _) (Lockstep.newScope hs₂.agree hP₂.view hsuper) ?_
    intro W₃ m₃ n₃ j q hs₃ hview
    have hcd₃ := hcd.mono (fun _ _ h => h) hs₃.le
    refine Lockstep.bind (Mode.le_refl _)
      (Lockstep.newClass hs₃.agree _ hview (.some hcd₃) hmethods) ?_
    intro W₄ m₄ n₄ c d hs₄ hcd
    have hD₄ := ((hD₁.step hs₂).step hs₃).step hs₄
    exact (Lockstep.define hs₄.agree hD₄ hname fun _ hle _ => .grow hle (.cls hcd)).weaken
      (Mode.le_refl _) fun _ h => h.2

end

end Lox
