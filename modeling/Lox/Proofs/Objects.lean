import Lox.Proofs.Variables

/-!
# Objects and operators in lockstep

Making and binding functions, classes and instances, their properties, and what calls and operators
check. These steps are the same on both machines but for the scopes that methods are bound in.
-/

namespace Lox

section

variable {T : SiteTable} {mode : Mode} {W : World} {m n : Machine} {Γ : Static}

/-! ## Functions and methods -/

theorem Agree.newId (hA : Agree T W m n) :
    Agree T W { m with nextId := m.nextId + 1 } { n with nextId := n.nextId + 1 } :=
  { hA with nextId := congrArg (· + 1) hA.nextId }

/-- The closures differ in the place alone. -/
theorem Lockstep.newClosure (hA : Agree T W m n) (decl : FunDecl) (i p : ScopeId)
    (isInitializer : Bool) :
    Lockstep T mode W m n (Exec.newClosure decl i isInitializer)
      (Exec.newClosure decl p isInitializer)
      fun W' _ _ f g => W' = W ∧
        ∃ id, f = ⟨id, decl, i, isInitializer⟩ ∧ g = ⟨id, decl, p, isInitializer⟩ := by
  refine .ok (.of_frame_eq W.le_refl hA.newId rfl rfl rfl) ⟨rfl, m.nextId, rfl, ?_⟩
  rw [hA.nextId]

/-- A scope with `this` or `super` alone is a frame. -/
theorem Lockstep.newScope (hA : Agree T W m n) {i p : ScopeId} (hview : View W Γ i p) {x : String}
    {v w : Value} (hvw : v.AlikeAs T W x w) : Lockstep T mode W m n
      (Exec.newScope i (Bindings.empty.set x v)) (Exec.newScope p (Bindings.empty.set x w))
      fun W' _ _ j q => View W' (Static.single x :: Γ) j q := by
  obtain ⟨W', hle, hfresh, hview', hA'⟩ := hA.single hview hvw
  refine .ok ⟨hle, hA', rfl, fun _ => rfl, fun q f hf => ?_⟩ hview'
  rcases hfresh q f hf with hf | howner
  · exact .inl hf
  · rw [howner]
    exact .inr (.inl (hA.scopes.lt_next hA.active))

theorem Lockstep.bindMethod (hA : Agree T W m n) {f g : Closure} (hfg : f.MethodAlike T W g)
    {v w : Value} (hvw : v.Alike T W w) :
    Lockstep T mode W m n (Exec.bindMethod f v) (Exec.bindMethod g w)
      fun W' _ _ f' g' => f'.Alike T W' [] g' ∧ f'.decl = f.decl := by
  obtain ⟨Γ, hview, hdecl, -⟩ := hfg.closed
  have hthis : v.AlikeAs T W "this" w := ⟨hvw, fun h => absurd h (by decide)⟩
  unfold Exec.bindMethod
  rw [← hfg.decl, ← hfg.isInitializer]
  refine Lockstep.bind mode.le_refl (Lockstep.newScope hA hview hthis) ?_
  intro W₁ m₁ n₁ i p hs₁ hview₁
  refine (Lockstep.newClosure hs₁.agree f.decl i p f.isInitializer).weaken mode.le_refl
    fun _ h => ?_
  obtain ⟨rfl, id, rfl, rfl⟩ := h
  exact ⟨⟨rfl, rfl, rfl, _, hview₁, hdecl, fun _ => ⟨Γ, rfl⟩⟩, rfl⟩

/-- A bound method as a value. -/
theorem Lockstep.boundMethod (hA : Agree T W m n) {f g : Closure} (hfg : f.MethodAlike T W g)
    {v w : Value} (hvw : v.Alike T W w) :
    Lockstep T mode W m n (Value.function <$> Exec.bindMethod f v)
      (Value.function <$> Exec.bindMethod g w) (.alike T) :=
  (Lockstep.bindMethod hA hfg hvw).map fun h => .function h.1

/-! ## Instances -/

theorem getD_push {α : Type} (a : Array α) (x : α) (k : Nat) :
    (a.push x).getD k x = a.getD k x := by
  rw [Array.getD_eq_getD_getElem?, Array.getD_eq_getD_getElem?, Array.getElem?_push]
  by_cases hk : k = a.size
  · simp [hk]
  · rw [if_neg hk]

theorem getD_modify {α : Type} (a : Array α) (i k : Nat) (f : α → α) (x : α) :
    (a.modify i f).getD k x = if i = k ∧ k < a.size then f (a.getD k x) else a.getD k x := by
  rw [Array.getD_eq_getD_getElem?, Array.getD_eq_getD_getElem?, Array.getElem?_modify]
  by_cases hk : k < a.size
  · by_cases hi : i = k <;> simp [hi, hk]
  · simp [hk]

theorem Lockstep.newInstance (hA : Agree T W m n) {c d : Class} (hcd : c.Alike T W d) :
    Lockstep T mode W m n (Exec.newInstance c) (Exec.newInstance d) fun W' _ _ i j =>
      i.Alike T W' j := by
  have hA' : Agree T W { m with fields := m.fields.push .empty }
      { n with fields := n.fields.push .empty } := by
    refine { hA with fieldCount := ?_, fields := fun k x => ?_ }
    · rw [Array.size_push, Array.size_push, hA.fieldCount]
    · rw [getD_push, getD_push]
      exact hA.fields k x
  exact .ok (.of_frame_eq W.le_refl hA' rfl rfl rfl) ⟨hA.fieldCount, hcd⟩

theorem Lockstep.setField (hA : Agree T W m n) {i j : Instance} (hij : i.Alike T W j) (x : String)
    {v w : Value} (hvw : v.Alike T W w) :
    Lockstep T mode W m n (Exec.setField i x v) (Exec.setField j x w) .any := by
  have hA' : Agree T W { m with fields := m.fields.modify i.id (·.set x v) }
      { n with fields := n.fields.modify j.id (·.set x w) } := by
    refine { hA with fieldCount := ?_, fields := fun k y => ?_ }
    · rw [Array.size_modify, Array.size_modify, hA.fieldCount]
    · rw [getD_modify, getD_modify, hij.id, hA.fieldCount]
      split
      · rw [Bindings.get?_set, Bindings.get?_set]
        split
        · exact .some hvw
        · exact hA.fields k y
      · exact hA.fields k y
  exact .ok (.of_frame_eq W.le_refl hA' rfl rfl rfl) trivial

theorem Exec.getProperty_eq (i : Instance) (name : Token) :
    Exec.getProperty i name m = ((m.fields.getD i.id .empty).get? name.lexeme).elim
      ((i.cls.method? name.lexeme).elim (Exec.fail name (.undefinedProperty name.lexeme) m)
        fun f => (Value.function <$> Exec.bindMethod f (.inst i)) m)
      fun v => .ok v m := by
  simp only [Exec.getProperty, Exec.get_bind, Machine.fieldsOf]
  cases (m.fields.getD i.id .empty).get? name.lexeme with
  | some v => rfl
  | none => cases i.cls.method? name.lexeme <;> rfl

theorem Lockstep.getProperty (hA : Agree T W m n) {i j : Instance} (hij : i.Alike T W j)
    (name : Token) :
    Lockstep T mode W m n (Exec.getProperty i name) (Exec.getProperty j name) (.alike T) := by
  have hfield := hA.fields i.id name.lexeme
  have hmethod := hij.cls.method? name.lexeme
  unfold Lockstep
  rw [Exec.getProperty_eq, Exec.getProperty_eq, ← hij.id]
  generalize (m.fields.getD i.id .empty).get? name.lexeme = o at hfield ⊢
  generalize (n.fields.getD i.id .empty).get? name.lexeme = o' at hfield ⊢
  cases hfield with
  | some hvw => exact .ok (.refl hA) hvw
  | none =>
    generalize i.cls.method? name.lexeme = f at hmethod ⊢
    generalize j.cls.method? name.lexeme = g at hmethod ⊢
    cases hmethod with
    | some hfg => exact Lockstep.boundMethod hA hfg (.inst hij)
    | none => exact Lockstep.fail hA name _

/-! ## Classes -/

/-- The same methods, but for the places that they are closed over. -/
def MethodsAlike (T : SiteTable) (W : World) (b b' : Bindings Closure) : Prop :=
  ∀ x, Option.Rel (Closure.MethodAlike T W) (b.get? x) (b'.get? x)

theorem MethodsAlike.set {b b' : Bindings Closure} (h : MethodsAlike T W b b') (x : String)
    {f g : Closure} (hfg : f.MethodAlike T W g) : MethodsAlike T W (b.set x f) (b'.set x g) := by
  intro y
  rw [Bindings.get?_set, Bindings.get?_set]
  split
  · exact .some hfg
  · exact h y

/-- The methods of a class are made one after another. -/
theorem Lockstep.newMethods {i p : ScopeId} (hview : View W Γ i p) {methods : List FunDecl}
    (hmethods : Stmt.MethodsResolved T (Static.single "this" :: Γ) methods) {m n : Machine}
    (hA : Agree T W m n) {b b' : Bindings Closure} (hb : MethodsAlike T W b b') :
    Lockstep T mode W m n
      (methods.foldlM (fun (b : Bindings Closure) decl => do
        let f ← Exec.newClosure decl i (decl.name.lexeme == Class.initializerName)
        Pure.pure (b.set decl.name.lexeme f)) b)
      (methods.foldlM (fun (b : Bindings Closure) decl => do
        let f ← Exec.newClosure decl p (decl.name.lexeme == Class.initializerName)
        Pure.pure (b.set decl.name.lexeme f)) b')
      fun W' _ _ c c' => W' = W ∧ MethodsAlike T W c c' := by
  induction methods generalizing m n b b' with
  | nil => exact Lockstep.pure hA ⟨rfl, hb⟩
  | cons decl methods ih =>
    rw [List.foldlM_cons, List.foldlM_cons, bind_assoc, bind_assoc]
    refine Lockstep.bind mode.le_refl (Lockstep.newClosure hA decl i p _) ?_
    intro W' m' n' f g hs h
    obtain ⟨rfl, id, rfl, rfl⟩ := h
    rw [pure_bind, pure_bind]
    exact ih hmethods.2 hs.agree (hb.set _ ⟨rfl, rfl, rfl, Γ, hview, hmethods.1, fun _ => ⟨Γ, rfl⟩⟩)

theorem Lockstep.newClass (hA : Agree T W m n) (name : String) {i p : ScopeId}
    (hview : View W Γ i p) {superclass superclass' : Option Class}
    (hsuper : Option.Rel (Class.Alike T W) superclass superclass') {methods : List FunDecl}
    (hmethods : Stmt.MethodsResolved T (Static.single "this" :: Γ) methods) :
    Lockstep T mode W m n (Exec.newClass name superclass methods i)
      (Exec.newClass name superclass' methods p)
      fun W' _ _ c d => c.Alike T W' d := by
  refine Lockstep.bind mode.le_refl (Lockstep.newMethods hview hmethods hA fun _ => .none) ?_
  intro W' m' n' b b' hs h
  obtain ⟨rfl, hb⟩ := h
  refine .ok (.of_frame_eq W'.le_refl hs.agree.newId rfl rfl rfl) ⟨⟨hs.agree.nextId, rfl, hb⟩, ?_⟩
  cases hsuper with
  | none => exact .nil
  | some hcd => exact .cons hcd.own hcd.inherited

/-! ## Calls -/

def Value.arity? : Value → Option Nat
  | .function f => some f.arity
  | .cls c => some c.arity
  | .native n => some n.arity
  | _ => none

theorem Lockstep.checkCount (hA : Agree T W m n) (paren : Token) (arity count : Nat) :
    Lockstep T mode W m n
      (if count ≠ arity then Exec.fail paren (.wrongCount arity count) else Pure.pure ())
      (if count ≠ arity then Exec.fail paren (.wrongCount arity count) else Pure.pure ())
      fun _ _ _ _ _ => count = arity := by
  by_cases h : count = arity
  · rw [if_neg (not_not_intro h)]
    exact Lockstep.pure hA h
  · rw [if_pos h]
    exact Lockstep.fail hA paren _

/-- What passes the check can be called with that number of arguments. -/
theorem Lockstep.checkCall (hA : Agree T W m n) (paren : Token) {v w : Value} (hvw : v.Alike T W w)
    (count : Nat) :
    Lockstep T mode W m n (Exec.checkCall paren v count) (Exec.checkCall paren w count)
      fun _ _ _ _ _ => v.arity? = some count := by
  have hfits : ∀ arity, count = arity → some arity = some count := fun _ h => congrArg some h.symm
  cases hvw with
  | @function f g h =>
    have harity : g.arity = f.arity := by rw [Closure.arity, Closure.arity, h.decl]
    unfold Exec.checkCall
    simp only [pure_bind, harity]
    exact (Lockstep.checkCount hA paren f.arity count).weaken mode.le_refl fun _ => hfits f.arity
  | @cls c d h =>
    unfold Exec.checkCall
    simp only [pure_bind, ← h.arity_eq]
    exact (Lockstep.checkCount hA paren c.arity count).weaken mode.le_refl fun _ => hfits c.arity
  | @native k hclock _ =>
    unfold Exec.checkCall
    have hne : ¬ Behaviour.clock = .unimplemented := by decide
    simp only [hclock, if_neg hne, pure_bind]
    exact (Lockstep.checkCount hA paren k.arity count).weaken mode.le_refl fun _ => hfits k.arity
  | _ => exact Lockstep.fail hA paren _

/-- Both machines take the same reading, and the clocks go on together. -/
theorem Lockstep.callClock (hA : Agree T W m n) {k : Native} (hk : k.behaviour = .clock) :
    Lockstep T mode W m n (Exec.callNative k []) (Exec.callNative k []) (.alike T) := by
  have hA' : Agree T W { m with clock := m.clock.tick } { n with clock := n.clock.tick } :=
    { hA with clock := congrArg Clock.tick hA.clock }
  unfold Lockstep Exec.callNative
  rw [hk]
  refine .ok (.of_frame_eq W.le_refl hA' rfl rfl rfl) ?_
  rw [hA.clock]
  exact .number _

theorem Lockstep.print (hA : Agree T W m n) (line : String) :
    Lockstep T mode W m n (Exec.print line) (Exec.print line) .any := by
  have hA' : Agree T W { m with printed := m.printed.push line }
      { n with printed := n.printed.push line } :=
    { hA with printed := congrArg (·.push line) hA.printed }
  exact .ok (.of_frame_eq W.le_refl hA' rfl rfl rfl) trivial

/-! ## Operators -/

theorem Lockstep.unary (hA : Agree T W m n) {op : Token} (hop : op.kind.isPrefixOperator)
    {v w : Value} (hvw : v.Alike T W w) :
    Lockstep T mode W m n (Exec.ofResult (Operator.unary op v))
      (Exec.ofResult (Operator.unary op w)) (.alike T) := by
  have hkind : op.kind = .bang ∨ op.kind = .minus := by
    revert hop
    cases op.kind <;> simp [Kind.isPrefixOperator]
  unfold Operator.unary
  rcases hkind with hk | hk <;> rw [hk]
  · simp only [hvw.truthy_eq]
    exact Lockstep.pure hA (.bool _)
  · cases hvw with
    | number => exact Lockstep.pure hA (.number _)
    | _ => exact Lockstep.throw hA (.failed _)

def Operator.onNumbers (op : Token) : Value → Value → Except Exit Value
  | .number x, .number y =>
    (arithmetic? op.kind x y).elim (.error (.fault (.unsupportedBinary op.kind))) .ok
  | _, _ => fail op .operandsNumbers

theorem Operator.binary_eq_onNumbers {op : Token} (h₁ : op.kind ≠ .plus)
    (h₂ : op.kind ≠ .equalEqual) (h₃ : op.kind ≠ .bangEqual) (v w : Value) :
    binary op v w = onNumbers op v w := by
  unfold binary
  split
  iterate 3 contradiction
  split
  · rw [onNumbers]
    cases arithmetic? op.kind _ _ <;> rfl
  · rename_i hnumbers
    exact (onNumbers.eq_2 op v w hnumbers).symm

theorem Operator.arithmetic?_alike {k : Kind} (hk : k.isBinaryOperator) (h₁ : k ≠ .plus)
    (h₂ : k ≠ .equalEqual) (h₃ : k ≠ .bangEqual) (x y : Float) :
    ∃ r, arithmetic? k x y = some r ∧ r.Alike T W r := by
  unfold arithmetic?
  split
  iterate 3 exact ⟨_, rfl, .number _⟩
  iterate 4 exact ⟨_, rfl, .bool _⟩
  · revert hk
    cases k <;> simp_all [Kind.isBinaryOperator]

theorem Lockstep.onNumbers (hA : Agree T W m n) {op : Token}
    (hop : ∀ x y, ∃ r, Operator.arithmetic? op.kind x y = some r ∧ r.Alike T W r)
    {v w v' w' : Value}
    (hvw : v.Alike T W w) (hvw' : v'.Alike T W w') :
    Lockstep T mode W m n (Exec.ofResult (Operator.onNumbers op v v'))
      (Exec.ofResult (Operator.onNumbers op w w')) (.alike T) := by
  cases hvw with
  | number x => cases hvw' with
    | number y =>
      obtain ⟨r, hr, hrr⟩ := hop x y
      rw [Operator.onNumbers, hr]
      exact Lockstep.pure hA hrr
    | _ => exact Lockstep.throw hA (.failed _)
  | _ => exact Lockstep.throw hA (.failed _)

theorem Lockstep.add (hA : Agree T W m n) (op : Token) {v w v' w' : Value} (hvw : v.Alike T W w)
    (hvw' : v'.Alike T W w') : Lockstep T mode W m n (Exec.ofResult (Operator.add op v v'))
      (Exec.ofResult (Operator.add op w w')) (.alike T) := by
  cases hvw with
  | number => cases hvw' with
    | number => exact Lockstep.pure hA (.number _)
    | _ => exact Lockstep.throw hA (.failed _)
  | text => cases hvw' with
    | text => exact Lockstep.pure hA (.text _)
    | _ => exact Lockstep.throw hA (.failed _)
  | _ => exact Lockstep.throw hA (.failed _)

theorem Lockstep.binary (hA : Agree T W m n) {op : Token} (hop : op.kind.isBinaryOperator)
    {v w v' w' : Value} (hvw : v.Alike T W w) (hvw' : v'.Alike T W w') :
    Lockstep T mode W m n (Exec.ofResult (Operator.binary op v v'))
      (Exec.ofResult (Operator.binary op w w')) (.alike T) := by
  by_cases h₁ : op.kind = .plus
  · unfold Operator.binary
    rw [h₁]
    exact Lockstep.add hA op hvw hvw'
  by_cases h₂ : op.kind = .equalEqual
  · unfold Operator.binary
    rw [h₂]
    simp only [hvw.equal_eq hvw']
    exact Lockstep.pure hA (.bool _)
  by_cases h₃ : op.kind = .bangEqual
  · unfold Operator.binary
    rw [h₃]
    simp only [hvw.equal_eq hvw']
    exact Lockstep.pure hA (.bool _)
  rw [Operator.binary_eq_onNumbers h₁ h₂ h₃, Operator.binary_eq_onNumbers h₁ h₂ h₃]
  exact Lockstep.onNumbers hA (Operator.arithmetic?_alike hop h₁ h₂ h₃) hvw hvw'

end

end Lox
