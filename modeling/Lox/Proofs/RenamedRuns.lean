import Lox.Proofs.Renamings
import Lox.Proofs.Simulation

/-!
# Runs of renamed programs

A program and its renaming do the same, step by step. `Exec.Renamed ρ W i A x y` says it of two
computations that start in the scope `i` on machines related by the styles `W`: both end with
results related by `A`, or both early in the same way. The machines are related again, by styles
that have only become more, and the scope is active again. Every step of the machine has this
property, composition keeps it, and so evaluation has it to any depth (`RenamedEval.of_depth`).
-/

namespace Lox

namespace Exec

variable {ι : Type}

/-- Both computations ended in the same way, on machines that are related. -/
inductive RenamedResult {α β : Type} (ρ : Renaming ι) (W : Styles ι) (i : ScopeId)
    (A : Styles ι → α → β → Prop) :
    EStateM.Result Exit Machine α → EStateM.Result Exit Machine β → Prop where
  | ok {W' : Styles ι} {a : α} {b : β} {m n : Machine} : W <+: W' → m.Renamed ρ W' n →
      m.current = i → A W' a b → RenamedResult ρ W i A (.ok a m) (.ok b n)
  | error {W' : Styles ι} {e e' : Exit} {m n : Machine} : W <+: W' → m.Renamed ρ W' n →
      m.current = i → e.Renamed ρ W' e' → RenamedResult ρ W i A (.error e m) (.error e' n)

/-- On related machines in the scope `i` both computations do the same. -/
def Renamed {α β : Type} (ρ : Renaming ι) (W : Styles ι) (i : ScopeId) (A : Styles ι → α → β → Prop)
    (x : Exec α) (y : Exec β) : Prop :=
  ∀ m n : Machine, m.Renamed ρ W n → m.current = i → RenamedResult ρ W i A (x m) (y n)

abbrev Same {α : Type} : Styles ι → α → α → Prop := fun _ a b => a = b

namespace Renamed

variable {ρ : Renaming ι} {W : Styles ι} {i : ScopeId} {α β γ δ : Type}
variable {A : Styles ι → α → β → Prop} {B : Styles ι → γ → δ → Prop} {x : Exec α} {y : Exec β}

/-! ## Composed computations -/

theorem pure {a : α} {b : β} (h : A W a b) : Renamed ρ W i A (Pure.pure a) (Pure.pure b) :=
  fun _ _ hm hi => .ok (List.prefix_refl W) hm hi h

theorem throw {e e' : Exit} (h : e.Renamed ρ W e') :
    Renamed ρ W i A (MonadExcept.throw e : Exec α) (MonadExcept.throw e' : Exec β) :=
  fun _ _ hm hi => .error (List.prefix_refl W) hm hi h

theorem fault (f : Fault) : Renamed ρ W i A (Exec.fault f) (Exec.fault f) :=
  throw (.fault (.same f))

theorem fail {t t' : Token} (h : ρ.pairs t t') (c : Cause) :
    Renamed ρ W i A (Exec.fail t c) (Exec.fail t' c) :=
  throw (.failed ⟨h, rfl⟩)

theorem bind {f : α → Exec γ} {g : β → Exec δ} (hx : Renamed ρ W i A x y)
    (hf : ∀ W', W <+: W' → ∀ a b, A W' a b → Renamed ρ W' i B (f a) (g b)) :
    Renamed ρ W i B (x >>= f) (y >>= g) := by
  intro m n hm hi
  have hfirst := hx m n hm hi
  show RenamedResult ρ W i B (EStateM.bind x f m) (EStateM.bind y g n)
  unfold EStateM.bind
  generalize x m = r at hfirst ⊢
  generalize y n = r' at hfirst ⊢
  cases hfirst with
  | ok hW hm hi hab =>
    have hsecond := hf _ hW _ _ hab _ _ hm hi
    dsimp only
    generalize f _ _ = r at hsecond ⊢
    generalize g _ _ = r' at hsecond ⊢
    cases hsecond with
    | ok hW' hm hi hcd => exact .ok (hW.trans hW') hm hi hcd
    | error hW' hm hi he => exact .error (hW.trans hW') hm hi he
  | error hW hm hi he => exact .error hW hm hi he

/-- Both computations look at the machines first. -/
theorem withState {f : Machine → Exec γ} {g : Machine → Exec δ}
    (h : ∀ m n, m.Renamed ρ W n → m.current = i → Renamed ρ W i B (f m) (g n)) :
    Renamed ρ W i B (MonadState.get >>= f) (MonadState.get >>= g) :=
  fun m n hm hi => h m n hm hi m n hm hi

theorem map {f : α → γ} {g : β → δ} (hx : Renamed ρ W i A x y)
    (hf : ∀ W' a b, A W' a b → B W' (f a) (g b)) :
    Renamed ρ W i B (f <$> x) (g <$> y) := by
  rw [map_eq_pure_bind, map_eq_pure_bind]
  exact hx.bind fun W' _ a b hab => pure (hf W' a b hab)

theorem ofResult {r : Except Exit α} {r' : Except Exit β}
    (h : ExceptRel (Exit.Renamed ρ W) (A W) r r') :
    Renamed ρ W i A (Exec.ofResult r) (Exec.ofResult r') := by
  cases h with
  | ok h => exact pure h
  | error h => exact throw h

theorem ofFault {r : Except Fault α} {r' : Except Fault β}
    (h : ExceptRel (Fault.Renamed ρ) (A W) r r') :
    Renamed ρ W i A (Exec.ofFault r) (Exec.ofFault r') := by
  cases h with
  | ok h => exact pure h
  | error h => exact throw (.fault h)

theorem ofFailure {r : Except RuntimeError α} {r' : Except RuntimeError β}
    (h : ExceptRel (RuntimeError.Twin ρ.pairs) (A W) r r') :
    Renamed ρ W i A (Exec.ofFailure r) (Exec.ofFailure r') := by
  cases h with
  | ok h => exact pure h
  | error h => exact throw (.failed h)

/-- A change of the machine that makes no scope. -/
theorem change {f g : Machine → Machine}
    (h : ∀ m n, m.Renamed ρ W n → m.current = i → (f m).Renamed ρ W (g n) ∧ (f m).current = i) :
    Renamed ρ W i Same (modify f : Exec Unit) (modify g : Exec Unit) := by
  intro m n hm hi
  obtain ⟨hm', hi'⟩ := h m n hm hi
  exact .ok (List.prefix_refl W) hm' hi' rfl

theorem within {j : ScopeId} (hx : Renamed ρ W j A x y) :
    Renamed ρ W i A (Exec.within j x) (Exec.within j y) := by
  intro m n hm hi
  have hinner :=
    hx _ _ (show Machine.Renamed ρ W { m with current := j } { n with current := j } from
      { hm with current := rfl }) rfl
  unfold Exec.within
  dsimp only
  generalize x { m with current := j } = r at hinner ⊢
  generalize y { n with current := j } = r' at hinner ⊢
  cases hinner with
  | ok hW hm' _ h => exact .ok hW { hm' with current := hm.current } hi h
  | error hW hm' _ h => exact .error hW { hm' with current := hm.current } hi h

theorem catchReturn {x y : Exec Unit} (hx : Renamed ρ W i Same x y) :
    Renamed ρ W i (Value.Renamed ρ) (Exec.catchReturn x) (Exec.catchReturn y) := by
  intro m n hm hi
  have hbody := hx m n hm hi
  unfold Exec.catchReturn
  generalize x m = r at hbody ⊢
  generalize y n = r' at hbody ⊢
  cases hbody with
  | ok hW hm hi _ => exact .ok hW hm hi .nil
  | error hW hm hi he =>
    cases he with
    | returned hv => exact .ok hW hm hi hv
    | failed h => exact .error hW hm hi (.failed h)
    | fault h => exact .error hW hm hi (.fault h)
    | overflow => exact .error hW hm hi .overflow
    | unfinished => exact .error hW hm hi .unfinished

theorem loop {test test' : Exec Bool} {body body' : Exec Unit}
    (htest : ∀ W', W <+: W' → Renamed ρ W' i Same test test')
    (hbody : ∀ W', W <+: W' → Renamed ρ W' i Same body body') (bound : Nat) :
    Renamed ρ W i Same (Exec.loop bound test body) (Exec.loop bound test' body') := by
  induction bound generalizing W with
  | zero => exact throw .unfinished
  | succ bound ih =>
    refine (htest W (List.prefix_refl W)).bind fun W₁ hW₁ again _ hagain => ?_
    subst hagain
    cases again with
    | false => exact pure rfl
    | true =>
      refine (hbody W₁ hW₁).bind fun W₂ hW₂ _ _ _ => ?_
      exact ih (fun W' hW' => htest W' ((hW₁.trans hW₂).trans hW'))
        fun W' hW' => hbody W' ((hW₁.trans hW₂).trans hW')

/-! ## Steps of the machine -/

/-- A new scope of the style `k` inside the scope `p`. -/
theorem newScope (p : ScopeId) (k : ι) {b b' : Bindings Value}
    (hb : ∀ x, Option.Rel (Value.Renamed ρ W) (b.get? x) (b'.get? (ρ.spell k x))) :
    Renamed ρ W i (fun W' j j' => j = j' ∧ ∀ Δ, ρ.Along W Δ p → ρ.Along W' (k :: Δ) j)
      (Exec.newScope p b) (Exec.newScope p b') := by
  intro m n hm hi
  refine .ok (List.prefix_append W [(some p, k)]) (hm.add (some p) k hb) hi ⟨?_, fun Δ halong => ?_⟩
  · exact hm.scopes.next.trans hm.scopes.next'.symm
  · rw [hm.scopes.next]
    exact halong.enter k

/-- A plain scope that holds an implicit name. -/
theorem newImplicit (p : ScopeId) (x : String) {v w : Value} (hv : v.Renamed ρ W w) :
    Renamed ρ W i (fun W' j j' => j = j' ∧ ∀ Δ, ρ.Along W Δ p → ρ.Along W' (ρ.plain :: Δ) j)
      (Exec.newScope p (Bindings.empty.set x v)) (Exec.newScope p (Bindings.empty.set x w)) := by
  refine newScope p ρ.plain fun y => ?_
  rw [ρ.spell_plain, Bindings.get?_set, Bindings.get?_set]
  split
  · exact .some hv
  · exact .none

theorem define {Δ : List ι} (halong : ρ.Along W Δ i) {t t' : Token}
    (ht : ρ.Spells (Δ.headD ρ.plain) t t') {v w : Value} (hv : v.Renamed ρ W w) :
    Renamed ρ W i Same (Exec.define t.lexeme v) (Exec.define t'.lexeme w) := by
  refine change fun m n hm hi => ⟨hm.define hm.current (fun e he => ?_) hv, hi⟩
  rw [hi] at he
  have hstyle := hm.scopes.style halong (d := 0) rfl he
  rw [ht.lexeme, hstyle]
  cases Δ <;> rfl

theorem setField {a b : Instance} (hab : a.Renamed ρ W b) (x : String) {v w : Value}
    (hv : v.Renamed ρ W w) :
    Renamed ρ W i Same (Exec.setField a x v) (Exec.setField b x w) := by
  refine change fun m n hm hi => ⟨?_, hi⟩
  rw [← hab.id]
  exact hm.setField a.id x hv

theorem newId : Renamed ρ W i Same Exec.newId Exec.newId :=
  fun _ _ hm hi =>
    .ok (List.prefix_refl W) { hm with nextId := congrArg (· + 1) hm.nextId } hi hm.nextId

theorem newInstance {c d : Class} (h : c.Renamed ρ W d) :
    Renamed ρ W i (Instance.Renamed ρ) (Exec.newInstance c) (Exec.newInstance d) :=
  fun _ _ hm hi => .ok (List.prefix_refl W) hm.newInstance hi ⟨hm.fieldCount, h⟩

theorem print (line : String) : Renamed ρ W i Same (Exec.print line) (Exec.print line) :=
  change fun _ _ hm hi => ⟨{ hm with printed := congrArg (·.push line) hm.printed }, hi⟩

theorem lookUp {Δ : List ι} (halong : ρ.Along W Δ i) {t t' : Token} (h : ρ.Refers Δ t t') :
    Renamed ρ W i (Value.Renamed ρ) (Exec.lookUp t) (Exec.lookUp t') := by
  refine withState fun m n hm hi => ?_
  rw [hm.table, hm.table' h.paired, ← hm.current, ← hm.globals, hi]
  have hlexeme := h.lexeme
  cases hd : ρ.table t.site with
  | some d =>
    rw [hd] at hlexeme
    rw [hlexeme]
    exact ofFault (hm.scopes.getAt halong d t.lexeme)
  | none =>
    rw [hd] at hlexeme
    exact ofFailure (hm.scopes.lookup hm.outermost ⟨h.paired, hlexeme.symm⟩)

theorem assign {Δ : List ι} (halong : ρ.Along W Δ i) {t t' : Token} (h : ρ.Refers Δ t t')
    {v w : Value} (hv : v.Renamed ρ W w) :
    Renamed ρ W i Same (Exec.assign t v) (Exec.assign t' w) := by
  refine withState fun m n hm hi => ?_
  rw [hm.table, hm.table' h.paired, ← hm.current, ← hm.globals, hi]
  have hlexeme := h.lexeme
  cases hd : ρ.table t.site with
  | some d =>
    rw [hd] at hlexeme
    dsimp only
    unfold Scopes.ancestor
    rw [← hm.scopes.ancestor?_eq]
    cases hj : m.scopes.ancestor? i d with
    | none => exact throw (.fault (.same _))
    | some j =>
      refine change fun m' n' hm' hi' => ⟨hm'.define rfl (fun e he => ?_) hv, hi'⟩
      rw [hlexeme, hm.scopes.style halong hj he]
      rfl
  | none =>
    rw [hd] at hlexeme
    have hkeeps : t'.lexeme = t.lexeme := hlexeme
    dsimp only
    rw [Scopes.binder, Scopes.binder, hkeeps, ← hm.scopes.binder?_eq hm.outermost]
    cases hj : m.scopes.binder? m.globals t.lexeme with
    | some j =>
      obtain ⟨d, hd⟩ :=
        Scopes.exists_ancestor?_of_mem_outward (Scopes.Renamed.mem_path_of_binder? hj)
      refine change fun m' n' hm' hi' => ⟨hm'.define rfl (fun e he => ?_) hv, hi'⟩
      rw [hm.scopes.style hm.outermost hd he, List.getD_nil, ρ.spell_plain]
    | none => exact throw (.failed ⟨h.paired, by rw [Scopes.undefined, Scopes.undefined, hkeeps]⟩)

theorem newClosure {E Δ : List ι} {scope : ScopeId} (halong : ρ.Along W Δ scope) {f g : FunDecl}
    (h : Stmt.FunctionRenamed ρ (E ++ Δ) f g) (isInitializer : Bool) :
    Renamed ρ W i (Closure.Renamed ρ E) (Exec.newClosure f scope isInitializer)
      (Exec.newClosure g scope isInitializer) := by
  refine newId.bind fun W' hW id _ hid => pure ?_
  exact ⟨hid, rfl, rfl, Δ, halong.mono hW, h⟩

theorem bindMethod {f g : Closure} (h : f.Renamed ρ [ρ.plain] W g) {v w : Value}
    (hv : v.Renamed ρ W w) :
    Renamed ρ W i (Closure.Renamed ρ []) (Exec.bindMethod f v) (Exec.bindMethod g w) := by
  obtain ⟨Δ, halong, hdecl⟩ := h.decl
  unfold Exec.bindMethod
  rw [← h.scope, ← h.isInitializer]
  refine (newImplicit f.scope "this" hv).bind fun W' _ j _ hj => ?_
  obtain ⟨rfl, hinner⟩ := hj
  exact newClosure (hinner Δ halong) hdecl _

theorem boundMethod {f g : Closure} (h : f.Renamed ρ [ρ.plain] W g) {v w : Value}
    (hv : v.Renamed ρ W w) :
    Renamed ρ W i (Value.Renamed ρ) (Value.function <$> Exec.bindMethod f v)
      (Value.function <$> Exec.bindMethod g w) :=
  (bindMethod h hv).map fun _ _ _ => .function

/-- The methods of a class are made one after another. -/
theorem newMethods {Δ : List ι} {scope : ScopeId} (halong : ρ.Along W Δ scope)
    {fs gs : List FunDecl} (h : Stmt.MethodsRenamed ρ (ρ.plain :: Δ) fs gs)
    {b b' : Bindings Closure} (hb : b.Twin (Closure.Renamed ρ [ρ.plain] W) b') :
    Renamed ρ W i (fun W' c c' => c.Twin (Closure.Renamed ρ [ρ.plain] W') c')
      (fs.foldlM (fun (b : Bindings Closure) decl => do
        let f ← Exec.newClosure decl scope (decl.name.lexeme == Class.initializerName)
        Pure.pure (b.set decl.name.lexeme f)) b)
      (gs.foldlM (fun (b : Bindings Closure) decl => do
        let f ← Exec.newClosure decl scope (decl.name.lexeme == Class.initializerName)
        Pure.pure (b.set decl.name.lexeme f)) b') := by
  induction fs generalizing gs W b b' with
  | nil =>
    cases h
    exact pure hb
  | cons f fs ih =>
    cases h with
    | cons hf hfs =>
      rw [List.foldlM_cons, List.foldlM_cons, bind_assoc, bind_assoc, ← hf.name.lexeme]
      refine (newClosure (E := [ρ.plain]) halong hf _).bind fun W' hW _ _ hclosure => ?_
      rw [pure_bind, pure_bind]
      have hmono : b.Twin (Closure.Renamed ρ [ρ.plain] W') b' :=
        fun x => optionRel_mono (fun _ _ => Closure.Renamed.mono hW) (hb x)
      exact ih (halong.mono hW) hfs (hmono.set _ hclosure)

theorem newClass {name name' : String} (hname : name = name') {o o' : Option Class}
    (ho : Option.Rel (Class.Renamed ρ W) o o') {Δ : List ι} {scope : ScopeId}
    (halong : ρ.Along W Δ scope) {fs gs : List FunDecl}
    (h : Stmt.MethodsRenamed ρ (ρ.plain :: Δ) fs gs) :
    Renamed ρ W i (Class.Renamed ρ) (Exec.newClass name o fs scope)
      (Exec.newClass name' o' gs scope) := by
  have hinherited :
      List.Forall₂ (ClassLayer.Renamed ρ W) (o.elim [] Class.layers) (o'.elim [] Class.layers) := by
    cases ho with
    | none => exact .nil
    | some h => exact h.layers
  refine (newMethods halong h .empty).bind fun W₁ hW₁ b b' hb => newId.bind fun W₂ hW₂ id _ hid =>
    pure ?_
  refine ⟨⟨hid, hname, fun x => optionRel_mono (fun _ _ => Closure.Renamed.mono hW₂) (hb x)⟩, ?_⟩
  exact hinherited.imp fun _ _ => ClassLayer.Renamed.mono (hW₁.trans hW₂)

theorem getProperty {a b : Instance} (hab : a.Renamed ρ W b) {t t' : Token} (h : ρ.Keeps t t') :
    Renamed ρ W i (Value.Renamed ρ) (Exec.getProperty a t) (Exec.getProperty b t') := by
  refine withState fun m n hm hi => ?_
  have hfield :
      Option.Rel (Value.Renamed ρ W) ((m.fieldsOf a).get? t.lexeme)
      ((n.fieldsOf b).get? t.lexeme) := by
    rw [Machine.fieldsOf, Machine.fieldsOf, ← hab.id]
    exact hm.fields a.id _
  have hmethod := hab.cls.method? t.lexeme
  rw [← h.lexeme]
  generalize (m.fieldsOf a).get? t.lexeme = o at hfield ⊢
  generalize (n.fieldsOf b).get? t.lexeme = o' at hfield ⊢
  cases hfield with
  | some hv => exact pure hv
  | none =>
    dsimp only
    generalize a.cls.method? t.lexeme = o at hmethod ⊢
    generalize b.cls.method? t.lexeme = o' at hmethod ⊢
    cases hmethod with
    | some hf => exact boundMethod hf (.inst hab)
    | none => exact fail h.paired _

/-- Both machines take the same reading, and the clocks go on together. -/
theorem readClock : Renamed ρ W i Same Exec.readClock Exec.readClock := fun _ _ hm hi =>
  .ok (List.prefix_refl W) { hm with clock := congrArg Clock.tick hm.clock } hi
    (congrArg Clock.now hm.clock)

theorem callNative (k : Native) {vs ws : List Value} (h : List.Forall₂ (Value.Renamed ρ W) vs ws) :
    Renamed ρ W i (Value.Renamed ρ) (Exec.callNative k vs) (Exec.callNative k ws) := by
  unfold Exec.callNative
  cases k.behaviour with
  | clock =>
    cases h with
    | nil => exact readClock.map fun _ _ _ (h : _ = _) => h ▸ .number _
    | cons _ _ => exact fault _
  | first =>
    cases h with
    | nil => exact pure .nil
    | cons hv _ => exact pure hv
  | join =>
    have hshown : vs.map Value.shown = ws.map Value.shown := by
      induction h with
      | nil => rfl
      | cons hv _ ih => rw [List.map_cons, List.map_cons, hv.shown_eq, ih]
    exact pure (hshown ▸ .text _)
  | count => exact pure (h.length_eq ▸ .number _)
  | unimplemented => exact fault _

theorem checkCall {t t' : Token} (h : ρ.Keeps t t') {v w : Value} (hv : v.Renamed ρ W w)
    (count : Nat) :
    Renamed ρ W i Same (Exec.checkCall t v count) (Exec.checkCall t' w count) := by
  have hcount : ∀ arity, Renamed ρ W i Same
      (if count ≠ arity then Exec.fail t (.wrongCount arity count) else Pure.pure ())
      (if count ≠ arity then Exec.fail t' (.wrongCount arity count) else Pure.pure ()) := by
    intro arity
    split
    · exact fail h.paired _
    · exact pure rfl
  unfold Exec.checkCall
  cases hv with
  | function hf =>
    dsimp only
    rw [← hf.arity_eq]
    exact hcount _
  | cls hc =>
    dsimp only
    rw [← hc.arity_eq]
    exact hcount _
  | native k =>
    dsimp only
    split
    · exact fault _
    · exact hcount _
  | _ => exact fail h.paired _

theorem superMethod {Δ : List ι} (halong : ρ.Along W Δ i) {t t' u u' : Token} (h : ρ.Refers Δ t t')
    (hu : ρ.Keeps u u') :
    Renamed ρ W i (Value.Renamed ρ) (Exec.superMethod t u) (Exec.superMethod t' u') := by
  refine withState fun m n hm hi => ?_
  rw [hm.table, hm.table' h.paired, ← hu.lexeme, ← hm.current, hi]
  cases ρ.table t.site with
  | none => exact fault _
  | some d =>
    have hparent := hm.scopes.getAt halong d "super"
    have hthis := hm.scopes.getAt halong (d - 1) "this"
    rw [ρ.spell_super] at hparent
    rw [ρ.spell_this] at hthis
    refine (ofFault (A := fun _ => Value.Renamed ρ W) hparent).bind fun W₁ hW₁ _ _ hparent =>
      (ofFault (A := fun _ => Value.Renamed ρ W) hthis).bind fun W₂ hW₂ _ _ hthis => ?_
    have hW := hW₁.trans hW₂
    cases hparent with
    | @cls c c' hc =>
      have hmethod := hc.method? u.lexeme
      dsimp only
      generalize c.method? u.lexeme = o at hmethod ⊢
      generalize c'.method? u.lexeme = o' at hmethod ⊢
      cases hmethod with
      | some hf => exact boundMethod (hf.mono hW) (hthis.mono hW)
      | none => exact fail hu.paired _
    | _ => exact fault _

theorem asSuperclass {t t' : Token} (h : ρ.pairs t t') {v w : Value} (hv : v.Renamed ρ W w) :
    Renamed ρ W i (Class.Renamed ρ) (Exec.asSuperclass t v) (Exec.asSuperclass t' w) := by
  cases hv with
  | cls hc => exact pure hc
  | _ => exact fail h _

theorem declareClass {ev ev' : Token → Exec Value} {Δ : List ι} (halong : ρ.Along W Δ i)
    (hev : ∀ W', W <+: W' → ∀ t t', ρ.Refers Δ t t' →
      Renamed ρ W' i (Value.Renamed ρ) (ev t) (ev' t'))
    {t t' : Token} (ht : ρ.Spells (Δ.headD ρ.plain) t t') (hkeeps : ρ.Keeps t t')
    {o o' : Option Token}
    (ho : Option.Rel (ρ.Refers Δ) o o') {fs gs : List FunDecl}
    (hfs : Stmt.MethodsRenamed ρ (ρ.plain :: ρ.aroundMethods Δ o) fs gs) :
    Renamed ρ W i Same (Exec.declareClass t o fs ev) (Exec.declareClass t' o' gs ev') := by
  cases ho with
  | none =>
    rw [Exec.declareClass_none, Exec.declareClass_none]
    refine (define halong ht .nil).bind fun W₁ hW₁ _ _ _ => withState fun m n hm hi => ?_
    rw [← hm.current, hi]
    refine (newClass hkeeps.lexeme .none (halong.mono hW₁) hfs).bind fun W₂ hW₂ _ _ hc => ?_
    exact define (halong.mono (hW₁.trans hW₂)) ht (.cls hc)
  | some hp =>
    rw [Exec.declareClass_some, Exec.declareClass_some]
    refine (define halong ht .nil).bind fun W₁ hW₁ _ _ _ => ?_
    refine ((hev W₁ hW₁ _ _ hp).bind fun W₂ _ _ _ hv => asSuperclass hp.paired hv).bind
      fun W₂ hW₂ c c' hc => ?_
    refine withState fun m n hm hi => ?_
    rw [← hm.current, hi]
    refine (newImplicit i "super" (.cls hc)).bind fun W₃ hW₃ scope _ hscope => ?_
    obtain ⟨rfl, hinner⟩ := hscope
    have hmethods := hinner Δ ((halong.mono hW₁).mono hW₂)
    refine (newClass hkeeps.lexeme (.some (hc.mono hW₃)) hmethods hfs).bind fun W₄ hW₄ _ _ hd => ?_
    exact define (halong.mono (((hW₁.trans hW₂).trans hW₃).trans hW₄)) ht (.cls hd)

/-- The arguments of a call, bound to the parameters. -/
theorem bindings_setAll {k : ι} {ps ps' : List Token} (hps : List.Forall₂ (ρ.Spells k) ps ps')
    {vs ws : List Value} (hvs : List.Forall₂ (Value.Renamed ρ W) vs ws) {b b' : Bindings Value}
    (hb : ∀ x, Option.Rel (Value.Renamed ρ W) (b.get? x) (b'.get? (ρ.spell k x))) (x : String) :
    Option.Rel (Value.Renamed ρ W) ((b.setAll (ps.map Token.lexeme) vs).get? x)
      ((b'.setAll (ps'.map Token.lexeme) ws).get? (ρ.spell k x)) := by
  induction hps generalizing vs ws b b' with
  | nil => exact hb x
  | @cons p p' ps ps' hp _ ih =>
    cases hvs with
    | nil => exact hb x
    | cons hv hvs =>
      refine ih hvs fun y => ?_
      rw [Bindings.get?_set, Bindings.get?_set, hp.lexeme]
      by_cases hy : y = p.lexeme
      · rw [if_pos hy, if_pos (congrArg (ρ.spell k) hy)]
        exact .some hv
      · rw [if_neg hy, if_neg fun h => hy (ρ.injective k h)]
        exact hb y

theorem invoke {run run' : List Stmt → Exec Unit}
    (hrun : ∀ W' j Δ ss ss', W <+: W' → ρ.Along W' Δ j → Stmt.AllRenamed ρ Δ ss ss' →
      Renamed ρ W' j Same (run ss) (run' ss'))
    {f g : Closure} (h : f.Renamed ρ [] W g) {vs ws : List Value}
    (hvs : List.Forall₂ (Value.Renamed ρ W) vs ws) :
    Renamed ρ W i (Value.Renamed ρ) (Exec.invoke f vs run) (Exec.invoke g ws run') := by
  obtain ⟨Δ, halong, hdecl⟩ := h.decl
  have hscope := h.scope
  have hinitializer := h.isInitializer
  obtain ⟨id, decl, scope, isInitializer⟩ := f
  obtain ⟨id', decl', scope', isInitializer'⟩ := g
  dsimp only at hdecl halong hscope hinitializer
  subst hscope hinitializer
  cases hdecl with
  | mk k _ hps hss =>
    unfold Exec.invoke
    refine (newScope scope k fun x => bindings_setAll hps hvs (fun _ => .none) x).bind
      fun W₁ hW₁ j _ hj => ?_
    obtain ⟨rfl, hinner⟩ := hj
    refine (hrun W₁ j _ _ _ hW₁ (hinner Δ halong) hss).within.catchReturn.bind
      fun W₂ hW₂ v w hv => ?_
    dsimp only
    split
    · refine withState fun m n hm _ => ofFault ?_
      have hthis := hm.scopes.getAt (halong.mono (hW₁.trans hW₂)) 0 "this"
      rwa [ρ.spell_this] at hthis
    · exact pure hv

theorem construct {run run' : List Stmt → Exec Unit}
    (hrun : ∀ W' j Δ ss ss', W <+: W' → ρ.Along W' Δ j → Stmt.AllRenamed ρ Δ ss ss' →
      Renamed ρ W' j Same (run ss) (run' ss'))
    {c d : Class} (h : c.Renamed ρ W d) {vs ws : List Value}
    (hvs : List.Forall₂ (Value.Renamed ρ W) vs ws) :
    Renamed ρ W i (Value.Renamed ρ) (Exec.construct c vs run) (Exec.construct d ws run') := by
  refine (newInstance h).bind fun W₁ hW₁ a b hab => ?_
  have hinitializer : Option.Rel (Closure.Renamed ρ [ρ.plain] W) c.initializer? d.initializer? :=
    h.method? _
  generalize c.initializer? = o at hinitializer ⊢
  generalize d.initializer? = o' at hinitializer ⊢
  cases hinitializer with
  | none => exact pure (.inst hab)
  | some hf =>
    refine (bindMethod (hf.mono hW₁) (.inst hab)).bind fun W₂ hW₂ _ _ hbound => ?_
    have hW := hW₁.trans hW₂
    refine (invoke (fun W' j Δ ss ss' hW' => hrun W' j Δ ss ss' (hW.trans hW')) hbound
      (hvs.imp fun _ _ => Value.Renamed.mono hW)).bind fun W₃ hW₃ _ _ _ => ?_
    exact pure (.inst (hab.mono (hW₂.trans hW₃)))

end Renamed
end Exec

/-! ## Evaluation -/

open Exec (Same)

/-- Evaluation of renamed programs to a depth. -/
structure RenamedEval {ι : Type} (ρ : Renaming ι) (bound depth : Nat) : Prop where
  eval : ∀ W i Δ e e', ρ.Along W Δ i → e.Renamed ρ Δ e' →
    Exec.Renamed ρ W i (Value.Renamed ρ) (eval bound depth e) (eval bound depth e')
  call : ∀ W i v w vs ws, v.Renamed ρ W w → List.Forall₂ (Value.Renamed ρ W) vs ws →
    Exec.Renamed ρ W i (Value.Renamed ρ) (call bound depth v vs) (call bound depth w ws)
  exec : ∀ W i Δ s s', ρ.Along W Δ i → s.Renamed ρ Δ s' →
    Exec.Renamed ρ W i Same (exec bound depth s) (exec bound depth s')

namespace RenamedEval

variable {ι : Type} {ρ : Renaming ι} {bound depth : Nat} {W : Styles ι} {i : ScopeId} {Δ : List ι}

theorem execAll (ih : RenamedEval ρ bound depth) {ss ss' : List Stmt} (halong : ρ.Along W Δ i)
    (h : Stmt.AllRenamed ρ Δ ss ss') :
    Exec.Renamed ρ W i Same (ss.forM (Lox.exec bound depth)) (ss'.forM (Lox.exec bound depth)) := by
  induction ss generalizing ss' W with
  | nil =>
    cases h
    exact .pure rfl
  | cons s ss ihss =>
    cases h with
    | cons hs hss =>
      exact (ih.exec W i Δ _ _ halong hs).bind fun W' hW _ _ _ => ihss (halong.mono hW) hss

theorem evalAll (ih : RenamedEval ρ bound depth) {es es' : List Expr} (halong : ρ.Along W Δ i)
    (h : List.Forall₂ (Expr.Renamed ρ Δ) es es') :
    Exec.Renamed ρ W i (fun W' => List.Forall₂ (Value.Renamed ρ W'))
      (es.mapM (Lox.eval bound depth)) (es'.mapM (Lox.eval bound depth)) := by
  induction h generalizing W with
  | nil => exact .pure .nil
  | cons he _ ihes =>
    rw [List.mapM_cons, List.mapM_cons]
    refine (ih.eval W i Δ _ _ halong he).bind fun W₁ hW₁ v w hv => ?_
    exact (ihes (halong.mono hW₁)).bind fun W₂ hW₂ vs ws hvs => .pure (.cons (hv.mono hW₂) hvs)

theorem runsBodies (ih : RenamedEval ρ bound depth) (W' : Styles ι) (j : ScopeId) (Δ : List ι)
    (ss ss' : List Stmt) (_ : W <+: W') (halong : ρ.Along W' Δ j) (h : Stmt.AllRenamed ρ Δ ss ss') :
    Exec.Renamed ρ W' j Same (ss.forM (Lox.exec bound depth)) (ss'.forM (Lox.exec bound depth)) :=
  ih.execAll halong h

theorem eval_succ (ih : RenamedEval ρ bound depth) {e e' : Expr} (halong : ρ.Along W Δ i)
    (h : e.Renamed ρ Δ e') :
    Exec.Renamed ρ W i (Value.Renamed ρ) (Lox.eval bound (depth + 1) e)
      (Lox.eval bound (depth + 1) e') := by
  cases h with
  | literal v => exact .pure v.renamed_toValue
  | var h => exact .lookUp halong h
  | this h => exact .lookUp halong h
  | super h hu => exact .superMethod halong h hu
  | grouping he => exact ih.eval W i Δ _ _ halong he
  | assign h he =>
    rw [Lox.eval, Lox.eval]
    refine (ih.eval W i Δ _ _ halong he).bind fun W₁ hW₁ v w hv => ?_
    exact (Exec.Renamed.assign (halong.mono hW₁) h hv).bind fun W₂ hW₂ _ _ _ => .pure (hv.mono hW₂)
  | unary h he =>
    rw [Lox.eval, Lox.eval]
    exact (ih.eval W i Δ _ _ halong he).bind fun W₁ _ v w hv =>
      .ofResult (Operator.renamed_unary h hv)
  | binary he h hf =>
    rw [Lox.eval, Lox.eval]
    refine (ih.eval W i Δ _ _ halong he).bind fun W₁ hW₁ v w hv => ?_
    refine (ih.eval W₁ i Δ _ _ (halong.mono hW₁) hf).bind fun W₂ hW₂ v' w' hv' => ?_
    exact .ofResult (Operator.renamed_binary h (hv.mono hW₂) hv')
  | logical he h hf =>
    rw [Lox.eval, Lox.eval]
    refine (ih.eval W i Δ _ _ halong he).bind fun W₁ hW₁ v w hv => ?_
    rw [← hv.truthy_eq, ← ρ.kind h.paired]
    split
    · exact .pure hv
    · exact ih.eval W₁ i Δ _ _ (halong.mono hW₁) hf
  | call he h hes =>
    rw [Lox.eval, Lox.eval]
    refine (ih.eval W i Δ _ _ halong he).bind fun W₁ hW₁ v w hv => ?_
    refine (ih.evalAll (halong.mono hW₁) hes).bind fun W₂ hW₂ vs ws hvs => ?_
    rw [← hvs.length_eq]
    refine (Exec.Renamed.checkCall h (hv.mono hW₂) _).bind fun W₃ hW₃ _ _ _ => ?_
    exact ih.call W₃ i _ _ _ _ (hv.mono (hW₂.trans hW₃)) (hvs.imp fun _ _ => Value.Renamed.mono hW₃)
  | get he h =>
    rw [Lox.eval, Lox.eval]
    refine (ih.eval W i Δ _ _ halong he).bind fun W₁ hW₁ v w hv => ?_
    cases hv with
    | inst hab => exact .getProperty hab h
    | _ => exact .fail h.paired _
  | set he h hf =>
    rw [Lox.eval, Lox.eval]
    refine (ih.eval W i Δ _ _ halong he).bind fun W₁ hW₁ v w hv => ?_
    cases hv with
    | inst hab =>
      refine (ih.eval W₁ i Δ _ _ (halong.mono hW₁) hf).bind fun W₂ hW₂ v w hv => ?_
      rw [← h.lexeme]
      exact (Exec.Renamed.setField (hab.mono hW₂) _ hv).bind fun W₃ hW₃ _ _ _ => .pure (hv.mono hW₃)
    | _ => exact .fail h.paired _

theorem call_succ (ih : RenamedEval ρ bound depth) {v w : Value} {vs ws : List Value}
    (hv : v.Renamed ρ W w) (hvs : List.Forall₂ (Value.Renamed ρ W) vs ws) :
    Exec.Renamed ρ W i (Value.Renamed ρ) (Lox.call bound (depth + 1) v vs)
      (Lox.call bound (depth + 1) w ws) := by
  cases hv with
  | function hf => exact .invoke ih.runsBodies hf hvs
  | cls hc => exact .construct ih.runsBodies hc hvs
  | native k => exact .callNative k hvs
  | _ => exact .fault _

theorem evalOption (ih : RenamedEval ρ bound depth) {o o' : Option Expr} (halong : ρ.Along W Δ i)
    (h : Option.Rel (Expr.Renamed ρ Δ) o o') :
    Exec.Renamed ρ W i (Value.Renamed ρ) (o.elim (pure .nil) (Lox.eval bound depth))
      (o'.elim (pure .nil) (Lox.eval bound depth)) := by
  cases h with
  | none => exact .pure .nil
  | some he => exact ih.eval W i Δ _ _ halong he

theorem exec_succ (ih : RenamedEval ρ bound depth) {s s' : Stmt} (halong : ρ.Along W Δ i)
    (h : s.Renamed ρ Δ s') :
    Exec.Renamed ρ W i Same (Lox.exec bound (depth + 1) s) (Lox.exec bound (depth + 1) s') := by
  cases h with
  | expr he =>
    rw [Lox.exec, Lox.exec]
    exact (ih.eval W i Δ _ _ halong he).bind fun _ _ _ _ _ => .pure rfl
  | print he =>
    rw [Lox.exec, Lox.exec]
    refine (ih.eval W i Δ _ _ halong he).bind fun W₁ _ v w hv => ?_
    rw [← hv.shown_eq]
    exact .print _
  | varDecl h ho =>
    rw [exec_varDecl, exec_varDecl]
    exact (ih.evalOption halong ho).bind fun W₁ hW₁ _ _ hv => .define (halong.mono hW₁) h hv
  | block k hss =>
    rw [Lox.exec, Lox.exec]
    refine Exec.Renamed.withState fun m n hm hi => ?_
    rw [← hm.current, hi]
    refine (Exec.Renamed.newScope i k fun _ => .none).bind fun W₁ _ j _ hj => ?_
    obtain ⟨rfl, hinner⟩ := hj
    exact (ih.execAll (hinner Δ halong) hss).within
  | ifThen he hs =>
    rw [Lox.exec, Lox.exec]
    refine (ih.eval W i Δ _ _ halong he).bind fun W₁ hW₁ v w hv => ?_
    rw [← hv.truthy_eq]
    split
    · exact ih.exec W₁ i Δ _ _ (halong.mono hW₁) hs
    · exact .pure rfl
  | ifElse he hs ht =>
    rw [Lox.exec, Lox.exec]
    refine (ih.eval W i Δ _ _ halong he).bind fun W₁ hW₁ v w hv => ?_
    rw [← hv.truthy_eq]
    split
    · exact ih.exec W₁ i Δ _ _ (halong.mono hW₁) hs
    · exact ih.exec W₁ i Δ _ _ (halong.mono hW₁) ht
  | whileDo he hs =>
    rw [Lox.exec, Lox.exec]
    refine .loop (fun W' hW => ?_) (fun W' hW => ih.exec W' i Δ _ _ (halong.mono hW) hs) bound
    exact (ih.eval W' i Δ _ _ (halong.mono hW) he).map fun _ _ _ hv => hv.truthy_eq
  | funDecl h hf =>
    rw [Lox.exec, Lox.exec]
    refine Exec.Renamed.withState fun m n hm hi => ?_
    rw [← hm.current, hi]
    refine (Exec.Renamed.newClosure (E := []) halong hf _).bind fun W₁ hW₁ _ _ hclosure => ?_
    exact .define (halong.mono hW₁) h (.function hclosure)
  | ret h ho =>
    rw [exec_ret, exec_ret]
    exact (ih.evalOption halong ho).bind fun _ _ _ _ hv => .throw (.returned hv)
  | classDecl h hkeeps ho hfs =>
    rw [Lox.exec, Lox.exec]
    refine .declareClass halong (fun W' hW t t' ht => ?_) h hkeeps ho hfs
    exact ih.eval W' i Δ _ _ (halong.mono hW) (.var ht)

theorem of_depth (ρ : Renaming ι) (bound depth : Nat) : RenamedEval ρ bound depth := by
  induction depth with
  | zero => exact ⟨fun _ _ _ _ _ _ _ => .throw .overflow, fun _ _ _ _ _ _ _ _ => .throw .overflow,
      fun _ _ _ _ _ _ _ => .throw .overflow⟩
  | succ depth ih => exact ⟨fun _ _ _ _ _ => ih.eval_succ, fun _ _ _ _ _ _ => ih.call_succ,
      fun _ _ _ _ _ => ih.exec_succ⟩

end RenamedEval

/-! ## Programs -/

section

variable {ι : Type} {ρ : Renaming ι}

theorem Renaming.along_globals (ρ : Renaming ι) : ρ.Along [(none, ρ.plain)] [] 0 := by
  rintro W ⟨rest, rfl⟩ d j e hj he
  cases d with
  | zero =>
    cases hj
    cases he
    rfl
  | succ d => cases hj

/-- New machines with tables of the same distances. -/
theorem Machine.renamed_initial (clock : Clock) {d d' : Distances} {k k' : Nat}
    (hd : ∀ s, d.find? s = ρ.table s) (hd' : ∀ {t t'}, ρ.pairs t t' →
    d'.find? t'.site = ρ.table t.site) :
    Machine.Renamed ρ [(none, ρ.plain)] { Machine.initial clock with distances := d, nextSite := k }
      { Machine.initial clock with distances := d', nextSite := k' } := by
  have hempty : Scopes.empty.Renamed ρ [] .empty :=
    ⟨rfl, rfl, fun _ => rfl, fun _ => rfl, fun _ _ h => by cases h⟩
  have hname : ∀ e, ([] ++ [(none, ρ.plain)] : Styles ι)[0]? = some e →
      "clock" = ρ.spell e.2 "clock" := by
    rintro _ ⟨⟩
    exact (ρ.spell_plain _).symm
  have hscopes :
      (Machine.initial clock).scopes.Renamed ρ [(none, ρ.plain)] (Machine.initial clock).scopes :=
    (hempty.add none ρ.plain fun _ => .none).define hname (.native ⟨0, "clock", 0, .clock⟩)
  exact ⟨hscopes, rfl, fun _ _ => .none, rfl, rfl, ρ.along_globals, rfl, rfl, rfl, hd, hd'⟩

end

inductive Outcome.Renamed {ι : Type} (ρ : Renaming ι) (W : Styles ι) :
    Outcome → Outcome → Prop where
  | completed : Renamed ρ W .completed .completed
  | stopped {e e' : Exit} : e.Renamed ρ W e' → Renamed ρ W (.stopped e) (.stopped e')

/-- Renamed programs have the same effect on related machines. -/
theorem Machine.Renamed.execute {ι : Type} {ρ : Renaming ι} {W : Styles ι} {m n : Machine}
    (hm : m.Renamed ρ W n) {Δ : List ι} (halong : ρ.Along W Δ m.current) (l : Limits)
    {ss ss' : List Stmt} (h : Stmt.AllRenamed ρ Δ ss ss') :
    ∃ W', W <+: W' ∧ (m.execute l ss).1.Renamed ρ W' (n.execute l ss').1 ∧
      (m.execute l ss).2.Renamed ρ W' (n.execute l ss').2 := by
  have hrun : Exec.RenamedResult ρ W m.current Same
      (execAll l.iterations l.depth ss { m with lastError := none })
        (execAll l.iterations l.depth ss' { n with lastError := none }) :=
    (RenamedEval.of_depth ρ l.iterations l.depth).execAll halong h _ _ { hm with } rfl
  unfold Machine.execute
  generalize execAll l.iterations l.depth ss { m with lastError := none } = r at hrun ⊢
  generalize execAll l.iterations l.depth ss' { n with lastError := none } = r' at hrun ⊢
  cases hrun with
  | ok hW hm _ _ => exact ⟨_, hW, .completed, hm⟩
  | error hW hm _ he =>
    cases he with
    | returned hv => exact ⟨_, hW, .stopped (.returned hv), hm⟩
    | failed h => exact ⟨_, hW, .stopped (.failed h), { hm with }⟩
    | fault h => exact ⟨_, hW, .stopped (.fault h), hm⟩
    | overflow => exact ⟨_, hW, .stopped .overflow, hm⟩
    | unfinished => exact ⟨_, hW, .stopped .unfinished, hm⟩

end Lox
