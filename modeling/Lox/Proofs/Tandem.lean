import Lox.Proofs.Simulation
import Lox.Proofs.TwinMachines

/-!
# Executions in tandem

Twin programs on twin machines do the same, step by step. `Exec.Twin R A x y` says it of two
computations: both end with results related by `A`, or both early in the same way, and the machines
are twins again. Every step of the machine has this property, composition keeps it, and so
evaluation has it (`TwinEval.of_depth`): to any depth, also where a loop goes on too long or a
broken promise is found out.
-/

namespace Lox

namespace Exec

/-- Both computations ended in the same way, on machines that are twins. -/
inductive TwinResult {α β : Type} (R : Pairing) (A : α → β → Prop) :
    EStateM.Result Exit Machine α → EStateM.Result Exit Machine β → Prop where
  | ok {a : α} {b : β} {m n : Machine} : A a b → m.Twin R n → TwinResult R A (.ok a m) (.ok b n)
  | error {e e' : Exit} {m n : Machine} : e.Twin R e' → m.Twin R n →
      TwinResult R A (.error e m) (.error e' n)

/-- On twin machines both computations do the same. -/
def Twin {α β : Type} (R : Pairing) (A : α → β → Prop) (x : Exec α) (y : Exec β) : Prop :=
  ∀ m n : Machine, m.Twin R n → TwinResult R A (x m) (y n)

namespace Twin

variable {R : Pairing} {α β γ δ : Type} {A : α → β → Prop} {B : γ → δ → Prop} {x : Exec α}
  {y : Exec β}

/-! ## Composed computations -/

theorem pure {a : α} {b : β} (h : A a b) : Twin R A (Pure.pure a) (Pure.pure b) :=
  fun _ _ hm => .ok h hm

theorem throw {e e' : Exit} (h : e.Twin R e') :
    Twin R A (MonadExcept.throw e : Exec α) (MonadExcept.throw e' : Exec β) :=
      fun _ _ hm => .error h hm

theorem fault (f : Fault) : Twin R A (Exec.fault f) (Exec.fault f) := throw (.fault f)

theorem fail {t t' : Token} (h : R t t') (c : Cause) : Twin R A (Exec.fail t c) (Exec.fail t' c) :=
  throw (.failed ⟨h, rfl⟩)

theorem get : Twin R (Machine.Twin R) (MonadState.get : Exec Machine)
    (MonadState.get : Exec Machine) :=
  fun _ _ hm => .ok hm hm

theorem bind {f : α → Exec γ} {g : β → Exec δ} (hx : Twin R A x y)
    (hf : ∀ a b, A a b → Twin R B (f a) (g b)) :
    Twin R B (x >>= f) (y >>= g) := by
  intro m n hm
  have hfirst := hx m n hm
  show TwinResult R B (EStateM.bind x f m) (EStateM.bind y g n)
  unfold EStateM.bind
  generalize x m = r at hfirst ⊢
  generalize y n = r' at hfirst ⊢
  cases hfirst with
  | ok hab hm => exact hf _ _ hab _ _ hm
  | error he hm => exact .error he hm

/-- Results that are the same can be used as such. -/
theorem bindEq {x y : Exec α} {f : α → Exec γ} {g : α → Exec δ} (hx : Twin R Eq x y)
    (hf : ∀ a, Twin R B (f a) (g a)) : Twin R B (x >>= f) (y >>= g) :=
  hx.bind fun a _ hab => hab ▸ hf a

theorem map {f : α → γ} {g : β → δ} (hx : Twin R A x y) (hf : ∀ a b, A a b → B (f a) (g b)) :
    Twin R B (f <$> x) (g <$> y) := by
  rw [map_eq_pure_bind, map_eq_pure_bind]
  exact hx.bind fun a b hab => pure (hf a b hab)

theorem ofResult {r : Except Exit α} {r' : Except Exit β} (h : ExceptRel (Exit.Twin R) A r r') :
    Twin R A (Exec.ofResult r) (Exec.ofResult r') := by
  cases h with
  | ok h => exact pure h
  | error h => exact throw h

theorem ofFault {r : Except Fault α} {r' : Except Fault β} (h : ExceptRel Eq A r r') :
    Twin R A (Exec.ofFault r) (Exec.ofFault r') := by
  cases h with
  | ok h => exact pure h
  | error h => exact h ▸ fault _

theorem ofFailure {r : Except RuntimeError α} {r' : Except RuntimeError β}
    (h : ExceptRel (RuntimeError.Twin R) A r r') :
    Twin R A (Exec.ofFailure r) (Exec.ofFailure r') := by
  cases h with
  | ok h => exact pure h
  | error h => exact throw (.failed h)

/-- A change of the machine after which the machines are still twins. -/
theorem change {f g : Machine → Machine} (h : ∀ m n, m.Twin R n → (f m).Twin R (g n)) :
    Twin R Eq (modify f : Exec Unit) (modify g : Exec Unit) := fun m n hm => .ok rfl (h m n hm)

theorem within (i : ScopeId) (hx : Twin R A x y) :
    Twin R A (Exec.within i x) (Exec.within i y) := by
  intro m n hm
  have hinner := hx _ _ (show Machine.Twin R { m with current := i } { n with current := i } from
    { hm with current := rfl })
  unfold Exec.within
  dsimp only
  generalize x { m with current := i } = r at hinner ⊢
  generalize y { n with current := i } = r' at hinner ⊢
  cases hinner with
  | ok h hm' => exact .ok h { hm' with current := hm.current }
  | error h hm' => exact .error h { hm' with current := hm.current }

theorem catchReturn {x y : Exec Unit} (hx : Twin R Eq x y) :
    Twin R (Value.Twin R) (Exec.catchReturn x) (Exec.catchReturn y) := by
  intro m n hm
  have hbody := hx m n hm
  unfold Exec.catchReturn
  generalize x m = r at hbody ⊢
  generalize y n = r' at hbody ⊢
  cases hbody with
  | ok _ hm => exact .ok .nil hm
  | error he hm =>
    cases he with
    | returned hv => exact .ok hv hm
    | failed h => exact .error (.failed h) hm
    | fault f => exact .error (.fault f) hm
    | overflow => exact .error .overflow hm
    | unfinished => exact .error .unfinished hm

theorem loop {test test' : Exec Bool} {body body' : Exec Unit} (htest : Twin R Eq test test')
    (hbody : Twin R Eq body body') (bound : Nat) :
    Twin R Eq (Exec.loop bound test body) (Exec.loop bound test' body') := by
  induction bound with
  | zero => exact throw .unfinished
  | succ bound ih =>
    refine htest.bindEq fun again => ?_
    cases again with
    | false => exact pure rfl
    | true => exact hbody.bindEq fun _ => ih

theorem mapM {f : α → Exec γ} {g : β → Exec δ} (hf : ∀ a b, A a b → Twin R B (f a) (g b))
    {as : List α} {bs : List β} (h : List.Forall₂ A as bs) :
    Twin R (List.Forall₂ B) (as.mapM f) (bs.mapM g) := by
  induction h with
  | nil => exact pure .nil
  | cons hab _ ih =>
    rw [List.mapM_cons, List.mapM_cons]
    exact (hf _ _ hab).bind fun _ _ hc => ih.bind fun _ _ hcs => pure (.cons hc hcs)

theorem forM {f : α → Exec Unit} {g : β → Exec Unit} (hf : ∀ a b, A a b → Twin R Eq (f a) (g b))
    {as : List α} {bs : List β} (h : List.Forall₂ A as bs) : Twin R Eq (as.forM f) (bs.forM g) := by
  induction h with
  | nil => exact pure rfl
  | cons hab _ ih => exact (hf _ _ hab).bindEq fun _ => ih

theorem foldlM {f : γ → α → Exec γ} {g : δ → β → Exec δ}
    (hf : ∀ c d a b, B c d → A a b → Twin R B (f c a) (g d b)) {as : List α} {bs : List β}
    (h : List.Forall₂ A as bs) {c : γ} {d : δ} (hcd : B c d) :
    Twin R B (as.foldlM f c) (bs.foldlM g d) := by
  induction h generalizing c d with
  | nil => exact pure hcd
  | cons hab _ ih =>
    rw [List.foldlM_cons, List.foldlM_cons]
    exact (hf _ _ _ _ hcd hab).bind fun _ _ hcd => ih hcd

/-! ## Steps of the machine -/

theorem newScope (parent : ScopeId) {b b' : Bindings Value} (hb : b.Twin (Value.Twin R) b') :
    Twin R Eq (Exec.newScope parent b) (Exec.newScope parent b') :=
  fun _ _ hm => .ok hm.scopes.next { hm with scopes := hm.scopes.add _ hb }

theorem define (x : String) {v w : Value} (hv : v.Twin R w) :
    Twin R Eq (Exec.define x v) (Exec.define x w) := by
  intro m n hm
  refine .ok rfl { hm with scopes := ?_ }
  show (m.scopes.define m.current x v).Twin R (n.scopes.define n.current x w)
  rw [← hm.current]
  exact hm.scopes.define _ x hv

theorem defineAt (j : ScopeId) (x : String) {v w : Value} (hv : v.Twin R w) :
    Twin R Eq (modify fun m : Machine => { m with scopes := m.scopes.define j x v } : Exec Unit)
      (modify fun m : Machine => { m with scopes := m.scopes.define j x w } : Exec Unit) :=
  change fun _ _ hm => { hm with scopes := hm.scopes.define j x hv }

theorem setField {i j : Instance} (hi : i.Twin R j) (x : String) {v w : Value} (hv : v.Twin R w) :
    Twin R Eq (Exec.setField i x v) (Exec.setField j x w) := by
  refine change fun m n hm => { hm with fields := ?_ }
  rw [← hi.id]
  exact hm.fields.set i.id x hv

theorem newId : Twin R Eq Exec.newId Exec.newId :=
  fun _ _ hm => .ok hm.nextId { hm with nextId := congrArg (· + 1) hm.nextId }

theorem newInstance {c d : Class} (h : c.Twin R d) :
    Twin R (Instance.Twin R) (Exec.newInstance c) (Exec.newInstance d) :=
  fun _ _ hm => .ok ⟨hm.fields.size, h⟩ { hm with fields := hm.fields.push }

theorem print (line : String) : Twin R Eq (Exec.print line) (Exec.print line) :=
  change fun _ _ hm => { hm with printed := congrArg (·.push line) hm.printed }

theorem lookUp (hR : R.Spelled) {t t' : Token} (h : R t t') :
    Twin R (Value.Twin R) (Exec.lookUp t) (Exec.lookUp t') := by
  refine get.bind fun m n hm => ?_
  rw [← hm.distance h, ← hR.lexeme h, ← hm.current, ← hm.globals]
  cases m.distances.find? t.site with
  | some d => exact ofFault (hm.scopes.getAt _ _ _)
  | none => exact ofFailure (hm.scopes.lookup hR _ h)

theorem assign (hR : R.Spelled) {t t' : Token} (h : R t t') {v w : Value} (hv : v.Twin R w) :
    Twin R Eq (Exec.assign t v) (Exec.assign t' w) := by
  refine get.bind fun m n hm => ?_
  rw [← hm.distance h, ← hR.lexeme h, ← hm.current, ← hm.globals]
  cases m.distances.find? t.site with
  | some d =>
    refine bindEq ?_ fun j => defineAt j _ hv
    rw [← hm.scopes.ancestor_eq]
    cases m.scopes.ancestor m.current d with
    | ok j => exact ofFault (.ok rfl)
    | error e => exact ofFault (.error rfl)
  | none =>
    refine bindEq ?_ fun j => defineAt j _ hv
    rw [Scopes.binder, Scopes.binder, ← hR.lexeme h, ← hm.scopes.binder?_eq]
    cases m.scopes.binder? m.globals t.lexeme with
    | some j => exact ofFailure (.ok rfl)
    | none => exact ofFailure (.error ⟨h, by rw [Scopes.undefined, Scopes.undefined, hR.lexeme h]⟩)

theorem newClosure {f g : FunDecl} (h : FunDecl.Twin R f g) (scope : ScopeId)
    (isInitializer : Bool) :
    Twin R (Closure.Twin R) (Exec.newClosure f scope isInitializer)
      (Exec.newClosure g scope isInitializer) :=
  newId.bindEq fun _ => pure ⟨rfl, h, rfl, rfl⟩

theorem bindMethod {f g : Closure} (h : f.Twin R g) {v w : Value} (hv : v.Twin R w) :
    Twin R (Closure.Twin R) (Exec.bindMethod f v) (Exec.bindMethod g w) := by
  unfold Exec.bindMethod
  rw [← h.scope, ← h.isInitializer]
  exact (newScope _ (Bindings.Twin.empty.set _ hv)).bindEq fun scope => newClosure h.decl scope _

theorem boundMethod {f g : Closure} (h : f.Twin R g) {v w : Value} (hv : v.Twin R w) :
    Twin R (Value.Twin R) (Value.function <$> Exec.bindMethod f v)
      (Value.function <$> Exec.bindMethod g w) :=
  (bindMethod h hv).map fun _ _ => .function

theorem newClass (hR : R.Spelled) (name : String) {o o' : Option Class}
    (ho : Option.Rel (Class.Twin R) o o') {fs gs : List FunDecl}
    (h : List.Forall₂ (FunDecl.Twin R) fs gs) (scope : ScopeId) :
    Twin R (Class.Twin R) (Exec.newClass name o fs scope) (Exec.newClass name o' gs scope) := by
  have hinherited :
      List.Forall₂ (ClassLayer.Twin R) (o.elim [] Class.layers) (o'.elim [] Class.layers) := by
    cases ho with
    | none => exact .nil
    | some h => exact h.layers
  refine (foldlM (B := Bindings.Twin (Closure.Twin R)) (fun b b' f g hb hfg => ?_) h .empty).bind
    fun b b' hb => newId.bindEq fun id => pure ⟨⟨rfl, rfl, hb⟩, hinherited⟩
  rw [← hR.lexeme hfg.name]
  exact (newClosure hfg _ _).bind fun _ _ hclosure => pure (hb.set _ hclosure)

theorem getProperty (hR : R.Spelled) {i j : Instance} (hi : i.Twin R j) {t t' : Token}
    (h : R t t') :
    Twin R (Value.Twin R) (Exec.getProperty i t) (Exec.getProperty j t') := by
  refine get.bind fun m n hm => ?_
  have hfield :
      Option.Rel (Value.Twin R) ((m.fieldsOf i).get? t.lexeme) ((n.fieldsOf j).get? t.lexeme) := by
    rw [Machine.fieldsOf, Machine.fieldsOf, ← hi.id]
    exact hm.fields.fields i.id _
  have hmethod := hi.cls.method? t.lexeme
  rw [← hR.lexeme h]
  generalize (m.fieldsOf i).get? t.lexeme = o at hfield ⊢
  generalize (n.fieldsOf j).get? t.lexeme = o' at hfield ⊢
  cases hfield with
  | some hv => exact pure hv
  | none =>
    dsimp only
    generalize i.cls.method? t.lexeme = o at hmethod ⊢
    generalize j.cls.method? t.lexeme = o' at hmethod ⊢
    cases hmethod with
    | some hf => exact boundMethod hf (.inst hi)
    | none => exact fail h _

/-- Both machines take the same reading, and the clocks go on together. -/
theorem readClock : Twin R Eq Exec.readClock Exec.readClock := fun _ _ hm =>
  .ok (congrArg Clock.now hm.clock) { hm with clock := congrArg Clock.tick hm.clock }

theorem callNative (hR : R.Spelled) (k : Native) {vs ws : List Value}
    (h : List.Forall₂ (Value.Twin R) vs ws) :
    Twin R (Value.Twin R) (Exec.callNative k vs) (Exec.callNative k ws) := by
  unfold Exec.callNative
  cases k.behaviour with
  | clock =>
    cases h with
    | nil => exact readClock.map fun _ _ h => h ▸ .number _
    | cons _ _ => exact fault _
  | first =>
    cases h with
    | nil => exact pure .nil
    | cons hv _ => exact pure hv
  | join =>
    have hshown : vs.map Value.shown = ws.map Value.shown := by
      induction h with
      | nil => rfl
      | cons hv _ ih => rw [List.map_cons, List.map_cons, hv.shown_eq hR, ih]
    exact pure (hshown ▸ .text _)
  | count => exact pure (h.length_eq ▸ .number _)
  | unimplemented => exact fault _

theorem checkCall {t t' : Token} (h : R t t') {v w : Value} (hv : v.Twin R w) (count : Nat) :
    Twin R Eq (Exec.checkCall t v count) (Exec.checkCall t' w count) := by
  have hcount :
      ∀ arity, Twin R Eq (if count ≠ arity then Exec.fail t (.wrongCount arity count)
      else Pure.pure ()) (if count ≠ arity then Exec.fail t' (.wrongCount arity count)
      else Pure.pure ()) := by
    intro arity
    split
    · exact fail h _
    · exact pure rfl
  unfold Exec.checkCall
  cases hv with
  | function hf =>
    dsimp only
    rw [← hf.arity_eq]
    exact hcount _
  | cls hc =>
    dsimp only
    rw [← hc.arity_eq]
    exact hcount _
  | native k =>
    dsimp only
    split
    · exact fault _
    · exact hcount _
  | _ => exact fail h _

theorem superMethod (hR : R.Spelled) {t t' u u' : Token} (h : R t t') (hu : R u u') :
    Twin R (Value.Twin R) (Exec.superMethod t u) (Exec.superMethod t' u') := by
  refine get.bind fun m n hm => ?_
  rw [← hm.distance h, ← hR.lexeme hu, ← hm.current]
  cases m.distances.find? t.site with
  | none => exact fault _
  | some d =>
    refine (ofFault (hm.scopes.getAt _ _ _)).bind fun parent parent' hparent =>
      (ofFault (hm.scopes.getAt _ _ _)).bind fun this this' hthis => ?_
    cases hparent with
    | @cls c c' hc =>
      have hmethod := hc.method? u.lexeme
      dsimp only
      generalize c.method? u.lexeme = o at hmethod ⊢
      generalize c'.method? u.lexeme = o' at hmethod ⊢
      cases hmethod with
      | some hf => exact boundMethod hf hthis
      | none => exact fail hu _
    | _ => exact fault _

theorem asSuperclass {t t' : Token} (h : R t t') {v w : Value} (hv : v.Twin R w) :
    Twin R (Class.Twin R) (Exec.asSuperclass t v) (Exec.asSuperclass t' w) := by
  cases hv with
  | cls hc => exact pure hc
  | _ => exact fail h _

theorem declareClass (hR : R.Spelled) {ev ev' : Token → Exec Value}
    (hev : ∀ t t', R t t' → Twin R (Value.Twin R) (ev t) (ev' t')) {t t' : Token} (h : R t t')
    {o o' : Option Token} (ho : Option.Rel R o o') {fs gs : List FunDecl}
    (hfs : List.Forall₂ (FunDecl.Twin R) fs gs) :
    Twin R Eq (Exec.declareClass t o fs ev) (Exec.declareClass t' o' gs ev') := by
  cases ho with
  | none =>
    rw [Exec.declareClass_none, Exec.declareClass_none, ← hR.lexeme h]
    refine (define _ .nil).bindEq fun _ => get.bind fun m n hm => ?_
    rw [← hm.current]
    exact (newClass hR _ .none hfs _).bind fun _ _ hc => define _ (.cls hc)
  | some hp =>
    rw [Exec.declareClass_some, Exec.declareClass_some, ← hR.lexeme h]
    refine (define _ .nil).bindEq fun _ => ((hev _ _ hp).bind fun _ _ hv => asSuperclass hp hv).bind
      fun c c' hc => get.bind fun m n hm => ?_
    rw [← hm.current]
    refine (newScope _ (Bindings.Twin.empty.set _ (.cls hc))).bindEq fun scope => ?_
    exact (newClass hR _ (.some hc) hfs _).bind fun _ _ hd => define _ (.cls hd)

theorem invoke (hR : R.Spelled) {run run' : List Stmt → Exec Unit}
    (hrun : ∀ ss ss', List.Forall₂ (Stmt.Twin R) ss ss' → Twin R Eq (run ss) (run' ss'))
    {f g : Closure}
    (h : f.Twin R g) {vs ws : List Value} (hvs : List.Forall₂ (Value.Twin R) vs ws) :
    Twin R (Value.Twin R) (Exec.invoke f vs run) (Exec.invoke g ws run') := by
  unfold Exec.invoke
  rw [← h.scope, ← h.isInitializer, ← twins_lexemes hR h.decl.params]
  refine (newScope _ (Bindings.Twin.empty.setAll _ hvs)).bindEq fun scope => ?_
  refine ((hrun _ _ h.decl.body).within scope).catchReturn.bind fun v w hv => ?_
  split
  · exact get.bind fun m n hm => ofFault (hm.scopes.getAt _ _ _)
  · exact pure hv

theorem construct (hR : R.Spelled) {run run' : List Stmt → Exec Unit}
    (hrun : ∀ ss ss', List.Forall₂ (Stmt.Twin R) ss ss' → Twin R Eq (run ss) (run' ss'))
    {c d : Class}
    (h : c.Twin R d) {vs ws : List Value} (hvs : List.Forall₂ (Value.Twin R) vs ws) :
    Twin R (Value.Twin R) (Exec.construct c vs run) (Exec.construct d ws run') := by
  refine (newInstance h).bind fun i j hi => ?_
  have hinitializer : Option.Rel (Closure.Twin R) c.initializer? d.initializer? := h.method? _
  generalize c.initializer? = o at hinitializer ⊢
  generalize d.initializer? = o' at hinitializer ⊢
  cases hinitializer with
  | none => exact pure (.inst hi)
  | some hf =>
    exact (bindMethod hf (.inst hi)).bind fun _ _ hbound =>
      (invoke hR hrun hbound hvs).bind fun _ _ _ => pure (.inst hi)

end Twin
end Exec

/-! ## Evaluation -/

/-- Evaluation of twins to a depth. -/
structure TwinEval (R : Pairing) (bound depth : Nat) : Prop where
  eval : ∀ e e', e.Twin R e' → Exec.Twin R (Value.Twin R) (eval bound depth e) (eval bound depth e')
  call : ∀ v w, v.Twin R w → ∀ vs ws, List.Forall₂ (Value.Twin R) vs ws →
    Exec.Twin R (Value.Twin R) (call bound depth v vs) (call bound depth w ws)
  exec : ∀ s s', s.Twin R s' → Exec.Twin R Eq (exec bound depth s) (exec bound depth s')

namespace TwinEval

variable {R : Pairing} {bound depth : Nat}

theorem execAll (ih : TwinEval R bound depth) (ss ss' : List Stmt)
    (h : List.Forall₂ (Stmt.Twin R) ss ss') :
    Exec.Twin R Eq (ss.forM (Lox.exec bound depth)) (ss'.forM (Lox.exec bound depth)) :=
      .forM ih.exec h

theorem eval_succ (hR : R.Spelled) (ih : TwinEval R bound depth) (e e' : Expr) (h : e.Twin R e') :
    Exec.Twin R (Value.Twin R) (Lox.eval bound (depth + 1) e) (Lox.eval bound (depth + 1) e') := by
  cases h with
  | literal v => exact .pure v.twin_toValue
  | var h => exact .lookUp hR h
  | this h => exact .lookUp hR h
  | super h hu => exact .superMethod hR h hu
  | grouping he => exact ih.eval _ _ he
  | assign h he =>
    rw [Lox.eval, Lox.eval]
    exact (ih.eval _ _ he).bind fun v w hv => (Exec.Twin.assign hR h hv).bindEq fun _ => .pure hv
  | unary h he =>
    rw [Lox.eval, Lox.eval]
    exact (ih.eval _ _ he).bind fun v w hv => .ofResult (Operator.twin_unary hR h hv)
  | binary he h hf =>
    rw [Lox.eval, Lox.eval]
    exact (ih.eval _ _ he).bind fun v w hv => (ih.eval _ _ hf).bind fun v' w' hv' =>
      .ofResult (Operator.twin_binary hR h hv hv')
  | logical he h hf =>
    rw [Lox.eval, Lox.eval]
    refine (ih.eval _ _ he).bind fun v w hv => ?_
    rw [← hv.truthy_eq, ← hR.kind h]
    split
    · exact .pure hv
    · exact ih.eval _ _ hf
  | call he h hes =>
    rw [Lox.eval, Lox.eval]
    refine (ih.eval _ _ he).bind fun v w hv => (Exec.Twin.mapM ih.eval hes).bind fun vs ws hvs => ?_
    rw [← hvs.length_eq]
    exact (Exec.Twin.checkCall h hv _).bindEq fun _ => ih.call _ _ hv _ _ hvs
  | get he h =>
    rw [Lox.eval, Lox.eval]
    refine (ih.eval _ _ he).bind fun v w hv => ?_
    cases hv with
    | inst hi => exact .getProperty hR hi h
    | _ => exact .fail h _
  | set he h hf =>
    rw [Lox.eval, Lox.eval]
    refine (ih.eval _ _ he).bind fun v w hv => ?_
    cases hv with
    | inst hi =>
      refine (ih.eval _ _ hf).bind fun v w hv => ?_
      rw [← hR.lexeme h]
      exact (Exec.Twin.setField hi _ hv).bindEq fun _ => .pure hv
    | _ => exact .fail h _

theorem call_succ (hR : R.Spelled) (ih : TwinEval R bound depth) (v w : Value) (hv : v.Twin R w)
    (vs ws : List Value) (hvs : List.Forall₂ (Value.Twin R) vs ws) :
    Exec.Twin R (Value.Twin R) (Lox.call bound (depth + 1) v vs)
      (Lox.call bound (depth + 1) w ws) := by
  cases hv with
  | function hf => exact .invoke hR ih.execAll hf hvs
  | cls hc => exact .construct hR ih.execAll hc hvs
  | native k => exact .callNative hR k hvs
  | _ => exact .fault _

theorem evalOption (ih : TwinEval R bound depth) {o o' : Option Expr}
    (h : Option.Rel (Expr.Twin R) o o') :
    Exec.Twin R (Value.Twin R) (o.elim (pure .nil) (Lox.eval bound depth))
      (o'.elim (pure .nil) (Lox.eval bound depth)) := by
  cases h with
  | none => exact .pure .nil
  | some he => exact ih.eval _ _ he

theorem ifElse_succ (ih : TwinEval R bound depth) {e e' : Expr} {s s' : Stmt} {o o' : Option Stmt}
    (he : e.Twin R e') (hs : s.Twin R s') (ho : Option.Rel (Stmt.Twin R) o o') :
    Exec.Twin R Eq (Lox.exec bound (depth + 1) (.ifElse e s o))
      (Lox.exec bound (depth + 1) (.ifElse e' s' o')) := by
  cases ho with
  | none =>
    rw [Lox.exec, Lox.exec]
    refine (ih.eval _ _ he).bind fun v w hv => ?_
    rw [← hv.truthy_eq]
    split
    · exact ih.exec _ _ hs
    · exact .pure rfl
  | some ht =>
    rw [Lox.exec, Lox.exec]
    refine (ih.eval _ _ he).bind fun v w hv => ?_
    rw [← hv.truthy_eq]
    split
    · exact ih.exec _ _ hs
    · exact ih.exec _ _ ht

theorem exec_succ (hR : R.Spelled) (ih : TwinEval R bound depth) (s s' : Stmt) (h : s.Twin R s') :
    Exec.Twin R Eq (Lox.exec bound (depth + 1) s) (Lox.exec bound (depth + 1) s') := by
  cases h with
  | expr he =>
    rw [Lox.exec, Lox.exec]
    exact (ih.eval _ _ he).bind fun _ _ _ => .pure rfl
  | print he =>
    rw [Lox.exec, Lox.exec]
    refine (ih.eval _ _ he).bind fun v w hv => ?_
    rw [← hv.shown_eq hR]
    exact .print _
  | varDecl h ho =>
    rw [exec_varDecl, exec_varDecl, ← hR.lexeme h]
    exact (ih.evalOption ho).bind fun _ _ hv => .define _ hv
  | block hss =>
    rw [Lox.exec, Lox.exec]
    refine Exec.Twin.get.bind fun m n hm => ?_
    rw [← hm.current]
    exact (Exec.Twin.newScope _ .empty).bindEq fun scope => (ih.execAll _ _ hss).within scope
  | ifElse he hs ho => exact ih.ifElse_succ he hs ho
  | whileDo he hs =>
    rw [Lox.exec, Lox.exec]
    exact .loop ((ih.eval _ _ he).map fun _ _ hv => hv.truthy_eq) (ih.exec _ _ hs) bound
  | funDecl hf =>
    rw [Lox.exec, Lox.exec]
    refine Exec.Twin.get.bind fun m n hm => ?_
    rw [← hm.current, ← hR.lexeme hf.name]
    exact (Exec.Twin.newClosure hf _ _).bind fun _ _ hclosure => .define _ (.function hclosure)
  | ret h ho =>
    rw [exec_ret, exec_ret]
    exact (ih.evalOption ho).bind fun _ _ hv => .throw (.returned hv)
  | classDecl h ho hfs =>
    rw [Lox.exec, Lox.exec]
    exact .declareClass hR (fun _ _ ht => ih.eval _ _ (.var ht)) h ho hfs

theorem of_depth (hR : R.Spelled) (bound depth : Nat) : TwinEval R bound depth := by
  induction depth with
  | zero => exact ⟨fun _ _ _ => .throw .overflow, fun _ _ _ _ _ _ => .throw .overflow,
      fun _ _ _ => .throw .overflow⟩
  | succ depth ih => exact ⟨ih.eval_succ hR, ih.call_succ hR, ih.exec_succ hR⟩

end TwinEval

/-! ## Programs -/

inductive Outcome.Twin (R : Pairing) : Outcome → Outcome → Prop where
  | refused : Twin R .refused .refused
  | completed : Twin R .completed .completed
  | unread : Twin R .unread .unread
  | unresolved : Twin R .unresolved .unresolved
  | stopped {e e' : Exit} : e.Twin R e' → Twin R (.stopped e) (.stopped e')

/-- Twin programs have the same effect on twin machines. -/
theorem Machine.Twin.execute {R : Pairing} (hR : R.Spelled) {m n : Machine} (hm : m.Twin R n)
    (l : Limits) {ss ss' : List Stmt} (h : List.Forall₂ (Stmt.Twin R) ss ss') :
    (m.execute l ss).1.Twin R (n.execute l ss').1 ∧
      (m.execute l ss).2.Twin R (n.execute l ss').2 := by
  have hrun : Exec.TwinResult R Eq (execAll l.iterations l.depth ss { m with lastError := none })
      (execAll l.iterations l.depth ss' { n with lastError := none }) :=
    (TwinEval.of_depth hR l.iterations l.depth).execAll _ _ h _ _ { hm with }
  unfold Machine.execute
  generalize execAll l.iterations l.depth ss { m with lastError := none } = r at hrun ⊢
  generalize execAll l.iterations l.depth ss' { n with lastError := none } = r' at hrun ⊢
  cases hrun with
  | ok _ hm => exact ⟨.completed, hm⟩
  | error he hm =>
    cases he with
    | returned hv => exact ⟨.stopped (.returned hv), hm⟩
    | failed h => exact ⟨.stopped (.failed h), { hm with }⟩
    | fault f => exact ⟨.stopped (.fault f), hm⟩
    | overflow => exact ⟨.stopped .overflow, hm⟩
    | unfinished => exact ⟨.stopped .unfinished, hm⟩

end Lox
