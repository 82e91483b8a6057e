import Lox.Proofs.Frames
import Lox.Proofs.Walks

/-!
# Twins

Two texts may give the same tokens at different places: on other lines, and with other sites. A
`Pairing` says which token of the one stands for which token of the other. Two trees are *twins* if
they are the same but for their tokens, and the tokens at the same places are paired. The walks over
twins go through the same scopes, so that twins are resolved alike to whatever depth
(`twin_resolveWithin`): the same references are found at the same distances, and the same complaints
are made.
-/

namespace Lox

/-- Which token of one text stands for which token of another. -/
abbrev Pairing := Token → Token → Prop

/-- Paired tokens are of the same category and spelled the same. -/
structure Pairing.Spelled (R : Pairing) : Prop where
  kind : ∀ {t t'}, R t t' → t.kind = t'.kind
  lexeme : ∀ {t t'}, R t t' → t.lexeme = t'.lexeme

/-! ## Trees -/

inductive Expr.Twin (R : Pairing) : Expr → Expr → Prop where
  | literal (v : Literal) : Twin R (.literal v) (.literal v)
  | var {t t' : Token} : R t t' → Twin R (.var t) (.var t')
  | assign {t t' : Token} {e e' : Expr} : R t t' → e.Twin R e' →
      Twin R (.assign t e) (.assign t' e')
  | unary {t t' : Token} {e e' : Expr} : R t t' → e.Twin R e' → Twin R (.unary t e) (.unary t' e')
  | binary {t t' : Token} {e e' f f' : Expr} : e.Twin R e' → R t t' → f.Twin R f' →
      Twin R (.binary e t f) (.binary e' t' f')
  | logical {t t' : Token} {e e' f f' : Expr} : e.Twin R e' → R t t' → f.Twin R f' →
      Twin R (.logical e t f) (.logical e' t' f')
  | grouping {e e' : Expr} : e.Twin R e' → Twin R (.grouping e) (.grouping e')
  | call {t t' : Token} {e e' : Expr} {es es' : List Expr} : e.Twin R e' → R t t' →
      List.Forall₂ (Expr.Twin R) es es' → Twin R (.call e t es) (.call e' t' es')
  | get {t t' : Token} {e e' : Expr} : e.Twin R e' → R t t' → Twin R (.get e t) (.get e' t')
  | set {t t' : Token} {e e' f f' : Expr} : e.Twin R e' → R t t' → f.Twin R f' →
      Twin R (.set e t f) (.set e' t' f')
  | super {t t' u u' : Token} : R t t' → R u u' → Twin R (.super t u) (.super t' u')
  | this {t t' : Token} : R t t' → Twin R (.this t) (.this t')

inductive Callable.Twin {σ : Type} (R : Pairing) (S : σ → σ → Prop) :
    Callable σ → Callable σ → Prop where
  | mk {t t' : Token} {ps ps' : List Token} {ss ss' : List σ} : R t t' → List.Forall₂ R ps ps' →
      List.Forall₂ S ss ss' → Twin R S ⟨t, ps, ss⟩ ⟨t', ps', ss'⟩

inductive Stmt.Twin (R : Pairing) : Stmt → Stmt → Prop where
  | expr {e e' : Expr} : e.Twin R e' → Twin R (.expr e) (.expr e')
  | print {e e' : Expr} : e.Twin R e' → Twin R (.print e) (.print e')
  | varDecl {t t' : Token} {o o' : Option Expr} : R t t' → Option.Rel (Expr.Twin R) o o' →
      Twin R (.varDecl t o) (.varDecl t' o')
  | block {ss ss' : List Stmt} : List.Forall₂ (Stmt.Twin R) ss ss' → Twin R (.block ss) (.block ss')
  | ifElse {e e' : Expr} {s s' : Stmt} {o o' : Option Stmt} : e.Twin R e' → s.Twin R s' →
      Option.Rel (Stmt.Twin R) o o' → Twin R (.ifElse e s o) (.ifElse e' s' o')
  | whileDo {e e' : Expr} {s s' : Stmt} : e.Twin R e' → s.Twin R s' →
      Twin R (.whileDo e s) (.whileDo e' s')
  | funDecl {f g : FunDecl} : Callable.Twin R (Stmt.Twin R) f g → Twin R (.funDecl f) (.funDecl g)
  | ret {t t' : Token} {o o' : Option Expr} : R t t' → Option.Rel (Expr.Twin R) o o' →
      Twin R (.ret t o) (.ret t' o')
  | classDecl {t t' : Token} {o o' : Option Token} {fs gs : List FunDecl} : R t t' →
      Option.Rel R o o' → List.Forall₂ (Callable.Twin R (Stmt.Twin R)) fs gs →
      Twin R (.classDecl t o fs) (.classDecl t' o' gs)

abbrev FunDecl.Twin (R : Pairing) : FunDecl → FunDecl → Prop := Callable.Twin R (Stmt.Twin R)

/-! ## Growing pairings -/

mutual

theorem Expr.Twin.mono {R R' : Pairing} (hR : ∀ t t', R t t' → R' t t') : ∀ {e e' : Expr},
    e.Twin R e' → e.Twin R' e'
  | .literal _, _, .literal v => .literal v
  | .var _, _, .var h => .var (hR _ _ h)
  | .assign .., _, .assign h he => .assign (hR _ _ h) (he.mono hR)
  | .unary .., _, .unary h he => .unary (hR _ _ h) (he.mono hR)
  | .binary .., _, .binary he h hf => .binary (he.mono hR) (hR _ _ h) (hf.mono hR)
  | .logical .., _, .logical he h hf => .logical (he.mono hR) (hR _ _ h) (hf.mono hR)
  | .grouping _, _, .grouping he => .grouping (he.mono hR)
  | .call .., _, .call he h hes => .call (he.mono hR) (hR _ _ h) (Expr.twins_mono hR hes)
  | .get .., _, .get he h => .get (he.mono hR) (hR _ _ h)
  | .set .., _, .set he h hf => .set (he.mono hR) (hR _ _ h) (hf.mono hR)
  | .super .., _, .super h h' => .super (hR _ _ h) (hR _ _ h')
  | .this _, _, .this h => .this (hR _ _ h)

theorem Expr.twins_mono {R R' : Pairing} (hR : ∀ t t', R t t' → R' t t') : ∀ {es es' : List Expr},
    List.Forall₂ (Expr.Twin R) es es' → List.Forall₂ (Expr.Twin R') es es'
  | [], _, .nil => .nil
  | _ :: _, _, .cons h hs => .cons (h.mono hR) (Expr.twins_mono hR hs)

end

mutual

theorem Stmt.Twin.mono {R R' : Pairing} (hR : ∀ t t', R t t' → R' t t') : ∀ {s s' : Stmt},
    s.Twin R s' → s.Twin R' s'
  | .expr _, _, .expr he => .expr (he.mono hR)
  | .print _, _, .print he => .print (he.mono hR)
  | .varDecl .., _, .varDecl h ho =>
    .varDecl (hR _ _ h) (optionRel_mono (fun _ _ => Expr.Twin.mono hR) ho)
  | .block _, _, .block hs => .block (Stmt.twins_mono hR hs)
  | .ifElse _ _ none, _, .ifElse he hs .none => .ifElse (he.mono hR) (hs.mono hR) .none
  | .ifElse _ _ (some _), _, .ifElse he hs (.some ht) =>
    .ifElse (he.mono hR) (hs.mono hR) (.some (ht.mono hR))
  | .whileDo .., _, .whileDo he hs => .whileDo (he.mono hR) (hs.mono hR)
  | .funDecl _, _, .funDecl hf => .funDecl (Stmt.twinFunction_mono hR hf)
  | .ret .., _, .ret h ho => .ret (hR _ _ h) (optionRel_mono (fun _ _ => Expr.Twin.mono hR) ho)
  | .classDecl .., _, .classDecl h ho hfs =>
    .classDecl (hR _ _ h) (optionRel_mono hR ho) (Stmt.twinMethods_mono hR hfs)

theorem Stmt.twins_mono {R R' : Pairing} (hR : ∀ t t', R t t' → R' t t') : ∀ {ss ss' : List Stmt},
    List.Forall₂ (Stmt.Twin R) ss ss' → List.Forall₂ (Stmt.Twin R') ss ss'
  | [], _, .nil => .nil
  | _ :: _, _, .cons h hs => .cons (h.mono hR) (Stmt.twins_mono hR hs)

theorem Stmt.twinFunction_mono {R R' : Pairing} (hR : ∀ t t', R t t' → R' t t') :
    ∀ {f g : Callable Stmt}, Callable.Twin R (Stmt.Twin R) f g → Callable.Twin R' (Stmt.Twin R') f g
  | ⟨_, _, _⟩, _, .mk h hps hss => .mk (hR _ _ h) (hps.imp hR) (Stmt.twins_mono hR hss)

theorem Stmt.twinMethods_mono {R R' : Pairing} (hR : ∀ t t', R t t' → R' t t') :
    ∀ {fs gs : List (Callable Stmt)}, List.Forall₂ (Callable.Twin R (Stmt.Twin R)) fs gs →
      List.Forall₂ (Callable.Twin R' (Stmt.Twin R')) fs gs
  | [], _, .nil => .nil
  | _ :: _, _, .cons h hs => .cons (Stmt.twinFunction_mono hR h) (Stmt.twinMethods_mono hR hs)

end

/-! ## Heights -/

section

variable {R : Pairing}

mutual

/-- Twins nest equally deep, whatever is known of the paired tokens. -/
theorem Expr.Twin.height_eq : ∀ {e e' : Expr}, e.Twin R e' → e.height = e'.height
  | .literal _, _, .literal _ => rfl
  | .var _, _, .var _ => rfl
  | .assign .., _, .assign _ he => by rw [Expr.height, Expr.height, he.height_eq]
  | .unary .., _, .unary _ he => by rw [Expr.height, Expr.height, he.height_eq]
  | .binary .., _, .binary he _ hf => by rw [Expr.height, Expr.height, he.height_eq, hf.height_eq]
  | .logical .., _, .logical he _ hf => by rw [Expr.height, Expr.height, he.height_eq, hf.height_eq]
  | .grouping _, _, .grouping he => by rw [Expr.height, Expr.height, he.height_eq]
  | .call .., _, .call he _ hes => by
    rw [Expr.height, Expr.height, he.height_eq, Expr.twins_height_eq hes]
  | .get .., _, .get he _ => by rw [Expr.height, Expr.height, he.height_eq]
  | .set .., _, .set he _ hf => by rw [Expr.height, Expr.height, he.height_eq, hf.height_eq]
  | .super .., _, .super .. => rfl
  | .this _, _, .this _ => rfl

theorem Expr.twins_height_eq : ∀ {es es' : List Expr}, List.Forall₂ (Expr.Twin R) es es' →
    Expr.heightAll es = Expr.heightAll es'
  | [], _, .nil => rfl
  | _ :: _, _, .cons h hs => by
    rw [Expr.heightAll, Expr.heightAll, h.height_eq, Expr.twins_height_eq hs]

end

theorem Expr.twinOption_height_eq {o o' : Option Expr} (h : Option.Rel (Expr.Twin R) o o') :
    Expr.heightOption o = Expr.heightOption o' := by
  cases h with
  | none => rfl
  | some he => exact he.height_eq

mutual

theorem Stmt.Twin.height_eq : ∀ {s s' : Stmt}, s.Twin R s' → s.height = s'.height
  | .expr _, _, .expr he => by rw [Stmt.height, Stmt.height, he.height_eq]
  | .print _, _, .print he => by rw [Stmt.height, Stmt.height, he.height_eq]
  | .varDecl .., _, .varDecl _ ho => by rw [Stmt.height, Stmt.height, Expr.twinOption_height_eq ho]
  | .block _, _, .block hs => by rw [Stmt.height, Stmt.height, Stmt.twins_height_eq hs]
  | .ifElse _ _ none, _, .ifElse he hs .none => by
    rw [Stmt.height, Stmt.height, he.height_eq, hs.height_eq]
  | .ifElse _ _ (some _), _, .ifElse he hs (.some ht) => by
    rw [Stmt.height, Stmt.height, he.height_eq, hs.height_eq, ht.height_eq]
  | .whileDo .., _, .whileDo he hs => by rw [Stmt.height, Stmt.height, he.height_eq, hs.height_eq]
  | .funDecl _, _, .funDecl hf => by rw [Stmt.height, Stmt.height, Stmt.twinFunction_height_eq hf]
  | .ret .., _, .ret _ ho => by rw [Stmt.height, Stmt.height, Expr.twinOption_height_eq ho]
  | .classDecl _ none _, _, .classDecl _ .none hfs => by
    rw [Stmt.height, Stmt.height, Stmt.twinMethods_height_eq hfs]
  | .classDecl _ (some _) _, _, .classDecl _ (.some _) hfs => by
    rw [Stmt.height, Stmt.height, Stmt.twinMethods_height_eq hfs]
    rfl

theorem Stmt.twins_height_eq : ∀ {ss ss' : List Stmt}, List.Forall₂ (Stmt.Twin R) ss ss' →
    Stmt.heightAll ss = Stmt.heightAll ss'
  | [], _, .nil => rfl
  | _ :: _, _, .cons h hs => by
    rw [Stmt.heightAll, Stmt.heightAll, h.height_eq, Stmt.twins_height_eq hs]

theorem Stmt.twinFunction_height_eq : ∀ {f g : Callable Stmt}, Callable.Twin R (Stmt.Twin R) f g →
    Stmt.heightFunction f = Stmt.heightFunction g
  | ⟨_, _, _⟩, _, .mk _ _ hss => by
    rw [Stmt.heightFunction, Stmt.heightFunction, Stmt.twins_height_eq hss]

theorem Stmt.twinMethods_height_eq : ∀ {fs gs : List (Callable Stmt)},
    List.Forall₂ (Callable.Twin R (Stmt.Twin R)) fs gs →
      Stmt.heightMethods fs = Stmt.heightMethods gs
  | [], _, .nil => rfl
  | _ :: _, _, .cons h hs => by
    rw [Stmt.heightMethods, Stmt.heightMethods, Stmt.twinFunction_height_eq h,
      Stmt.twinMethods_height_eq hs]

end

end

/-! ## Findings -/

/-- How errors about paired tokens compare. -/
def Pairing.Reports (R : Pairing) (E : StaticError → StaticError → Prop) : Prop :=
  ∀ {t t'}, R t t' → ∀ c, E (.atToken t c) (.atToken t' c)

/-- The same sort of reference at the same distance. -/
structure Resolution.Twin (R : Pairing) (r r' : Resolution) : Prop where
  reference : r.reference = r'.reference
  token : R r.token r'.token
  distance : r.distance = r'.distance

structure Findings.Twin (R : Pairing) (E : StaticError → StaticError → Prop) (f g : Findings) :
    Prop where
  resolutions : List.Forall₂ (Resolution.Twin R) f.resolutions g.resolutions
  errors : List.Forall₂ E f.errors g.errors

section

variable {R : Pairing} {E : StaticError → StaticError → Prop}

namespace Findings.Twin

theorem none : Findings.Twin R E .none .none := ⟨.nil, .nil⟩

theorem append {f f' g g' : Findings} (hf : f.Twin R E f') (hg : g.Twin R E g') :
    (f ++ g).Twin R E (f' ++ g') :=
  ⟨List.rel_append hf.resolutions hg.resolutions, List.rel_append hf.errors hg.errors⟩

theorem error (hE : R.Reports E) {t t' : Token} (h : R t t') (c : Complaint) :
    (Findings.error t c).Twin R E (.error t' c) := ⟨.nil, .cons (hE h c) .nil⟩

theorem errorIf (hE : R.Reports E) (b : Bool) {t t' : Token} (h : R t t') (c : Complaint) :
    (Findings.errorIf b t c).Twin R E (.errorIf b t' c) := by
  cases b with
  | false => exact none
  | true => exact error hE h c

end Findings.Twin

namespace Static

theorem declare_congr (s : Static) {t t' : Token} (h : t.lexeme = t'.lexeme) :
    s.declare t = s.declare t' := by
  cases s with
  | nil => rfl
  | cons scope s => rw [declare, declare, h]

theorem complete_congr (s : Static) {t t' : Token} (h : t.lexeme = t'.lexeme) :
    s.complete t = s.complete t' := by
  cases s with
  | nil => rfl
  | cons scope s => rw [complete, complete, h]

theorem twin_declareError (hR : R.Spelled) (hE : R.Reports E) (s : Static) {t t' : Token}
    (h : R t t') :
    (s.declareError t).Twin R E (s.declareError t') := by
  cases s with
  | nil => exact .none
  | cons scope s =>
    rw [declareError, declareError, ← hR.lexeme h]
    exact .errorIf hE _ h _

theorem twin_refer (hR : R.Spelled) (s : Static) (r : Reference) {t t' : Token} (h : R t t') :
    (s.refer r t).Twin R E (s.refer r t') := by
  rw [refer, refer, ← hR.lexeme h]
  cases s.distance? t.lexeme with
  | none => exact .none
  | some d => exact ⟨.cons ⟨rfl, h, rfl⟩ .nil, .nil⟩

theorem twin_referVar (hR : R.Spelled) (hE : R.Reports E) (s : Static) {t t' : Token} (h : R t t') :
    (s.referVar t).Twin R E (s.referVar t') := by
  rw [referVar, referVar, ← hR.lexeme h]
  exact (Findings.Twin.errorIf hE _ h _).append (s.twin_refer hR .var h)

end Static

/-! ## Walks -/

/-- The same place, and findings that are twins. -/
structure Walker.Twin (R : Pairing) (E : StaticError → StaticError → Prop) (w w' : Walker) :
    Prop where
  scopes : w.scopes = w'.scopes
  context : w.context = w'.context
  found : w.found.Twin R E w'.found

namespace Walking

inductive TwinResult (R : Pairing) (E : StaticError → StaticError → Prop) :
    EStateM.Result Unit Walker Unit → EStateM.Result Unit Walker Unit → Prop where
  | ok {w w' : Walker} : w.Twin R E w' → TwinResult R E (.ok () w) (.ok () w')
  | error {w w' : Walker} : w.Twin R E w' → TwinResult R E (.error () w) (.error () w')

/-- Both parts of walks do the same at the same place. -/
def Twin (R : Pairing) (E : StaticError → StaticError → Prop) (x y : Walking Unit) : Prop :=
  ∀ w w' : Walker, w.Twin R E w' → TwinResult R E (x w) (y w')

namespace Twin

variable {x x' y y' : Walking Unit}

theorem pure : Twin R E (Pure.pure ()) (Pure.pure ()) := fun _ _ h => .ok h

theorem fail : Twin R E (throw ()) (throw ()) := fun _ _ h => .error h

theorem bind (hx : Twin R E x x') (hy : Twin R E y y') :
    Twin R E (x >>= fun _ => y) (x' >>= fun _ => y') := by
  intro w w' h
  show TwinResult R E (EStateM.bind x _ w) (EStateM.bind x' _ w')
  have hfirst := hx w w' h
  unfold EStateM.bind
  generalize x w = r at hfirst ⊢
  generalize x' w' = r' at hfirst ⊢
  cases hfirst with
  | ok h => exact hy _ _ h
  | error h => exact .error h

theorem get {k k' : Walker → Walking Unit} (h : ∀ {w w'}, w.Twin R E w' → Twin R E (k w) (k' w')) :
    Twin R E (MonadState.get >>= k) (MonadState.get >>= k') := fun w w' hw => h hw w w' hw

theorem find {f g : Context → Static → Findings} (h : ∀ c s, (f c s).Twin R E (g c s)) :
    Twin R E (find f) (find g) := by
  rintro ⟨s, c, found⟩ ⟨_, _, found'⟩ ⟨rfl, rfl, hfound⟩
  exact .ok ⟨rfl, rfl, hfound.append (h c s)⟩

theorem changeScopes {f g : Static → Static} (h : ∀ s, f s = g s) :
    Twin R E (changeScopes f) (changeScopes g) := by
  rintro ⟨s, c, found⟩ ⟨_, _, found'⟩ ⟨rfl, rfl, hfound⟩
  exact .ok ⟨h s, rfl, hfound⟩

theorem setFunction (k : FunctionContext) : Twin R E (setFunction k) (setFunction k) := by
  rintro ⟨s, c, found⟩ ⟨_, _, found'⟩ ⟨rfl, rfl, hfound⟩
  exact .ok ⟨rfl, rfl, hfound⟩

theorem setClass (k : ClassContext) : Twin R E (setClass k) (setClass k) := by
  rintro ⟨s, c, found⟩ ⟨_, _, found'⟩ ⟨rfl, rfl, hfound⟩
  exact .ok ⟨rfl, rfl, hfound⟩

theorem beginScope (scope : Bindings Bool) : Twin R E (beginScope scope) (beginScope scope) :=
  changeScopes fun _ => rfl

theorem endScope : Twin R E endScope endScope := changeScopes fun _ => rfl

theorem forM {α : Type} {S : α → α → Prop} {f g : α → Walking Unit}
    (h : ∀ a b, S a b → Twin R E (f a) (g b)) {as bs : List α} (hs : List.Forall₂ S as bs) :
    Twin R E (as.forM f) (bs.forM g) := by
  induction hs with
  | nil => exact pure
  | cons hab _ ih => exact (h _ _ hab).bind ih

theorem forOption {α : Type} {S : α → α → Prop} {f g : α → Walking Unit}
    (h : ∀ a b, S a b → Twin R E (f a) (g b)) {o o' : Option α} (ho : Option.Rel S o o') :
    Twin R E (o.forM f) (o'.forM g) := by
  cases ho with
  | none => exact pure
  | some hab => exact h _ _ hab

theorem declare (hR : R.Spelled) (hE : R.Reports E) {t t' : Token} (h : R t t') :
    Twin R E (declare t) (declare t') :=
  (find fun _ s => s.twin_declareError hR hE h).bind
    (changeScopes fun s => s.declare_congr (hR.lexeme h))

theorem complete (hR : R.Spelled) {t t' : Token} (h : R t t') :
    Twin R E (complete t) (complete t') :=
  changeScopes fun s => s.complete_congr (hR.lexeme h)

theorem params (hR : R.Spelled) (hE : R.Reports E) {ps ps' : List Token}
    (h : List.Forall₂ R ps ps') :
    Twin R E (ps.forM fun p => do Walking.declare p; Walking.complete p)
      (ps'.forM fun p => do Walking.declare p; Walking.complete p) := by
  refine forM (fun p p' hp => ?_) h
  exact (declare hR hE hp).bind (complete hR hp)

theorem function (hR : R.Spelled) (hE : R.Reports E) {visit visit' : Stmt → Walking Unit}
    (hvisit : ∀ s s', Stmt.Twin R s s' → Twin R E (visit s) (visit' s')) (kind : FunctionContext)
    {f g : FunDecl} (h : FunDecl.Twin R f g) :
    Twin R E (function visit kind f) (function visit' kind g) := by
  obtain ⟨-, hparams, hbody⟩ := h
  rw [Walking.function, Walking.function]
  refine get fun hw => ?_
  rw [hw.context]
  refine (setFunction kind).bind ((beginScope .empty).bind ?_)
  refine (params hR hE hparams).bind ?_
  exact (forM hvisit hbody).bind (endScope.bind (setFunction _))

end Twin
end Walking

open Walking

theorem Expr.Twin.visit (hR : R.Spelled) (hE : R.Reports E) (d : Nat) {e e' : Expr}
    (h : e.Twin R e') :
    Walking.Twin R E (e.visit d) (e'.visit d) := by
  induction d generalizing e e' with
  | zero => exact .fail
  | succ d ih =>
    cases h with
    | literal v => exact .pure
    | var h => exact .find fun _ s => s.twin_referVar hR hE h
    | assign h he => exact (ih he).bind (.find fun _ s => s.twin_refer hR .assign h)
    | unary _ he => exact ih he
    | binary he _ hf => exact (ih he).bind (ih hf)
    | logical he _ hf => exact (ih he).bind (ih hf)
    | grouping he => exact ih he
    | call he _ hes => exact (ih he).bind (.forM (fun _ _ h => ih h) hes)
    | get he _ => exact ih he
    | set he _ hf => exact (ih hf).bind (ih he)
    | super h _ =>
      exact (Walking.Twin.find fun _ _ => .errorIf hE _ h _).bind ((Walking.Twin.find fun _ _ =>
        .errorIf hE _ h _).bind (.find fun _ s => s.twin_refer hR .super h))
    | this h =>
      refine .find fun c s => ?_
      split
      · exact .error hE h _
      · exact s.twin_refer hR .this h

theorem Walking.Twin.superclass (hR : R.Spelled) (hE : R.Reports E) (d : Nat) {t t' : Token}
    (h : R t t') {p p' : Token} (hp : R p p') :
    Walking.Twin R E (Walking.superclass d t p) (Walking.superclass d t' p') := by
  refine (find fun _ _ => ?_).bind ((setClass _).bind
    (((Expr.Twin.var hp).visit hR hE d).bind (beginScope _)))
  rw [← hR.lexeme h, ← hR.lexeme hp]
  exact .errorIf hE _ hp _

theorem FunctionContext.ofMethod_congr {t t' : Token} (h : t.lexeme = t'.lexeme) :
    ofMethod t = ofMethod t' := by
  rw [ofMethod, ofMethod, h]

theorem Callable.Twin.name {σ : Type} {S : σ → σ → Prop} {f g : Callable σ}
    (h : Callable.Twin R S f g) :
    R f.name g.name := by
  cases h
  assumption

theorem Stmt.Twin.visit (hR : R.Spelled) (hE : R.Reports E) (d : Nat) {s s' : Stmt}
    (h : s.Twin R s') :
    Walking.Twin R E (s.visit d) (s'.visit d) := by
  induction d generalizing s s' with
  | zero => exact .fail
  | succ d ih =>
    cases h with
    | expr he => exact he.visit hR hE d
    | print he => exact he.visit hR hE d
    | varDecl h ho =>
      exact (Walking.Twin.declare hR hE h).bind
        ((Walking.Twin.forOption (fun _ _ he => he.visit hR hE d) ho).bind (.complete hR h))
    | block hs =>
      exact (Walking.Twin.beginScope _).bind
        ((Walking.Twin.forM (fun _ _ h => ih h) hs).bind .endScope)
    | ifElse he hs ho =>
      exact (he.visit hR hE d).bind ((ih hs).bind (.forOption (fun _ _ h => ih h) ho))
    | whileDo he hs => exact (he.visit hR hE d).bind (ih hs)
    | funDecl hf =>
      exact (Walking.Twin.declare hR hE hf.name).bind ((Walking.Twin.complete hR hf.name).bind
        (.function hR hE (fun _ _ h => ih h) .function hf))
    | @ret t t' o o' h ho =>
      have hsome : o.isSome = o'.isSome := by cases ho <;> rfl
      rw [Stmt.visit, Stmt.visit, hsome]
      exact (Walking.Twin.find fun _ _ => .errorIf hE _ h _).bind ((Walking.Twin.find fun _ _ =>
        .errorIf hE _ h _).bind (.forOption (fun _ _ he => he.visit hR hE d) ho))
    | classDecl h ho hfs =>
      rw [Stmt.visit, Stmt.visit]
      refine .get fun hw => ?_
      rw [hw.context]
      refine (Walking.Twin.setClass _).bind ((Walking.Twin.declare hR hE h).bind ?_)
      refine (Walking.Twin.complete hR h).bind ?_
      refine (Walking.Twin.forOption (fun _ _ hp => .superclass hR hE d h hp) ho).bind ?_
      refine (Walking.Twin.beginScope _).bind ((Walking.Twin.forM (fun f g hf => ?_) hfs).bind ?_)
      · rw [FunctionContext.ofMethod_congr (hR.lexeme hf.name)]
        exact .function hR hE (fun _ _ h => ih h) _ hf
      · exact Walking.Twin.endScope.bind
          ((Walking.Twin.forOption (fun _ _ _ => .endScope) ho).bind (.setClass _))

inductive TwinExcept {α β : Type} (D : α → α → Prop) (A : β → β → Prop) :
    Except α β → Except α β → Prop where
  | error {x y : α} : D x y → TwinExcept D A (.error x) (.error y)
  | ok {a b : β} : A a b → TwinExcept D A (.ok a) (.ok b)

theorem TwinExcept.isOk_eq {α β : Type} {D : α → α → Prop} {A : β → β → Prop} {x y : Except α β}
    (h : TwinExcept D A x y) : x.isOk = y.isOk := by
  cases h <;> rfl

/-- Twins are resolved alike, and the depth is enough for both or for neither. -/
theorem twin_resolveWithin (hR : R.Spelled) (hE : R.Reports E) (depth : Nat) {ss ss' : List Stmt}
    (h : List.Forall₂ (Stmt.Twin R) ss ss') : TwinExcept (Findings.Twin R E) (Findings.Twin R E)
      (resolveWithin depth ss) (resolveWithin depth ss') := by
  have hwalk : Walker.Twin R E .start .start := ⟨rfl, rfl, .none⟩
  have hresult := Walking.Twin.forM (fun _ _ hs => Stmt.Twin.visit hR hE depth hs) h _ _ hwalk
  rw [resolveWithin_eq, resolveWithin_eq]
  generalize ss.forM (Stmt.visit depth) .start = r at hresult ⊢
  generalize ss'.forM (Stmt.visit depth) .start = r' at hresult ⊢
  cases hresult with
  | ok hw => exact .ok hw.found
  | error hw => exact .error hw.found

/-- Twins are resolved alike. -/
theorem twin_resolve (hR : R.Spelled) (hE : R.Reports E) {ss ss' : List Stmt}
    (h : List.Forall₂ (Stmt.Twin R) ss ss') : (resolve ss).Twin R E (resolve ss') := by
  have hboth := twin_resolveWithin hR hE (max (Stmt.heightAll ss) (Stmt.heightAll ss')) h
  rw [resolveWithin_ok_iff.2 ⟨Nat.le_max_left _ _, rfl⟩,
    resolveWithin_ok_iff.2 ⟨Nat.le_max_right _ _, rfl⟩] at hboth
  cases hboth with
  | ok hfound => exact hfound

end

end Lox
