import Lox.Proofs.Restoring
import Lox.Proofs.Simulation
import Lox.Proofs.Tasks

/-!
# Invariants of evaluation

An `Invariant` says what is to be true of machines, of values, and of the places where code is
executed, relative to a world that goes on changing. `Invariant.Laws` asks of each step of the
machine that it keeps this up. Evaluation is made of such steps, so that it keeps it up too
(`Invariant.Kept.of_depth`): whatever a computation does and however it ends, the machine that it
leaves and the values that it yields are as the invariant says (`Invariant.Preserves`). Where an
invariant asks in which executions classes are made (`Invariant.declares`), evaluation is followed
along a course of pieces.
-/

namespace Lox

/-! ## Values -/

/-- Values that point neither to scopes nor to other values. -/
def Value.IsPlain : Value → Prop
  | .function _ | .cls _ | .inst _ => False
  | _ => True

/-- A call with `n` arguments passes the check of their number. -/
def Value.Takes : Value → Nat → Prop
  | .function f, n => n = f.arity
  | .cls c, n => n = c.arity
  | _, _ => True

theorem Literal.isPlain_toValue (l : Literal) : l.toValue.IsPlain := by
  cases l <;> trivial

/-- What an operator can come to: it neither makes objects nor returns from a function. -/
def Operator.IsResult : Except Exit Value → Prop
  | .ok v => v.IsPlain
  | .error (.returned _) => False
  | .error _ => True

theorem Operator.isResult_unary (op : Token) (v : Value) : IsResult (unary op v) := by
  unfold unary
  split <;> trivial

theorem Operator.isResult_add (op : Token) (v w : Value) : IsResult (add op v w) := by
  unfold add
  split <;> trivial

theorem Operator.isPlain_of_arithmetic? {kind : Kind} {x y : Float} {v : Value}
    (h : arithmetic? kind x y = some v) : v.IsPlain := by
  unfold arithmetic? at h
  split at h <;> cases h <;> trivial

theorem Operator.isResult_binary (op : Token) (v w : Value) : IsResult (binary op v w) := by
  unfold binary
  split
  · exact isResult_add op v w
  · trivial
  · trivial
  · split
    · split
      · rename_i h
        exact isPlain_of_arithmetic? h
      · trivial
    · trivial

/-- A superclass is what its name stands for. -/
theorem Exec.of_asSuperclass {x : Exec Value} {t : Token} {c : Class} {m m' : Machine}
    (h : (x >>= Exec.asSuperclass t) m = .ok c m') : x m = .ok (.cls c) m' := by
  have h : EStateM.bind x (Exec.asSuperclass t) m = .ok c m' := h
  unfold EStateM.bind at h
  cases hx : x m with
  | error e m₁ =>
    rw [hx] at h
    cases h
  | ok v m₁ =>
    rw [hx] at h
    cases v with
    | cls d =>
      cases h
      rfl
    | _ => cases h

/-- What a field holds after one was set is what it was set to, or what it held before. -/
theorem Machine.of_field_set {m : Machine} {i : Nat} {x y : String} {v w : Value} {j : Instance}
    (h : (Machine.fieldsOf { m with fields := m.fields.modify i (·.set x v) } j).get? y = some w) :
    w = v ∨ (m.fieldsOf j).get? y = some w := by
  rw [Machine.fieldsOf, getD_modify] at h
  split at h
  · rw [Bindings.get?_set] at h
    split at h
    · cases h
      exact .inl rfl
    · exact .inr h
  · exact .inr h

theorem Machine.fieldsOf_push (m : Machine) (j : Instance) :
    Machine.fieldsOf { m with fields := m.fields.push .empty } j = m.fieldsOf j := by
  rw [Machine.fieldsOf, getD_push]
  rfl

/-- Making a class takes an identity for each method and one for the class. Its methods are the
declared ones, all closed over the same scope, and those called `init` are initializers. -/
theorem Exec.newClass_eq (name : String) (superclass : Option Class) (methods : List FunDecl)
    (scope : ScopeId) (m : Machine) :
    ∃ b : Bindings Closure,
      (∀ x f, b.get? x = some f → f.scope = scope ∧ f.decl ∈ methods ∧
        f.isInitializer = (x == Class.initializerName)) ∧
      Exec.newClass name superclass methods scope m =
        .ok ⟨⟨m.nextId + methods.length, name, b⟩, superclass.elim [] Class.layers⟩
          { m with nextId := m.nextId + methods.length + 1 } := by
  let AreMethods (b : Bindings Closure) : Prop := ∀ x f, b.get? x = some f →
    f.scope = scope ∧ f.decl ∈ methods ∧ f.isInitializer = (x == Class.initializerName)
  let add (b : Bindings Closure) (decl : FunDecl) : Exec (Bindings Closure) := do
    let f ← newClosure decl scope (decl.name.lexeme == Class.initializerName)
    pure (b.set decl.name.lexeme f)
  have hadd : ∀ (rest : List FunDecl) (m : Machine) (b : Bindings Closure),
      (∀ decl ∈ rest, decl ∈ methods) → AreMethods b → ∃ b' : Bindings Closure, AreMethods b' ∧
        rest.foldlM add b m = .ok b' { m with nextId := m.nextId + rest.length } := by
    intro rest
    induction rest with
    | nil => exact fun m b _ hb => ⟨b, hb, rfl⟩
    | cons decl rest ih =>
      intro m b hrest hb
      let f : Closure := ⟨m.nextId, decl, scope, decl.name.lexeme == Class.initializerName⟩
      have hset : AreMethods (b.set decl.name.lexeme f) := by
        intro x g hg
        rw [Bindings.get?_set] at hg
        split at hg
        · rename_i hx
          cases hg
          exact ⟨rfl, hrest decl List.mem_cons_self, by rw [hx]⟩
        · exact hb x g hg
      obtain ⟨b', hb', heq⟩ := ih { m with nextId := m.nextId + 1 } (b.set decl.name.lexeme f)
        (fun d hd => hrest d (List.mem_cons_of_mem _ hd)) hset
      refine ⟨b', hb', ?_⟩
      rw [List.foldlM_cons, List.length_cons, Nat.add_comm rest.length 1, ← Nat.add_assoc]
      exact heq
  obtain ⟨b, hb, heq⟩ := hadd methods m .empty (fun _ => id) nofun
  refine ⟨b, hb, ?_⟩
  show EStateM.bind (methods.foldlM add .empty) _ m = _
  rw [EStateM.bind, heq]
  rfl

/-! ## What is kept up -/

/-- What is to be true while programs are executed: of machines, of values, of the scope in which
code of a given context is executed, and of that code. -/
structure Invariant (W C : Type) where
  inv : W → Machine → Prop
  /-- How the world and the scopes may go on. -/
  moves : W → Scopes → W → Scopes → Prop
  value : W → Scopes → Value → Prop
  /-- Whether calls may have any number of arguments. -/
  loose : W → Scopes → Prop
  place : C → W → Scopes → ScopeId → Prop
  expr : C → Expr → Prop
  stmt : C → Stmt → Prop
  /-- The context behind a statement. -/
  after : C → Stmt → C
  /-- Whether methods of a class may be bound to a value. -/
  suits : W → Scopes → Class → Value → Prop := fun _ _ _ _ => True
  /-- What is to be true of a class declaration when the class is made, its superclass being
  known. -/
  declares : Token → Option Token → List FunDecl → Option Class → Machine → Prop :=
    fun _ _ _ _ _ => True

namespace Invariant

variable {W C : Type}

def stmts (R : Invariant W C) : C → List Stmt → Prop
  | _, [] => True
  | c, s :: ss => R.stmt c s ∧ R.stmts (R.after c s) ss

/-- What a computation may do to the machine. -/
structure Step (R : Invariant W C) (w : W) (m : Machine) (w' : W) (m' : Machine) : Prop where
  inv : R.inv w' m'
  keeps : m.Keeps m'
  moves : R.moves w m.scopes w' m'.scopes

/-- A computation ended with a result that satisfies `P`, or early; what it returned is a value. -/
inductive Ends (R : Invariant W C) {α : Type} (w : W) (m : Machine) (P : W → Scopes → α → Prop) :
    EStateM.Result Exit Machine α → Prop where
  | ok {w' : W} {m' : Machine} {a : α} : R.Step w m w' m' → P w' m'.scopes a →
      Ends R w m P (.ok a m')
  | error {w' : W} {m' : Machine} {e : Exit} : R.Step w m w' m' →
      (∀ v, e = .returned v → R.value w' m'.scopes v) → Ends R w m P (.error e m')

def Preserves (R : Invariant W C) {α : Type} (w : W) (m : Machine) (x : Exec α)
    (P : W → Scopes → α → Prop) : Prop :=
  R.Ends w m P (x m)

/-- What the steps of the machine have to keep up. -/
structure Laws (R : Invariant W C) : Prop where
  refl : ∀ w s, R.moves w s w s
  trans : ∀ {w w' w'' s s' s''}, R.moves w s w' s' → R.moves w' s' w'' s'' → R.moves w s w'' s''
  value_mono : ∀ {w w' s s' v}, R.moves w s w' s' → s.Extends s' → R.value w s v → R.value w' s' v
  place_mono : ∀ {c w w' s s' i}, R.moves w s w' s' → s.Extends s' → R.place c w s i →
    R.place c w' s' i
  loose_mono : ∀ {w w' s s'}, R.moves w s w' s' → s.Extends s' → R.loose w s → R.loose w' s'
  frame : ∀ {w m}, R.inv w m → ∀ current printed lastError clock,
    R.inv w { m with current, printed, lastError, clock }
  -- Values
  plain : ∀ {v}, v.IsPlain → ∀ w s, R.value w s v
  cls : ∀ {w s i}, R.value w s (.inst i) → R.value w s (.cls i.cls)
  stored : ∀ {w m i x v}, R.inv w m → m.scopes.local? i x = some v → R.value w m.scopes v
  field : ∀ {w m i x v}, R.inv w m → (m.fieldsOf i).get? x = some v → R.value w m.scopes v
  setField : ∀ {w m v}, R.inv w m → R.value w m.scopes v → ∀ i x,
    R.inv w { m with fields := m.fields.modify i (·.set x v) }
  newInstance : ∀ {w m c}, R.inv w m → R.value w m.scopes (.cls c) →
    R.Preserves w m (Exec.newInstance c) fun w' s' i => R.value w' s' (.inst i)
  suits_cls : ∀ {w s i}, R.value w s (.inst i) → R.suits w s i.cls (.inst i)
  suits_super : ∀ {c w m keyword method d parent this}, R.inv w m → R.place c w m.scopes m.current →
    R.expr c (.super keyword method) → m.distances.find? keyword.site = some d →
    m.scopes.getAt m.current d "super" = .ok (.cls parent) →
      m.scopes.getAt m.current (d - 1) "this" = .ok this →
    R.suits w m.scopes parent this
  bindMethod : ∀ {w m c x f this}, R.inv w m → R.value w m.scopes (.cls c) → c.method? x = some f →
    R.value w m.scopes this → R.suits w m.scopes c this →
    R.Preserves w m (Exec.bindMethod f this) fun w' s' g => R.value w' s' (.function g) ∧
      g.decl = f.decl
  -- Expressions
  parts : ∀ {c e}, R.expr c e → ∀ e' ∈ e.parts, R.expr c e'
  assign : ∀ {c w m t e v}, R.inv w m → R.place c w m.scopes m.current → R.expr c (.assign t e) →
    R.value w m.scopes v → R.Preserves w m (Exec.assign t v) fun _ _ _ => True
  -- Statements
  exprs : ∀ {c s}, R.stmt c s → ∀ e ∈ s.exprs, R.expr c e
  branches : ∀ {c s}, R.stmt c s → ∀ b ∈ s.branches, R.stmt c b
  after_eq : ∀ {c s}, s.declared? = none → R.after c s = c
  block : ∀ {c w m body}, R.inv w m → R.place c w m.scopes m.current → R.stmt c (.block body) →
    R.Preserves w m (Exec.newScope m.current .empty) fun w' s' i => ∃ c', R.stmts c' body ∧
      R.place c' w' s' i
  initializer : ∀ {c t e}, R.stmt c (.varDecl t (some e)) →
    ∃ c', R.expr c' e ∧ ∀ w s i, R.place c w s i → R.place c' w s i
  declare : ∀ {c w m s t v}, R.inv w m → R.stmt c s → s.declared? = some t →
    R.place c w m.scopes m.current ∨ R.place (R.after c s) w m.scopes m.current →
      R.value w m.scopes v →
    R.Preserves w m (Exec.define t.lexeme v) fun w' s' _ => R.place (R.after c s) w' s' m.current
  function : ∀ {c w m decl}, R.inv w m → R.place c w m.scopes m.current → R.stmt c (.funDecl decl) →
    R.Preserves w m (Exec.newClosure decl m.current false >>=
      fun f => Exec.define decl.name.lexeme (.function f))
      fun w' s' _ => R.place (R.after c (.funDecl decl)) w' s' m.current
  superclass : ∀ {c name t methods}, R.stmt c (.classDecl name (some t) methods) →
    R.expr (R.after c (.classDecl name (some t) methods)) (.var t)
  newClass : ∀ {c w m name methods}, R.inv w m → R.stmt c (.classDecl name none methods) →
    R.place (R.after c (.classDecl name none methods)) w m.scopes m.current →
    R.declares name none methods none m →
    R.Preserves w m (Exec.newClass name.lexeme none methods m.current) fun w' s' d =>
      R.value w' s' (.cls d)
  newSubclass : ∀ {c w m name t parent methods}, R.inv w m →
    R.stmt c (.classDecl name (some t) methods) →
    R.place (R.after c (.classDecl name (some t) methods)) w m.scopes m.current →
    R.value w m.scopes (.cls parent) → R.declares name (some t) methods (some parent) m →
    R.Preserves w m
      (Exec.newScope m.current (Bindings.empty.set "super" (.cls parent)) >>=
        fun scope => Exec.newClass name.lexeme (some parent) methods scope)
      fun w' s' d => R.value w' s' (.cls d)
  enter : ∀ {w m f args}, R.inv w m → R.value w m.scopes (.function f) →
    (∀ v ∈ args, R.value w m.scopes v) → R.loose w m.scopes ∨ args.length = f.arity →
    R.Preserves w m
      (Exec.newScope f.scope (Bindings.empty.setAll (f.decl.params.map Token.lexeme) args))
      fun w' s' i => ∃ c', R.stmts c' f.decl.body ∧ R.place c' w' s' i

section

variable {R : Invariant W C} {w w' w'' : W} {m m' m'' : Machine} {α β : Type}
  {P : W → Scopes → α → Prop}
variable {Q : W → Scopes → β → Prop} {x : Exec α} {f : α → Exec β}

theorem Laws.within (hR : R.Laws) (h : R.inv w m) (i : ScopeId) : R.inv w { m with current := i } :=
  hR.frame h i m.printed m.lastError m.clock

theorem Step.refl (hR : R.Laws) (h : R.inv w m) : R.Step w m w m := ⟨h, .refl m, hR.refl w m.scopes⟩

theorem Step.trans (hR : R.Laws) (h : R.Step w m w' m') (h' : R.Step w' m' w'' m'') :
    R.Step w m w'' m'' :=
  ⟨h'.inv, h.keeps.trans h'.keeps, hR.trans h.moves h'.moves⟩

theorem Step.value (hR : R.Laws) (h : R.Step w m w' m') {v : Value} (hv : R.value w m.scopes v) :
    R.value w' m'.scopes v := hR.value_mono h.moves h.keeps.scopes hv

theorem Step.place (hR : R.Laws) (h : R.Step w m w' m') {c : C}
    (hc : R.place c w m.scopes m.current) :
    R.place c w' m'.scopes m'.current := by
  rw [h.keeps.current]
  exact hR.place_mono h.moves h.keeps.scopes hc

theorem Laws.read (hR : R.Laws) (h : R.inv w m) {i : ScopeId} {d : Nat} {x : String} {v : Value}
    (hv : m.scopes.getAt i d x = .ok v) : R.value w m.scopes v := by
  obtain ⟨j, -, hj⟩ := Scopes.local?_of_getAt hv
  exact hR.stored h hj

namespace Preserves

/-! ## Composed computations -/

theorem pure (hR : R.Laws) (h : R.inv w m) {a : α} (ha : P w m.scopes a) :
    R.Preserves w m (Pure.pure a : Exec α) P := .ok (.refl hR h) ha

theorem throw (hR : R.Laws) (h : R.inv w m) {e : Exit}
    (he : ∀ v, e = .returned v → R.value w m.scopes v) :
    R.Preserves w m (MonadExcept.throw e : Exec α) P := .error (.refl hR h) he

theorem fail (hR : R.Laws) (h : R.inv w m) (t : Token) (cause : Cause) :
    R.Preserves w m (Exec.fail t cause) P := throw hR h nofun

theorem fault (hR : R.Laws) (h : R.inv w m) (f : Fault) : R.Preserves w m (Exec.fault f) P :=
  throw hR h nofun

theorem imp {Q : W → Scopes → α → Prop} (hx : R.Preserves w m x P)
    (hPQ : ∀ w' s' a, P w' s' a → Q w' s' a) :
    R.Preserves w m x Q := by
  unfold Preserves at hx ⊢
  generalize x m = r at hx ⊢
  cases hx with
  | ok hs hP => exact .ok hs (hPQ _ _ _ hP)
  | error hs he => exact .error hs he

/-- A place stays one. -/
theorem stay (hR : R.Laws) (hx : R.Preserves w m x P) {c : C} {i : ScopeId}
    (hc : R.place c w m.scopes i) :
    R.Preserves w m x fun w' s' _ => R.place c w' s' i := by
  unfold Preserves at hx ⊢
  generalize x m = r at hx ⊢
  cases hx with
  | ok hs _ => exact .ok hs (hR.place_mono hs.moves hs.keeps.scopes hc)
  | error hs he => exact .error hs he

/-- What follows may rely on what the computation came to. Only that moves go on is needed, so that
the laws of a invariant can be proved with it. -/
theorem bindWith_of_trans
    (htrans : ∀ {w w' w'' s s' s''}, R.moves w s w' s' → R.moves w' s' w'' s'' →
      R.moves w s w'' s'')
    (hx : R.Preserves w m x P)
    (hf : ∀ {w' m' a}, x m = .ok a m' → R.Step w m w' m' → P w' m'.scopes a →
      R.Preserves w' m' (f a) Q) :
    R.Preserves w m (x >>= f) Q := by
  show R.Ends w m Q (EStateM.bind x f m)
  unfold Preserves at hx
  unfold EStateM.bind
  generalize x m = r at hx hf ⊢
  cases hx with
  | error hs he => exact .error hs he
  | @ok w' m' a hs hP =>
    have hrest : R.Ends w' m' Q (f a m') := hf rfl hs hP
    have hjoin : ∀ {w'' m''}, R.Step w' m' w'' m'' → R.Step w m w'' m'' :=
      fun hs' => ⟨hs'.inv, hs.keeps.trans hs'.keeps, htrans hs.moves hs'.moves⟩
    dsimp only
    generalize f a m' = r at hrest ⊢
    cases hrest with
    | ok hs' hQ => exact .ok (hjoin hs') hQ
    | error hs' he => exact .error (hjoin hs') he

theorem bind_of_trans
    (htrans : ∀ {w w' w'' s s' s''}, R.moves w s w' s' → R.moves w' s' w'' s'' →
      R.moves w s w'' s'')
    (hx : R.Preserves w m x P) (hf : ∀ {w' m' a}, R.Step w m w' m' → P w' m'.scopes a →
      R.Preserves w' m' (f a) Q) :
    R.Preserves w m (x >>= f) Q := hx.bindWith_of_trans htrans fun _ => hf

theorem bindWith (hR : R.Laws) (hx : R.Preserves w m x P)
    (hf : ∀ {w' m' a}, x m = .ok a m' → R.Step w m w' m' → P w' m'.scopes a →
      R.Preserves w' m' (f a) Q) :
    R.Preserves w m (x >>= f) Q := hx.bindWith_of_trans hR.trans hf

theorem bind (hR : R.Laws) (hx : R.Preserves w m x P)
    (hf : ∀ {w' m' a}, R.Step w m w' m' → P w' m'.scopes a → R.Preserves w' m' (f a) Q) :
    R.Preserves w m (x >>= f) Q := hx.bind_of_trans hR.trans hf

theorem map (hR : R.Laws) {f : α → β} (hx : R.Preserves w m x P)
    (hf : ∀ w' s' a, P w' s' a → Q w' s' (f a)) :
    R.Preserves w m (f <$> x) Q := by
  rw [map_eq_pure_bind]
  exact hx.bind hR fun hs hP => pure hR hs.inv (hf _ _ _ hP)

theorem withState {f : Machine → Exec β} (h : R.Preserves w m (f m) Q) :
    R.Preserves w m (get >>= f) Q :=
  h

theorem ofResult (hR : R.Laws) (h : R.inv w m) {r : Except Exit α}
    (hr : ∀ a, r = .ok a → P w m.scopes a) (he : ∀ v, r ≠ .error (.returned v)) :
    R.Preserves w m (Exec.ofResult r) P := by
  cases r with
  | ok a => exact pure hR h (hr a rfl)
  | error e => exact throw hR h fun v hv => absurd (hv ▸ rfl) (he v)

theorem ofFault (hR : R.Laws) (h : R.inv w m) {r : Except Fault α}
    (hr : ∀ a, r = .ok a → P w m.scopes a) :
    R.Preserves w m (Exec.ofFault r) P := by
  cases r with
  | ok a => exact pure hR h (hr a rfl)
  | error e => exact fault hR h e

theorem ofFailure (hR : R.Laws) (h : R.inv w m) {r : Except RuntimeError α}
    (hr : ∀ a, r = .ok a → P w m.scopes a) : R.Preserves w m (Exec.ofFailure r) P := by
  cases r with
  | ok a => exact pure hR h (hr a rfl)
  | error e => exact throw hR h nofun

theorem within (hR : R.Laws) {i : ScopeId} (hx : R.Preserves w { m with current := i } x P) :
    R.Preserves w m (Exec.within i x) P := by
  have hback : ∀ {w' m'}, R.Step w { m with current := i } w' m' →
      R.Step w m w' { m' with current := m.current } :=
    fun hs => ⟨hR.within hs.inv _, { hs.keeps with current := rfl }, hs.moves⟩
  unfold Preserves at hx ⊢
  unfold Exec.within
  dsimp only
  generalize x { m with current := i } = r at hx ⊢
  cases hx with
  | ok hs hP => exact .ok (hback hs) hP
  | error hs he => exact .error (hback hs) he

theorem catchReturn (hR : R.Laws) {x : Exec Unit} {P : W → Scopes → Unit → Prop}
    (hx : R.Preserves w m x P) :
    R.Preserves w m (Exec.catchReturn x) R.value := by
  unfold Preserves at hx ⊢
  unfold Exec.catchReturn
  generalize x m = r at hx ⊢
  cases hx with
  | ok hs _ => exact .ok hs (hR.plain (show Value.IsPlain .nil from trivial) _ _)
  | @error w' m' e hs he =>
    cases e with
    | returned v => exact .ok hs (he v rfl)
    | _ => exact .error hs nofun

theorem mapM (hR : R.Laws) (h : R.inv w m) {f : β → Exec Value} {bs : List β}
    (hf : ∀ b ∈ bs, ∀ {w' m'}, R.Step w m w' m' → R.Preserves w' m' (f b) R.value) :
    R.Preserves w m (bs.mapM f) fun w' s' vs => ∀ v ∈ vs, R.value w' s' v := by
  induction bs generalizing w m with
  | nil => exact pure hR h (by simp)
  | cons b bs ih =>
    rw [List.mapM_cons]
    refine (hf b List.mem_cons_self (.refl hR h)).bind hR fun hs₁ hv => ?_
    refine (ih hs₁.inv fun b' hb' {w' m'} hs' =>
      hf b' (List.mem_cons_of_mem _ hb') (hs₁.trans hR hs')).bind hR
      fun hs₂ hvs => pure hR hs₂.inv ?_
    exact List.forall_mem_cons.2 ⟨hs₂.value hR hv, hvs⟩

/-! ## Steps of the machine -/

theorem lookUp (hR : R.Laws) (h : R.inv w m) (t : Token) :
    R.Preserves w m (Exec.lookUp t) R.value := by
  refine withState ?_
  cases m.distances.find? t.site with
  | some d => exact ofFault hR h fun v hv => hR.read h hv
  | none =>
    refine ofFailure hR h fun v hv => ?_
    obtain ⟨i, hi⟩ := Scopes.local?_of_lookup hv
    exact hR.stored h hi

theorem boundMethod (hR : R.Laws) (h : R.inv w m) {c : Class} (hc : R.value w m.scopes (.cls c))
    {x : String} {f : Closure} (hf : c.method? x = some f) {this : Value}
    (hthis : R.value w m.scopes this) (hsuits : R.suits w m.scopes c this) :
    R.Preserves w m (Value.function <$> Exec.bindMethod f this) R.value :=
  (hR.bindMethod h hc hf hthis hsuits).map hR fun _ _ _ hg => hg.1

theorem superMethod (hR : R.Laws) (h : R.inv w m) {c : C} (hplace : R.place c w m.scopes m.current)
    {keyword method : Token} (he : R.expr c (.super keyword method)) :
    R.Preserves w m (Exec.superMethod keyword method) R.value := by
  refine withState ?_
  cases hd : m.distances.find? keyword.site with
  | none => exact fault hR h _
  | some d =>
    dsimp only
    cases hparent : m.scopes.getAt m.current d "super" with
    | error f => exact fault hR h f
    | ok parent =>
      cases hthis : m.scopes.getAt m.current (d - 1) "this" with
      | error f => exact fault hR h f
      | ok this =>
        cases parent with
        | cls c =>
          simp only [Exec.ofFault, pure_bind]
          cases hf : c.method? method.lexeme with
          | some f =>
            exact boundMethod hR h (hR.read h hparent) hf (hR.read h hthis)
              (hR.suits_super h hplace he hd hparent hthis)
          | none => exact fail hR h _ _
        | _ => exact fault hR h _

theorem getProperty (hR : R.Laws) (h : R.inv w m) {i : Instance} (hi : R.value w m.scopes (.inst i))
    (name : Token) : R.Preserves w m (Exec.getProperty i name) R.value := by
  refine withState ?_
  cases hv : (m.fieldsOf i).get? name.lexeme with
  | some v => exact pure hR h (hR.field h hv)
  | none =>
    dsimp only
    cases hf : i.cls.method? name.lexeme with
    | some f => exact boundMethod hR h (hR.cls hi) hf hi (hR.suits_cls hi)
    | none => exact fail hR h _ _

theorem setField (hR : R.Laws) (h : R.inv w m) (i : Instance) (x : String) {v : Value}
    (hv : R.value w m.scopes v) : R.Preserves w m (Exec.setField i x v) fun w' s' _ =>
    R.value w' s' v :=
  .ok ⟨hR.setField h hv i.id x, Exec.Restores.setField i x v m, hR.refl _ _⟩ hv

theorem newInstance (hR : R.Laws) (h : R.inv w m) {c : Class} (hc : R.value w m.scopes (.cls c)) :
    R.Preserves w m (Exec.newInstance c) fun w' s' i => R.value w' s' (.inst i) ∧ i.cls = c := by
  have hnew : R.Ends w m _ (Exec.newInstance c m) := hR.newInstance h hc
  cases hnew with
  | ok hs hi => exact .ok hs ⟨hi, rfl⟩

theorem print (hR : R.Laws) (h : R.inv w m) (line : String) :
    R.Preserves w m (Exec.print line) fun _ _ _ => True :=
  .ok ⟨hR.frame h m.current _ m.lastError m.clock, Exec.Restores.print line m, hR.refl _ _⟩ trivial

theorem readClock (hR : R.Laws) (h : R.inv w m) :
    R.Preserves w m (.number <$> Exec.readClock) R.value :=
  .ok ⟨hR.frame h m.current m.printed m.lastError _, Exec.Restores.readClock m, hR.refl _ _⟩
    (hR.plain (v := .number m.clock.now) trivial _ _)

theorem callNative (hR : R.Laws) (h : R.inv w m) (n : Native) {args : List Value}
    (hargs : ∀ v ∈ args, R.value w m.scopes v) :
    R.Preserves w m (Exec.callNative n args) R.value := by
  have hplain : ∀ v : Value, v.IsPlain → R.Preserves w m (Pure.pure v : Exec Value) R.value :=
    fun v hv => pure hR h (hR.plain hv _ _)
  unfold Exec.callNative
  cases n.behaviour with
  | clock =>
    dsimp only
    split
    · exact readClock hR h
    · exact fault hR h _
  | first =>
    cases args with
    | nil => exact hplain .nil trivial
    | cons v _ => exact pure hR h (hargs v List.mem_cons_self)
  | join => exact hplain (.text _) trivial
  | count => exact hplain (.number _) trivial
  | unimplemented => exact fault hR h _

/-- Who passes the check can be called. -/
theorem checkCall (hR : R.Laws) (h : R.inv w m) (paren : Token) (v : Value) (count : Nat) :
    R.Preserves w m (Exec.checkCall paren v count) fun _ _ _ => v.Takes count := by
  have hcount : ∀ arity, (count = arity → v.Takes count) → R.Preserves w m
      (if count ≠ arity then Exec.fail paren (.wrongCount arity count) else Pure.pure ())
      fun _ _ _ => v.Takes count := by
    intro arity htakes
    split
    · exact fail hR h _ _
    · rename_i heq
      exact pure hR h (htakes (Decidable.not_not.1 heq))
  unfold Exec.checkCall
  cases v with
  | function f => exact hcount f.arity id
  | cls c => exact hcount c.arity id
  | native n =>
    dsimp only
    split
    · exact fault hR h _
    · exact hcount n.arity fun _ => trivial
  | _ => exact fail hR h _ _

theorem asSuperclass (hR : R.Laws) (h : R.inv w m) (t : Token) {v : Value}
    (hv : R.value w m.scopes v) :
    R.Preserves w m (Exec.asSuperclass t v) fun w' s' c => R.value w' s' (.cls c) := by
  cases v with
  | cls c => exact pure hR h hv
  | _ => exact fail hR h _ _

end Preserves

/-- How a class declaration goes on when the superclass is known. -/
theorem Preserves.declareSubclass (hR : R.Laws) (h : R.inv w m) {c : C} {name t : Token}
    {methods : List FunDecl} (hstmt : R.stmt c (.classDecl name (some t) methods))
    (hplace : R.place (R.after c (.classDecl name (some t) methods)) w m.scopes m.current)
    {parent : Class}
    (hparent : R.value w m.scopes (.cls parent))
    (hdeclares : R.declares name (some t) methods (some parent) m) :
    R.Preserves w m (do
      let scope ← Exec.newScope (← get).current (Bindings.empty.set "super" (.cls parent))
      let c ← Exec.newClass name.lexeme (some parent) methods scope
      Exec.define name.lexeme (.cls c)) fun w' s' _ =>
        R.place (R.after c (.classDecl name (some t) methods)) w' s' m.current := by
  refine .withState ?_
  rw [← bind_assoc]
  refine (hR.newSubclass h hstmt hplace hparent hdeclares).bind hR fun {w₁ m₁ d} hs hd => ?_
  have hdef := hR.declare hs.inv hstmt rfl (.inr (hs.place hR hplace)) hd
  rw [hs.keeps.current] at hdef
  exact hdef

/-! ## Courses of evaluation -/

/-- What the invariant asks of class declarations holds of those that are executed in a course. -/
structure Follows (R : Invariant W C) {bound : Nat} (K : Course bound) : Prop where
  plain : ∀ {d name methods m m₁}, K.has (d + 1) (.exec (.classDecl name none methods)) m →
    Exec.define name.lexeme .nil m = .ok () m₁ → R.declares name none methods none m₁
  sub : ∀ {d name t methods m m₁ parent m₂},
    K.has (d + 1) (.exec (.classDecl name (some t) methods)) m →
    Exec.define name.lexeme .nil m = .ok () m₁ →
    Lox.eval bound d (.var t) m₁ = .ok (.cls parent) m₂ →
    R.declares name (some t) methods (some parent) m₂

/-- Evaluation to a depth keeps the invariant up, along a course. -/
structure Kept (R : Invariant W C) {bound : Nat} (K : Course bound) (depth : Nat) : Prop where
  eval : ∀ {c w m e}, K.has depth (.eval e) m → R.inv w m → R.place c w m.scopes m.current →
    R.expr c e → R.Preserves w m (Lox.eval bound depth e) R.value
  call : ∀ {w m v args}, K.has depth (.call v args) m → R.inv w m → R.value w m.scopes v →
    (∀ a ∈ args, R.value w m.scopes a) → R.loose w m.scopes ∨ v.Takes args.length →
    R.Preserves w m (Lox.call bound depth v args) R.value
  exec : ∀ {c w m s}, K.has depth (.exec s) m → R.inv w m → R.place c w m.scopes m.current →
    R.stmt c s → R.Preserves w m (Lox.exec bound depth s) fun w' s' _ =>
      R.place (R.after c s) w' s' m.current

namespace Kept

variable {bound depth : Nat} {K : Course bound} {c : C}

/-! ## Lists and loops -/

theorem evalAll (hR : R.Laws) (ih : R.Kept K depth) {es : List Expr}
    (hK : K.has depth (.evalAll es) m) (h : R.inv w m) (hplace : R.place c w m.scopes m.current)
    (hes : ∀ e ∈ es, R.expr c e) :
    R.Preserves w m (es.mapM (Lox.eval bound depth)) fun w' s' vs => ∀ v ∈ vs, R.value w' s' v := by
  induction es generalizing w m with
  | nil => exact .pure hR h (by simp)
  | cons e es rest =>
    rw [List.mapM_cons]
    refine (ih.eval (K.starts hK .argument) h hplace (hes e List.mem_cons_self)).bindWith hR
      fun heq hs₁ hv => ?_
    have hrest := rest (K.starts hK (.nextArguments heq)) hs₁.inv (hs₁.place hR hplace)
      fun e' he' => hes e' (List.mem_cons_of_mem _ he')
    refine hrest.bind hR fun hs₂ hvs => .pure hR hs₂.inv ?_
    exact List.forall_mem_cons.2 ⟨hs₂.value hR hv, hvs⟩

theorem execAll (hR : R.Laws) (ih : R.Kept K depth) {ss : List Stmt}
    (hK : K.has depth (.execAll ss) m) (h : R.inv w m) (hplace : R.place c w m.scopes m.current)
    (hss : R.stmts c ss) :
    R.Preserves w m (ss.forM (Lox.exec bound depth)) fun _ _ _ => True := by
  induction ss generalizing c w m with
  | nil => exact .pure hR h trivial
  | cons s ss rest =>
    refine (ih.exec (K.starts hK .statement) h hplace hss.1).bindWith hR
      fun {w₁ m₁ _} heq hs₁ hp₁ => ?_
    rw [← hs₁.keeps.current] at hp₁
    exact rest (K.starts hK (.nextStatements heq)) hs₁.inv hp₁ hss.2

theorem loop (hR : R.Laws) (ih : R.Kept K depth) {condition : Expr} {body : Stmt} (n : Nat)
    (hK : K.has depth (.loop n condition body) m) (h : R.inv w m)
    (hplace : R.place c w m.scopes m.current)
    (hcondition : R.expr c condition) (hbody : R.stmt c body) :
    R.Preserves w m
      (Exec.loop n (Value.truthy <$> Lox.eval bound depth condition) (Lox.exec bound depth body))
      fun _ _ _ => True := by
  induction n generalizing w m with
  | zero => exact .throw hR h nofun
  | succ n rest =>
    rw [Exec.loop, bind_map_left]
    refine (ih.eval (K.starts hK .test) h hplace hcondition).bindWith hR
      fun {w₁ m₁ v} heq hs₁ _ => ?_
    have hplace₁ := hs₁.place hR hplace
    split
    · rename_i hv
      refine (ih.exec (K.starts hK (.round heq hv)) hs₁.inv hplace₁ hbody).bindWith hR
        fun hround hs₂ _ => ?_
      exact rest (K.starts hK (.nextRounds heq hv hround)) hs₂.inv (hs₂.place hR hplace₁)
    · exact .pure hR hs₁.inv trivial

/-! ## Calls and classes -/

theorem invoke (hR : R.Laws) (ih : R.Kept K depth) {f : Closure} {args : List Value}
    (hK : K.has (depth + 1) (.call (.function f) args) m) (h : R.inv w m)
    (hf : R.value w m.scopes (.function f))
    (hargs : ∀ v ∈ args, R.value w m.scopes v) (hcount : R.loose w m.scopes ∨
      args.length = f.arity) :
    R.Preserves w m (Exec.invoke f args fun body => body.forM (Lox.exec bound depth)) R.value := by
  refine (hR.enter h hf hargs hcount).bindWith hR fun {w₁ m₁ scope} heq hs₁ hscope => ?_
  obtain ⟨c, hbody, hplace⟩ := hscope
  have hrun := ih.execAll hR (K.starts hK (.body heq)) (hR.within hs₁.inv scope) hplace hbody
  refine (hrun.within hR).catchReturn hR |>.bind hR fun hs₂ hv => ?_
  split
  · exact .withState (.ofFault hR hs₂.inv fun v => hR.read hs₂.inv)
  · exact .pure hR hs₂.inv hv

theorem construct (hR : R.Laws) (ih : R.Kept K depth) {c : Class} {args : List Value}
    (hK : K.has (depth + 1) (.call (.cls c) args) m) (h : R.inv w m)
    (hc : R.value w m.scopes (.cls c))
    (hargs : ∀ v ∈ args, R.value w m.scopes v) (hcount : R.loose w m.scopes ∨
      args.length = c.arity) :
    R.Preserves w m (Exec.construct c args fun body => body.forM (Lox.exec bound depth))
      R.value := by
  refine (Preserves.newInstance hR h hc).bindWith hR fun {w₁ m₁ i} hinstance hs₁ hi => ?_
  obtain ⟨hi, hcls⟩ := hi
  cases hf : c.initializer? with
  | none => exact .pure hR hs₁.inv hi
  | some f =>
    have hsuits := hR.suits_cls hi
    rw [hcls] at hsuits
    refine (hR.bindMethod hs₁.inv (hs₁.value hR hc) hf hi hsuits).bindWith hR
      fun {w₂ m₂ g} hbound hs₂ hg => ?_
    obtain ⟨hg, hdecl⟩ := hg
    have hs := hs₁.trans hR hs₂
    have hcount : R.loose w₂ m₂.scopes ∨ args.length = g.arity := by
      refine hcount.imp (hR.loose_mono hs.moves hs.keeps.scopes) fun hlen => ?_
      rw [hlen, Class.arity, hf, Closure.arity, hdecl]
      rfl
    refine (ih.invoke hR (K.starts hK (.initializer hinstance hf hbound)) hs₂.inv hg
      (fun v hv => hs.value hR (hargs v hv)) hcount).bind hR fun hs₃ _ => .pure hR hs₃.inv ?_
    exact hs₃.value hR (hs₂.value hR hi)

theorem declareClass (hR : R.Laws) (hF : R.Follows K) (ih : R.Kept K depth) {name : Token}
    {superclass : Option Token} {methods : List FunDecl}
    (hK : K.has (depth + 1) (.exec (.classDecl name superclass methods)) m) (h : R.inv w m)
    (hplace : R.place c w m.scopes m.current)
    (hstmt : R.stmt c (.classDecl name superclass methods)) :
    R.Preserves w m (Exec.declareClass name superclass methods fun t =>
      Lox.eval bound depth (.var t)) fun w' s' _ =>
      R.place (R.after c (.classDecl name superclass methods)) w' s' m.current := by
  have hnil :=
    hR.declare h hstmt rfl (.inl hplace) (hR.plain (show Value.IsPlain .nil from trivial) _ _)
  cases superclass with
  | none =>
    rw [Exec.declareClass_none]
    refine hnil.bindWith hR fun {w₁ m₁ _} hdefine hs₁ hp₁ => .withState ?_
    rw [← hs₁.keeps.current] at hp₁
    refine (hR.newClass hs₁.inv hstmt hp₁ (hF.plain hK hdefine)).bind hR fun {w₂ m₂ d} hs₂ hd => ?_
    have hdef := hR.declare hs₂.inv hstmt rfl (.inr (hs₂.place hR hp₁)) hd
    rw [hs₂.keeps.current, hs₁.keeps.current] at hdef
    exact hdef
  | some t =>
    rw [Exec.declareClass_some]
    refine hnil.bindWith hR fun {w₁ m₁ _} hdefine hs₁ hp₁ => ?_
    rw [← hs₁.keeps.current] at hp₁
    have hname := ih.eval (K.starts hK (.superclass hdefine)) hs₁.inv hp₁ (hR.superclass hstmt)
    refine (hname.bind hR fun hs hv => .asSuperclass hR hs.inv t hv).bindWith hR
      fun {w₂ m₂ parent} hparent hs₂ hvalue => ?_
    have hrest := Preserves.declareSubclass hR hs₂.inv hstmt (hs₂.place hR hp₁) hvalue
      (hF.sub hK hdefine (Exec.of_asSuperclass hparent))
    rw [hs₂.keeps.current, hs₁.keeps.current] at hrest
    exact hrest

/-! ## Evaluation -/

theorem operator (hR : R.Laws) (h : R.inv w m) {r : Except Exit Value} (hr : Operator.IsResult r) :
    R.Preserves w m (Exec.ofResult r) R.value := by
  refine .ofResult hR h (fun v hv => ?_) fun v hv => ?_
  · subst hv
    exact hR.plain hr _ _
  · subst hv
    exact hr

theorem eval_succ (hR : R.Laws) (ih : R.Kept K depth) {e : Expr}
    (hK : K.has (depth + 1) (.eval e) m) (h : R.inv w m) (hplace : R.place c w m.scopes m.current)
    (he : R.expr c e) :
    R.Preserves w m (Lox.eval bound (depth + 1) e) R.value := by
  have hpart := hR.parts he
  have hfirst : ∀ {e' rest}, e.parts = e' :: rest →
      R.Preserves w m (Lox.eval bound depth e') R.value :=
    fun hparts => ih.eval (K.starts hK (.first hparts)) h hplace (hpart _ (by simp [hparts]))
  cases e with
  | literal v => exact .pure hR h (hR.plain v.isPlain_toValue _ _)
  | var name => exact .lookUp hR h name
  | this keyword => exact .lookUp hR h keyword
  | super keyword method => exact .superMethod hR h hplace he
  | grouping inner => exact hfirst rfl
  | assign name value =>
    rw [Lox.eval]
    refine (hfirst rfl).bind hR fun hs₁ hv => ?_
    refine (hR.assign hs₁.inv (hs₁.place hR hplace) he hv).bind hR fun hs₂ _ => ?_
    exact .pure hR hs₂.inv (hs₂.value hR hv)
  | unary op operand =>
    rw [Lox.eval]
    exact (hfirst rfl).bind hR fun hs₁ _ => operator hR hs₁.inv (Operator.isResult_unary _ _)
  | binary left op right =>
    rw [Lox.eval]
    refine (hfirst rfl).bindWith hR fun heq hs₁ _ => ?_
    refine (ih.eval (K.starts hK (.right heq)) hs₁.inv (hs₁.place hR hplace)
      (hpart right (by simp [Expr.parts]))).bind hR fun hs₂ _ => ?_
    exact operator hR hs₂.inv (Operator.isResult_binary _ _ _)
  | logical left op right =>
    rw [Lox.eval]
    refine (hfirst rfl).bindWith hR fun heq hs₁ hv => ?_
    split
    · exact .pure hR hs₁.inv hv
    · rename_i hne
      exact ih.eval (K.starts hK (.otherwise heq hne)) hs₁.inv (hs₁.place hR hplace)
        (hpart right (by simp [Expr.parts]))
  | call callee paren arguments =>
    rw [Lox.eval]
    refine (hfirst rfl).bindWith hR fun hcallee hs₁ hf => ?_
    refine (ih.evalAll hR (K.starts hK (.arguments hcallee)) hs₁.inv (hs₁.place hR hplace)
      fun a ha => hpart a (by simp [Expr.parts, ha])).bindWith hR fun harguments hs₂ hargs => ?_
    refine (Preserves.checkCall hR hs₂.inv paren _ _).bindWith hR fun hcheck hs₃ htakes => ?_
    exact ih.call (K.starts hK (.call hcallee harguments hcheck)) hs₃.inv
      (hs₃.value hR (hs₂.value hR hf)) (fun a ha => hs₃.value hR (hargs a ha)) (.inr htakes)
  | get object name =>
    rw [Lox.eval]
    refine (hfirst rfl).bind hR fun {w₁ m₁ v} hs₁ hv => ?_
    cases v with
    | inst i => exact .getProperty hR hs₁.inv hv name
    | _ => exact .fail hR hs₁.inv _ _
  | set object name value =>
    rw [Lox.eval]
    refine (hfirst rfl).bindWith hR fun {w₁ m₁ v} heq hs₁ _ => ?_
    cases v with
    | inst i =>
      refine (ih.eval (K.starts hK (.fieldValue heq)) hs₁.inv (hs₁.place hR hplace)
        (hpart value (by simp [Expr.parts]))).bind hR fun hs₂ hv => ?_
      exact (Preserves.setField hR hs₂.inv i name.lexeme hv).bind hR fun hs₃ hv =>
        .pure hR hs₃.inv hv
    | _ => exact .fail hR hs₁.inv _ _

theorem call_succ (hR : R.Laws) (ih : R.Kept K depth) {v : Value} {args : List Value}
    (hK : K.has (depth + 1) (.call v args) m) (h : R.inv w m) (hv : R.value w m.scopes v)
    (hargs : ∀ a ∈ args, R.value w m.scopes a) (hcount : R.loose w m.scopes ∨ v.Takes args.length) :
    R.Preserves w m (Lox.call bound (depth + 1) v args) R.value := by
  cases v with
  | function f => exact ih.invoke hR hK h hv hargs hcount
  | cls c => exact ih.construct hR hK h hv hargs hcount
  | native n => exact .callNative hR h n hargs
  | _ => exact .fault hR h _

theorem ifElse_succ (hR : R.Laws) (ih : R.Kept K depth) {condition : Expr} {thenBranch : Stmt}
    {elseBranch : Option Stmt}
    (hK : K.has (depth + 1) (.exec (.ifElse condition thenBranch elseBranch)) m)
    (h : R.inv w m) (hplace : R.place c w m.scopes m.current)
    (hs : R.stmt c (.ifElse condition thenBranch elseBranch)) :
    R.Preserves w m (Lox.exec bound (depth + 1) (.ifElse condition thenBranch elseBranch))
      fun w' s' _ => R.place c w' s' m.current := by
  have hcondition :=
    ih.eval (K.starts hK .condition) h hplace (hR.exprs hs condition (by simp [Stmt.exprs]))
  have hbranch : ∀ {w' m'}, R.Step w m w' m' →
      ∀ b ∈ Stmt.branches (.ifElse condition thenBranch elseBranch), K.has depth (.exec b) m' →
      R.Preserves w' m' (Lox.exec bound depth b) fun w'' s'' _ => R.place c w'' s'' m.current := by
    intro w' m' hs₁ b hb hK'
    rw [← hs₁.keeps.current]
    exact (ih.exec hK' hs₁.inv (hs₁.place hR hplace) (hR.branches hs b hb)).stay hR
      (hs₁.place hR hplace)
  cases elseBranch with
  | none =>
    rw [Lox.exec]
    refine hcondition.bindWith hR fun {w₁ m₁ v} heq hs₁ _ => ?_
    split
    · rename_i hv
      exact hbranch hs₁ thenBranch (by simp [Stmt.branches]) (K.starts hK (.thenBranch heq hv))
    · exact .pure hR hs₁.inv (hR.place_mono hs₁.moves hs₁.keeps.scopes hplace)
  | some s =>
    rw [Lox.exec]
    refine hcondition.bindWith hR fun {w₁ m₁ v} heq hs₁ _ => ?_
    split
    · rename_i hv
      exact hbranch hs₁ thenBranch (by simp [Stmt.branches]) (K.starts hK (.thenBranch heq hv))
    · rename_i hv
      exact hbranch hs₁ s (by simp [Stmt.branches])
        (K.starts hK (.elseBranch heq (by simpa using hv)))

theorem exec_succ (hR : R.Laws) (hF : R.Follows K) (ih : R.Kept K depth) {s : Stmt}
    (hK : K.has (depth + 1) (.exec s) m) (h : R.inv w m) (hplace : R.place c w m.scopes m.current)
    (hs : R.stmt c s) :
    R.Preserves w m (Lox.exec bound (depth + 1) s) fun w' s' _ =>
      R.place (R.after c s) w' s' m.current := by
  have hexpr := hR.exprs hs
  have hnil : R.Preserves w m (pure .nil : Exec Value) R.value :=
    .pure hR h (hR.plain (show Value.IsPlain .nil from trivial) _ _)
  cases s with
  | expr value =>
    rw [Lox.exec, hR.after_eq rfl]
    have hvalue := ih.eval (K.starts hK .expr) h hplace (hexpr value (by simp [Stmt.exprs]))
    exact (hvalue.stay hR hplace).bind hR fun hs₁ hp => .pure hR hs₁.inv hp
  | print value =>
    rw [Lox.exec, hR.after_eq rfl]
    have hvalue := ih.eval (K.starts hK .print) h hplace (hexpr value (by simp [Stmt.exprs]))
    exact (hvalue.stay hR hplace).bind hR fun {w₁ m₁ v} hs₁ hp =>
      (Preserves.print hR hs₁.inv v.shown).stay hR hp
  | varDecl name initializer =>
    have hvalue :
        R.Preserves w m (initializer.elim (pure .nil) (Lox.eval bound depth)) R.value := by
      cases initializer with
      | none => exact hnil
      | some e =>
        obtain ⟨c', he, hp⟩ := hR.initializer hs
        exact ih.eval (K.starts hK .varDecl) h (hp _ _ _ hplace) he
    rw [exec_varDecl]
    refine hvalue.bind hR fun {w₁ m₁ v} hs₁ hv => ?_
    rw [← hs₁.keeps.current]
    exact hR.declare hs₁.inv hs rfl (.inl (hs₁.place hR hplace)) hv
  | block body =>
    rw [Lox.exec, hR.after_eq rfl]
    refine .withState ?_
    refine (hR.block h hplace hs).bindWith hR fun {w₁ m₁ scope} heq hs₁ hscope => ?_
    obtain ⟨c', hbody, hp⟩ := hscope
    have hrun :=
      (ih.execAll hR (K.starts hK (.block heq)) (hR.within hs₁.inv scope) hp hbody).within hR
    exact hrun.stay hR (hR.place_mono hs₁.moves hs₁.keeps.scopes hplace)
  | ifElse condition thenBranch elseBranch =>
    rw [hR.after_eq rfl]
    exact ih.ifElse_succ hR hK h hplace hs
  | whileDo condition body =>
    rw [Lox.exec, hR.after_eq rfl]
    have hloop :=
      ih.loop hR bound (K.starts hK .whileDo) h hplace (hexpr condition (by simp [Stmt.exprs]))
        (hR.branches hs body (by simp [Stmt.branches]))
    exact hloop.stay hR hplace
  | funDecl decl =>
    rw [Lox.exec]
    exact .withState (hR.function h hplace hs)
  | ret keyword value =>
    have hvalue : R.Preserves w m (value.elim (pure .nil) (Lox.eval bound depth)) R.value := by
      cases value with
      | none => exact hnil
      | some e => exact ih.eval (K.starts hK .ret) h hplace (hexpr e (by simp [Stmt.exprs]))
    rw [exec_ret]
    refine hvalue.bind hR fun {w₁ m₁ v} hs₁ hv => .throw hR hs₁.inv fun v' hv' => ?_
    cases hv'
    exact hv
  | classDecl name superclass methods =>
    rw [Lox.exec]
    exact ih.declareClass hR hF hK h hplace hs

theorem of_depth (hR : R.Laws) (hF : R.Follows K) (depth : Nat) : R.Kept K depth := by
  induction depth with
  | zero =>
    exact ⟨fun _ h _ _ => .throw hR h nofun, fun _ h _ _ _ => .throw hR h nofun,
      fun _ h _ _ => .throw hR h nofun⟩
  | succ depth ih =>
    exact ⟨fun hK h hp he => ih.eval_succ hR hK h hp he,
      fun hK h hv hargs hn => ih.call_succ hR hK h hv hargs hn,
      fun hK h hp hs => ih.exec_succ hR hF hK h hp hs⟩

end Kept

/-- Executing a program keeps the invariant up, whatever its outcome. -/
theorem execute (hR : R.Laws) {l : Limits} {K : Course l.iterations} (hF : R.Follows K) {c : C}
    {program : List Stmt} (hK : K.has l.depth (.execAll program) { m with lastError := none })
    (h : R.inv w m) (hplace : R.place c w m.scopes m.current) (hss : R.stmts c program) :
    ∃ w', R.inv w' (m.execute l program).2 ∧ R.moves w m.scopes w' (m.execute l program).2.scopes ∧
      m.scopes.Extends (m.execute l program).2.scopes := by
  have hrun : R.Ends w { m with lastError := none } (fun _ _ _ => True)
      (execAll l.iterations l.depth program { m with lastError := none }) :=
    (Kept.of_depth hR hF l.depth).execAll hR hK (hR.frame h m.current m.printed none m.clock)
      hplace hss
  unfold Machine.execute
  generalize execAll l.iterations l.depth program { m with lastError := none } = r at hrun ⊢
  cases hrun with
  | ok hs _ => exact ⟨_, hs.inv, hs.moves, hs.keeps.scopes⟩
  | @error w' m' e hs _ =>
    cases e with
    | failed e =>
      exact ⟨w', hR.frame hs.inv m'.current m'.printed (some e) m'.clock, hs.moves, hs.keeps.scopes⟩
    | _ => exact ⟨w', hs.inv, hs.moves, hs.keeps.scopes⟩

end

end Invariant
end Lox
