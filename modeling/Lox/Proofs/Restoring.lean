import Lox.Proofs.Analysis
import Lox.Proofs.Store

/-!
# The active scope is restored

Whatever an execution does and however it ends, the scope that was active before is active again
afterwards, the table of distances and the globals are those of before, and scopes were only added
to: this is `Machine.Keeps`. `Exec.Restores x` says so of the computation `x` on every machine, and
evaluation is put together from computations that do (`Restoring.of_depth`). A host that takes any
steps one after another thus always finds the globals active (`current_restored`).
-/

namespace Lox

/-- The machine that a computation leaves, whichever way it ends. -/
def Exec.after {α : Type} (x : Exec α) (m : Machine) : Machine :=
  match x m with
  | .ok _ m' => m'
  | .error _ m' => m'

namespace Exec

variable {α β : Type} {x : Exec α} {f : α → Exec β} {m m' : Machine}

theorem after_of_ok {a : α} (hx : x m = .ok a m') : x.after m = m' := by
  unfold after
  rw [hx]

theorem after_of_error {e : Exit} (hx : x m = .error e m') : x.after m = m' := by
  unfold after
  rw [hx]

theorem after_bind_of_ok {a : α} (hx : x m = .ok a m') : after (x >>= f) m = (f a).after m' := by
  unfold after
  rw [bind_of_ok hx]

theorem after_bind_of_error {e : Exit} (hx : x m = .error e m') : after (x >>= f) m = m' :=
  after_of_error (bind_of_error hx)

theorem after_discard (x : Exec α) (m : Machine) : after (discard x) m = x.after m := by
  have hdiscard : discard x m = EStateM.map (fun _ => PUnit.unit) x m := rfl
  unfold after
  rw [hdiscard, EStateM.map]
  cases x m <;> rfl

theorem after_within (i : ScopeId) (x : Exec α) (m : Machine) :
    (within i x).after m = { x.after { m with current := i } with current := m.current } := by
  unfold after within
  dsimp only
  cases x { m with current := i } <;> rfl

theorem after_catchReturn (x : Exec Unit) (m : Machine) : (catchReturn x).after m = x.after m := by
  unfold after catchReturn
  cases x m with
  | ok a m' => rfl
  | error e m' => cases e <;> rfl

end Exec

/-- What execution leaves alone. It only adds to the scopes and to what was printed. -/
structure Machine.Keeps (m m' : Machine) : Prop where
  current : m'.current = m.current
  globals : m'.globals = m.globals
  distances : m'.distances = m.distances
  nextSite : m'.nextSite = m.nextSite
  lastError : m'.lastError = m.lastError
  printed : m.printed.toList <+: m'.printed.toList
  scopes : m.scopes.Extends m'.scopes

namespace Machine.Keeps

variable {m m' m'' : Machine}

theorem refl (m : Machine) : m.Keeps m := ⟨rfl, rfl, rfl, rfl, rfl, List.prefix_rfl, .refl _⟩

theorem trans (h : m.Keeps m') (h' : m'.Keeps m'') : m.Keeps m'' :=
  ⟨h'.current.trans h.current, h'.globals.trans h.globals, h'.distances.trans h.distances,
    h'.nextSite.trans h.nextSite, h'.lastError.trans h.lastError, h.printed.trans h'.printed,
    h.scopes.trans h'.scopes⟩

/-- Scopes may grow, and fields and identities change. -/
theorem store (m : Machine) {scopes : Scopes} (h : m.scopes.Extends scopes)
    (fields : Array (Bindings Value)) (nextId : Nat) : m.Keeps { m with scopes, fields, nextId } :=
  ⟨rfl, rfl, rfl, rfl, rfl, List.prefix_rfl, h⟩

/-- The clock may be read. -/
theorem read (m : Machine) (clock : Clock) : m.Keeps { m with clock } :=
  ⟨rfl, rfl, rfl, rfl, rfl, List.prefix_rfl, .refl _⟩

end Machine.Keeps

/-- A clock that moves: the first reading differs from all others. -/
def Clock.ticking : Clock := ⟨fun k => if k = 0 then 0 else 1, 0⟩

/-- On every machine the computation restores what it changed for a while. -/
def Exec.Restores {α : Type} (x : Exec α) : Prop := ∀ m : Machine, m.Keeps (x.after m)

namespace Exec.Restores

variable {α β γ : Type} {x : Exec α} {f : α → Exec β}

theorem of_ok {m m' : Machine} {a : α} (hx : Restores x) (h : x m = .ok a m') : m.Keeps m' := by
  have hm := hx m
  rwa [after, h] at hm

/-! ## Composed computations -/

theorem pure (a : α) : Restores (Pure.pure a) := fun m => .refl m

theorem throw (e : Exit) : Restores (MonadExcept.throw e : Exec α) := fun m => .refl m

theorem get : Restores (MonadState.get : Exec Machine) := fun m => .refl m

theorem bind (hx : Restores x) (hf : ∀ a, Restores (f a)) : Restores (x >>= f) := by
  intro m
  have hm := hx m
  show m.Keeps (match EStateM.bind x f m with | .ok _ m' => m' | .error _ m' => m')
  unfold Exec.after at hm
  unfold EStateM.bind
  generalize x m = r at hm ⊢
  cases r with
  | error e m' => exact hm
  | ok a m' => exact hm.trans (hf a m')

theorem map (f : α → β) (hx : Restores x) : Restores (f <$> x) := by
  rw [map_eq_pure_bind]
  exact hx.bind fun a => pure (f a)

theorem ofResult (r : Except Exit α) : Restores (Exec.ofResult r) := by
  cases r with
  | ok a => exact pure a
  | error e => exact throw e

theorem ofFault (r : Except Fault α) : Restores (Exec.ofFault r) := by
  cases r with
  | ok a => exact pure a
  | error e => exact throw _

theorem ofFailure (r : Except RuntimeError α) : Restores (Exec.ofFailure r) := by
  cases r with
  | ok a => exact pure a
  | error e => exact throw _

/-- The scope that was active before is active again also when the computation ends early. -/
theorem within (i : ScopeId) (hx : Restores x) : Restores (Exec.within i x) := by
  intro m
  rw [after_within]
  exact { hx { m with current := i } with current := rfl }

theorem catchReturn {x : Exec Unit} (hx : Restores x) : Restores (Exec.catchReturn x) := by
  intro m
  rw [after_catchReturn]
  exact hx m

theorem loop {test : Exec Bool} {body : Exec Unit} (htest : Restores test) (hbody : Restores body)
    (bound : Nat) : Restores (Exec.loop bound test body) := by
  induction bound with
  | zero => exact throw _
  | succ bound ih =>
    refine htest.bind fun again => ?_
    cases again with
    | false => exact pure ()
    | true => exact hbody.bind fun _ => ih

theorem mapM {f : γ → Exec α} (hf : ∀ c, Restores (f c)) (cs : List γ) : Restores (cs.mapM f) := by
  induction cs with
  | nil => exact pure []
  | cons c cs ih =>
    rw [List.mapM_cons]
    exact (hf c).bind fun _ => ih.bind fun _ => pure _

theorem forM {f : γ → Exec Unit} (hf : ∀ c, Restores (f c)) (cs : List γ) :
    Restores (cs.forM f) := by
  induction cs with
  | nil => exact pure ()
  | cons c cs ih => exact (hf c).bind fun _ => ih

theorem foldlM {f : α → γ → Exec α} (hf : ∀ a c, Restores (f a c)) (cs : List γ) (a : α) :
    Restores (cs.foldlM f a) := by
  induction cs generalizing a with
  | nil => exact pure a
  | cons c cs ih =>
    rw [List.foldlM_cons]
    exact (hf a c).bind fun b => ih b

/-! ## Steps of the machine -/

theorem newScope (parent : ScopeId) (b : Bindings Value) : Restores (Exec.newScope parent b) :=
  fun m => .store m (.add _ _ _) _ _

theorem define (name : String) (v : Value) : Restores (Exec.define name v) :=
  fun m => .store m (.define _ _ _ _) _ _

theorem setField (i : Instance) (name : String) (v : Value) : Restores (Exec.setField i name v) :=
  fun m => .store m (.refl _) _ _

theorem newId : Restores Exec.newId := fun m => .store m (.refl _) _ _

theorem newInstance (c : Class) : Restores (Exec.newInstance c) := fun m => .store m (.refl _) _ _

theorem print (line : String) : Restores (Exec.print line) := by
  intro m
  refine { Machine.Keeps.refl m with printed := ?_ }
  show m.printed.toList <+: (m.printed.push line).toList
  rw [Array.toList_push]
  exact List.prefix_append _ _

theorem lookUp (name : Token) : Restores (Exec.lookUp name) := by
  refine get.bind fun m => ?_
  cases m.distances.find? name.site with
  | some d => exact ofFault _
  | none => exact ofFailure _

theorem assign (name : Token) (v : Value) : Restores (Exec.assign name v) := by
  refine get.bind fun m => ?_
  have hset : ∀ j,
      Restores (modify fun m => { m with scopes := m.scopes.define j name.lexeme v }) :=
    fun j m => .store m (.define _ _ _ _) _ _
  cases m.distances.find? name.site with
  | some d => exact (ofFault _).bind hset
  | none => exact (ofFailure _).bind hset

theorem newClosure (decl : FunDecl) (scope : ScopeId) (isInitializer : Bool) :
    Restores (Exec.newClosure decl scope isInitializer) := newId.bind fun _ => pure _

theorem bindMethod (f : Closure) (this : Value) : Restores (Exec.bindMethod f this) :=
  (newScope _ _).bind fun _ => newClosure _ _ _

theorem newClass (name : String) (superclass : Option Class) (methods : List FunDecl)
    (scope : ScopeId) :
    Restores (Exec.newClass name superclass methods scope) := by
  have hmethod : ∀ (b : Bindings Closure) (decl : FunDecl), Restores (do
      let f ← Exec.newClosure decl scope (decl.name.lexeme == Class.initializerName)
      Pure.pure (b.set decl.name.lexeme f)) := fun b decl => (newClosure _ _ _).bind fun _ => pure _
  exact (foldlM hmethod methods _).bind fun _ => newId.bind fun _ => pure _

theorem getProperty (i : Instance) (name : Token) : Restores (Exec.getProperty i name) := by
  refine get.bind fun m => ?_
  cases (m.fieldsOf i).get? name.lexeme with
  | some v => exact pure v
  | none =>
    cases i.cls.method? name.lexeme with
    | some f => exact (bindMethod f _).map _
    | none => exact throw _

theorem readClock : Restores Exec.readClock := fun m => .read m _

theorem callNative (n : Native) (args : List Value) : Restores (Exec.callNative n args) := by
  unfold Exec.callNative
  cases n.behaviour with
  | clock =>
    dsimp only
    split
    · exact readClock.map _
    · exact throw _
  | first => exact pure _
  | join => exact pure _
  | count => exact pure _
  | unimplemented => exact throw _

theorem checkCall (paren : Token) (callee : Value) (count : Nat) :
    Restores (Exec.checkCall paren callee count) := by
  have hcount : ∀ arity, Restores (if count ≠ arity then Exec.fail paren (.wrongCount arity count)
      else Pure.pure ()) := by
    intro arity
    split
    · exact throw _
    · exact pure ()
  unfold Exec.checkCall
  cases callee with
  | function f => exact hcount _
  | cls c => exact hcount _
  | native n =>
    dsimp only
    split
    · exact throw _
    · exact hcount _
  | _ => exact throw _

theorem superMethod (keyword method : Token) : Restores (Exec.superMethod keyword method) := by
  refine get.bind fun m => ?_
  cases m.distances.find? keyword.site with
  | none => exact throw _
  | some d =>
    refine (ofFault _).bind fun parent => (ofFault _).bind fun this => ?_
    cases parent with
    | cls c =>
      dsimp only
      cases c.method? method.lexeme with
      | some f => exact (bindMethod f this).map _
      | none => exact throw _
    | _ => exact throw _

theorem asSuperclass (name : Token) (v : Value) : Restores (Exec.asSuperclass name v) := by
  cases v with
  | cls c => exact pure c
  | _ => exact throw _

/-- What a class declaration does when the superclass is known. -/
theorem makeClass (name : Token) (methods : List FunDecl) (parent : Option Class) : Restores (do
    let scope := (← MonadState.get).current
    let scope ← match parent with
      | none => Pure.pure scope
      | some c => Exec.newScope scope (Bindings.empty.set "super" (.cls c))
    let c ← Exec.newClass name.lexeme parent methods scope
    Exec.define name.lexeme (.cls c)) := by
  have hclass : ∀ scope, Restores (Exec.newClass name.lexeme parent methods scope >>= fun c =>
      Exec.define name.lexeme (.cls c)) := fun _ => (newClass _ _ _ _).bind fun _ => define _ _
  refine get.bind fun m => ?_
  cases parent with
  | none => exact hclass m.current
  | some c => exact (newScope _ _).bind hclass

theorem declareClass {evalSuperclass : Token → Exec Value}
    (heval : ∀ t, Restores (evalSuperclass t)) (name : Token) (superclass : Option Token)
    (methods : List FunDecl) :
    Restores (Exec.declareClass name superclass methods evalSuperclass) := by
  refine (define _ _).bind fun _ => ?_
  cases superclass with
  | none => exact (pure none).bind (makeClass name methods)
  | some t => exact (((heval t).bind (asSuperclass t)).map some).bind (makeClass name methods)

/-- What a call does when the body of the function has ended. -/
theorem finishCall (f : Closure) (v : Value) : Restores (do
    if f.isInitializer then
      let m ← MonadState.get
      Exec.ofFault (m.scopes.getAt f.scope 0 "this")
    else Pure.pure v) := by
  split
  · exact get.bind fun m => ofFault _
  · exact pure v

theorem invoke {run : List Stmt → Exec Unit} (hrun : ∀ body, Restores (run body)) (f : Closure)
    (args : List Value) : Restores (Exec.invoke f args run) :=
  (newScope _ _).bind fun scope => ((hrun _).within scope).catchReturn.bind (finishCall f)

theorem construct {run : List Stmt → Exec Unit} (hrun : ∀ body, Restores (run body)) (c : Class)
    (args : List Value) : Restores (Exec.construct c args run) := by
  refine (newInstance c).bind fun i => ?_
  cases c.initializer? with
  | none => exact pure _
  | some f => exact (bindMethod f _).bind fun bound => (invoke hrun bound args).bind fun _ => pure _

end Exec.Restores

/-! ## Evaluation -/

open Exec (Restores)

/-- Evaluation to a depth restores what it changes. -/
structure Restoring (bound depth : Nat) : Prop where
  eval : ∀ e, Restores (eval bound depth e)
  call : ∀ v args, Restores (call bound depth v args)
  exec : ∀ s, Restores (exec bound depth s)

namespace Restoring

variable {bound depth : Nat}

theorem eval_succ (ih : Restoring bound depth) (e : Expr) :
    Restores (Lox.eval bound (depth + 1) e) := by
  cases e with
  | literal v => exact .pure _
  | var name => exact .lookUp name
  | this keyword => exact .lookUp keyword
  | super keyword method => exact .superMethod keyword method
  | grouping inner => exact ih.eval inner
  | assign name value =>
    rw [Lox.eval]
    exact (ih.eval value).bind fun v => (Restores.assign name v).bind fun _ => .pure v
  | unary op operand =>
    rw [Lox.eval]
    exact (ih.eval operand).bind fun v => .ofResult _
  | binary left op right =>
    rw [Lox.eval]
    exact (ih.eval left).bind fun v => (ih.eval right).bind fun w => .ofResult _
  | logical left op right =>
    rw [Lox.eval]
    refine (ih.eval left).bind fun v => ?_
    split
    · exact .pure v
    · exact ih.eval right
  | call callee paren arguments =>
    rw [Lox.eval]
    refine (ih.eval callee).bind fun f => (Restores.mapM ih.eval arguments).bind fun args => ?_
    exact (Restores.checkCall paren f args.length).bind fun _ => ih.call f args
  | get object name =>
    rw [Lox.eval]
    refine (ih.eval object).bind fun v => ?_
    cases v with
    | inst i => exact .getProperty i name
    | _ => exact .throw _
  | set object name value =>
    rw [Lox.eval]
    refine (ih.eval object).bind fun v => ?_
    cases v with
    | inst i =>
      exact (ih.eval value).bind fun w => (Restores.setField i name.lexeme w).bind fun _ => .pure w
    | _ => exact .throw _

theorem call_succ (ih : Restoring bound depth) (v : Value) (args : List Value) :
    Restores (Lox.call bound (depth + 1) v args) := by
  cases v with
  | function f => exact .invoke (.forM ih.exec) f args
  | cls c => exact .construct (.forM ih.exec) c args
  | native n => exact .callNative n args
  | _ => exact .throw _

theorem exec_succ (ih : Restoring bound depth) (s : Stmt) :
    Restores (Lox.exec bound (depth + 1) s) := by
  cases s with
  | expr value =>
    rw [Lox.exec]
    exact (ih.eval value).bind fun _ => .pure ()
  | print value =>
    rw [Lox.exec]
    exact (ih.eval value).bind fun v => .print v.shown
  | varDecl name initializer =>
    cases initializer with
    | none => exact .define name.lexeme .nil
    | some e => exact (ih.eval e).bind fun v => .define name.lexeme v
  | block body =>
    rw [Lox.exec]
    exact Restores.get.bind fun m => (Restores.newScope _ _).bind fun scope =>
      (Restores.forM ih.exec body).within scope
  | ifElse condition thenBranch elseBranch =>
    cases elseBranch with
    | none =>
      rw [Lox.exec]
      refine (ih.eval condition).bind fun v => ?_
      split
      · exact ih.exec thenBranch
      · exact .pure ()
    | some s =>
      rw [Lox.exec]
      refine (ih.eval condition).bind fun v => ?_
      split
      · exact ih.exec thenBranch
      · exact ih.exec s
  | whileDo condition body =>
    rw [Lox.exec]
    exact .loop ((ih.eval condition).map _) (ih.exec body) bound
  | funDecl decl =>
    rw [Lox.exec]
    exact Restores.get.bind fun m => (Restores.newClosure _ _ _).bind fun f => .define _ _
  | ret keyword value =>
    cases value with
    | none => exact .throw _
    | some e => exact (ih.eval e).bind fun v => .throw _
  | classDecl name superclass methods =>
    rw [Lox.exec]
    exact .declareClass (fun t => ih.eval (.var t)) name superclass methods

theorem of_depth (bound depth : Nat) : Restoring bound depth := by
  induction depth with
  | zero => exact ⟨fun _ => .throw _, fun _ _ => .throw _, fun _ => .throw _⟩
  | succ depth ih => exact ⟨ih.eval_succ, ih.call_succ, ih.exec_succ⟩

theorem execAll (bound depth : Nat) (program : List Stmt) :
    Restores (Lox.execAll bound depth program) :=
  .forM (of_depth bound depth).exec program

end Restoring

/-- Executing a program keeps all but the last error. -/
theorem Machine.keeps_execute (m : Machine) (l : Limits) (program : List Stmt) :
    ∃ e, Machine.Keeps { m with lastError := e } (m.execute l program).2 := by
  have hkeeps := Restoring.execAll l.iterations l.depth program { m with lastError := none }
  unfold Exec.after at hkeeps
  unfold Machine.execute
  generalize Lox.execAll l.iterations l.depth program { m with lastError := none } = r at hkeeps ⊢
  cases r with
  | ok _ m' => exact ⟨none, hkeeps⟩
  | error why m' =>
    cases why with
    | failed e => exact ⟨some e, { hkeeps with lastError := rfl }⟩
    | _ => exact ⟨none, hkeeps⟩

/-! ## Hosts -/

/-- What a host hands to a machine: a value of any sort, or what a global is bound to. -/
inductive HostValue where
  | given (v : Value)
  | global (name : String)

def HostValue.read : HostValue → Exec Value
  | given v => pure v
  | global name => Exec.global name

inductive HostRequest where
  /-- A call with any number of arguments. -/
  | call (l : Limits) (callee : HostValue) (args : List HostValue)
  | native (name : String) (arity : Nat) (behaviour : Behaviour)
  /-- An instance on which no initializer was run. -/
  | newInstance (cls : HostValue)
  | property (object : HostValue) (name : Token)
  | method (cls this : HostValue) (name : String)
  /-- Any function, bound to any value. -/
  | bind (function this : HostValue)

def HostRequest.answer : HostRequest → Exec Value
  | call l callee args => do
    let f ← callee.read
    let vs ← args.mapM HostValue.read
    Lox.call l.iterations l.depth f vs
  | native name arity behaviour => .native <$> Exec.newNative name arity behaviour
  | newInstance cls => do
    let c ← cls.read >>= Exec.asClass
    .inst <$> Exec.newInstance c
  | property object name => do
    let i ← object.read >>= Exec.asInstance
    Exec.getProperty i name
  | method cls this name => do
    let c ← cls.read >>= Exec.asClass
    let v ← this.read
    let f ← Exec.findMethod c v name
    pure (f.elim .nil .function)
  | bind function this => do
    let f ← function.read >>= Exec.asFunction
    let v ← this.read
    .function <$> Exec.bindMethod f v

/-- What a host can do with a machine. -/
inductive HostStep where
  | run (l : Limits) (source : String)
  | runUnresolved (l : Limits) (source : String)
  | runUnchecked (l : Limits) (source : String)
  /-- The answer may be kept as a global. -/
  | ask (request : HostRequest) (store : Option String)
  | define (name : String) (value : HostValue)
  | set (object : HostValue) (name : String) (value : HostValue)
  /-- Trees of no known form. -/
  | executeUnknown (f : Fault)

/-- The machine after a step, whether it succeeds or not. -/
def Machine.perform (m : Machine) : HostStep → Machine
  | .run l source => (m.run l source).2
  | .runUnresolved l source => (m.runUnresolved l source).2
  | .runUnchecked l source => (m.runUnchecked l source).2.2
  | .ask request none => request.answer.after m
  | .ask request (some name) => (request.answer >>= Exec.defineGlobal name).after m
  | .define name value => (value.read >>= Exec.defineGlobal name).after m
  | .set object name value => Exec.after (do
      let i ← object.read >>= Exec.asInstance
      let v ← value.read
      Exec.setField i name v) m
  | .executeUnknown f => (Exec.executeUnknown f).after m

def Machine.performAll (m : Machine) (steps : List HostStep) : Machine :=
  steps.foldl Machine.perform m

namespace Exec.Restores

theorem global (name : String) : Restores (Exec.global name) := by
  refine get.bind fun m => ?_
  cases m.global? name with
  | some v => exact pure v
  | none => exact throw _

theorem read (v : HostValue) : Restores v.read := by
  cases v with
  | given v => exact pure v
  | global name => exact global name

theorem defineGlobal (name : String) (v : Value) : Restores (Exec.defineGlobal name v) :=
  fun m => .store m (.define _ _ _ _) _ _

theorem asClass (v : Value) : Restores (Exec.asClass v) := by
  cases v with
  | cls c => exact pure c
  | _ => exact throw _

theorem asInstance (v : Value) : Restores (Exec.asInstance v) := by
  cases v with
  | inst i => exact pure i
  | _ => exact throw _

theorem asFunction (v : Value) : Restores (Exec.asFunction v) := by
  cases v with
  | function f => exact pure f
  | _ => exact throw _

theorem answer (q : HostRequest) : Restores q.answer := by
  cases q with
  | call l callee args =>
    exact (read callee).bind fun f => (mapM read args).bind fun vs =>
      (Restoring.of_depth l.iterations l.depth).call f vs
  | native name arity behaviour => exact (newId.bind fun _ => pure _).map _
  | newInstance cls => exact ((read cls).bind asClass).bind fun c => (newInstance c).map _
  | property object name => exact ((read object).bind asInstance).bind fun i => getProperty i name
  | method cls this name =>
    refine ((read cls).bind asClass).bind fun c => (read this).bind fun v => ?_
    refine bind ?_ fun f => pure _
    unfold Exec.findMethod
    cases c.method? name with
    | some f => exact (bindMethod f v).map _
    | none => exact pure none
  | bind function this =>
    exact ((read function).bind asFunction).bind fun f => (read this).bind fun v =>
      (bindMethod f v).map _

end Exec.Restores

def Machine.place (m : Machine) : ScopeId × ScopeId := (m.current, m.globals)

theorem Machine.Keeps.place_eq {m m' : Machine} (h : m.Keeps m') : m'.place = m.place := by
  rw [place, h.current, h.globals, place]

theorem Machine.place_execute (m : Machine) (l : Limits) (program : List Stmt) :
    (m.execute l program).2.place = m.place := by
  obtain ⟨e, h⟩ := m.keeps_execute l program
  exact h.place_eq

/-- What a run does with a machine, whether it looks at errors and distances or not: the text gets
its sites and distances, and perhaps a program is executed. -/
def Machine.Ran (m m' : Machine) : Prop :=
  ∃ distances nextSite, m' = { m with distances, nextSite } ∨
    ∃ l program, m' = (execute { m with distances, nextSite } l program).2

theorem Machine.ran_run (m : Machine) (l : Limits) (source : String) :
    m.Ran (m.run l source).2 := by
  cases hprogram : (m.analysis l source).program with
  | ok program =>
    rw [run_of_ok hprogram]
    exact ⟨_, _, .inr ⟨l, program, rfl⟩⟩
  | error o =>
    rw [run_of_error hprogram]
    exact ⟨_, _, .inl rfl⟩

/-- What a run leaves of a text is what the analysis found, whether the text is executed or not. -/
theorem Machine.of_run (m : Machine) (l : Limits) (source : String) :
    (m.run l source).1.toPhases = (m.analysis l source).toPhases ∧
      (m.run l source).2.distances = (m.analysed l source).distances ∧
      (m.run l source).2.nextSite = (m.analysed l source).nextSite := by
  cases hprogram : (m.analysis l source).program with
  | ok program =>
    obtain ⟨e, hkeeps⟩ := (m.analysed l source).keeps_execute l program
    rw [run_of_ok hprogram]
    exact ⟨rfl, hkeeps.distances, hkeeps.nextSite⟩
  | error o =>
    rw [run_of_error hprogram]
    exact ⟨rfl, rfl, rfl⟩

theorem Machine.ran_runUnresolved (m : Machine) (l : Limits) (source : String) :
    m.Ran (m.runUnresolved l source).2 := by
  unfold runUnresolved
  dsimp only
  split
  · exact ⟨m.distances, _, .inl rfl⟩
  · exact ⟨m.distances, _, .inr ⟨l, _, rfl⟩⟩

theorem Machine.ran_runUnchecked (m : Machine) (l : Limits) (source : String) :
    m.Ran (m.runUnchecked l source).2.2 := by
  unfold runUnchecked
  dsimp only
  split
  · exact ⟨m.distances, _, .inl rfl⟩
  · split
    · exact ⟨_, _, .inl rfl⟩
    · exact ⟨_, _, .inr ⟨l, _, rfl⟩⟩

theorem Machine.Ran.place_eq {m m' : Machine} (h : m.Ran m') : m'.place = m.place := by
  obtain ⟨d, k, rfl | ⟨l, program, rfl⟩⟩ := h
  · rfl
  · exact place_execute _ l program

/-- A run only adds to what was printed. -/
theorem Machine.Ran.printed {m m' : Machine} (h : m.Ran m') :
    m.printed.toList <+: m'.printed.toList := by
  obtain ⟨d, k, rfl | ⟨l, program, rfl⟩⟩ := h
  · exact List.prefix_rfl
  · obtain ⟨e, hkeeps⟩ := keeps_execute { m with distances := d, nextSite := k } l program
    exact hkeeps.printed

/-- A step of a host leaves the machine where it stands. -/
theorem Machine.place_perform (m : Machine) (step : HostStep) :
    (m.perform step).place = m.place := by
  cases step with
  | run l source => exact (m.ran_run l source).place_eq
  | runUnresolved l source => exact (m.ran_runUnresolved l source).place_eq
  | runUnchecked l source => exact (m.ran_runUnchecked l source).place_eq
  | ask request store =>
    cases store with
    | none => exact (Exec.Restores.answer request m).place_eq
    | some name => exact ((Exec.Restores.answer request).bind (.defineGlobal name) m).place_eq
  | define name value => exact ((Exec.Restores.read value).bind (.defineGlobal name) m).place_eq
  | set object name value =>
    exact (((Restores.read object).bind .asInstance).bind (fun i => (Restores.read value).bind
      (.setField i name)) m).place_eq
  | executeUnknown f => rfl

theorem Machine.place_performAll (m : Machine) (steps : List HostStep) :
    (m.performAll steps).place = m.place := by
  induction steps generalizing m with
  | nil => rfl
  | cons step steps ih => exact (ih (m.perform step)).trans (m.place_perform step)

/-- What execution must not change: the active scope, the globals and the distances. -/
def Machine.bearings (m : Machine) : ScopeId × ScopeId × Distances :=
  (m.current, m.globals, m.distances)

theorem Exec.Restores.bearings_eq {α : Type} {x : Exec α} (h : Restores x) (m : Machine) :
    (x.after m).bearings = m.bearings := by
  rw [Machine.bearings, (h m).current, (h m).globals, (h m).distances, Machine.bearings]

/-- **The active scope is restored.** Evaluating any expression, executing any statement and calling
any value on any machine leaves the active scope, the globals and the distances as they were,
however it ends. So the globals are active after any steps of a host. -/
theorem current_restored :
    (∀ (bound depth : Nat) (m : Machine),
      (∀ e, ((eval bound depth e).after m).bearings = m.bearings) ∧
      (∀ s, ((exec bound depth s).after m).bearings = m.bearings) ∧
      ∀ v args, ((call bound depth v args).after m).bearings = m.bearings) ∧
    ∀ (clock : Clock) (steps : List HostStep),
      ((Machine.initial clock).performAll steps).current =
        ((Machine.initial clock).performAll steps).globals ∧
      ((Machine.initial clock).performAll steps).globals = (Machine.initial clock).globals := by
  refine ⟨fun bound depth m => ?_, fun clock steps => ?_⟩
  · have h := Restoring.of_depth bound depth
    exact ⟨fun e => (h.eval e).bearings_eq m, fun s => (h.exec s).bearings_eq m,
      fun v args => (h.call v args).bearings_eq m⟩
  · have hplace := (Machine.initial clock).place_performAll steps
    have hcurrent : ((Machine.initial clock).performAll steps).current = 0 :=
      congrArg Prod.fst hplace
    have hglobals : ((Machine.initial clock).performAll steps).globals = 0 :=
      congrArg Prod.snd hplace
    exact ⟨hcurrent.trans hglobals.symm, hglobals⟩

end Lox
