import Lox.Proofs.Dispatch

/-!
# Construction

A call of a class that comes to an end yields an instance that was not there before, and a call of a
bound initializer yields the instance that the initializer is bound to. `Machine.Present` are the
values that a session has in a state, and `construction_lawful` says what construction does with
them.
-/

namespace Lox

/-! ## The number of instances -/

def counting (k : Nat) : Invariant Unit Unit where
  inv _ m := k ≤ m.fields.size
  moves _ _ _ _ := True
  value _ _ _ := True
  loose _ _ := True
  place _ _ _ _ := True
  expr _ _ := True
  stmt _ _ := True
  after c _ := c

namespace Counting

variable {k : Nat} {m : Machine} {α : Type}

theorem stmts (ss : List Stmt) : (counting k).stmts () ss := by
  induction ss with
  | nil => trivial
  | cons s ss ih => exact ⟨trivial, ih⟩

theorem step {m' : Machine} (h : k ≤ m'.fields.size) (hkeeps : m.Keeps m') :
    (counting k).Step () m () m' :=
  ⟨h, hkeeps, trivial⟩

/-- A computation that leaves the number of instances as it is. -/
theorem preserves {x : Exec α} (hx : Exec.Restores x) (hfields : (x.after m).fields = m.fields)
    (h : k ≤ m.fields.size) :
    (counting k).Preserves () m x fun _ _ _ => True := by
  have hkeeps := hx m
  have hsize : k ≤ (x.after m).fields.size := by rw [hfields]; exact h
  unfold Exec.after at hkeeps hsize
  unfold Invariant.Preserves
  cases hx : x m with
  | ok a m' =>
    rw [hx] at hkeeps hsize
    exact .ok (step hsize hkeeps) trivial
  | error e m' =>
    rw [hx] at hkeeps hsize
    exact .error (step hsize hkeeps) fun _ _ => trivial

theorem fields_assign (t : Token) (v : Value) (m : Machine) :
    ((Exec.assign t v).after m).fields = m.fields := by
  unfold Exec.after
  cases hd : m.distances.find? t.site with
  | none =>
    rw [Exec.assign_of_none v hd]
    cases m.scopes.binder? m.globals t.lexeme <;> rfl
  | some d =>
    cases hj : m.scopes.ancestor? m.current d with
    | none => rw [Exec.assign_of_far v hd hj]
    | some j => rw [Exec.assign_of_some v hd hj]

theorem newClass (h : k ≤ m.fields.size) (name : String) (parent : Option Class)
    (methods : List FunDecl) (scope : ScopeId) :
    (counting k).Preserves () m (Exec.newClass name parent methods scope) fun _ _ _ => True := by
  refine preserves (.newClass name parent methods scope) ?_ h
  obtain ⟨b, -, heq⟩ := Exec.newClass_eq name parent methods scope m
  rw [Exec.after_of_ok heq]

theorem laws (k : Nat) : (counting k).Laws where
  refl _ _ := trivial
  trans _ _ := trivial
  value_mono _ _ _ := trivial
  place_mono _ _ _ := trivial
  loose_mono _ _ _ := trivial
  frame h _ _ _ _ := h
  plain _ _ _ := trivial
  cls _ := trivial
  stored _ _ := trivial
  field _ _ := trivial
  setField h _ i x := by
    show k ≤ (Array.modify _ _ _).size
    rw [Array.size_modify]
    exact h
  newInstance {_ m c} h _ :=
    .ok (step (Nat.le_trans h (by simp)) (Exec.Restores.newInstance c m)) trivial
  suits_cls _ := trivial
  suits_super _ _ _ _ _ _ := trivial
  bindMethod {_ m _ _ f this} h _ _ _ _ :=
    .ok (step h (Exec.Restores.bindMethod f this m)) ⟨trivial, rfl⟩
  parts _ _ _ := trivial
  assign {_ _ m t _ v} h _ _ _ := preserves (.assign t v) (fields_assign t v m) h
  exprs _ _ _ := trivial
  branches _ _ _ := trivial
  after_eq _ := rfl
  block {_ _ m body} h _ _ := .ok (step h (Exec.Restores.newScope _ _ m)) ⟨(), stmts body, trivial⟩
  initializer _ := ⟨(), trivial, fun _ _ _ _ => trivial⟩
  declare {_ _ m _ _ v} h _ _ _ _ := preserves (.define _ v) rfl h
  function {_ _ m decl} h _ _ :=
    preserves ((Exec.Restores.newClosure decl m.current false).bind fun f =>
      .define _ (.function f)) rfl h
  superclass _ := trivial
  newClass h _ _ _ := newClass h _ none _ _
  newSubclass {_ _ m _ _ parent _} h _ _ _ _ :=
    (preserves (.newScope m.current (Bindings.empty.set "super" (.cls parent))) rfl h).bind_of_trans
      (fun _ _ => trivial) fun hs _ => newClass hs.inv _ (some parent) _ _
  enter {_ m f args} h _ _ _ :=
    .ok (step h (Exec.Restores.newScope _ _ m)) ⟨(), stmts f.decl.body, trivial⟩

theorem follows {bound : Nat} (K : Course bound) : (counting k).Follows K where
  plain _ _ := trivial
  sub _ _ _ := trivial

theorem fits (m : Machine) (t : Task) : (counting k).Fits () m t := by
  cases t with
  | call v args => exact ⟨trivial, fun _ _ => trivial, .inl trivial⟩
  | execAll ss => exact ⟨(), trivial, stmts ss⟩
  | evalAll es => exact ⟨(), trivial, fun _ _ => trivial⟩
  | loop n condition body => exact ⟨(), trivial, trivial, trivial⟩
  | _ => exact ⟨(), trivial, trivial⟩

end Counting

theorem Machine.fields_execute (m : Machine) (l : Limits) (program : List Stmt) :
    (m.execute l program).2.fields =
      (Exec.after (execAll l.iterations l.depth program) { m with lastError := none }).fields := by
  unfold execute Exec.after
  cases execAll l.iterations l.depth program { m with lastError := none } with
  | ok a m₁ => rfl
  | error e m₁ => cases e <;> rfl

/-- There are fields for the instance. -/
def Machine.HasInstance (n : Machine) (i : Instance) : Prop := i.id < n.fields.size

namespace Machine.HasInstance

variable {n n' : Machine} {i : Instance}

/-- Instances last to the end of a piece. -/
theorem after (h : n.HasInstance i) (bound d : Nat) (t : Task) :
    ((t.run bound d).after n).HasInstance i := by
  have hrun :=
    Invariant.Fits.preserves (Counting.laws (i.id + 1)) (Counting.follows (.all bound))
      (d := d) trivial h (Counting.fits n t)
  unfold Invariant.Preserves at hrun
  unfold Exec.after
  generalize t.run bound d n = r at hrun ⊢
  cases hrun with
  | ok hs _ => exact hs.inv
  | error hs _ => exact hs.inv

/-- They are there when a piece is started. -/
theorem starts (h : n.HasInstance i) {bound d d' : Nat} {t t' : Task}
    (hstarts : Starts bound d t n d' t' n') :
    n'.HasInstance i := by
  obtain ⟨_, hinv, -⟩ :=
    Invariant.fits_of_starts (Counting.laws (i.id + 1)) (Counting.follows (.all bound)) trivial
      hstarts (w := ()) h (Counting.fits n t)
  exact hinv

theorem call (h : n.HasInstance i) {bound depth : Nat} {v u : Value} {args : List Value}
    (hcall : Lox.call bound depth v args n = .ok u n') : n'.HasInstance i := by
  have hafter := h.after bound depth (.call v args)
  rwa [Task.run, Exec.after_discard, Exec.after_of_ok hcall] at hafter

/-- They outlast runs. -/
theorem run (h : n.HasInstance i) (l : Limits) (source : String) :
    (n.run l source).2.HasInstance i := by
  have hanalysed : i.id < (n.analysed l source).fields.size := by rwa [fields_analysed]
  cases hprogram : (n.analysis l source).program with
  | ok program =>
    have hstart : Machine.HasInstance { n.analysed l source with lastError := none } i := hanalysed
    have hafter := hstart.after l.iterations l.depth (.execAll program)
    rw [run_of_ok hprogram]
    dsimp only
    rwa [HasInstance, fields_execute]
  | error o =>
    rw [run_of_error hprogram]
    exact hanalysed

end Machine.HasInstance

/-! ## Calls that come to an end -/

theorem Exec.of_bind {α β : Type} {x : Exec α} {f : α → Exec β} {m m' : Machine} {b : β}
    (h : (x >>= f) m = .ok b m') : ∃ a m₁, x m = .ok a m₁ ∧ f a m₁ = .ok b m' := by
  have h : EStateM.bind x f m = .ok b m' := h
  unfold EStateM.bind at h
  cases hx : x m with
  | ok a m₁ =>
    rw [hx] at h
    exact ⟨a, m₁, rfl, h⟩
  | error e m₁ =>
    rw [hx] at h
    cases h

/-- The function is a method that is bound to the instance. -/
def Machine.Binds (n : Machine) (f : Closure) (o : Instance) : Prop :=
  n.scopes.local? f.scope "this" = some (.inst o)

/-- A class makes an instance of itself that was not there before. -/
theorem call_cls {bound depth : Nat} {c : Class} {args : List Value} {v : Value} {n n' : Machine}
    (h : call bound depth (.cls c) args n = .ok v n') :
    ∃ i, v = .inst i ∧ i.cls = c ∧ n'.HasInstance i ∧ ¬ n.HasInstance i := by
  let i : Instance := ⟨n.fields.size, c⟩
  suffices hresult : v = .inst i ∧ n'.HasInstance i from
    ⟨i, hresult.1, rfl, hresult.2, Nat.lt_irrefl _⟩
  have hi : Machine.HasInstance { n with fields := n.fields.push .empty } i := by
    simp [Machine.HasInstance, i]
  cases depth with
  | zero => cases h
  | succ depth =>
    rw [call] at h
    obtain ⟨j, n₁, hj, h⟩ := Exec.of_bind h
    cases hj
    cases hf : c.initializer? with
    | none =>
      rw [hf] at h
      cases h
      exact ⟨rfl, hi⟩
    | some f =>
      rw [hf] at h
      obtain ⟨g, n₂, hg, h⟩ := Exec.of_bind h
      cases hg
      obtain ⟨u, n₃, hu, h⟩ := Exec.of_bind h
      cases h
      have hcall : call bound (depth + 1) (.function _) args _ = .ok u n' := hu
      refine ⟨rfl, Machine.HasInstance.call ?_ hcall⟩
      exact hi

/-- An initializer yields what `this` stands for at its end. -/
theorem Exec.of_invoke {f : Closure} (hf : f.isInitializer = true) {args : List Value}
    {run : List Stmt → Exec Unit} {v : Value} {n n' : Machine}
    (h : Exec.invoke f args run n = .ok v n') :
    n'.scopes.getAt f.scope 0 "this" = .ok v := by
  obtain ⟨scope, n₁, -, h⟩ := Exec.of_bind h
  obtain ⟨u, n₂, -, h⟩ := Exec.of_bind h
  rw [if_pos hf] at h
  have h : Exec.ofFault (n₂.scopes.getAt f.scope 0 "this") n₂ = .ok v n' := h
  cases hget : n₂.scopes.getAt f.scope 0 "this" with
  | ok w =>
    rw [hget] at h
    cases h
    exact hget
  | error e =>
    rw [hget] at h
    cases h

/-- Where values are well bound, an initializer yields the instance that it is bound to. -/
theorem Machine.WellBound.call_initializer {T : SiteTable} {k : Nat} {n : Machine}
    (h : n.WellBound T (fun _ => True) k) {f : Closure}
    (hf : f.WellBound T (fun _ => True) n.scopes) (hinit : f.isInitializer = true) {o : Instance}
    (ho : n.Binds f o) {args : List Value}
    (hargs : ∀ a ∈ args, a.WellBound T (fun _ => True) k n.scopes)
    {bound depth : Nat} {v : Value} {n' : Machine}
    (hv : call bound depth (.function f) args n = .ok v n') : v = .inst o := by
  have hkept :=
    Invariant.Kept.of_depth (MethodInvariant.laws T fun _ => True)
      (MethodInvariant.follows_all T (.all bound)) depth
  obtain ⟨_, hs, -⟩ := (hkept.call (v := .function f) trivial h hf hargs (.inl trivial)).of_ok hv
  -- The `this` of the method is at the end what it was at the start.
  have hthis := Scopes.getAt_of_local? (i := f.scope) (d := 0) rfl (hs.moves.2.bound (.inl rfl) ho)
  cases depth with
  | zero => cases hv
  | succ depth =>
    rw [call] at hv
    cases (Exec.of_invoke hinit hv).symm.trans hthis
    rfl

/-! ## The values of a session -/

namespace Machine

/-- The values that a session has in a state: those that a state holds, those that a call is started
with, and those that an evaluation has come to. -/
inductive Present (clock : Clock) (turns : List Turn) : Machine → Value → Prop where
  | held {n : Machine} {v : Value} : Visits clock turns n → n.Holds v → Present clock turns n v
  | callee {l : Limits} {depth : Nat} {v : Value} {args : List Value} {n : Machine} :
      Begins clock turns l depth (.call v args) n → Present clock turns n v
  | argument {l : Limits} {depth : Nat} {v a : Value} {args : List Value} {n : Machine} :
      Begins clock turns l depth (.call v args) n → a ∈ args → Present clock turns n a
  | result {l : Limits} {depth : Nat} {e : Expr} {v : Value} {n n' : Machine} :
      Begins clock turns l depth (.eval e) n → eval l.iterations depth e n = .ok v n' →
        Present clock turns n' v

variable {clock : Clock} {turns : List Turn} {n : Machine}

def allSites (n : Machine) : SiteTable := fun s o => n.distances.find? s = o

/-- What is well bound for some table is so for the table of the machine itself. -/
theorem WellBound.allSites {T : SiteTable} {V : Class → Prop} {k : Nat} (h : n.WellBound T V k)
    {v : Value} (hv : v.WellBound T V k n.scopes) :
    n.WellBound n.allSites V n.fields.size ∧ v.WellBound n.allSites V n.fields.size n.scopes := by
  have hmono : ∀ {v : Value}, v.WellBound T V k n.scopes →
      v.WellBound n.allSites V n.fields.size n.scopes :=
    fun hv => hv.mono (Nat.le_of_eq h.instances) h.table (.refl _) (.refl _)
  exact ⟨⟨fun _ _ => id, rfl, fun hv => hmono (h.stored hv), fun hv => hmono (h.field hv)⟩,
    hmono hv⟩

theorem Holds.wellBound {T : SiteTable} {V : Class → Prop} {k : Nat} {v : Value} (hv : n.Holds v)
    (h : n.WellBound T V k) :
    v.WellBound T V k n.scopes := by
  obtain ⟨i, x, hv⟩ | ⟨i, x, hv⟩ := hv
  · exact h.stored hv
  · exact h.field hv

/-- The values that a session has are well bound. -/
theorem Present.wellBound {v : Value} (h : Present clock turns n v) :
    n.WellBound n.allSites (fun _ => True) n.fields.size ∧
      v.WellBound n.allSites (fun _ => True) n.fields.size n.scopes := by
  have hV := permits_all clock turns
  cases h with
  | held hn hv =>
    obtain ⟨T, k, hwell⟩ := hn.wellBound hV
    exact hwell.allSites (hv.wellBound hwell)
  | callee hn =>
    obtain ⟨T, k, hwell, hv, -⟩ := hn.wellBound hV
    exact hwell.allSites hv
  | argument hn ha =>
    obtain ⟨T, k, hwell, -, hargs, -⟩ := hn.wellBound hV
    exact hwell.allSites (hargs _ ha)
  | @result l depth e _ _ _ hn hv =>
    obtain ⟨T, k, hwell, hfits⟩ := hn.wellBound hV
    obtain ⟨k', hs, hvalue⟩ :=
      Invariant.Fits.evaluated (MethodInvariant.laws T _)
        (MethodInvariant.follows_all T (.all l.iterations)) hwell hfits trivial hv
    exact WellBound.allSites hs.inv hvalue

/-- What `this` stands for in a scope is settled when the session has a value. -/
theorem Present.sameImplicit {v : Value} (h : Present clock turns n v) :
    n.scopes.SameImplicit ((Machine.initial clock).session Machine.run turns).2.scopes := by
  cases h with
  | held hn _ => exact hn.sameImplicit
  | callee hn => exact hn.visits.sameImplicit
  | argument hn _ => exact hn.visits.sameImplicit
  | result hn hv =>
    have hrest := hn.after_sameImplicit
    rwa [Task.run, Exec.after_discard, Exec.after_of_ok hv] at hrest

end Machine

/-! ## Call expressions -/

/-- A call of a class with another number of arguments than it takes fails once they are
evaluated. -/
theorem eval_call_of_wrongCount {bound depth : Nat} {callee : Expr} (paren : Token) {es : List Expr}
    {c : Class} {args : List Value} {n n₁ n₂ : Machine}
    (hcallee : eval bound depth callee n = .ok (.cls c) n₁)
    (hargs : es.mapM (eval bound depth) n₁ = .ok args n₂) (hcount : args.length ≠ c.arity) :
    eval bound (depth + 1) (.call callee paren es) n =
      .error (.failed ⟨paren, .wrongCount c.arity args.length⟩) n₂ := by
  have hcheck : Exec.checkCall paren (.cls c) args.length n₂ =
      .error (.failed ⟨paren, .wrongCount c.arity args.length⟩) n₂ := by
    show (if args.length ≠ c.arity then Exec.fail paren (.wrongCount c.arity args.length)
      else pure () :
      Exec Unit) n₂ = _
    rw [if_pos hcount]
    rfl
  rw [eval, Exec.bind_of_ok hcallee, Exec.bind_of_ok hargs]
  show EStateM.bind (Exec.checkCall paren (.cls c) args.length) _ n₂ = _
  rw [EStateM.bind, hcheck]

/-- Through a call expression, an initializer gets a value for each of its parameters. -/
theorem Starts.initializer_params {bound d d₁ d₂ : Nat} {callee : Expr} {paren : Token}
    {es : List Expr} {c : Class} {args : List Value} {g : Closure} {m n n₁ : Machine}
    (hcall : Starts bound d (.eval (.call callee paren es)) m d₁ (.call (.cls c) args) n)
    (hinit : Starts bound d₁ (.call (.cls c) args) n d₂ (.call (.function g) args) n₁) :
    args.length = g.arity := by
  cases hcall with
  | @call _ _ _ _ _ _ _ _ m₂ _ _ _ hcheck =>
    have hcount : args.length = c.arity := by
      by_contra hne
      have hcheck :
          (if args.length ≠ c.arity then Exec.fail paren (.wrongCount c.arity args.length)
          else pure () :
        Exec Unit) m₂ = .ok () n := hcheck
      rw [if_pos hne] at hcheck
      cases hcheck
    cases hinit with
    | initializer _ hf hg =>
      cases hg
      rw [hcount, Class.arity, hf]
      rfl

/-- When the body of a function starts, the parameters are bound for which there are arguments. -/
theorem Starts.bound_params {bound d d' : Nat} {g : Closure} {args : List Value} {n n' : Machine}
    (h : Starts bound d (.call (.function g) args) n d' (.execAll g.decl.body) n')
    (hcount : args.length = g.arity)
    {p : Token} (hp : p ∈ g.decl.params) : (n'.scopes.local? n'.current p.lexeme).isSome := by
  cases h with
  | body hscope =>
    cases hscope
    dsimp only
    rw [Scopes.local?_add, if_pos rfl]
    refine Bindings.isSome_get?_setAll ?_ (.inr (List.mem_map_of_mem hp))
    rw [List.length_map]
    exact hcount

/-! ## Sessions -/

namespace Machine

variable {clock : Clock} {turns : List Turn} {l : Limits} {depth : Nat} {n n' : Machine}

theorem Begins.piece {d d' : Nat} {t t' : Task} (h : Begins clock turns l d t n)
    (hstarts : Starts l.iterations d t n d' t' n') : Begins clock turns l d' t' n' := by
  cases h with
  | during hturns hn => exact .during hturns (hn.piece hstarts)

/-- A method that is accessed as a property is bound to the instance. -/
theorem Begins.binds_property {object : Expr} {name : Token} {i : Instance} {g : Closure}
    {n₁ : Machine} (h : Begins clock turns l (depth + 1) (.eval (.get object name)) n)
    (hobject : eval l.iterations depth object n = .ok (.inst i) n₁)
    (hfield : (n₁.fieldsOf i).get? name.lexeme = none) (hg : i.cls.method? name.lexeme = some g) :
    ∃ f n', eval l.iterations (depth + 1) (.get object name) n = .ok (.function f) n' ∧
      f.isInitializer = (name.lexeme == Class.initializerName) ∧ n'.Binds f i := by
  have hpresent : Present clock turns n₁ (.inst i) := .result (h.piece (.first rfl)) hobject
  have hinit : g.isInitializer = (name.lexeme == Class.initializerName) := by
    rw [Class.method?_eq_findSome?] at hg
    obtain ⟨d, hd, hg⟩ := List.exists_of_findSome?_eq_some hg
    exact ((hpresent.wellBound.2.2 d hd).2 _ _ hg).initializer
  have heval : eval l.iterations (depth + 1) (.get object name) n =
      (Value.function <$> Exec.bindMethod g (.inst i)) n₁ := by
    rw [eval, Exec.bind_of_ok hobject]
    show Exec.getProperty i name n₁ = _
    rw [Machine.fieldsOf] at hfield
    rw [Exec.getProperty_eq, hfield, hg]
    rfl
  exact ⟨_, _, heval, hinit, Scopes.local?_add_single ..⟩

/-- A method that is found through `super` is bound to the instance of the method around. -/
theorem Begins.binds_super {keyword method : Token} {f : Closure}
    (h : Begins clock turns l (depth + 1) (.eval (.super keyword method)) n)
    (hf : eval l.iterations (depth + 1) (.super keyword method) n = .ok (.function f) n') :
    ∃ c g o j, n.scopes.InMethod n.current c g o j ∧
      f.isInitializer = (method.lexeme == Class.initializerName) ∧ n'.Binds f o := by
  obtain ⟨T, k, hwell, place, hplace, he⟩ := h.wellBound (permits_all clock turns)
  obtain ⟨c, g, o, j, parent, hseat, -, hfind, hsuperclass, hsuper, hthis⟩ :=
    MethodInvariant.super hwell hplace he
  refine ⟨c, g, o, j, hseat.toInMethod, ?_⟩
  have hyields := superYields hfind hsuper hthis method l.iterations depth
  cases hmethod : parent.lineage.findSome? fun d => d.own.methods.get? method.lexeme with
  | none =>
    obtain ⟨e, n₁, herror, -⟩ := hyields.missing.2 (List.findSome?_eq_none_iff.1 hmethod)
    cases herror.symm.trans hf
  | some g' =>
    obtain ⟨b, n₁, hb, -, hinit, -, hbound⟩ := hyields.found g' hmethod
    cases hb.symm.trans hf
    refine ⟨?_, hbound⟩
    obtain ⟨d, hd, hg'⟩ := List.exists_of_findSome?_eq_some hmethod
    have hparent : d ∈ c.lineage := by
      rw [Class.lineage_superclass hsuperclass]
      exact List.mem_cons_of_mem _ hd
    rw [hinit]
    exact (((hwell.stored hseat.this).2 d (Class.lineage_subset hseat.chain hparent)).2 _ _
      hg').initializer

end Machine

/-- What construction does in a session. -/
structure Construction (clock : Clock) (turns : List Turn) : Prop where
  /-- A class whose call comes to an end has made an instance of itself. -/
  fresh : ∀ bound depth c args n v n', call bound depth (.cls c) args n = .ok v n' →
    ∃ i, v = .inst i ∧ i.cls = c ∧ n'.HasInstance i ∧ ¬ n.HasInstance i
  /-- The instances that the session has are no new ones. -/
  present : ∀ n i, Machine.Present clock turns n (.inst i) → n.HasInstance i
  /-- Instances last: to the end of a piece of evaluation, in all pieces that it starts, and to the
  end of a run. -/
  lasting : ∀ n i, n.HasInstance i →
    (∀ bound d t, ((Task.run bound d t).after n).HasInstance i ∧
      ∀ d' t' n', Starts bound d t n d' t' n' → n'.HasInstance i) ∧
    ∀ l source, (n.run l source).2.HasInstance i
  /-- An initializer yields the instance that it is bound to. -/
  initializer : ∀ n f, Machine.Present clock turns n (.function f) → f.isInitializer = true →
    ∃ o, n.Binds f o ∧ ∀ bound depth args v n',
      (∀ a ∈ args, Machine.Present clock turns n a ∨ a.IsPlain) →
      call bound depth (.function f) args n = .ok v n' → v = .inst o
  /-- It is never bound to another one. -/
  same : ∀ n n' f o o', Machine.Present clock turns n (.function f) →
    Machine.Present clock turns n' (.function f) → n.Binds f o → n'.Binds f o' → o = o'
  /-- As a property, the method `init` is an initializer that is bound to the instance. -/
  property : ∀ l depth object name n i n₁ g,
    Machine.Begins clock turns l (depth + 1) (.eval (.get object name)) n →
    eval l.iterations depth object n = .ok (.inst i) n₁ →
    (n₁.fieldsOf i).get? name.lexeme = none → i.cls.method? name.lexeme = some g →
    ∃ f n', eval l.iterations (depth + 1) (.get object name) n = .ok (.function f) n' ∧
      f.isInitializer = (name.lexeme == Class.initializerName) ∧ n'.Binds f i
  /-- Through `super`, it is bound to the instance of the method around. -/
  super : ∀ l depth keyword method n f n',
    Machine.Begins clock turns l (depth + 1) (.eval (.super keyword method)) n →
    eval l.iterations (depth + 1) (.super keyword method) n = .ok (.function f) n' →
    ∃ c g o j, n.scopes.InMethod n.current c g o j ∧
      f.isInitializer = (method.lexeme == Class.initializerName) ∧ n'.Binds f o
  /-- A call expression with the wrong number of arguments runs no initializer. -/
  count : ∀ bound depth callee paren es c args n n₁ n₂,
    eval bound depth callee n = .ok (.cls c) n₁ →
    es.mapM (eval bound depth) n₁ = .ok args n₂ → args.length ≠ c.arity →
    eval bound (depth + 1) (.call callee paren es) n =
      .error (.failed ⟨paren, .wrongCount c.arity args.length⟩) n₂
  /-- An initializer that a call expression runs has all its parameters bound. -/
  params : ∀ bound d d₁ d₂ d₃ callee paren es c args g m n n₁ n₂,
    Starts bound d (.eval (.call callee paren es)) m d₁ (.call (.cls c) args) n →
    Starts bound d₁ (.call (.cls c) args) n d₂ (.call (.function g) args) n₁ →
    Starts bound d₂ (.call (.function g) args) n₁ d₃ (.execAll g.decl.body) n₂ →
    args.length = g.arity ∧ ∀ p ∈ g.decl.params, (n₂.scopes.local? n₂.current p.lexeme).isSome

/-- **Construction yields the instance.** In every session, whatever initializers do: a class whose
call comes to an end yields an instance of itself that was not there before; an initializer yields
the instance that it is bound to; and call expressions run initializers only with all their
parameters bound. -/
theorem construction_lawful (clock : Clock) (turns : List Turn) : Construction clock turns where
  fresh _ _ _ _ _ _ _ h := call_cls h
  present _ _ h := h.wellBound.2.1
  lasting _ _ h := ⟨fun bound d t => ⟨h.after bound d t, fun _ _ _ => h.starts⟩, h.run⟩
  initializer n f h hinit := by
    obtain ⟨hwell, hf⟩ := h.wellBound
    obtain ⟨o, ho⟩ := hf.initializer hinit
    refine ⟨o, ho, fun bound depth args v n' hargs hv =>
      hwell.call_initializer hf hinit ho (fun a ha => ?_) hv⟩
    exact (hargs a ha).elim (fun ha => ha.wellBound.2) fun ha => ha.wellBound _ _ _ _
  same n n' f o o' h h' ho ho' := by
    have hend :=
      (h.sameImplicit.bound (.inl rfl) ho).symm.trans (h'.sameImplicit.bound (.inl rfl) ho')
    cases hend
    rfl
  property _ _ _ _ _ _ _ _ h hobject hfield hg := h.binds_property hobject hfield hg
  super _ _ _ _ _ _ _ h hf := h.binds_super hf
  count _ _ _ paren _ _ _ _ _ _ hcallee hargs hne := eval_call_of_wrongCount paren hcallee hargs hne
  params _ _ _ _ _ _ _ _ _ _ _ _ _ _ _ hcall hinit hbody :=
    have hcount := hcall.initializer_params hinit
    ⟨hcount, fun _ hp => hbody.bound_params hcount hp⟩

/-- The initializer of `B` returns early from a block, after that of `A` has stored the instance
elsewhere. -/
def builders : Turn := ⟨⟨30, 5⟩, "var kept; class A \x7b init(a) \x7b kept = this; \x7d \x7d
class B < A \x7b init(a) \x7b super.init(a); while (true) \x7b return; \x7d \x7d \x7d
var b = B(1); var i = b.init;"⟩

/-- The class can be called with one argument, and this comes to an end. -/
def Machine.canConstruct (n : Machine) : Value → Bool
  | .cls c => c.arity == 1 && (call 5 30 (.cls c) [.nil] n matches .ok ..)
  | _ => false

/-- The initializer can be called with one argument, and this comes to an end. -/
def Machine.canInitialize (n : Machine) : Value → Bool
  | .function f => f.isInitializer && (call 5 30 (.function f) [.nil] n matches .ok ..)
  | _ => false

def Machine.ready (n : Machine) : Bool :=
  (n.global? "b").any (fun v => v matches .inst ..) && (n.global? "B").any n.canConstruct &&
    (n.global? "i").any n.canInitialize

/-- The class yields a new instance and the initializer the instance that it is bound to. Without an
argument the class cannot be called. -/
theorem construction_lawful_builders :
    let n := ((Machine.initial (.still 0)).session Machine.run [builders]).2
    (∃ o, n.global? "b" = some (.inst o) ∧ n.HasInstance o) ∧
    (∃ c v n', n.global? "B" = some (.cls c) ∧ call 5 30 (.cls c) [.nil] n = .ok v n' ∧
      (∃ i, v = .inst i ∧ i.cls = c ∧ n'.HasInstance i ∧ ¬ n.HasInstance i) ∧
      ∀ t, n.distances.find? t.site = none → t.lexeme = "B" →
        eval 5 30 (.call (.var t) t []) n = .error (.failed ⟨t, .wrongCount 1 0⟩) n) ∧
    ∃ f o v n', n.global? "i" = some (.function f) ∧ n.Binds f o ∧
      call 5 30 (.function f) [.nil] n = .ok v n' ∧ v = .inst o := by
  have hlawful := construction_lawful (.still 0) [builders]
  have hvisits : Machine.Visits (.still 0) [builders] _ :=
    .between (show _ = [builders] ++ [] from rfl)
  have hready : ((Machine.initial (.still 0)).session Machine.run [builders]).2.ready = true := by
    decide +kernel
  generalize ((Machine.initial (.still 0)).session Machine.run [builders]).2 = n at hvisits hready ⊢
  obtain ⟨⟨hb, hB⟩, hi⟩ := (Bool.and_eq_true_iff.1 hready).imp_left Bool.and_eq_true_iff.1
  have hpresent : ∀ {x v}, n.global? x = some v → Machine.Present (.still 0) [builders] n v :=
    fun hv => .held hvisits (Machine.holds_global hv)
  refine ⟨?_, ?_, ?_⟩
  · obtain ⟨v, hv, hinst⟩ := (Option.any_eq_true _ _).1 hb
    cases v with
    | inst o => exact ⟨o, hv, hlawful.present n o (hpresent hv)⟩
    | _ => cases hinst
  · obtain ⟨v, hv, hcan⟩ := (Option.any_eq_true _ _).1 hB
    cases v with
    | cls c =>
      obtain ⟨harity, hcan⟩ := Bool.and_eq_true_iff.1 hcan
      have harity : c.arity = 1 := eq_of_beq harity
      cases hcall : call 5 30 (.cls c) [.nil] n with
      | ok v n' =>
        refine ⟨c, v, n', hv, hcall, hlawful.fresh _ _ _ _ _ _ _ hcall, fun t hsite ht => ?_⟩
        have hcallee := Machine.eval_global hsite (ht ▸ hv) 5 28
        have hcount :=
          hlawful.count 5 29 (.var t) t [] c [] n n n hcallee rfl (by rw [harity]; decide)
        rwa [harity] at hcount
      | error e n' =>
        rw [hcall] at hcan
        cases hcan
    | _ => cases hcan
  · obtain ⟨v, hv, hcan⟩ := (Option.any_eq_true _ _).1 hi
    cases v with
    | function f =>
      obtain ⟨hinit, hcan⟩ := Bool.and_eq_true_iff.1 hcan
      obtain ⟨o, ho, hyields⟩ := hlawful.initializer n f (hpresent hv) hinit
      cases hcall : call 5 30 (.function f) [.nil] n with
      | ok v n' =>
        have hplain : ∀ a ∈ [Value.nil], Machine.Present (.still 0) [builders] n a ∨ a.IsPlain :=
          List.forall_mem_singleton.2 (.inr trivial)
        exact ⟨f, o, v, n', hv, ho, hcall, hyields 5 30 [.nil] v n' hplain hcall⟩
      | error e n' =>
        rw [hcall] at hcan
        cases hcan
    | _ => cases hcan

end Lox
