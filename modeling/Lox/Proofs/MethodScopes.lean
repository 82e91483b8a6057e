import Lox.Proofs.Aftermath
import Lox.Proofs.Chains
import Lox.Proofs.Keywords
import Lox.Proofs.Placement

/-!
# The scopes of methods

Code of a method is executed some scopes inside the scope that binds `this`, which is right inside
the scope that the method is closed over (`Inside`). What a session makes and stores is such that
this stays so: bound methods are bound to instances of classes that have the method's class on their
chains, and where the class has a superclass the method is closed over a scope that binds `super` to
it (`Value.WellBound`, `Machine.WellBound`). No step changes a `this` or `super` that is bound
(`Scopes.SameImplicit`). The invariant `methodInvariant` says so of all evaluation
(`MethodInvariant.laws`).
-/

namespace Lox

/-! ## Implicit variables -/

def IsImplicit (x : String) : Prop := x = "this" ∨ x = "super"

theorem Token.Is.not_implicit {t : Token} (h : t.Is Token.Spelled .identifier) :
    ¬ IsImplicit t.lexeme :=
  fun hx => hx.elim (h.1.1 h.2).1 (h.1.1 h.2).2

/-- The implicit variables of scopes that are there stay as they are. -/
structure Scopes.SameImplicit (s s' : Scopes) : Prop where
  next : s.next ≤ s'.next
  same : ∀ i, i < s.next → ∀ x, IsImplicit x → s'.local? i x = s.local? i x

namespace Scopes.SameImplicit

variable {s s' s'' : Scopes} {i : ScopeId} {x : String} {v : Value}

theorem refl (s : Scopes) : s.SameImplicit s := ⟨Nat.le_refl _, fun _ _ _ _ => rfl⟩

theorem trans (h : s.SameImplicit s') (h' : s'.SameImplicit s'') : s.SameImplicit s'' where
  next := Nat.le_trans h.next h'.next
  same i hi x hx := (h'.same i (Nat.lt_of_lt_of_le hi h.next) x hx).trans (h.same i hi x hx)

theorem add (s : Scopes) (p : Option ScopeId) (b : Bindings Value) :
    s.SameImplicit (s.add p b) where
  next := (Extends.add s p b).next
  same i hi x _ := by rw [local?_add, if_neg (Nat.ne_of_lt hi)]

theorem define (s : Scopes) (i : ScopeId) {x : String} (hx : ¬ IsImplicit x) (v : Value) :
    s.SameImplicit (s.define i x v) where
  next := (Extends.define s i x v).next
  same j _ y hy := local?_define_of_ne s i j x y v (.inr fun heq => hx (heq ▸ hy))

theorem bound (h : s.SameImplicit s') (hx : IsImplicit x) (hv : s.local? i x = some v) :
    s'.local? i x = some v :=
  (h.same i (lt_next_of_local? hv) x hx).trans hv

end Scopes.SameImplicit

/-! ## Classes and their methods -/

/-- The keywords of a method have their distances in the table, and `super` stands only where there
is a superclass. -/
def FunDecl.Keyed (T : SiteTable) (isSubclass : Bool) (method : FunDecl) : Prop :=
  ∀ r ∈ method.keywords, T r.token.site (some r.distance) ∧
    (r.reference = .super → isSubclass = true)

/-- A function with names that are no keywords, in which all methods are keyed. -/
structure FunDecl.Sound (T : SiteTable) (decl : FunDecl) : Prop where
  wellFormed : Stmt.FunctionWellFormed Token.Spelled decl
  methods : ∀ p ∈ Stmt.functionMethods decl, p.1.Keyed T p.2

/-- A method of a class: where the class has a superclass, the scope of the method binds `super` to
it. -/
structure Class.HasMethod (T : SiteTable) (s : Scopes) (c : Class) (x : String) (f : Closure) :
    Prop where
  own : c.own.methods.get? x = some f
  initializer : f.isInitializer = (x == initializerName)
  sound : f.decl.Sound T
  keyed : f.decl.Keyed T c.superclass?.isSome
  super : ∀ p, c.superclass? = some p → s.local? f.scope "super" = some (.cls p)

/-- All classes of the chain are known, and so are their methods. -/
def Class.WellBound (T : SiteTable) (V : Class → Prop) (s : Scopes) (c : Class) : Prop :=
  ∀ d ∈ c.lineage, V d ∧ ∀ x f, d.own.methods.get? x = some f → d.HasMethod T s x f

/-! ## Places -/

/-- A piece of program belongs to a method, or to none; its scope is so many scopes inside the one
that binds `this`. -/
structure MethodContext where
  depth : Nat
  method : Option FunDecl

namespace MethodContext

def keywords (c : MethodContext) : List Resolution := c.method.elim [] FunDecl.keywords

def inner (c : MethodContext) : MethodContext := ⟨c.depth + 1, c.method⟩

end MethodContext

/-- The scope is inside that of a method that is bound to an instance, if the code there belongs to
a method. -/
inductive Inside (T : SiteTable) (V : Class → Prop) (s : Scopes) :
    MethodContext → ScopeId → Prop where
  | outside {depth : Nat} {i : ScopeId} : Inside T V s ⟨depth, none⟩ i
  | bound {j : ScopeId} {o : Instance} {d : Class} {x : String} {f : Closure} :
      s.local? j "this" = some (.inst o) → s.parent? j = some f.scope → d ∈ o.cls.lineage → V d →
      d.HasMethod T s x f → Inside T V s ⟨0, some f.decl⟩ j
  | enter {i p : ScopeId} {depth : Nat} {method : FunDecl} : s.parent? i = some p → p < i →
      s.local? i "this" = none → Inside T V s ⟨depth, some method⟩ p →
      Inside T V s ⟨depth + 1, some method⟩ i

/-! ## Code -/

structure Expr.WellBound (c : MethodContext) (e : Expr) : Prop where
  wellFormed : e.WellFormed Token.Spelled
  keywords : keywordsOf c.depth e.references ⊆ c.keywords

structure Stmt.WellBound (T : SiteTable) (c : MethodContext) (s : Stmt) : Prop where
  wellFormed : s.WellFormed Token.Spelled
  keywords : s.keywords c.depth ⊆ c.keywords
  methods : ∀ p ∈ s.methods, p.1.Keyed T p.2

/-! ## Values -/

/-- The function is closed over a scope where its code belongs. Initializers are bound. -/
structure Closure.WellBound (T : SiteTable) (V : Class → Prop) (s : Scopes) (f : Closure) :
    Prop where
  sound : f.decl.Sound T
  place : ∃ c, Inside T V s c f.scope ∧ Stmt.functionKeywords c.depth f.decl ⊆ c.keywords
  initializer : f.isInitializer = true → ∃ o, s.local? f.scope "this" = some (.inst o)

/-- There are `n` instances so far. -/
def Value.WellBound (T : SiteTable) (V : Class → Prop) (n : Nat) (s : Scopes) : Value → Prop
  | .function f => f.WellBound T V s
  | .cls c => c.WellBound T V s
  | .inst i => i.id < n ∧ i.cls.WellBound T V s
  | _ => True

theorem Value.IsPlain.wellBound {v : Value} (h : v.IsPlain) (T : SiteTable) (V : Class → Prop)
    (n : Nat) (s : Scopes) :
    v.WellBound T V n s := by
  cases v with
  | function | cls | inst => exact h.elim
  | _ => trivial

section

variable {T T' : SiteTable} {V : Class → Prop} {s s' : Scopes}

theorem FunDecl.Keyed.mono {isSubclass : Bool} {method : FunDecl} (h : method.Keyed T isSubclass)
    (hT : ∀ site o, T site o → T' site o) : method.Keyed T' isSubclass :=
  fun r hr => (h r hr).imp_left (hT _ _)

theorem FunDecl.Sound.mono {decl : FunDecl} (h : decl.Sound T)
    (hT : ∀ site o, T site o → T' site o) : decl.Sound T' :=
  ⟨h.wellFormed, fun p hp => (h.methods p hp).mono hT⟩

theorem Class.HasMethod.mono {c : Class} {x : String} {f : Closure} (h : c.HasMethod T s x f)
    (hT : ∀ site o, T site o → T' site o) (hs : s.SameImplicit s') : c.HasMethod T' s' x f :=
  ⟨h.own, h.initializer, h.sound.mono hT, h.keyed.mono hT,
    fun p hp => hs.bound (.inr rfl) (h.super p hp)⟩

theorem Class.WellBound.mono {c : Class} (h : c.WellBound T V s)
    (hT : ∀ site o, T site o → T' site o) (hs : s.SameImplicit s') : c.WellBound T' V s' :=
  fun d hd => (h d hd).imp_right fun hmethods x f hf => (hmethods x f hf).mono hT hs

theorem Inside.mono {c : MethodContext} {i : ScopeId} (h : Inside T V s c i)
    (hT : ∀ site o, T site o → T' site o) (hs : s.SameImplicit s') (hext : s.Extends s') :
    Inside T' V s' c i := by
  have hparent : ∀ {i p : ScopeId}, s.parent? i = some p → s'.parent? i = some p :=
    fun hp => (hext.parent _ (Scopes.lt_next_of_parent? hp)).trans hp
  induction h with
  | outside => exact .outside
  | bound hthis hp hmem hV hmethod =>
    exact .bound (hs.bound (.inl rfl) hthis) (hparent hp) hmem hV (hmethod.mono hT hs)
  | enter hp hlt hthis _ ih =>
    exact .enter (hparent hp) hlt
      ((hs.same _ (Scopes.lt_next_of_parent? hp) _ (.inl rfl)).trans hthis) ih

theorem Closure.WellBound.mono {f : Closure} (h : f.WellBound T V s)
    (hT : ∀ site o, T site o → T' site o) (hs : s.SameImplicit s') (hext : s.Extends s') :
    f.WellBound T' V s' where
  sound := h.sound.mono hT
  place := h.place.imp fun _ hc => hc.imp_left fun hc => hc.mono hT hs hext
  initializer hf := (h.initializer hf).imp fun _ ho => hs.bound (.inl rfl) ho

theorem Value.WellBound.mono {n n' : Nat} {v : Value} (h : v.WellBound T V n s) (hn : n ≤ n')
    (hT : ∀ site o, T site o → T' site o) (hs : s.SameImplicit s') (hext : s.Extends s') :
    v.WellBound T' V n' s' := by
  cases v with
  | function f => exact Closure.WellBound.mono h hT hs hext
  | cls c => exact Class.WellBound.mono h hT hs
  | inst i => exact ⟨Nat.lt_of_lt_of_le h.1 hn, Class.WellBound.mono h.2 hT hs⟩
  | _ => trivial

end

/-! ## Parts of code -/

theorem keywordsOf_subset {depth : Nat} {nodes nodes' : List (Reference × Token)}
    (h : nodes ⊆ nodes') :
    keywordsOf depth nodes ⊆ keywordsOf depth nodes' := by
  refine List.map_subset _ fun n hn => ?_
  rw [List.mem_filter] at hn ⊢
  exact hn.imp_left (@h n)

theorem Expr.references_subset_all {e : Expr} {es : List Expr} (h : e ∈ es) :
    e.references ⊆ Expr.allReferences es := by
  induction es with
  | nil => cases h
  | cons e' es ih =>
    rcases List.mem_cons.1 h with rfl | h
    · exact List.subset_append_left _ _
    · exact List.subset_append_of_subset_right _ (ih h)

theorem Expr.references_part {e e' : Expr} (he' : e' ∈ e.parts) : e'.references ⊆ e.references := by
  cases e with
  | call callee paren arguments =>
    rcases List.mem_cons.1 he' with rfl | he'
    · exact List.subset_append_left _ _
    · exact List.subset_append_of_subset_right _ (references_subset_all he')
  | _ => simp_all [parts, references] <;> rcases he' with rfl | rfl <;> simp

theorem Expr.WellBound.part {c : MethodContext} {e e' : Expr} (h : e.WellBound c)
    (he' : e' ∈ e.parts) : e'.WellBound c :=
  ⟨h.wellFormed.part he', List.Subset.trans (keywordsOf_subset (references_part he')) h.keywords⟩

section

variable {T : SiteTable} {c : MethodContext}

theorem Stmt.WellBound.expr {s : Stmt} (h : s.WellBound T c) {e : Expr} (he : e ∈ s.exprs) :
    e.WellBound c := by
  refine ⟨h.wellFormed.expr he, ?_⟩
  have hkeywords := h.keywords
  cases s with
  | expr value | print value =>
    obtain rfl := List.mem_singleton.1 he
    exact hkeywords
  | ifElse condition thenBranch elseBranch =>
    obtain rfl := List.mem_singleton.1 he
    cases elseBranch <;> exact (List.append_subset.1 hkeywords).1
  | whileDo condition body =>
    obtain rfl := List.mem_singleton.1 he
    exact (List.append_subset.1 hkeywords).1
  | ret keyword value =>
    cases value with
    | none => cases he
    | some value =>
      obtain rfl := List.mem_singleton.1 he
      exact hkeywords
  | _ => cases he

theorem Stmt.WellBound.branch {s : Stmt} (h : s.WellBound T c) {b : Stmt} (hb : b ∈ s.branches) :
    b.WellBound T c := by
  obtain ⟨hwf, hkeywords, hmethods⟩ := h
  have hb' := (hwf.branch hb).1
  cases s with
  | ifElse condition thenBranch elseBranch =>
    cases elseBranch with
    | none =>
      obtain rfl := List.mem_singleton.1 hb
      exact ⟨hb', (List.append_subset.1 hkeywords).2, hmethods⟩
    | some elseBranch =>
      obtain ⟨hthen, helse⟩ := List.append_subset.1 (List.append_subset.1 hkeywords).2
      obtain ⟨hthen', helse'⟩ := List.forall_mem_append.1 hmethods
      rcases List.mem_pair.1 hb with rfl | rfl
      · exact ⟨hb', hthen, hthen'⟩
      · exact ⟨hb', helse, helse'⟩
  | whileDo condition body =>
    obtain rfl := List.mem_singleton.1 hb
    exact ⟨hb', (List.append_subset.1 hkeywords).2, hmethods⟩
  | _ => cases hb

/-- The methods of a class that is declared. -/
theorem Stmt.WellBound.method {name : Token} {superclass : Option Token} {methods : List FunDecl}
    (h : Stmt.WellBound T c (.classDecl name superclass methods)) {method : FunDecl}
    (hm : method ∈ methods) :
    method.Sound T ∧ method.Keyed T superclass.isSome := by
  obtain ⟨⟨-, -, hwf⟩, -, hmethods⟩ := h
  rw [Stmt.methods] at hmethods
  induction methods with
  | nil => cases hm
  | cons m ms ih =>
    obtain ⟨hfirst, hrest⟩ := List.forall_mem_cons.1 hmethods
    obtain ⟨hown, hrest⟩ := List.forall_mem_append.1 hrest
    rcases List.mem_cons.1 hm with rfl | hm
    · exact ⟨⟨hwf.1, hown⟩, hfirst⟩
    · exact ih hm hrest hwf.2

end

/-! ## Places -/

section

variable {T : SiteTable} {V : Class → Prop} {s : Scopes} {c : MethodContext} {i : ScopeId}

theorem Inside.lt_next {depth : Nat} {method : FunDecl} (h : Inside T V s ⟨depth, some method⟩ i) :
    i < s.next := by
  cases h with
  | bound hthis => exact Scopes.lt_next_of_local? hthis
  | enter hp => exact Scopes.lt_next_of_parent? hp

/-- A new scope is one further inside. -/
theorem Inside.add (h : Inside T V s c i) {b : Bindings Value} (hb : b.get? "this" = none) :
    Inside T V (s.add (some i) b) c.inner s.next := by
  obtain ⟨depth, method⟩ := c
  cases method with
  | none => exact .outside
  | some method =>
    have hi := h.lt_next
    refine .enter ?_ hi ?_ (h.mono (fun _ _ => id) (.add s _ b) (.add s _ b))
    · rw [Scopes.parent?_add, if_pos rfl]
    · rw [Scopes.local?_add, if_pos rfl, hb]

end

/-! ## Methods around a scope -/

/-- Around the scope `i`, the nearest `this` is the instance `o`. The scope `j` that binds it is
that of a bound method: it is right inside the scope that the method `f` of the class `c` is closed
over. -/
structure Scopes.InMethod (s : Scopes) (i : ScopeId) (c : Class) (f : Closure) (o : Instance)
    (j : ScopeId) : Prop where
  method : ∃ x, c.own.methods.get? x = some f
  nearest : s.binder? i "this" = some j
  this : s.local? j "this" = some (.inst o)
  scope : s.parent? j = some f.scope

theorem Scopes.ancestor?_succ (s : Scopes) (i : ScopeId) (d : Nat) :
    s.ancestor? i (d + 1) = (s.ancestor? i d).bind s.parent? := by
  induction d generalizing i with
  | zero =>
    show (s.parent? i).bind some = s.parent? i
    exact Option.bind_fun_some _
  | succ d ih =>
    show (s.parent? i).bind (fun p => s.ancestor? p (d + 1)) =
      ((s.parent? i).bind fun p => s.ancestor? p d).bind s.parent?
    rw [Option.bind_assoc]
    exact congrArg _ (funext ih)

/-- A new scope with one name. -/
theorem Scopes.local?_add_single (s : Scopes) (p : Option ScopeId) (x : String) (v : Value) :
    (s.add p (Bindings.empty.set x v)).local? s.next x = some v := by
  rw [local?_add, if_pos rfl]
  exact (Bindings.get?_set ..).trans (if_pos rfl)

theorem Scopes.getAt_of_local? {s : Scopes} {i j : ScopeId} {d : Nat} {x : String} {v : Value}
    (hj : s.ancestor? i d = some j) (hv : s.local? j x = some v) : s.getAt i d x = .ok v := by
  simp only [getAt, ancestor, hj, bind, Except.bind, hv]
  rfl

theorem Class.lineage_subset {c d : Class} (h : d ∈ c.lineage) : d.lineage ⊆ c.lineage := by
  obtain ⟨own, inherited⟩ := c
  induction inherited generalizing own with
  | nil =>
    obtain rfl := List.mem_singleton.1 h
    exact fun _ => id
  | cons layer rest ih =>
    rcases List.mem_cons.1 h with rfl | h
    · exact fun _ => id
    · exact List.subset_cons_of_subset _ (ih layer h)

section

variable {T : SiteTable} {V : Class → Prop} {s : Scopes}

/-- How far the scope of the bound method is, and what is known about the class. -/
structure Seated (T : SiteTable) (V : Class → Prop) (s : Scopes) (i : ScopeId) (depth : Nat)
    (c : Class) (f : Closure) (o : Instance) (j : ScopeId) : Prop extends s.InMethod i c f o j where
  ancestor : s.ancestor? i depth = some j
  chain : c ∈ o.cls.lineage
  made : V c
  has : ∃ x, c.HasMethod T s x f

/-- Where code of a method is executed there is a bound method around. -/
theorem Inside.seated {depth : Nat} {method : FunDecl} {i : ScopeId}
    (h : Inside T V s ⟨depth, some method⟩ i) :
    ∃ c f o j, Seated T V s i depth c f o j ∧ f.decl = method := by
  -- The walk outwards that finds the binder of `this` may be cut off, but not before it is found.
  suffices hwalk : depth ≤ i ∧ ∃ c f o j, (∀ k, depth < k →
      (s.outward k i).find? (fun j => (s.local? j "this").isSome) = some j) ∧
        s.ancestor? i depth = some j ∧
      s.local? j "this" = some (.inst o) ∧ s.parent? j = some f.scope ∧ c ∈ o.cls.lineage ∧ V c ∧
      (∃ x, c.HasMethod T s x f) ∧ f.decl = method by
    obtain ⟨hle, c, f, o, j, hfind, hj, hthis, hparent, hmem, hV, hmethod, hdecl⟩ := hwalk
    have hnearest : s.binder? i "this" = some j := hfind (i + 1) (Nat.lt_succ_of_le hle)
    exact ⟨c, f, o, j,
      ⟨⟨hmethod.imp fun _ h => h.own, hnearest, hthis, hparent⟩, hj, hmem, hV, hmethod⟩, hdecl⟩
  generalize hc : (⟨depth, some method⟩ : MethodContext) = c at h
  induction h generalizing depth with
  | outside => cases hc
  | @bound j o d x f hthis hparent hmem hV hmethod =>
    cases hc
    refine ⟨Nat.zero_le _, d, f, o, j, fun k hk => ?_, rfl, hthis, hparent, hmem, hV,
      ⟨x, hmethod⟩, rfl⟩
    obtain ⟨k, rfl⟩ := Nat.exists_eq_succ_of_ne_zero (Nat.ne_of_gt hk)
    exact List.find?_cons_of_pos (by rw [hthis]; rfl)
  | @enter i p depth' method' hparent hlt hthis _ ih =>
    cases hc
    obtain ⟨hle, c, f, o, j, hfind, hj, hrest⟩ := ih rfl
    refine ⟨Nat.lt_of_le_of_lt hle hlt, c, f, o, j, fun k hk => ?_, ?_, hrest⟩
    · obtain ⟨k, rfl⟩ := Nat.exists_eq_succ_of_ne_zero (Nat.ne_of_gt (Nat.zero_lt_of_lt hk))
      rw [Scopes.outward, List.find?_cons_of_neg (by simp [hthis]), hparent]
      exact hfind k (Nat.lt_of_succ_lt_succ hk)
    · show (s.parent? i).bind (fun p => s.ancestor? p depth') = some j
      rw [hparent]
      exact hj

end

/-! ## Machines -/

structure Machine.WellBound (T : SiteTable) (V : Class → Prop) (n : Nat) (m : Machine) : Prop where
  table : ∀ site o, T site o → m.distances.find? site = o
  instances : n = m.fields.size
  stored : ∀ {i x v}, m.scopes.local? i x = some v → v.WellBound T V n m.scopes
  field : ∀ {i x v}, (m.fieldsOf i).get? x = some v → v.WellBound T V n m.scopes

namespace Machine.WellBound

variable {T : SiteTable} {V : Class → Prop} {n : Nat} {m : Machine}

/-- Scopes may grow if what is bound anew is well bound. -/
theorem grow (h : m.WellBound T V n) {s : Scopes} (hext : m.scopes.Extends s)
    (hs : m.scopes.SameImplicit s) (hnew : ∀ {i x v}, s.local? i x = some v →
    m.scopes.local? i x = some v ∨ v.WellBound T V n s) (nextId : Nat) :
    WellBound T V n { m with scopes := s, nextId } where
  table := h.table
  instances := h.instances
  stored hv :=
    (hnew hv).elim (fun hv => (h.stored hv).mono (Nat.le_refl _) (fun _ _ => id) hs hext) id
  field hv := (h.field hv).mono (Nat.le_refl _) (fun _ _ => id) hs hext

theorem setField (h : m.WellBound T V n) {v : Value} (hv : v.WellBound T V n m.scopes) (i : Nat)
    (x : String) :
    WellBound T V n { m with fields := m.fields.modify i (·.set x v) } :=
  ⟨h.table, by rw [h.instances, Array.size_modify], h.stored,
    fun hw => (of_field_set hw).elim (· ▸ hv) h.field⟩

theorem newInstance (h : m.WellBound T V n) :
    WellBound T V (n + 1) { m with fields := m.fields.push .empty } where
  table := h.table
  instances := by rw [h.instances, Array.size_push]
  stored hv := (h.stored hv).mono (Nat.le_succ _) (fun _ _ => id) (.refl _) (.refl _)
  field hw :=
    (h.field (m.fieldsOf_push _ ▸ hw)).mono (Nat.le_succ _) (fun _ _ => id) (.refl _) (.refl _)

end Machine.WellBound

/-! ## The invariant -/

/-- The class of a declaration, its superclass being known. -/
def Exec.makeClass (name : String) (methods : List FunDecl) : Option Class → Exec Class
  | none => do
    newClass name none methods (← get).current
  | some parent => do
    let scope ← newScope (← get).current (Bindings.empty.set "super" (.cls parent))
    newClass name (some parent) methods scope

/-- Code is executed where its keywords find what they stand for, and the classes that are made
satisfy `V`. The world is the number of instances. -/
def methodInvariant (T : SiteTable) (V : Class → Prop) : Invariant Nat MethodContext where
  inv n m := m.WellBound T V n
  moves n s n' s' := n ≤ n' ∧ s.SameImplicit s'
  value n s v := v.WellBound T V n s
  loose _ _ := True
  place c _ s i := Inside T V s c i
  expr c e := e.WellBound c
  stmt c s := s.WellBound T c
  after c _ := c
  suits _ _ c v := ∃ i, v = .inst i ∧ c.lineage ⊆ i.cls.lineage
  declares name _ methods parent m :=
    ∀ c m', Exec.makeClass name.lexeme methods parent m = .ok c m' → V c

namespace MethodInvariant

variable {T : SiteTable} {V : Class → Prop} {n : Nat} {m : Machine} {c : MethodContext}

theorem stmts {ss : List Stmt} (hwf : Stmt.AllWellFormed Token.Spelled ss)
    (hkeywords : Stmt.allKeywords c.depth ss ⊆ c.keywords)
    (hmethods : ∀ p ∈ Stmt.allMethods ss, p.1.Keyed T p.2) :
    (methodInvariant T V).stmts c ss := by
  induction ss with
  | nil => trivial
  | cons s ss ih =>
    obtain ⟨hs, hrest⟩ := List.append_subset.1 hkeywords
    obtain ⟨hs', hrest'⟩ := List.forall_mem_append.1 hmethods
    exact ⟨⟨hwf.1, hs, hs'⟩, ih hwf.2 hrest hrest'⟩

theorem moves_trans {n n' n'' : Nat} {s s' s'' : Scopes} (h : (methodInvariant T V).moves n s n' s')
    (h' : (methodInvariant T V).moves n' s' n'' s'') : (methodInvariant T V).moves n s n'' s'' :=
  ⟨Nat.le_trans h.1 h'.1, h.2.trans h'.2⟩

/-- Scopes grow, and identities are taken. -/
theorem step (h : m.WellBound T V n) {s : Scopes} (hext : m.scopes.Extends s)
    (hs : m.scopes.SameImplicit s) (hnew : ∀ {i x v}, s.local? i x = some v →
    m.scopes.local? i x = some v ∨ v.WellBound T V n s) (nextId : Nat) :
    (methodInvariant T V).Step n m n { m with scopes := s, nextId } :=
  ⟨h.grow hext hs hnew nextId, .store m hext _ _, Nat.le_refl n, hs⟩

theorem step_add (h : m.WellBound T V n) (p : ScopeId) {b : Bindings Value}
    (hb : ∀ x v, b.get? x = some v → v.WellBound T V n m.scopes) (nextId : Nat) :
    (methodInvariant T V).Step n m n { m with scopes := m.scopes.add (some p) b, nextId } := by
  refine step h (.add _ _ _) (.add _ _ _) (fun hv => ?_) nextId
  exact (Scopes.of_local?_add hv).symm.imp_right fun hv =>
    (hb _ _ hv).mono (Nat.le_refl n) (fun _ _ => id) (.add _ _ _) (.add _ _ _)

theorem step_define (h : m.WellBound T V n) (i : ScopeId) {x : String} (hx : ¬ IsImplicit x)
    {v : Value} (hv : v.WellBound T V n m.scopes) (nextId : Nat) :
    (methodInvariant T V).Step n m n { m with scopes := m.scopes.define i x v, nextId } := by
  have hext := Scopes.Extends.define m.scopes i x v
  have hs := Scopes.SameImplicit.define m.scopes i hx v
  refine step h hext hs (fun hw => ?_) nextId
  rcases Scopes.of_local?_define hw with rfl | hw
  · exact .inr (hv.mono (Nat.le_refl n) (fun _ _ => id) hs hext)
  · exact .inl hw

theorem wellBound_single {s : Scopes} {x : String} {v : Value} (hv : v.WellBound T V n s) :
    ∀ y u, (Bindings.empty.set x v).get? y = some u → u.WellBound T V n s := by
  intro y u hu
  rw [Bindings.get?_set] at hu
  split at hu
  · cases hu
    exact hv
  · cases hu

theorem newScope (h : m.WellBound T V n) {i : ScopeId} (hi : Inside T V m.scopes c i)
    {b : Bindings Value} (hb : ∀ x v, b.get? x = some v → v.WellBound T V n m.scopes)
    (hthis : b.get? "this" = none) :
    (methodInvariant T V).Preserves n m (Exec.newScope i b) fun _ s j => Inside T V s c.inner j :=
  .ok (step_add h i hb m.nextId) (hi.add hthis)

theorem newInstance (h : m.WellBound T V n) {d : Class} (hd : d.WellBound T V m.scopes) :
    (methodInvariant T V).Preserves n m (Exec.newInstance d) fun n' s i =>
      (methodInvariant T V).value n' s (.inst i) := by
  have hs : (methodInvariant T V).Step n m (n + 1) { m with fields := m.fields.push .empty } :=
    ⟨h.newInstance, Exec.Restores.newInstance d m, Nat.le_succ n, .refl _⟩
  refine .ok hs ⟨?_, hd⟩
  rw [h.instances]
  exact Nat.lt_succ_self _

theorem bindMethod (h : m.WellBound T V n) {d : Class} (hd : d.WellBound T V m.scopes) {x : String}
    {f : Closure} (hf : d.method? x = some f) {i : Instance}
    (hi : (Value.inst i).WellBound T V n m.scopes) (hsub : d.lineage ⊆ i.cls.lineage) :
    (methodInvariant T V).Preserves n m (Exec.bindMethod f (.inst i)) fun _ s g =>
      g.WellBound T V s ∧ g.decl = f.decl := by
  rw [Class.method?_eq_findSome?] at hf
  obtain ⟨e, he, hf⟩ := List.exists_of_findSome?_eq_some hf
  obtain ⟨hV, hmethods⟩ := hd e he
  have hmethod := hmethods x f hf
  let b : Bindings Value := Bindings.empty.set "this" (.inst i)
  have hstep := step_add h f.scope (b := b) (wellBound_single hi) (m.nextId + 1)
  have hthis : (m.scopes.add (some f.scope) b).local? m.scopes.next "this" = some (.inst i) :=
    Scopes.local?_add_single ..
  have hparent : (m.scopes.add (some f.scope) b).parent? m.scopes.next = some f.scope := by
    rw [Scopes.parent?_add, if_pos rfl]
  refine .ok hstep ⟨⟨hmethod.sound, ⟨⟨0, some f.decl⟩, ?_, fun _ => id⟩, fun _ => ⟨i, hthis⟩⟩, rfl⟩
  exact .bound hthis hparent (hsub he) hV (hmethod.mono (fun _ _ => id) hstep.moves.2)

theorem assign (h : m.WellBound T V n) {t : Token} (ht : t.Is Token.Spelled .identifier) {v : Value}
    (hv : v.WellBound T V n m.scopes) :
    (methodInvariant T V).Preserves n m (Exec.assign t v) fun _ _ _ => True := by
  have hset : ∀ j, (methodInvariant T V).Ends n m (fun _ _ _ => True)
      (.ok () { m with scopes := m.scopes.define j t.lexeme v }) :=
    fun j => .ok (step_define h j ht.not_implicit hv m.nextId) trivial
  have hsame : (methodInvariant T V).Step n m n m := ⟨h, .refl m, Nat.le_refl n, .refl _⟩
  unfold Invariant.Preserves
  cases hd : m.distances.find? t.site with
  | none =>
    rw [Exec.assign_of_none v hd]
    cases m.scopes.binder? m.globals t.lexeme with
    | none => exact .error hsame nofun
    | some j => exact hset j
  | some d =>
    cases hj : m.scopes.ancestor? m.current d with
    | none =>
      rw [Exec.assign_of_far v hd hj]
      exact .error hsame nofun
    | some j =>
      rw [Exec.assign_of_some v hd hj]
      exact hset j

theorem declare (h : m.WellBound T V n) {t : Token} (ht : t.Is Token.Spelled .identifier)
    {v : Value} (hv : v.WellBound T V n m.scopes) (hc : Inside T V m.scopes c m.current) :
    (methodInvariant T V).Preserves n m (Exec.define t.lexeme v) fun _ s _ =>
      Inside T V s c m.current := by
  have hs := step_define h m.current ht.not_implicit hv m.nextId
  exact .ok hs (hc.mono (fun _ _ => id) hs.moves.2 hs.keeps.scopes)

theorem function (h : m.WellBound T V n) {decl : FunDecl} (hs : Stmt.WellBound T c (.funDecl decl))
    (hc : Inside T V m.scopes c m.current) :
    (methodInvariant T V).Preserves n m (Exec.newClosure decl m.current false >>=
      fun f => Exec.define decl.name.lexeme (.function f))
      fun _ s _ => Inside T V s c m.current := by
  obtain ⟨hwf, hkeywords, hmethods⟩ := hs
  let f : Closure := ⟨m.nextId, decl, m.current, false⟩
  have hf : (Value.function f).WellBound T V n m.scopes :=
    ⟨⟨hwf, hmethods⟩, ⟨c, hc, hkeywords⟩, nofun⟩
  have hname : decl.name.Is Token.Spelled .identifier :=
    Stmt.WellFormed.declared (s := .funDecl decl) hwf _ rfl
  have hs := step_define h m.current hname.not_implicit hf (m.nextId + 1)
  exact .ok hs (hc.mono (fun _ _ => id) hs.moves.2 hs.keeps.scopes)

theorem superclass?_ofLayer (own : ClassLayer) (parent : Option Class) :
    Class.superclass? ⟨own, parent.elim [] Class.layers⟩ = parent := by
  cases parent <;> rfl

theorem newClass (h : m.WellBound T V n) (name : String) {parent : Option Class}
    (hparent : ∀ d, parent = some d → d.WellBound T V m.scopes) {methods : List FunDecl}
    (hmethods : ∀ method ∈ methods, method.Sound T ∧ method.Keyed T parent.isSome) {scope : ScopeId}
    (hsuper : ∀ d, parent = some d → m.scopes.local? scope "super" = some (.cls d))
    (hV : ∀ d m', Exec.newClass name parent methods scope m = .ok d m' → V d) :
    (methodInvariant T V).Preserves n m (Exec.newClass name parent methods scope) fun _ s d =>
      d.WellBound T V s := by
  obtain ⟨b, hb, heq⟩ := Exec.newClass_eq name parent methods scope m
  unfold Invariant.Preserves
  rw [heq]
  refine .ok (step h (.refl _) (.refl _) .inl _) ?_
  let own : ClassLayer := ⟨m.nextId + methods.length, name, b⟩
  have hsuperclass := superclass?_ofLayer own parent
  have hown : ∀ x f, b.get? x = some f →
      Class.HasMethod T m.scopes ⟨own, parent.elim [] Class.layers⟩ x f := by
    intro x f hf
    obtain ⟨hscope, hdecl, hinit⟩ := hb x f hf
    obtain ⟨hsound, hkeyed⟩ := hmethods f.decl hdecl
    refine ⟨hf, hinit, hsound, ?_, ?_⟩
    · rwa [hsuperclass]
    · rw [hsuperclass, hscope]
      exact hsuper
  have hmade : V ⟨own, parent.elim [] Class.layers⟩ := hV _ _ heq
  cases parent with
  | none => exact List.forall_mem_singleton.2 ⟨hmade, hown⟩
  | some d => exact List.forall_mem_cons.2 ⟨⟨hmade, hown⟩, hparent d rfl⟩

/-- Methods of a subclass are closed over one more scope, which binds `super`. -/
theorem newSubclass (h : m.WellBound T V n) (name : String) {parent : Class}
    (hparent : parent.WellBound T V m.scopes) {methods : List FunDecl}
    (hmethods : ∀ method ∈ methods, method.Sound T ∧ method.Keyed T true)
    (hV : ∀ d m', Exec.makeClass name methods (some parent) m = .ok d m' → V d) :
    (methodInvariant T V).Preserves n m
      (Exec.newScope m.current (Bindings.empty.set "super" (.cls parent)) >>= fun scope =>
      Exec.newClass name (some parent) methods scope) fun _ s d => d.WellBound T V s := by
  let b : Bindings Value := Bindings.empty.set "super" (.cls parent)
  have hstep := step_add h m.current (b := b) (wellBound_single (v := .cls parent) hparent) m.nextId
  have hscope : (methodInvariant T V).Preserves n m (Exec.newScope m.current b) fun _ s i =>
      s.local? i "super" = some (.cls parent) := .ok hstep (Scopes.local?_add_single ..)
  refine hscope.bindWith_of_trans moves_trans fun hmade hs hsuper => ?_
  refine newClass hs.inv name (fun d hd => ?_) hmethods (fun d hd => ?_) fun d m' hd => hV d m' ?_
  · cases hd
    exact hparent.mono (fun _ _ => id) hs.moves.2
  · cases hd
    exact hsuper
  · exact (Exec.bind_of_ok (x := Exec.newScope m.current b) hmade).trans hd

theorem enter (h : m.WellBound T V n) {f : Closure} (hf : f.WellBound T V m.scopes)
    {args : List Value} (hargs : ∀ v ∈ args, v.WellBound T V n m.scopes) :
    (methodInvariant T V).Preserves n m
      (Exec.newScope f.scope (Bindings.empty.setAll (f.decl.params.map Token.lexeme) args))
      fun _ s i => ∃ c', (methodInvariant T V).stmts c' f.decl.body ∧ Inside T V s c' i := by
  obtain ⟨⟨hwf, hmethods⟩, ⟨c, hc, hkeywords⟩, -⟩ := hf
  obtain ⟨id, ⟨name, params, body⟩, scope, isInitializer⟩ := f
  have hthis : "this" ∉ params.map Token.lexeme := by
    intro hmem
    obtain ⟨p, hp, heq⟩ := List.mem_map.1 hmem
    exact (hwf.2.1 p hp).not_implicit (.inl heq)
  refine (newScope h hc (fun x v hv => ?_) ?_).imp fun _ s i hi =>
    ⟨c.inner, stmts hwf.2.2 hkeywords hmethods, hi⟩
  · rcases Bindings.mem_of_get?_setAll hv with hv | hv
    · cases hv
    · exact hargs v hv
  · rw [Bindings.get?_setAll_of_not_mem hthis]
    rfl

/-- A keyword stands in a method, and its distance is the one that it is to be found at. -/
theorem keyword (h : m.WellBound T V n) (hplace : Inside T V m.scopes c m.current) {e : Expr}
    (he : e.WellBound c) {r : Resolution} (hr : r ∈ keywordsOf c.depth e.references) :
    ∃ d f o j, Seated T V m.scopes m.current c.depth d f o j ∧ r ∈ f.decl.keywords ∧
      m.distances.find? r.token.site = some r.distance := by
  obtain ⟨depth, method⟩ := c
  have hmem := he.keywords hr
  cases method with
  | none => cases hmem
  | some method =>
    obtain ⟨d, f, o, j, hseat, rfl⟩ := hplace.seated
    obtain ⟨x, hmethod⟩ := hseat.has
    exact ⟨d, f, o, j, hseat, hmem, h.table _ _ (hmethod.keyed r hmem).1⟩

/-- What `super` leads to: the superclass of the class that declares the method, and the
instance. -/
theorem super (h : m.WellBound T V n) (hplace : Inside T V m.scopes c m.current)
    {keyword method : Token} (he : Expr.WellBound c (.super keyword method)) :
    ∃ d f o j parent, Seated T V m.scopes m.current c.depth d f o j ∧
      ⟨.super, keyword, c.depth + 1⟩ ∈ f.decl.keywords ∧
        m.distances.find? keyword.site = some (c.depth + 1) ∧
      d.superclass? = some parent ∧
        m.scopes.getAt m.current (c.depth + 1) "super" = .ok (.cls parent) ∧
      m.scopes.getAt m.current c.depth "this" = .ok (.inst o) := by
  obtain ⟨d, f, o, j, hseat, hr, hfind⟩ :=
    MethodInvariant.keyword (r := ⟨.super, keyword, c.depth + 1⟩) h hplace he List.mem_cons_self
  obtain ⟨x, hmethod⟩ := hseat.has
  obtain ⟨parent, hparent⟩ := Option.isSome_iff_exists.1 ((hmethod.keyed _ hr).2 rfl)
  refine ⟨d, f, o, j, parent, hseat, hr, hfind, hparent, ?_,
    Scopes.getAt_of_local? hseat.ancestor hseat.this⟩
  refine Scopes.getAt_of_local? (j := f.scope) ?_ (hmethod.super parent hparent)
  rw [Scopes.ancestor?_succ, hseat.ancestor]
  exact hseat.scope

/-- The methods of the superclass suit the instance. -/
theorem suits_super (h : m.WellBound T V n) (hplace : Inside T V m.scopes c m.current)
    {keyword method : Token} (he : Expr.WellBound c (.super keyword method)) {distance : Nat}
    {parent : Class} {this : Value} (hd : m.distances.find? keyword.site = some distance)
    (hparent : m.scopes.getAt m.current distance "super" = .ok (.cls parent))
    (hthis : m.scopes.getAt m.current (distance - 1) "this" = .ok this) :
    ∃ i, this = .inst i ∧ parent.lineage ⊆ i.cls.lineage := by
  obtain ⟨d, f, o, j, parent', hseat, -, hd', hsuperclass, hparent', hthis'⟩ :=
    MethodInvariant.super h hplace he
  obtain rfl : c.depth + 1 = distance := Option.some.inj (hd'.symm.trans hd)
  obtain rfl : parent' = parent := by
    cases hparent'.symm.trans hparent
    rfl
  rw [Nat.add_sub_cancel] at hthis
  obtain rfl : .inst o = this := by
    cases hthis'.symm.trans hthis
    rfl
  refine ⟨o, rfl, List.Subset.trans ?_ (Class.lineage_subset hseat.chain)⟩
  rw [Class.lineage_superclass hsuperclass]
  exact List.subset_cons_self _ _

/-- All that evaluation does keeps methods well bound. -/
theorem laws (T : SiteTable) (V : Class → Prop) : (methodInvariant T V).Laws where
  refl _ _ := ⟨Nat.le_refl _, .refl _⟩
  trans := moves_trans
  value_mono h hs hv := Value.WellBound.mono hv h.1 (fun _ _ => id) h.2 hs
  place_mono h hs hp := Inside.mono hp (fun _ _ => id) h.2 hs
  loose_mono _ _ := id
  frame h _ _ _ _ := ⟨h.table, h.instances, h.stored, h.field⟩
  plain hv n s := hv.wellBound T V n s
  cls h := h.2
  stored h := h.stored
  field h := h.field
  setField h hv i x := Machine.WellBound.setField h hv i x
  newInstance h hc := newInstance h hc
  suits_cls _ := ⟨_, rfl, fun _ => id⟩
  suits_super h hplace he hd hparent hthis := suits_super h hplace he hd hparent hthis
  bindMethod := by
    rintro n m c x f this h hc hf hthis ⟨i, rfl, hsub⟩
    exact bindMethod h hc hf hthis hsub
  parts he e' he' := Expr.WellBound.part he he'
  assign h _ he hv := assign h he.wellFormed.1 hv
  exprs hs e he := Stmt.WellBound.expr hs he
  branches hs b hb := Stmt.WellBound.branch hs hb
  after_eq _ := rfl
  block {c _ _ _} h hplace hs :=
    (newScope h hplace (fun _ _ hv => by cases hv) rfl).imp fun _ _ _ hi =>
    ⟨c.inner, stmts hs.wellFormed hs.keywords hs.methods, hi⟩
  initializer hs := ⟨_, ⟨hs.wellFormed.2, hs.keywords⟩, fun _ _ _ => id⟩
  declare h hs ht hplace hv := declare h (hs.wellFormed.declared _ ht) hv (hplace.elim id id)
  function h hplace hs := function h hs hplace
  superclass hs := ⟨hs.wellFormed.2.1 _ rfl, nofun⟩
  newClass h hs _ hV :=
    newClass h _ (fun _ hd => by cases hd) (fun _ hm => hs.method hm) (fun _ hd => by cases hd) hV
  newSubclass h hs _ hparent hV := newSubclass h _ hparent (fun _ hm => hs.method hm) hV
  enter h hf hargs _ := enter h hf hargs

/-- If nothing is asked of classes, evaluation may go anywhere. -/
theorem follows_all (T : SiteTable) {bound : Nat} (K : Course bound) :
    (methodInvariant T fun _ => True).Follows K where
  plain _ _ _ _ _ := trivial
  sub _ _ _ _ _ _ := trivial

end MethodInvariant

end Lox
