import Lox.Proofs.Invariants

/-!
# Scope chains and class chains end

The parent of a scope is older than the scope, and the superclass of a class older than the class.
Both are kept up by whatever a host does with a machine (`Machine.Sound`), although the names of
classes can be bound anew at any time: a chain is made of scopes and classes, not of names. So every
walk outwards ends, at the globals for scopes, and every later walk from the same place is the same
(`chains_end`).
-/

namespace Lox

/-! ## Walks -/

/-- Going from link to link starting at `a` meets the members of the list, and then there is no
further link. -/
inductive Walk {α : Type} (link : α → Option α) : α → List α → Prop where
  | stop {a : α} : link a = none → Walk link a [a]
  | step {a b : α} {l : List α} : link a = some b → Walk link b l → Walk link a (a :: l)

namespace Walk

variable {α : Type} {link : α → Option α} {a : α} {l : List α}

theorem isChain (h : Walk link a l) : l.IsChain (fun a b => link a = some b) := by
  induction h with
  | stop _ => exact .singleton _
  | step hab hrest ih =>
    cases hrest with
    | stop _ => exact .cons_cons hab ih
    | step _ _ => exact .cons_cons hab ih

/-- If each link goes down in a transitive order, so does the whole walk. -/
theorem pairwise {r : α → α → Prop} [IsTrans α r] (h : Walk link a l)
    (hr : ∀ a b, link a = some b → r a b) :
    l.Pairwise r :=
  (h.isChain.imp fun a b hab => hr a b hab).pairwise

end Walk

/-! ## Scopes -/

namespace Scopes

/-- Where parents are older, the scopes around a scope, as far as they are listed, are the whole
walk. -/
theorem walk_outward_of_lt {s : Scopes} (h : ∀ i p, s.parent? i = some p → p < i)
    {i : ScopeId} {n : Nat} (hn : i < n) : Walk s.parent? i (s.outward n i) := by
  induction n generalizing i with
  | zero => exact absurd hn (Nat.not_lt_zero i)
  | succ n ih =>
    rw [outward]
    cases hp : s.parent? i with
    | none => exact .stop hp
    | some p => exact .step hp (ih (Nat.lt_of_lt_of_le (h i p hp) (Nat.le_of_lt_succ hn)))

theorem walk_path_of_lt {s : Scopes} (h : ∀ i p, s.parent? i = some p → p < i) (i : ScopeId) :
    Walk s.parent? i (s.path i) := walk_outward_of_lt h (Nat.lt_succ_self i)

/-- All scopes but one, the root, have a parent, which is older. -/
structure Rooted (s : Scopes) (root : ScopeId) : Prop where
  lt_next : root < s.next
  parentless : s.parent? root = none
  older : ∀ i, i < s.next → i ≠ root → ∃ p < i, s.parent? i = some p

namespace Rooted

variable {s s' : Scopes} {root i : ScopeId} {l : List ScopeId}

theorem add (h : s.Rooted root) {p : ScopeId} (hp : p < s.next) (b : Bindings Value) :
    (s.add (some p) b).Rooted root where
  lt_next := by
    rw [next_add]
    exact Nat.lt_succ_of_lt h.lt_next
  parentless := by
    rw [parent?_add, if_neg (Nat.ne_of_lt h.lt_next)]
    exact h.parentless
  older i hi hne := by
    rw [next_add] at hi
    rw [parent?_add]
    by_cases hnew : i = s.next
    · exact ⟨p, hnew ▸ hp, if_pos hnew⟩
    · rw [if_neg hnew]
      exact h.older i (Nat.lt_of_le_of_ne (Nat.le_of_lt_succ hi) hnew) hne

theorem define (h : s.Rooted root) (i : ScopeId) (x : String) (v : Value) :
    (s.define i x v).Rooted root where
  lt_next := by
    rw [next_define]
    exact h.lt_next
  parentless := by
    rw [parent?_define]
    exact h.parentless
  older j hj hne := by
    rw [next_define] at hj
    rw [parent?_define]
    exact h.older j hj hne

theorem parent_lt (h : s.Rooted root) {p : ScopeId} (hp : s.parent? i = some p) : p < i := by
  have hne : i ≠ root := by
    rintro rfl
    rw [h.parentless] at hp
    cases hp
  obtain ⟨q, hq, hi⟩ := h.older i (lt_next_of_parent? hp) hne
  rw [hp] at hi
  cases hi
  exact hq

theorem walk_path (h : s.Rooted root) (i : ScopeId) : Walk s.parent? i (s.path i) :=
  walk_path_of_lt (fun _ _ hp => h.parent_lt hp) i

theorem getLast?_eq (h : s.Rooted root) (hl : Walk s.parent? i l) (hi : i < s.next) :
    l.getLast? = some root := by
  induction hl with
  | @stop i hnone =>
    by_contra hne
    obtain ⟨p, -, hp⟩ := h.older i hi (fun heq => hne (heq ▸ rfl))
    rw [hnone] at hp
    cases hp
  | @step i p l hp hrest ih =>
    have hlast := ih (Nat.lt_trans (h.parent_lt hp) hi)
    cases hrest with
    | stop _ => exact hlast
    | step _ _ => rwa [List.getLast?_cons_cons]

end Rooted

variable {s s' : Scopes} {i : ScopeId} {l : List ScopeId}

/-- A number of steps outwards leads along the walk, and nowhere behind its end. -/
theorem ancestor?_eq_getElem? (hl : Walk s.parent? i l) (d : Nat) : s.ancestor? i d = l[d]? := by
  induction hl generalizing d with
  | stop hnone =>
    cases d with
    | zero => rfl
    | succ d => simp [ancestor?, hnone]
  | step hp _ ih =>
    cases d with
    | zero => rfl
    | succ d => simp [ancestor?, hp, ih]

/-- A walk among scopes that are there stays the same. -/
theorem Extends.outward_eq (h : s.Extends s') {root : ScopeId} (hroot : s.Rooted root)
    (hi : i < s.next) (n : Nat) :
    s'.outward n i = s.outward n i := by
  induction n generalizing i with
  | zero => rfl
  | succ n ih =>
    rw [outward, outward, h.parent i hi]
    cases hp : s.parent? i with
    | none => rfl
    | some p => simp [ih (Nat.lt_trans (hroot.parent_lt hp) hi)]

end Scopes

/-! ## Classes -/

namespace Class

def lineageOf : ClassLayer → List ClassLayer → List Class
  | own, [] => [⟨own, []⟩]
  | own, layer :: rest => ⟨own, layer :: rest⟩ :: lineageOf layer rest

def lineage (c : Class) : List Class := lineageOf c.own c.inherited

theorem lineage_cons (own : ClassLayer) (c : Class) :
    lineage ⟨own, c.layers⟩ = ⟨own, c.layers⟩ :: c.lineage :=
  rfl

theorem mem_lineage_self (c : Class) : c ∈ c.lineage := by
  obtain ⟨own, inherited⟩ := c
  cases inherited <;> exact List.mem_cons_self

theorem walk_lineage (c : Class) : Walk superclass? c c.lineage := by
  obtain ⟨own, inherited⟩ := c
  induction inherited generalizing own with
  | nil => exact .stop rfl
  | cons layer rest ih => exact .step rfl (ih layer)

theorem map_own_lineage (c : Class) : c.lineage.map own = c.layers := by
  obtain ⟨own, inherited⟩ := c
  induction inherited generalizing own with
  | nil => rfl
  | cons layer rest ih => exact congrArg (own :: ·) (ih layer)

/-- Methods are looked for in the class and then in each superclass. -/
theorem method?_eq_findSome? (c : Class) (x : String) :
    c.method? x = c.lineage.findSome? fun d => d.own.methods.get? x := by
  rw [method?, ← map_own_lineage, List.findSome?_map]
  rfl

theorem lineage_superclass {c d : Class} (h : c.superclass? = some d) :
    c.lineage = c :: d.lineage := by
  obtain ⟨own, inherited⟩ := c
  cases inherited with
  | nil => cases h
  | cons layer rest =>
    cases h
    rfl

end Class

/-- The classes made so far, by their identities. -/
abbrev Registry := Nat → Option Class

/-- The class and its superclasses are on record, each older than the one that inherits from it, and
their methods are closed over scopes below `next`. -/
structure Class.Sound (K : Registry) (next : Nat) (c : Class) : Prop where
  older : (c.lineage.map fun d => d.own.id).Pairwise (· > ·)
  known : ∀ d ∈ c.lineage, K d.own.id = some d
  closed : ∀ d ∈ c.lineage, ∀ x f, d.own.methods.get? x = some f → f.scope < next

namespace Class.Sound

variable {K K' : Registry} {next next' : Nat} {c : Class}

theorem mono (h : c.Sound K next) (hK : ∀ n d, K n = some d → K' n = some d)
    (hnext : next ≤ next') :
    c.Sound K' next' :=
  ⟨h.older, fun d hd => hK _ d (h.known d hd),
    fun d hd x f hf => Nat.lt_of_lt_of_le (h.closed d hd x f hf) hnext⟩

theorem superclass (h : c.Sound K next) {d : Class} (hd : c.superclass? = some d) :
    d.Sound K next := by
  have hlineage := c.lineage_superclass hd
  have hsub : ∀ e ∈ d.lineage, e ∈ c.lineage := fun e he => hlineage ▸ List.mem_cons_of_mem _ he
  refine ⟨?_, fun e he => h.known e (hsub e he), fun e he => h.closed e (hsub e he)⟩
  have hpairs := h.older
  rw [hlineage, List.map_cons] at hpairs
  exact hpairs.tail

theorem method (h : c.Sound K next) {x : String} {f : Closure} (hf : c.method? x = some f) :
    f.scope < next := by
  rw [method?_eq_findSome?] at hf
  obtain ⟨d, hd, hget⟩ := List.exists_of_findSome?_eq_some hf
  exact h.closed d hd x f hget

/-- A class that is newer than all on record, with a superclass on record or without one. -/
theorem ofLayer {own : ClassLayer} {parent : Option Class}
    (hparent : ∀ d, parent = some d → d.Sound K next) (hnew : ∀ n d, K n = some d → n < own.id)
    (hown : ∀ x f, own.methods.get? x = some f → f.scope < next) :
    Class.Sound (fun n => if n = own.id then some ⟨own, parent.elim [] layers⟩ else K n) next
      ⟨own, parent.elim [] layers⟩ := by
  cases parent with
  | none =>
    refine ⟨List.pairwise_singleton _ _, fun d hd => ?_, fun d hd => ?_⟩
    · cases List.mem_singleton.1 hd
      exact if_pos rfl
    · cases List.mem_singleton.1 hd
      exact hown
  | some d =>
    have hd := hparent d rfl
    refine ⟨?_, ?_, ?_⟩
    · rw [Option.elim_some, lineage_cons, List.map_cons]
      refine .cons (fun n hn => ?_) hd.older
      obtain ⟨e, he, rfl⟩ := List.mem_map.1 hn
      exact hnew _ e (hd.known e he)
    · rw [Option.elim_some, lineage_cons]
      refine List.forall_mem_cons.2 ⟨if_pos rfl, fun e he => ?_⟩
      have hknown := hd.known e he
      exact (if_neg (Nat.ne_of_lt (hnew _ e hknown))).trans hknown
    · rw [Option.elim_some, lineage_cons]
      exact List.forall_mem_cons.2 ⟨hown, hd.closed⟩

end Class.Sound

/-! ## Machines -/

/-- What a value points to: scopes below `next` and sound classes. -/
def Value.Sound (K : Registry) (next : Nat) : Value → Prop
  | .function f => f.scope < next
  | .cls c => c.Sound K next
  | .inst i => i.cls.Sound K next
  | _ => True

theorem Value.Sound.mono {K K' : Registry} {next next' : Nat} {v : Value} (h : v.Sound K next)
    (hK : ∀ n d, K n = some d → K' n = some d) (hnext : next ≤ next') : v.Sound K' next' := by
  cases v with
  | function f => exact Nat.lt_of_lt_of_le h hnext
  | cls c => exact Class.Sound.mono h hK hnext
  | inst i => exact Class.Sound.mono h hK hnext
  | _ => trivial

theorem Value.IsPlain.sound {v : Value} (h : v.IsPlain) (K : Registry) (next : Nat) :
    v.Sound K next := by
  cases v with
  | function f => exact h.elim
  | cls c => exact h.elim
  | inst i => exact h.elim
  | _ => trivial

/-- Scopes and classes were made one after another, and what is stored points to such ones. -/
structure Machine.Sound (K : Registry) (m : Machine) : Prop where
  rooted : m.scopes.Rooted m.globals
  stored : ∀ {i x v}, m.scopes.local? i x = some v → v.Sound K m.scopes.next
  field : ∀ {i x v}, (m.fieldsOf i).get? x = some v → v.Sound K m.scopes.next
  known : ∀ n c, K n = some c → n < m.nextId

namespace Machine.Sound

variable {K : Registry} {m : Machine}

theorem grow (h : m.Sound K) {s : Scopes} (hs : m.scopes.Extends s) (hrooted : s.Rooted m.globals)
    (hnew : ∀ {i x v}, s.local? i x = some v → m.scopes.local? i x = some v ∨
      v.Sound K m.scopes.next) :
    Sound K { m with scopes := s } where
  rooted := hrooted
  stored hv := ((hnew hv).elim h.stored id).mono (fun _ _ => id) hs.next
  field hv := (h.field hv).mono (fun _ _ => id) hs.next
  known := h.known

theorem add (h : m.Sound K) {p : ScopeId} (hp : p < m.scopes.next) {b : Bindings Value}
    (hb : ∀ x v, b.get? x = some v → v.Sound K m.scopes.next) :
    Sound K { m with scopes := m.scopes.add (some p) b } :=
  h.grow (.add _ _ _) (h.rooted.add hp b) fun hv =>
    (Scopes.of_local?_add hv).symm.imp_right (hb _ _)

theorem define (h : m.Sound K) {v : Value} (hv : v.Sound K m.scopes.next) (i : ScopeId)
    (x : String) :
    Sound K { m with scopes := m.scopes.define i x v } := by
  refine h.grow (.define _ _ _ _) (h.rooted.define i x v) fun hw => ?_
  rcases Scopes.of_local?_define hw with rfl | hw
  · exact .inr hv
  · exact .inl hw

theorem setField (h : m.Sound K) {v : Value} (hv : v.Sound K m.scopes.next) (i : Nat) (x : String) :
    Sound K { m with fields := m.fields.modify i (·.set x v) } :=
  ⟨h.rooted, h.stored, fun hw => (of_field_set hw).elim (· ▸ hv) h.field, h.known⟩

theorem newInstance (h : m.Sound K) : Sound K { m with fields := m.fields.push .empty } :=
  ⟨h.rooted, h.stored, fun hw => h.field (m.fieldsOf_push _ ▸ hw), h.known⟩

/-- Identities may be used up, and classes with such identities put on record. -/
theorem register (h : m.Sound K) {K' : Registry} {nextId : Nat}
    (hK : ∀ n c, K n = some c → K' n = some c) (hknown : ∀ n c, K' n = some c → n < nextId) :
    Sound K' { m with nextId } :=
  ⟨h.rooted, fun hv => (h.stored hv).mono hK (Nat.le_refl _),
    fun hv => (h.field hv).mono hK (Nat.le_refl _), hknown⟩

theorem newId (h : m.Sound K) (n : Nat) : Sound K { m with nextId := m.nextId + n } :=
  h.register (fun _ _ => id) fun k c hc =>
    Nat.lt_of_lt_of_le (h.known k c hc) (Nat.le_add_right _ n)

end Machine.Sound

/-! ## Execution -/

def chains : Invariant Registry Unit where
  inv K m := m.Sound K
  moves K _ K' _ := ∀ n c, K n = some c → K' n = some c
  value K s v := v.Sound K s.next
  loose _ _ := True
  place _ _ s i := i < s.next
  expr _ _ := True
  stmt _ _ := True
  after _ _ := ()

namespace Chains

variable {K : Registry} {m : Machine}

theorem stmts (ss : List Stmt) : chains.stmts () ss := by
  induction ss with
  | nil => trivial
  | cons s ss ih => exact ⟨trivial, ih⟩

theorem newScope (h : m.Sound K) {p : ScopeId} (hp : p < m.scopes.next) {b : Bindings Value}
    (hb : ∀ x v, b.get? x = some v → v.Sound K m.scopes.next) :
    chains.Preserves K m (Exec.newScope p b) fun _ s i => i < s.next := by
  refine .ok ⟨h.add hp hb, Exec.Restores.newScope p b m, fun _ _ => id⟩ ?_
  rw [Scopes.next_add]
  exact Nat.lt_succ_self _

theorem define (h : m.Sound K) {v : Value} (hv : v.Sound K m.scopes.next) {i : ScopeId}
    (hi : i < m.scopes.next) (x : String) : chains.Preserves K m (Exec.define x v) fun _ s _ =>
    i < s.next :=
  .ok ⟨h.define hv m.current x, Exec.Restores.define x v m, fun _ _ => id⟩
    (Nat.lt_of_lt_of_le hi (Scopes.Extends.define _ _ _ _).next)

theorem sound_single {next : Nat} {x : String} {v : Value} (hv : v.Sound K next) :
    ∀ y w, (Bindings.empty.set x v).get? y = some w → w.Sound K next := by
  intro y w hw
  rw [Bindings.get?_set] at hw
  split at hw
  · cases hw
    exact hv
  · cases hw

/-- Any function can be bound to any value. -/
theorem bindMethod (h : m.Sound K) {f : Closure} (hf : f.scope < m.scopes.next) {this : Value}
    (hthis : this.Sound K m.scopes.next) :
    chains.Preserves K m (Exec.bindMethod f this) fun _ s g => g.scope < s.next ∧
      g.decl = f.decl := by
  have hadd := h.add hf (sound_single (x := "this") hthis)
  refine .ok ⟨hadd.newId 1, Exec.Restores.bindMethod f this m, fun _ _ => id⟩ ⟨?_, rfl⟩
  exact (Scopes.next_add ..).symm ▸ Nat.lt_succ_self _

theorem newClass (h : m.Sound K) (name : String) {parent : Option Class}
    (hparent : ∀ d, parent = some d → d.Sound K m.scopes.next) (methods : List FunDecl)
    {scope : ScopeId}
    (hscope : scope < m.scopes.next) :
    chains.Preserves K m (Exec.newClass name parent methods scope) fun K' s c =>
      c.Sound K' s.next := by
  obtain ⟨b, hb, heq⟩ := Exec.newClass_eq name parent methods scope m
  have hown : ∀ x f, b.get? x = some f → f.scope < m.scopes.next :=
    fun x f hf => (hb x f hf).1 ▸ hscope
  have hnew : ∀ n d, K n = some d → n < m.nextId + methods.length :=
    fun n d hd => Nat.lt_of_lt_of_le (h.known n d hd) (Nat.le_add_right _ _)
  let own : ClassLayer := ⟨m.nextId + methods.length, name, b⟩
  let K' : Registry := fun n => if n = own.id then some ⟨own, parent.elim [] Class.layers⟩ else K n
  have hsound : Class.Sound K' m.scopes.next ⟨own, parent.elim [] Class.layers⟩ :=
    .ofLayer hparent hnew hown
  have hK : ∀ n d, K n = some d → K' n = some d :=
    fun n d hd => (if_neg (Nat.ne_of_lt (hnew n d hd))).trans hd
  unfold Invariant.Preserves
  rw [heq]
  refine .ok ⟨h.register hK fun n d hd => ?_, .store m (.refl _) _ _, hK⟩ hsound
  dsimp only [K'] at hd
  split at hd
  · rename_i hn
    exact hn ▸ Nat.lt_succ_self _
  · exact Nat.lt_succ_of_lt (hnew n d hd)

/-- Methods of a subclass are closed over one more scope. -/
theorem newSubclass (h : m.Sound K) (name : String) {parent : Class}
    (hparent : parent.Sound K m.scopes.next) (methods : List FunDecl) {scope : ScopeId}
    (hscope : scope < m.scopes.next) :
    chains.Preserves K m
      (Exec.newScope scope (Bindings.empty.set "super" (.cls parent)) >>=
        fun scope => Exec.newClass name (some parent) methods scope)
      fun K' s c => c.Sound K' s.next := by
  have hsuper : Value.Sound K m.scopes.next (.cls parent) := hparent
  refine (newScope h hscope (sound_single hsuper)).bind_of_trans
    (fun h h' n c hc => h' n c (h n c hc))
    fun hs hi => newClass hs.inv name (fun d hd => ?_) methods hi
  cases hd
  exact hparent.mono hs.moves hs.keeps.scopes.next

theorem newFunction (h : m.Sound K) {i : ScopeId} (hi : i < m.scopes.next) (decl : FunDecl) :
    chains.Preserves K m (Exec.newClosure decl i false >>=
      fun f => Exec.define decl.name.lexeme (.function f))
      fun _ s _ => i < s.next := by
  have hclosure : chains.Preserves K m (Exec.newClosure decl i false) fun K' s f =>
    chains.value K' s (.function f) :=
    .ok ⟨h.newId 1, Exec.Restores.newClosure decl i false m, fun _ _ => id⟩ hi
  exact hclosure.bind_of_trans (fun h h' n c hc => h' n c (h n c hc)) fun hs hf =>
    define (v := .function _) hs.inv hf (Nat.lt_of_lt_of_le hi hs.keeps.scopes.next) _

theorem assign (h : m.Sound K) (t : Token) {v : Value} (hv : v.Sound K m.scopes.next) :
    chains.Preserves K m (Exec.assign t v) fun _ _ _ => True := by
  have hset : ∀ j,
      chains.Ends K m (fun _ _ _ => True)
      (.ok () { m with scopes := m.scopes.define j t.lexeme v }) :=
    fun j => .ok ⟨h.define hv j t.lexeme, .store m (.define _ _ _ _) _ _, fun _ _ => id⟩ trivial
  unfold Invariant.Preserves
  cases hd : m.distances.find? t.site with
  | none =>
    rw [Exec.assign_of_none v hd]
    cases m.scopes.binder? m.globals t.lexeme with
    | none => exact .error ⟨h, .refl m, fun _ _ => id⟩ nofun
    | some j => exact hset j
  | some d =>
    cases hj : m.scopes.ancestor? m.current d with
    | none =>
      rw [Exec.assign_of_far v hd hj]
      exact .error ⟨h, .refl m, fun _ _ => id⟩ nofun
    | some j =>
      rw [Exec.assign_of_some v hd hj]
      exact hset j

/-- All that evaluation does keeps the chains. -/
theorem laws : chains.Laws where
  refl _ _ _ _ := id
  trans h h' n c hc := h' n c (h n c hc)
  value_mono h hs hv := Value.Sound.mono hv h hs.next
  place_mono _ hs hi := Nat.lt_of_lt_of_le hi hs.next
  loose_mono _ _ := id
  frame h _ _ _ _ := ⟨h.rooted, h.stored, h.field, h.known⟩
  plain hv K s := hv.sound K s.next
  cls := id
  stored h := h.stored
  field h := h.field
  setField h hv i x := Machine.Sound.setField h hv i x
  newInstance {_ m c} h hc :=
    .ok ⟨Machine.Sound.newInstance h, Exec.Restores.newInstance c m, fun _ _ => id⟩ hc
  suits_cls _ := trivial
  suits_super _ _ _ _ _ _ := trivial
  bindMethod h hc hf hthis _ := bindMethod h (Class.Sound.method hc hf) hthis
  parts _ _ _ := trivial
  assign h _ _ hv := assign h _ hv
  exprs _ _ _ := trivial
  branches _ _ _ := trivial
  after_eq _ := rfl
  block h hplace _ :=
    (newScope h hplace fun _ _ hv => by cases hv).imp fun _ _ _ hi => ⟨(), stmts _, hi⟩
  initializer _ := ⟨(), trivial, fun _ _ _ => id⟩
  declare h _ _ hplace hv := define h hv (hplace.elim id id) _
  function h hplace _ := (newFunction h hplace _).imp fun _ _ _ => id
  superclass _ := trivial
  newClass h _ hplace _ := newClass h _ (fun _ hd => by cases hd) _ hplace
  newSubclass h _ hplace hparent _ := newSubclass h _ hparent _ hplace
  enter h hf hargs _ := (newScope h hf fun x v hv => by
    rcases Bindings.mem_of_get?_setAll hv with hv | hv
    · cases hv
    · exact hargs v hv).imp fun _ _ _ hi => ⟨(), stmts _, hi⟩

theorem follows {bound : Nat} (A : Course bound) : chains.Follows A :=
  ⟨fun _ _ => trivial, fun _ _ _ => trivial⟩

end Chains

/-! ## Hosts -/

/-- The host gives no objects of its own: it has them from the globals. -/
def HostValue.Plain : HostValue → Prop
  | given v => v.IsPlain
  | global _ => True

def HostRequest.Plain : HostRequest → Prop
  | call _ callee args => callee.Plain ∧ ∀ a ∈ args, a.Plain
  | native _ _ _ => True
  | newInstance cls => cls.Plain
  | property object _ => object.Plain
  | method cls this _ => cls.Plain ∧ this.Plain
  | bind function this => function.Plain ∧ this.Plain

def HostStep.Plain : HostStep → Prop
  | ask request _ => request.Plain
  | define _ value => value.Plain
  | set object _ value => object.Plain ∧ value.Plain
  | _ => True

namespace Chains

variable {K : Registry} {m : Machine}

theorem read (h : m.Sound K) {v : HostValue} (hv : v.Plain) :
    chains.Preserves K m v.read chains.value := by
  cases v with
  | given v => exact .pure laws h (Value.IsPlain.sound hv _ _)
  | global name =>
    refine .withState ?_
    cases hx : m.global? name with
    | some v => exact .pure laws h (h.stored hx)
    | none => exact .fault laws h _

theorem defineGlobal (h : m.Sound K) (name : String) {v : Value} (hv : v.Sound K m.scopes.next) :
    chains.Preserves K m (Exec.defineGlobal name v) fun _ _ _ => True :=
  .ok ⟨h.define hv m.globals name, Exec.Restores.defineGlobal name v m, fun _ _ => id⟩ trivial

theorem asClass (h : m.Sound K) {v : Value} (hv : v.Sound K m.scopes.next) :
    chains.Preserves K m (Exec.asClass v) fun K' s c => c.Sound K' s.next := by
  cases v with
  | cls c => exact .pure laws h hv
  | _ => exact .fault laws h _

theorem asInstance (h : m.Sound K) {v : Value} (hv : v.Sound K m.scopes.next) :
    chains.Preserves K m (Exec.asInstance v) fun K' s i => i.cls.Sound K' s.next := by
  cases v with
  | inst i => exact .pure laws h hv
  | _ => exact .fault laws h _

theorem asFunction (h : m.Sound K) {v : Value} (hv : v.Sound K m.scopes.next) :
    chains.Preserves K m (Exec.asFunction v) fun _ s f => f.scope < s.next := by
  cases v with
  | function f => exact .pure laws h hv
  | _ => exact .fault laws h _

theorem findMethod (h : m.Sound K) {c : Class} (hc : c.Sound K m.scopes.next) {this : Value}
    (hthis : this.Sound K m.scopes.next) (name : String) :
    chains.Preserves K m (Exec.findMethod c this name) fun K' s f =>
      chains.value K' s (f.elim .nil .function) := by
  unfold Exec.findMethod
  cases hf : c.method? name with
  | some f => exact (bindMethod h (hc.method hf) hthis).map laws fun _ _ _ hg => hg.1
  | none => exact .pure laws h trivial

theorem answer (h : m.Sound K) {q : HostRequest} (hq : q.Plain) :
    chains.Preserves K m q.answer chains.value := by
  cases q with
  | call l callee args =>
    refine (read h hq.1).bind laws fun hs₁ hf => ?_
    refine (Invariant.Preserves.mapM laws hs₁.inv fun a ha {K' m'} hs =>
      read hs.inv (hq.2 a ha)).bind laws
      fun hs₂ hargs => ?_
    exact (Invariant.Kept.of_depth laws (follows (.all l.iterations)) l.depth).call trivial hs₂.inv
      (hs₂.value laws hf) hargs (.inl trivial)
  | native name arity behaviour =>
    exact .ok ⟨h.newId 1, Exec.Restores.answer (.native name arity behaviour) m,
      fun _ _ => id⟩ trivial
  | newInstance cls =>
    refine ((read h hq).bind laws fun hs hv => asClass hs.inv hv).bind laws fun hs hc => ?_
    exact (Invariant.Preserves.newInstance laws hs.inv hc).map laws fun _ _ _ hi => hi.1
  | property object name =>
    refine ((read h hq).bind laws fun hs hv => asInstance hs.inv hv).bind laws fun hs hi => ?_
    exact .getProperty laws hs.inv hi name
  | method cls this name =>
    refine ((read h hq.1).bind laws fun hs hv => asClass hs.inv hv).bind laws fun hs₁ hc => ?_
    refine (read hs₁.inv hq.2).bind laws fun hs₂ hthis => ?_
    exact (findMethod hs₂.inv (Class.Sound.mono hc hs₂.moves hs₂.keeps.scopes.next) hthis name).bind
      laws
      fun hs₃ hf => .pure laws hs₃.inv hf
  | bind function this =>
    refine ((read h hq.1).bind laws fun hs hv => asFunction hs.inv hv).bind laws fun hs₁ hf => ?_
    refine (read hs₁.inv hq.2).bind laws fun hs₂ hthis => ?_
    exact (bindMethod hs₂.inv (Nat.lt_of_lt_of_le hf hs₂.keeps.scopes.next) hthis).map laws
      fun _ _ _ hg => hg.1

end Chains

namespace Machine

/-- The machine goes on to one with more scopes and more classes on record. -/
def Grows (K : Registry) (m m' : Machine) : Prop :=
  ∃ K', m'.Sound K' ∧ (∀ n c, K n = some c → K' n = some c) ∧ m.scopes.Extends m'.scopes

variable {K : Registry} {m : Machine}

theorem Sound.after {α : Type} {x : Exec α} {P : Registry → Scopes → α → Prop}
    (hx : chains.Preserves K m x P) :
    m.Grows K (x.after m) := by
  unfold Invariant.Preserves at hx
  unfold Exec.after
  generalize x m = r at hx ⊢
  cases hx with
  | ok hs _ => exact ⟨_, hs.inv, hs.moves, hs.keeps.scopes⟩
  | error hs _ => exact ⟨_, hs.inv, hs.moves, hs.keeps.scopes⟩

theorem Sound.read (h : m.Sound K) (distances : Distances) (nextSite : Nat) :
    Sound K { m with distances, nextSite } := ⟨h.rooted, h.stored, h.field, h.known⟩

theorem Sound.execute (h : m.Sound K) (hcurrent : m.current = m.globals) (distances : Distances)
    (nextSite : Nat) (l : Limits) (program : List Stmt) :
    m.Grows K (Machine.execute { m with distances, nextSite } l program).2 :=
  Invariant.execute Chains.laws (Chains.follows (.all l.iterations)) trivial
    (h.read distances nextSite) (hcurrent ▸ h.rooted.lt_next) (Chains.stmts program)

theorem Sound.ran (h : m.Sound K) (hcurrent : m.current = m.globals) {m' : Machine}
    (hran : m.Ran m') :
    m.Grows K m' := by
  obtain ⟨d, k, rfl | ⟨l, program, rfl⟩⟩ := hran
  · exact ⟨K, h.read d k, fun _ _ => id, .refl _⟩
  · exact h.execute hcurrent d k l program

theorem Sound.perform (h : m.Sound K) (hcurrent : m.current = m.globals) {step : HostStep}
    (hstep : step.Plain) :
    m.Grows K (m.perform step) := by
  cases step with
  | run l source => exact h.ran hcurrent (m.ran_run l source)
  | runUnresolved l source => exact h.ran hcurrent (m.ran_runUnresolved l source)
  | runUnchecked l source => exact h.ran hcurrent (m.ran_runUnchecked l source)
  | ask request store =>
    have hanswer := Chains.answer h hstep
    cases store with
    | none => exact Sound.after hanswer
    | some name =>
      exact Sound.after (hanswer.bind Chains.laws fun hs hv => Chains.defineGlobal hs.inv name hv)
  | define name value =>
    exact Sound.after ((Chains.read h hstep).bind Chains.laws fun hs hv =>
      Chains.defineGlobal hs.inv name hv)
  | set object name value =>
    have hobject :=
      (Chains.read h hstep.1).bind Chains.laws fun hs hv => Chains.asInstance hs.inv hv
    refine Sound.after (hobject.bind (Q := fun _ _ _ => True) Chains.laws fun hs₁ _ => ?_)
    refine (Chains.read hs₁.inv hstep.2).bind Chains.laws fun hs₂ hv => ?_
    exact (Invariant.Preserves.setField Chains.laws hs₂.inv _ name hv).imp fun _ _ _ _ => trivial
  | executeUnknown f => exact ⟨K, ⟨h.rooted, h.stored, h.field, h.known⟩, fun _ _ => id, .refl _⟩

theorem Sound.performAll (h : m.Sound K) (hcurrent : m.current = m.globals) {steps : List HostStep}
    (hsteps : ∀ step ∈ steps, step.Plain) : m.Grows K (m.performAll steps) := by
  induction steps generalizing K m with
  | nil => exact ⟨K, h, fun _ _ => id, .refl _⟩
  | cons step steps ih =>
    obtain ⟨hstep, hsteps⟩ := List.forall_mem_cons.1 hsteps
    obtain ⟨K₁, h₁, hK₁, hext₁⟩ := h.perform hcurrent hstep
    have hplace := m.place_perform step
    simp only [place, Prod.mk.injEq] at hplace
    obtain ⟨K₂, h₂, hK₂, hext₂⟩ := ih h₁ (hplace.1.trans (hcurrent.trans hplace.2.symm)) hsteps
    exact ⟨K₂, h₂, fun n c hc => hK₂ n c (hK₁ n c hc), hext₁.trans hext₂⟩

theorem sound_initial (clock : Clock) : Sound (fun _ => none) (initial clock) := by
  have hempty : (Scopes.empty.add none .empty).Rooted 0 := by
    refine ⟨Nat.zero_lt_one, rfl, fun i hi hne => ?_⟩
    exact absurd (Nat.lt_one_iff.1 hi) hne
  have hnative :
      Sound (fun _ => none) { initial clock with scopes := Scopes.empty.add none .empty } := by
    refine ⟨hempty, fun {i x v} hv => ?_, (fun hv => by cases hv), nofun⟩
    rw [Scopes.local?_add] at hv
    split at hv <;> cases hv
  exact hnative.define (v := .native ⟨0, "clock", 0, .clock⟩) trivial 0 "clock"

end Machine

/-! ## What can be reached -/

/-- The scopes and values to which there is a way from the active scope or the globals. -/
inductive Machine.Reaches (m : Machine) : ScopeId ⊕ Value → Prop where
  | current : Reaches m (.inl m.current)
  | globals : Reaches m (.inl m.globals)
  | parent {i p : ScopeId} : Reaches m (.inl i) → m.scopes.parent? i = some p → Reaches m (.inl p)
  | binding {i : ScopeId} {x : String} {v : Value} : Reaches m (.inl i) →
      m.scopes.local? i x = some v → Reaches m (.inr v)
  | closure {f : Closure} : Reaches m (.inr (.function f)) → Reaches m (.inl f.scope)
  | field {i : Instance} {x : String} {v : Value} : Reaches m (.inr (.inst i)) →
      (m.fieldsOf i).get? x = some v → Reaches m (.inr v)
  | cls {i : Instance} : Reaches m (.inr (.inst i)) → Reaches m (.inr (.cls i.cls))
  | superclass {c d : Class} : Reaches m (.inr (.cls c)) → c.superclass? = some d →
      Reaches m (.inr (.cls d))
  | method {c : Class} {x : String} {f : Closure} : Reaches m (.inr (.cls c)) →
      c.own.methods.get? x = some f → Reaches m (.inr (.function f))

theorem Machine.Sound.reaches {K : Registry} {m : Machine} (h : m.Sound K)
    (hcurrent : m.current = m.globals) {p : ScopeId ⊕ Value} (hp : m.Reaches p) :
    p.elim (· < m.scopes.next) (Value.Sound K m.scopes.next) := by
  induction hp with
  | current => exact hcurrent ▸ h.rooted.lt_next
  | globals => exact h.rooted.lt_next
  | parent _ hp ih => exact Nat.lt_trans (h.rooted.parent_lt hp) ih
  | binding _ hv _ => exact h.stored hv
  | closure _ ih => exact ih
  | field _ hv _ => exact h.field hv
  | cls _ ih => exact ih
  | superclass _ hd ih => exact Class.Sound.superclass ih hd
  | method _ hf ih => exact Class.Sound.closed ih _ (Class.mem_lineage_self _) _ _ hf

/-- The scopes met on the way outwards from a scope. The way ends at the globals, and no scope is
met twice since each is older than the one before. -/
structure Machine.ScopeChain (m : Machine) (i : ScopeId) (l : List ScopeId) : Prop where
  walk : Walk m.scopes.parent? i l
  older : l.Pairwise (· > ·)
  root : l.getLast? = some m.globals
  ancestor : ∀ d, m.scopes.ancestor? i d = l[d]?

/-- The classes met on the way from a class to its superclasses. Methods are looked for along that
way. -/
structure Class.Chain (c : Class) (l : List Class) : Prop where
  walk : Walk superclass? c l
  older : (l.map fun d => d.own.id).Pairwise (· > ·)
  method : ∀ x, c.method? x = l.findSome? fun d => d.own.methods.get? x

theorem Machine.Sound.scopeChain {K : Registry} {m : Machine} (h : m.Sound K) {i : ScopeId}
    (hi : i < m.scopes.next) : m.ScopeChain i (m.scopes.path i) :=
  have hwalk := h.rooted.walk_path i
  ⟨hwalk, hwalk.pairwise fun _ _ hp => h.rooted.parent_lt hp, h.rooted.getLast?_eq hwalk hi,
    Scopes.ancestor?_eq_getElem? hwalk⟩

theorem Class.Sound.chain {K : Registry} {next : Nat} {c : Class} (h : c.Sound K next) :
    c.Chain c.lineage :=
  ⟨c.walk_lineage, h.older, c.method?_eq_findSome?⟩

/-- **Scope chains and class chains end.** No evaluation changes the parent of a scope that is
there. After any steps of a host that gives no objects of its own, the way outwards from each scope
that was made, whether it can still be reached or not, is finite, has no cycle and ends at the
globals, and the way from each class that can be reached to its superclasses is finite and has no
cycle. After any further steps the way from the scope is the same, and so is the class with that
identity. -/
theorem chains_end :
    (∀ (bound depth : Nat) (m : Machine) (i : ScopeId), i < m.scopes.next →
      (∀ e, ((eval bound depth e).after m).scopes.parent? i = m.scopes.parent? i) ∧
      (∀ s, ((exec bound depth s).after m).scopes.parent? i = m.scopes.parent? i) ∧
      ∀ v args, ((call bound depth v args).after m).scopes.parent? i = m.scopes.parent? i) ∧
    ∀ (clock : Clock) (before after : List HostStep), (∀ step ∈ before ++ after, step.Plain) →
      let m := (Machine.initial clock).performAll before
      let m' := m.performAll after
      (∀ i, m.Reaches (.inl i) → i < m.scopes.next) ∧
      (∀ i < m.scopes.next, m.ScopeChain i (m.scopes.path i) ∧ m'.scopes.path i = m.scopes.path i) ∧
      ∀ c, m.Reaches (.inr (.cls c)) → c.Chain c.lineage ∧
        ∀ d, m'.Reaches (.inr (.cls d)) → d.own.id = c.own.id → d = c := by
  refine ⟨fun bound depth m i hi => ?_, fun clock before after hplain => ?_⟩
  · have hrestores := Restoring.of_depth bound depth
    exact ⟨fun e => (hrestores.eval e m).scopes.parent i hi,
      fun s => (hrestores.exec s m).scopes.parent i hi,
      fun v args => (hrestores.call v args m).scopes.parent i hi⟩
  · intro m m'
    obtain ⟨hbefore, hafter⟩ := List.forall_mem_append.1 hplain
    have hcurrent : ∀ steps, ((Machine.initial clock).performAll steps).current =
        ((Machine.initial clock).performAll steps).globals := fun steps =>
      have hplace := (Machine.initial clock).place_performAll steps
      (congrArg Prod.fst hplace).trans (congrArg Prod.snd hplace).symm
    obtain ⟨K, h, -, -⟩ := (Machine.sound_initial clock).performAll rfl hbefore
    obtain ⟨K', h', hK, hext⟩ := h.performAll (hcurrent before) hafter
    have hcurrent' : m'.current = m'.globals := by
      have := hcurrent (before ++ after)
      rwa [Machine.performAll, List.foldl_append] at this
    refine ⟨fun i hi => h.reaches (hcurrent before) hi,
      fun i hi => ⟨h.scopeChain hi, hext.outward_eq h.rooted hi _⟩, fun c hc => ?_⟩
    · have hsound : c.Sound K m.scopes.next := h.reaches (hcurrent before) hc
      refine ⟨hsound.chain, fun d hd hid => ?_⟩
      have hsound' : d.Sound K' m'.scopes.next := h'.reaches hcurrent' hd
      have hknown := hK _ c (hsound.known c c.mem_lineage_self)
      rw [← hid, hsound'.known d d.mem_lineage_self] at hknown
      exact Option.some.inj hknown

/-- The name of a class is bound to a class that inherits from the old one, and then so is that of
its superclass. -/
def redeclared : List HostStep := [
  .run ⟨20, 5⟩ "class A {} class B < A {}",
  .run ⟨20, 5⟩ "class A < B {}"]

def Value.ancestry : Value → List String
  | .cls c => c.lineage.map Class.name
  | _ => []

theorem Value.cls_of_ancestry {o : Option Value} {x : String} {xs : List String}
    (h : o.map ancestry = some (x :: xs)) : ∃ c, o = some (.cls c) := by
  obtain ⟨v, rfl, hv⟩ := Option.map_eq_some_iff.1 h
  cases v with
  | cls c => exact ⟨c, rfl⟩
  | _ => cases hv

theorem chains_end_redeclared :
    let m := (Machine.initial (.still 0)).performAll redeclared
    let m' := m.performAll [.run ⟨20, 5⟩ "class B < A \x7b\x7d"]
    (∀ step ∈ redeclared ++ [.run ⟨20, 5⟩ "class B < A \x7b\x7d"], step.Plain) ∧
      (m'.global? "B").map Value.ancestry = some ["B", "A", "B", "A"] ∧
      ∃ c d, m.global? "A" = some (.cls c) ∧ c.Chain c.lineage ∧
        m'.global? "A" = some (.cls d) ∧ d = c := by
  intro m m'
  have hplain : ∀ step ∈ redeclared ++ [.run ⟨20, 5⟩ "class B < A \x7b\x7d"], step.Plain := by
    simp [redeclared, HostStep.Plain]
  have hchains :=
    ((chains_end.2 (.still 0) redeclared [.run ⟨20, 5⟩ "class B < A \x7b\x7d"]) hplain).2.2
  have hclass : (m.global? "A").map Value.ancestry = some ["A", "B", "A"] := by decide +kernel
  have hclass' : (m'.global? "A").map Value.ancestry = some ["A", "B", "A"] := by decide +kernel
  have hsame :
      (m.global? "A").elim false (fun v => (m'.global? "A").elim false v.equal) = true := by
    decide +kernel
  refine ⟨hplain, by decide +kernel, ?_⟩
  obtain ⟨c, hc⟩ := Value.cls_of_ancestry hclass
  obtain ⟨d, hd⟩ := Value.cls_of_ancestry hclass'
  rw [hc, hd] at hsame
  obtain ⟨hchain, hkept⟩ := hchains c (.binding .globals hc)
  exact ⟨c, d, hc, hchain, hd, hkept d (.binding .globals hd) (beq_iff_eq.1 hsame).symm⟩

end Lox
