import Lox.Proofs.Activity

/-!
# The names that scopes bind

Evaluation binds a name by distance whether or not it is bound there. That no name gets into a scope
where it does not belong rests on resolution: the static scopes around a piece of program tell which
names the scopes around its place bind (`Sees`). `NameSpec.invariant` keeps this up, and restricts
some of the scopes: whatever is executed, these get no names but the allowed ones (`NameSpec.laws`).
-/

namespace Lox

/-! ## Static scopes and scopes -/

/-- The static scopes `Γ` describe what is around a scope: each complete name is bound, in those
scopes that are to be `full`. A name whose declaration is not complete may be bound or not. -/
inductive Sees (full : ScopeId → Prop) (s : Scopes) : Static → ScopeId → Prop where
  | globals : Sees full s [] 0
  | enter {scope : Bindings Bool} {Γ : Static} {i p : ScopeId} : s.parent? i = some p →
      Sees full s Γ p → (full i → ∀ x, scope.get? x = some true → (s.local? i x).isSome) →
      Sees full s (scope :: Γ) i

namespace Sees

variable {full full' : ScopeId → Prop} {s s' : Scopes} {Γ : Static} {i : ScopeId}

theorem mono (h : Sees full s Γ i) (hs : s.Extends s') (hfull : ∀ j, full' j → full j) :
    Sees full' s' Γ i := by
  induction h with
  | globals => exact .globals
  | enter hp _ hnames ih =>
    refine .enter ((hs.parent _ (Scopes.lt_next_of_parent? hp)).trans hp) ih fun hi x hx => ?_
    exact hs.bound _ _ (hnames (hfull _ hi) x hx)

/-- A name that has a distance is declared in the scope there. -/
theorem found (h : Sees full s Γ i) {x : String} {d : Nat} (hd : Γ.distance? x = some d) :
    ∃ j scope, s.ancestor? i d = some j ∧ Γ[d]? = some scope ∧ (scope.get? x).isSome ∧
      (full j → ∀ y, scope.get? y = some true → (s.local? j y).isSome) := by
  induction h generalizing d with
  | globals => cases hd
  | @enter scope Γ i p hp _ hnames ih =>
    by_cases hx : (scope.get? x).isSome
    · rw [Static.distance?_cons_of_some hx] at hd
      cases hd
      exact ⟨i, scope, rfl, rfl, hx, hnames⟩
    · rw [Static.distance?_cons_of_none (Option.not_isSome_iff_eq_none.1 hx)] at hd
      obtain ⟨k, hk, rfl⟩ := Option.map_eq_some_iff.1 hd
      obtain ⟨j, scope', hj, hscope, hrest⟩ := ih hk
      refine ⟨j, scope', ?_, hscope, hrest⟩
      rw [Scopes.ancestor?, hp]
      exact hj

/-- Beginning a declaration asks for nothing. -/
theorem declare (h : Sees full s Γ i) (name : Token) : Sees full s (Γ.declare name) i := by
  cases h with
  | globals => exact .globals
  | enter hp hrest hnames =>
    refine .enter hp hrest fun hi x hx => ?_
    rw [Bindings.get?_set] at hx
    split at hx
    · cases hx
    · exact hnames hi x hx

/-- Binding the name completes its declaration. -/
theorem define (h : Sees full s Γ i) (name : Token) (v : Value) :
    Sees full (s.define i name.lexeme v) (Γ.extend name) i := by
  have hmono := h.mono (.define s i name.lexeme v) fun _ => id
  cases hmono with
  | globals => exact .globals
  | enter hp hrest hnames =>
    rw [Static.extend_cons]
    refine .enter hp hrest fun hi x hx => ?_
    rw [Bindings.get?_set] at hx
    split at hx
    · rename_i heq
      have hlt := Scopes.lt_next_of_parent? hp
      rw [Scopes.next_define] at hlt
      rw [heq, Scopes.local?_define_self hlt]
      rfl
    · exact hnames hi x hx

/-- A new scope inside of what is described. -/
theorem add (h : Sees full s Γ i) {b : Bindings Value} {scope : Bindings Bool}
    (hb : full s.next → ∀ x, scope.get? x = some true → (b.get? x).isSome) :
    Sees full (s.add (some i) b) (scope :: Γ) s.next := by
  refine .enter ?_ (h.mono (.add s (some i) b) fun _ => id) fun hfull x hx => ?_
  · rw [Scopes.parent?_add, if_pos rfl]
  · rw [Scopes.local?_add, if_pos rfl]
    exact hb hfull x hx

end Sees

/-! ## Parameters -/

/-- Declaring parameters completes no names but theirs. -/
theorem Static.get?_extendAll (scope : Bindings Bool) (Γ : Static) (params : List Token) :
    ∃ scope', Static.extendAll (scope :: Γ) params = scope' :: Γ ∧
      ∀ x, scope'.get? x = some true → scope.get? x = some true ∨ x ∈ params.map Token.lexeme := by
  induction params generalizing scope with
  | nil => exact ⟨scope, rfl, fun x hx => .inl hx⟩
  | cons p ps ih =>
    obtain ⟨scope', heq, hnames⟩ := ih (scope.set p.lexeme true)
    refine ⟨scope', ?_, fun x hx => ?_⟩
    · rw [Static.extendAll, List.foldl_cons, Static.extend_cons]
      exact heq
    · rw [List.map_cons, List.mem_cons]
      rcases hnames x hx with h | h
      · rw [Bindings.get?_set] at h
        split at h
        · rename_i heq
          exact .inr (.inl heq)
        · exact .inl h
      · exact .inr (.inr h)

/-- A name is bound that was bound before, or for which there is a value. -/
theorem Bindings.isSome_get?_setAll {α : Type} {xs : List String} {vs : List α}
    (hlen : vs.length = xs.length) {b : Bindings α} {x : String} (hx : (b.get? x).isSome ∨ x ∈ xs) :
    ((b.setAll xs vs).get? x).isSome := by
  induction xs generalizing b vs with
  | nil => exact hx.resolve_right List.not_mem_nil
  | cons y ys ih =>
    cases vs with
    | nil => cases hlen
    | cons v vs =>
      refine ih (Nat.succ.inj hlen) ?_
      rw [get?_set]
      rcases hx with hx | hx
      · left
        split
        · rfl
        · exact hx
      · rcases List.mem_cons.1 hx with rfl | hx
        · left
          rw [if_pos rfl]
          rfl
        · exact .inr hx

/-! ## Values and machines -/

/-- A function is closed over a scope that its resolution fits; `around` comes in between when it is
called. -/
def Closure.WellScoped (T : SiteTable) (full : ScopeId → Prop) (s : Scopes) (around : Static)
    (f : Closure) : Prop :=
  ∃ Γ, Γ.Complete ∧ Sees full s Γ f.scope ∧ Stmt.FunctionResolved T (around ++ Γ) f.decl

/-- Methods find `this` between the scope they are closed over and their own. -/
def Class.WellScoped (T : SiteTable) (full : ScopeId → Prop) (s : Scopes) (c : Class) : Prop :=
  ∀ layer ∈ c.layers, ∀ x f, layer.methods.get? x = some f →
    f.WellScoped T full s [Static.single "this"]

def Value.WellScoped (T : SiteTable) (full : ScopeId → Prop) (s : Scopes) : Value → Prop
  | .function f => f.WellScoped T full s []
  | .cls c => c.WellScoped T full s
  | .inst i => i.cls.WellScoped T full s
  | _ => True

section

variable {T T' : SiteTable} {full full' : ScopeId → Prop} {s s' : Scopes}

theorem Closure.WellScoped.mono {around : Static} {f : Closure} (h : f.WellScoped T full s around)
    (hT : ∀ site o, T site o → T' site o) (hs : s.Extends s') (hfull : ∀ j, full' j → full j) :
    f.WellScoped T' full' s' around := by
  obtain ⟨Γ, hΓ, hsees, hdecl⟩ := h
  exact ⟨Γ, hΓ, hsees.mono hs hfull, hdecl.mono hT⟩

theorem Value.WellScoped.mono {v : Value} (h : v.WellScoped T full s)
    (hT : ∀ site o, T site o → T' site o) (hs : s.Extends s') (hfull : ∀ j, full' j → full j) :
    v.WellScoped T' full' s' := by
  cases v with
  | function f => exact Closure.WellScoped.mono h hT hs hfull
  | cls c => exact fun layer hl x f hf => (h layer hl x f hf).mono hT hs hfull
  | inst i => exact fun layer hl x f hf => (h layer hl x f hf).mono hT hs hfull
  | _ => trivial

/-- As long as only scopes change. -/
theorem Value.WellScoped.grow {v : Value} (h : v.WellScoped T full s) (hs : s.Extends s') :
    v.WellScoped T full s' :=
  h.mono (fun _ _ => id) hs fun _ => id

theorem Value.IsPlain.wellScoped {v : Value} (h : v.IsPlain) (T : SiteTable) (full : ScopeId → Prop)
    (s : Scopes) :
    v.WellScoped T full s := by
  cases v with
  | function f => exact h.elim
  | cls c => exact h.elim
  | inst i => exact h.elim
  | _ => trivial

theorem Class.WellScoped.method {c : Class} (h : c.WellScoped T full s) {x : String} {f : Closure}
    (hf : c.method? x = some f) :
    f.WellScoped T full s [Static.single "this"] := by
  obtain ⟨layer, hlayer, hget⟩ := List.exists_of_findSome?_eq_some hf
  exact h layer hlayer x f hget

end

/-- What is restricted: some scopes are `kept`, and get no names but the `allowed` ones. -/
structure NameSpec where
  table : SiteTable
  full : ScopeId → Prop
  kept : ScopeId → Prop
  allowed : String → Prop

/-- The table holds the distances of all programs that functions are part of, and what is stored is
well scoped. -/
structure Machine.WellScoped (W : NameSpec) (m : Machine) : Prop where
  table : ∀ site o, W.table site o → m.distances.find? site = o
  globals : m.globals = 0
  next : 0 < m.scopes.next
  root : m.scopes.parent? 0 = none
  stored : ∀ {i x v}, m.scopes.local? i x = some v → v.WellScoped W.table W.full m.scopes
  field : ∀ {i x v}, (m.fieldsOf i).get? x = some v → v.WellScoped W.table W.full m.scopes
  kept : ∀ j, W.kept j → j < m.scopes.next

namespace Machine.WellScoped

variable {W : NameSpec} {m : Machine}

/-- Scopes may grow if what is bound anew is well scoped. -/
theorem grow (h : m.WellScoped W) {s : Scopes} (hs : m.scopes.Extends s)
    (hnew : ∀ {i x v}, s.local? i x = some v → m.scopes.local? i x = some v ∨
      v.WellScoped W.table W.full s) (nextId : Nat) :
    WellScoped W { m with scopes := s, nextId } where
  table := h.table
  globals := h.globals
  next := Nat.lt_of_lt_of_le h.next hs.next
  root := (hs.parent 0 h.next).trans h.root
  stored hv := (hnew hv).elim (fun hv => (h.stored hv).grow hs) id
  field hv := (h.field hv).grow hs
  kept j hj := Nat.lt_of_lt_of_le (h.kept j hj) hs.next

theorem setField (h : m.WellScoped W) {v : Value} (hv : v.WellScoped W.table W.full m.scopes)
    (i : Nat) (x : String) :
    WellScoped W { m with fields := m.fields.modify i (·.set x v) } :=
  ⟨h.table, h.globals, h.next, h.root, h.stored, fun hw => (of_field_set hw).elim (· ▸ hv) h.field,
    h.kept⟩

theorem newInstance (h : m.WellScoped W) : WellScoped W { m with fields := m.fields.push .empty } :=
  ⟨h.table, h.globals, h.next, h.root, h.stored, fun hw => h.field (m.fieldsOf_push _ ▸ hw), h.kept⟩

end Machine.WellScoped

/-! ## The invariant -/

namespace NameSpec

/-- Code is executed where its static scopes say. The second part of a context tells whether the
place may be one of the scopes that are restricted; there only allowed names may be declared. -/
def invariant (W : NameSpec) : Invariant Unit (Static × Bool) where
  inv _ m := m.WellScoped W
  moves _ s _ s' := ∀ j x, W.kept j → (s'.local? j x).isSome → (s.local? j x).isSome ∨ W.allowed x
  value _ s v := v.WellScoped W.table W.full s
  loose _ s := ∀ i, s.next ≤ i → ¬ W.full i
  place c _ s i := Sees W.full s c.1 i ∧ (W.kept i → c.2 = true)
  expr c e := e.Resolved W.table c.1 ∧ c.1.Settled ∧
    (c.2 = true → ∀ scope ∈ c.1.head?, ∀ x, scope.get? x = some false → W.allowed x)
  stmt c s := (∃ inside, s.Resolved W.table inside c.1) ∧ c.1.Complete ∧
    (c.2 = true → ∀ t, s.declared? = some t → W.allowed t.lexeme)
  after c s := (c.1.after s, c.2)

variable {W : NameSpec} {m : Machine} {Γ : Static} {inside restricted : Bool}

theorem stmts_of_resolved (hΓ : Γ.Complete) {ss : List Stmt}
    (hss : Stmt.AllResolved W.table inside Γ ss) (hallowed : restricted = true →
    ∀ s ∈ ss, ∀ t, s.declared? = some t → W.allowed t.lexeme) :
    W.invariant.stmts (Γ, restricted) ss := by
  induction ss generalizing Γ with
  | nil => trivial
  | cons s ss ih =>
    refine ⟨⟨⟨inside, hss.1⟩, hΓ, fun h => hallowed h s List.mem_cons_self⟩, ?_⟩
    exact ih (hΓ.after s) hss.2 fun h s' hs' => hallowed h s' (List.mem_cons_of_mem _ hs')

/-- A step that binds no name in a scope that was there. -/
theorem moves_add (s : Scopes) (p : Option ScopeId) (b : Bindings Value)
    (h : ∀ j, W.kept j → j < s.next) :
    W.invariant.moves () s () (s.add p b) := by
  intro j x hj hx
  rw [Scopes.local?_add, if_neg (Nat.ne_of_lt (h j hj))] at hx
  exact .inl hx

/-- A step that binds one name. -/
theorem moves_define (s : Scopes) {i : ScopeId} {x : String} (v : Value)
    (h : W.kept i → (s.local? i x).isSome ∨ W.allowed x) :
    W.invariant.moves () s () (s.define i x v) := by
  intro j y hj hy
  by_cases hne : i ≠ j ∨ x ≠ y
  · rw [Scopes.local?_define_of_ne s i j x y v hne] at hy
    exact .inl hy
  · obtain ⟨rfl, rfl⟩ : i = j ∧ x = y := by grind
    exact h hj

theorem step_refl (h : m.WellScoped W) : W.invariant.Step () m () m :=
  ⟨h, .refl m, fun _ _ _ => .inl⟩

theorem newScope (h : m.WellScoped W) {i : ScopeId} (hi : Sees W.full m.scopes Γ i)
    {b : Bindings Value} (hb : ∀ x v, b.get? x = some v → v.WellScoped W.table W.full m.scopes)
    {scope : Bindings Bool} (hnames : W.full m.scopes.next → ∀ x, scope.get? x = some true →
    (b.get? x).isSome) :
    W.invariant.Preserves () m (Exec.newScope i b) fun _ s j =>
      W.invariant.place (scope :: Γ, false) () s j := by
  have hext := Scopes.Extends.add m.scopes (some i) b
  refine .ok ⟨h.grow hext (fun hv => ?_) m.nextId, Exec.Restores.newScope i b m,
    moves_add _ _ _ h.kept⟩ ⟨hi.add hnames, fun hkept => absurd (h.kept _ hkept) (Nat.lt_irrefl _)⟩
  exact (Scopes.of_local?_add hv).symm.imp_right fun hv => (hb _ _ hv).grow hext

/-- Binding a name where it is bound or allowed. -/
theorem defineAt (h : m.WellScoped W) {i : ScopeId} {x : String} {v : Value}
    (hv : v.WellScoped W.table W.full (m.scopes.define i x v))
    (hi : W.kept i → (m.scopes.local? i x).isSome ∨ W.allowed x) :
    W.invariant.Step () m () { m with scopes := m.scopes.define i x v } := by
  have hext := Scopes.Extends.define m.scopes i x v
  refine ⟨h.grow hext (fun hw => ?_) m.nextId, .store m hext _ _, moves_define _ _ hi⟩
  rcases Scopes.of_local?_define hw with rfl | hw
  · exact .inr hv
  · exact .inl hw

theorem assign (h : m.WellScoped W) {t : Token} {e : Expr}
    (hplace : W.invariant.place (Γ, restricted) () m.scopes m.current)
    (he : W.invariant.expr (Γ, restricted) (.assign t e)) {v : Value}
    (hv : v.WellScoped W.table W.full m.scopes)
    (hfull : ∀ j, W.kept j → W.full j) : W.invariant.Preserves () m (Exec.assign t v) fun _ _ _ =>
    True := by
  obtain ⟨⟨-, -, hfinds⟩, hsettled, hallowed⟩ := he
  have hv := fun j => hv.grow (.define m.scopes j t.lexeme v)
  have hsite := h.table _ _ hfinds
  unfold Invariant.Preserves
  cases hd : Γ.distance? t.lexeme with
  | none =>
    have hbinder : m.scopes.binder? m.globals t.lexeme =
        if (m.scopes.local? 0 t.lexeme).isSome then some 0 else none := by
      rw [h.globals]
      exact Scopes.binder?_root h.root _
    rw [Exec.assign_of_none v (hsite.trans hd), hbinder]
    split
    · rename_i hbound
      exact .ok (defineAt h (hv 0) fun _ => .inl hbound) trivial
    · exact .error (step_refl h) nofun
  | some d =>
    obtain ⟨j, scope, hj, hscope, hx, hnames⟩ := hplace.1.found hd
    rw [Exec.assign_of_some v (hsite.trans hd) hj]
    refine .ok (defineAt h (hv j) fun hkept => ?_) trivial
    obtain ⟨flag, hflag⟩ := Option.isSome_iff_exists.1 hx
    cases flag with
    | true => exact .inl (hnames (hfull j hkept) _ hflag)
    | false =>
      -- Only the innermost scope has a name whose initializer is being read, and it is the active
      -- one.
      right
      cases d with
      | zero =>
        cases hj
        refine hallowed (hplace.2 hkept) scope ?_ _ hflag
        rwa [← List.head?_eq_getElem?] at hscope
      | succ d =>
        rw [← List.getElem?_tail] at hscope
        exact absurd hflag (hsettled scope (List.mem_of_getElem? hscope) t.lexeme)

/-- A new identity changes nothing that is restricted. -/
theorem step_nextId (h : m.WellScoped W) (n : Nat) :
    W.invariant.Step () m () { m with nextId := m.nextId + n } :=
  ⟨h.grow (.refl _) .inl _, .store m (.refl _) _ _, fun _ _ _ => .inl⟩

theorem moves_trans {s s' s'' : Scopes} (h : W.invariant.moves () s () s')
    (h' : W.invariant.moves () s' () s'') :
    W.invariant.moves () s () s'' := fun j x hj hx => (h' j x hj hx).elim (h j x hj) .inr

theorem wellScoped_single {T : SiteTable} {full : ScopeId → Prop} {s : Scopes} {x : String}
    {v : Value} (hv : v.WellScoped T full s) : ∀ y w, (Bindings.empty.set x v).get? y = some w →
    w.WellScoped T full s := by
  intro y w hw
  rw [Bindings.get?_set] at hw
  split at hw
  · cases hw
    exact hv
  · cases hw

theorem isSome_single {x : String} {v : Value} :
    ∀ y, (Static.single x).get? y = some true → ((Bindings.empty.set x v).get? y).isSome := by
  intro y hy
  rw [Static.single, Bindings.get?_set] at hy
  rw [Bindings.get?_set]
  split at hy
  · rename_i heq
    rw [if_pos heq]
    rfl
  · cases hy

theorem newClosure (h : m.WellScoped W) (decl : FunDecl) (i : ScopeId) (isInitializer : Bool) :
    W.invariant.Preserves () m (Exec.newClosure decl i isInitializer) fun _ s f =>
      s = m.scopes ∧ f.decl = decl ∧ f.scope = i :=
  .ok (step_nextId h 1) ⟨rfl, rfl, rfl⟩

theorem bindMethod (h : m.WellScoped W) {f : Closure}
    (hf : f.WellScoped W.table W.full m.scopes [Static.single "this"]) {this : Value}
    (hthis : this.WellScoped W.table W.full m.scopes) :
    W.invariant.Preserves () m (Exec.bindMethod f this) fun _ s g =>
      g.WellScoped W.table W.full s [] ∧ g.decl = f.decl := by
  obtain ⟨Γ, hΓ, hsees, hdecl⟩ := hf
  refine (newScope h hsees (wellScoped_single hthis) fun _ => isSome_single).bind_of_trans
    moves_trans fun hs hplace => ?_
  refine (newClosure hs.inv _ _ _).imp fun _ s g hg => ?_
  obtain ⟨rfl, hd, hi⟩ := hg
  exact ⟨⟨_, hΓ.cons (Static.single_ne_false "this"), hi ▸ hplace.1, hd ▸ hdecl⟩, hd⟩

/-- A declared name is bound, where its declaration began or is complete. -/
theorem declare (h : m.WellScoped W) {s : Stmt} {t : Token}
    (hs : W.invariant.stmt (Γ, restricted) s) (ht : s.declared? = some t)
    (hplace : W.invariant.place (Γ, restricted) () m.scopes m.current ∨
      W.invariant.place (W.invariant.after (Γ, restricted) s) () m.scopes m.current) {v : Value}
    (hv : v.WellScoped W.table W.full m.scopes) :
    W.invariant.Preserves () m (Exec.define t.lexeme v) fun _ s' _ =>
      W.invariant.place (W.invariant.after (Γ, restricted) s) () s' m.current := by
  have hext := Scopes.Extends.define m.scopes m.current t.lexeme v
  have hrestricted : W.kept m.current → restricted = true := hplace.elim (·.2) (·.2)
  refine .ok (defineAt h (hv.grow hext) fun hkept => .inr (hs.2.2 (hrestricted hkept) t ht))
    ⟨?_, hrestricted⟩
  show Sees W.full (m.scopes.define m.current t.lexeme v) (Γ.after s) m.current
  rcases hplace with hplace | hplace
  · rw [Γ.after_of_declared ht]
    exact hplace.1.define t v
  · exact hplace.1.mono hext fun _ => id

theorem newFunction (h : m.WellScoped W) {decl : FunDecl}
    (hs : W.invariant.stmt (Γ, restricted) (.funDecl decl))
    (hplace : W.invariant.place (Γ, restricted) () m.scopes m.current) :
    W.invariant.Preserves () m (Exec.newClosure decl m.current false >>=
      fun f => Exec.define decl.name.lexeme (.function f))
      fun _ s' _ =>
        W.invariant.place (W.invariant.after (Γ, restricted) (.funDecl decl)) () s' m.current := by
  obtain ⟨⟨inside, -, hdecl⟩, hΓ, hallowed⟩ := hs
  let f : Closure := ⟨m.nextId, decl, m.current, false⟩
  have hsees := hplace.1.define decl.name (.function f)
  have hf : Value.WellScoped W.table W.full
      (m.scopes.define m.current decl.name.lexeme (.function f)) (.function f) :=
    ⟨_, hΓ.extend decl.name, hsees, hdecl⟩
  have hid := step_nextId h 1
  have hdefine := defineAt hid.inv hf fun hkept => .inr (hallowed (hplace.2 hkept) decl.name rfl)
  exact .ok ⟨hdefine.inv, hid.keeps.trans hdefine.keeps, hdefine.moves⟩ ⟨hsees, hplace.2⟩

theorem newClass (h : m.WellScoped W) (name : String) {parent : Option Class}
    (hparent : ∀ d, parent = some d → d.WellScoped W.table W.full m.scopes) {methods : List FunDecl}
    {scope : ScopeId}
    (hΓ : Γ.Complete) (hscope : Sees W.full m.scopes Γ scope)
    (hmethods : Stmt.MethodsResolved W.table (Static.single "this" :: Γ) methods) :
    W.invariant.Preserves () m (Exec.newClass name parent methods scope) fun _ s c =>
      c.WellScoped W.table W.full s := by
  obtain ⟨b, hb, heq⟩ := Exec.newClass_eq name parent methods scope m
  unfold Invariant.Preserves
  rw [heq]
  refine .ok (step_nextId h (methods.length + 1)) fun layer hlayer x f hf => ?_
  rcases List.mem_cons.1 hlayer with rfl | hlayer
  · obtain ⟨hi, hdecl, -⟩ := hb x f hf
    exact ⟨Γ, hΓ, hi ▸ hscope, hmethods.mem hdecl⟩
  · cases parent with
    | none => cases hlayer
    | some d => exact hparent d rfl layer hlayer x f hf

/-- Methods of a subclass find `super` in a scope of its own. -/
theorem newSubclass (h : m.WellScoped W) (name : String) {parent : Class}
    (hparent : parent.WellScoped W.table W.full m.scopes) {methods : List FunDecl} {scope : ScopeId}
    (hΓ : Γ.Complete) (hscope : Sees W.full m.scopes Γ scope)
    (hmethods : Stmt.MethodsResolved W.table
      (Static.single "this" :: Static.single "super" :: Γ) methods) :
    W.invariant.Preserves () m
      (Exec.newScope scope (Bindings.empty.set "super" (.cls parent)) >>=
        fun scope => Exec.newClass name (some parent) methods scope)
      fun _ s c => c.WellScoped W.table W.full s := by
  have hsuper : Value.WellScoped W.table W.full m.scopes (.cls parent) := hparent
  refine (newScope h hscope (wellScoped_single hsuper) fun _ => isSome_single).bind_of_trans
    moves_trans fun hs hplace => ?_
  refine newClass hs.inv name (fun d hd => ?_) (hΓ.cons (Static.single_ne_false "super"))
    hplace.1 hmethods
  cases hd
  exact hsuper.grow hs.keeps.scopes

/-- A call binds all parameters, unless it is one that the invariant allows to pass any number of
arguments. -/
theorem enter (h : m.WellScoped W) {f : Closure} (hf : f.WellScoped W.table W.full m.scopes [])
    {args : List Value} (hargs : ∀ v ∈ args, v.WellScoped W.table W.full m.scopes)
    (hcount : W.invariant.loose () m.scopes ∨ args.length = f.arity) :
    W.invariant.Preserves () m
      (Exec.newScope f.scope (Bindings.empty.setAll (f.decl.params.map Token.lexeme) args))
      fun w' s' i => ∃ c', W.invariant.stmts c' f.decl.body ∧ W.invariant.place c' w' s' i := by
  obtain ⟨id, ⟨name, params, body⟩, scope, isInitializer⟩ := f
  obtain ⟨Γ, hΓ, hsees, -, hbody⟩ := hf
  have hempty : Static.Complete (.empty :: Γ) := hΓ.cons (by simp)
  have hcomplete := hempty.extendAll params
  obtain ⟨frame, hframe, hnames⟩ := Static.get?_extendAll .empty Γ params
  rw [List.nil_append, hframe] at hbody
  rw [hframe] at hcomplete
  have hvalues : ∀ x v, (Bindings.empty.setAll (params.map Token.lexeme) args).get? x = some v →
      v.WellScoped W.table W.full m.scopes := by
    intro x v hv
    rcases Bindings.mem_of_get?_setAll hv with hv | hv
    · cases hv
    · exact hargs v hv
  have hbound : W.full m.scopes.next → ∀ x, frame.get? x = some true →
      ((Bindings.empty.setAll (params.map Token.lexeme) args).get? x).isSome := by
    intro hfull x hx
    have hlen : args.length = params.length :=
      hcount.resolve_left fun hloose => hloose _ (Nat.le_refl _) hfull
    refine Bindings.isSome_get?_setAll (by rw [hlen, List.length_map]) (.inr ?_)
    exact (hnames x hx).resolve_left (by simp)
  refine (newScope h hsees hvalues hbound).imp fun _ _ i hplace => ?_
  exact ⟨(frame :: Γ, false), stmts_of_resolved hcomplete hbody nofun, hplace⟩

/-! ## Parts of resolved programs -/

theorem resolved_of_mem {T : SiteTable} {es : List Expr} (h : Expr.AllResolved T Γ es) {e : Expr}
    (he : e ∈ es) :
    e.Resolved T Γ := by
  induction es with
  | nil => cases he
  | cons e' es ih =>
    rcases List.mem_cons.1 he with rfl | he
    · exact h.1
    · exact ih h.2 he

theorem resolved_part {T : SiteTable} {e e' : Expr} (h : e.Resolved T Γ) (he' : e' ∈ e.parts) :
    e'.Resolved T Γ := by
  have hpair : ∀ {a b : Expr}, a.Resolved T Γ → b.Resolved T Γ → e' ∈ [a, b] → e'.Resolved T Γ := by
    intro a b ha hb hmem
    rcases List.mem_pair.1 hmem with rfl | rfl
    · exact ha
    · exact hb
  cases e with
  | call callee paren arguments =>
    rcases List.mem_cons.1 he' with rfl | he'
    · exact h.1
    · exact resolved_of_mem h.2 he'
  | binary left op right => exact hpair h.1 h.2.2 he'
  | logical left op right => exact hpair h.1 h.2 he'
  | set object name value => exact hpair h.1 h.2 he'
  | _ => simp_all [Expr.parts, Expr.Resolved]

theorem resolved_expr {T : SiteTable} {s : Stmt} {e : Expr} (h : s.Resolved T inside Γ)
    (he : e ∈ s.exprs) :
    e.Resolved T Γ := by
  cases s with
  | ifElse condition thenBranch elseBranch =>
    cases elseBranch <;> simp_all [Stmt.exprs, Stmt.Resolved]
  | ret keyword value => cases value <;> simp_all [Stmt.exprs, Stmt.Resolved, Expr.OptionResolved]
  | _ => simp_all [Stmt.exprs, Stmt.Resolved]

/-- Branches are no declarations. -/
theorem resolved_branch {T : SiteTable} {s b : Stmt} (h : s.Resolved T inside Γ)
    (hb : b ∈ s.branches) :
    b.Resolved T inside Γ ∧ b.declared? = none := by
  have hnone : ∀ b : Stmt, ¬ b.IsDeclaration → b.declared? = none :=
    fun _ => Stmt.declared?_of_not_isDeclaration
  cases s with
  | ifElse condition thenBranch elseBranch =>
    cases elseBranch with
    | none =>
      obtain ⟨-, hthen, hdecl⟩ := h
      cases List.mem_singleton.1 hb
      exact ⟨hthen, hnone _ hdecl⟩
    | some elseBranch =>
      obtain ⟨-, ⟨hthen, hdecl⟩, helse, hdecl'⟩ := h
      rcases List.mem_pair.1 hb with rfl | rfl
      · exact ⟨hthen, hnone _ hdecl⟩
      · exact ⟨helse, hnone _ hdecl'⟩
  | _ => simp_all [Stmt.branches, Stmt.Resolved]

/-- Where all declarations are complete, expressions bind no new names. -/
theorem expr_of_resolved (hΓ : Γ.Complete) {e : Expr} (he : e.Resolved W.table Γ) :
    W.invariant.expr (Γ, restricted) e :=
  ⟨he, hΓ.settled, fun _ scope hscope x hx => absurd hx (hΓ scope (List.mem_of_mem_head? hscope) x)⟩

theorem initializer {t : Token} {e : Expr}
    (hs : W.invariant.stmt (Γ, restricted) (.varDecl t (some e))) :
    W.invariant.expr (Γ.declare t, restricted) e := by
  obtain ⟨⟨inside, -, he⟩, hΓ, hallowed⟩ := hs
  refine ⟨he, hΓ.declare t, fun hrestricted scope hscope x hx => ?_⟩
  cases Γ with
  | nil => cases hscope
  | cons inner outer =>
    cases hscope
    rw [Bindings.get?_set] at hx
    split at hx
    · rename_i heq
      exact heq ▸ hallowed hrestricted t rfl
    · exact absurd hx (hΓ inner List.mem_cons_self x)

theorem block (h : m.WellScoped W) {body : List Stmt}
    (hplace : W.invariant.place (Γ, restricted) () m.scopes m.current)
    (hs : W.invariant.stmt (Γ, restricted) (.block body)) :
    W.invariant.Preserves () m (Exec.newScope m.current .empty) fun w' s' i =>
      ∃ c', W.invariant.stmts c' body ∧ W.invariant.place c' w' s' i := by
  obtain ⟨⟨inside, hbody⟩, hΓ, -⟩ := hs
  have hempty : Static.Complete (.empty :: Γ) := hΓ.cons (by simp)
  refine (newScope h hplace.1 (fun x v hv => by cases hv) fun _ x hx => ?_).imp fun _ _ i hplace =>
    ⟨(.empty :: Γ, false), stmts_of_resolved hempty hbody nofun, hplace⟩
  cases hx

/-- All that evaluation does keeps the invariant, if what is kept is also full. -/
theorem laws (hfull : ∀ j, W.kept j → W.full j) : W.invariant.Laws where
  refl _ _ _ _ _ := .inl
  trans := moves_trans
  value_mono _ hs hv := Value.WellScoped.grow hv hs
  place_mono _ hs hp := ⟨hp.1.mono hs fun _ => id, hp.2⟩
  loose_mono _ hs hloose i hi := hloose i (Nat.le_trans hs.next hi)
  frame h _ _ _ _ := ⟨h.table, h.globals, h.next, h.root, h.stored, h.field, h.kept⟩
  plain hv _ s := hv.wellScoped W.table W.full s
  cls := id
  stored h := h.stored
  field h := h.field
  setField h hv i x := Machine.WellScoped.setField h hv i x
  newInstance {_ m c} h hc :=
    have hs : W.invariant.Step () m () { m with fields := m.fields.push .empty } :=
      ⟨Machine.WellScoped.newInstance h, Exec.Restores.newInstance c m, fun _ _ _ => .inl⟩
    .ok hs hc
  suits_cls _ := trivial
  suits_super _ _ _ _ _ _ := trivial
  bindMethod h hc hf hthis _ := bindMethod h (Class.WellScoped.method hc hf) hthis
  parts he e' he' := ⟨resolved_part he.1 he', he.2⟩
  assign h hplace he hv := assign h hplace he hv hfull
  exprs hs e he := expr_of_resolved hs.2.1 (resolved_expr hs.1.choose_spec he)
  branches hs b hb := by
    obtain ⟨⟨inside, hs⟩, hΓ, -⟩ := hs
    obtain ⟨hb, hnone⟩ := resolved_branch hs hb
    exact ⟨⟨inside, hb⟩, hΓ, fun _ t ht => by cases hnone.symm.trans ht⟩
  after_eq := by
    rintro ⟨Γ, restricted⟩ s hs
    cases s with
    | varDecl name initializer => cases hs
    | funDecl decl => cases hs
    | classDecl name superclass methods => cases hs
    | _ => rfl
  block h hplace hs := block h hplace hs
  initializer hs := ⟨_, initializer hs, fun _ _ _ hp => ⟨hp.1.declare _, hp.2⟩⟩
  declare h hs ht hplace hv := declare h hs ht hplace hv
  function h hplace hs := newFunction h hs hplace
  superclass hs := expr_of_resolved (hs.2.1.extend _) (hs.1.choose_spec.2.1 _ rfl)
  newClass h hs hplace _ :=
    newClass h _ (fun _ hd => by cases hd) (hs.2.1.extend _) hplace.1 hs.1.choose_spec.2.2
  newSubclass h hs hplace hparent _ :=
    newSubclass h _ hparent (hs.2.1.extend _) hplace.1 hs.1.choose_spec.2.2
  enter h hf hargs hcount := enter h hf hargs hcount

theorem follows (W : NameSpec) {bound : Nat} (K : Course bound) : W.invariant.Follows K :=
  ⟨fun _ _ => trivial, fun _ _ _ => trivial⟩

end NameSpec
end Lox
