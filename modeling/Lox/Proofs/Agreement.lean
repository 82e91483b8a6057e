import Lox.Proofs.Frames
import Lox.Proofs.Store
import Lox.Machine

/-!
# Machines in agreement

`Agree T W m n` is the invariant between a machine `m` that keeps variables in scopes and a machine
`n` that keeps them in frames: what `W` says of both is true, variables hold values that are alike,
and all else is the same. The updates that execution makes keep it (`Agree.enter`, `Agree.declare`,
`Agree.bind`, `Agree.set`, `Agree.single`), and where both machines have a common view a name is
found in corresponding places (`Agree.found`, `Agree.not_found`).
-/

namespace Lox

/-! ## Agreement -/

/-- The contents of a variable. Only classes are kept under `super`. -/
def Value.AlikeAs (T : SiteTable) (W : World) (x : String) (v w : Value) : Prop :=
  v.Alike T W w ∧ (x = "super" → ∃ c, v = .cls c)

theorem Value.AlikeAs.grow {T : SiteTable} {W W' : World} {x : String} {v w : Value}
    (h : v.AlikeAs T W x w) (hW : W ≤ W') : v.AlikeAs T W' x w := ⟨h.1.grow hW, h.2⟩

/-- What is known of the scopes of the first machine. -/
structure World.OfScopes (W : World) (s : Scopes) : Prop where
  root : s.parent? 0 = none
  nonempty : 0 < s.next
  parent : ∀ j i, W.parent j i → s.parent? j = some i
  bound : ∀ i x, W.bound i x → (s.local? i x).isSome

/-- What is known of the frames of the second machine, the scopes of the first having numbers below
`k`. -/
structure World.OfFrames (W : World) (k : Nat) (s : Scopes) : Prop where
  root : s.parent? 0 = none
  nonempty : 0 < s.next
  parent : ∀ q f, W.frame q = some f → s.parent? q = some f.parent
  -- Frames are numbered from the outside in.
  parent_lt : ∀ q f, W.frame q = some f → f.parent < q
  binds : ∀ q f, W.frame q = some f → ∀ x, (s.local? q x).isSome ↔ x = f.name
  owner : ∀ q f, W.frame q = some f → f.owner ≠ 0 ∧ f.owner < k
  unique : ∀ q q' f f', W.frame q = some f → W.frame q' = some f' → f.owner = f'.owner →
    f.name = f'.name → q = q'
  bound : ∀ i x, W.bound i x → ∃ q p, W.frame q = some ⟨i, x, p⟩

/-- The two stores hold the same in the variables that are bound. -/
structure Contents (T : SiteTable) (W : World) (s t : Scopes) : Prop where
  locals : ∀ q f v, W.frame q = some f → W.bound f.owner f.name → s.local? f.owner f.name = some v →
    ∃ w, t.local? q f.name = some w ∧ v.AlikeAs T W f.name w
  globals : ∀ x, Option.Rel (Value.Alike T W) (s.local? 0 x) (t.local? 0 x)

structure Agree (T : SiteTable) (W : World) (m n : Machine) : Prop where
  scopes : W.OfScopes m.scopes
  frames : W.OfFrames m.scopes.next n.scopes
  contents : Contents T W m.scopes n.scopes
  active : W.Holds m.current
  globals : m.globals = 0
  globals' : n.globals = 0
  fieldCount : m.fields.size = n.fields.size
  fields : ∀ k x, Option.Rel (Value.Alike T W) ((m.fields.getD k .empty).get? x)
    ((n.fields.getD k .empty).get? x)
  nextId : m.nextId = n.nextId
  printed : m.printed = n.printed
  clock : m.clock = n.clock
  lastError : m.lastError = n.lastError
  nextSite : m.nextSite = n.nextSite
  table : ∀ s o, T s o → m.distances.find? s = o

/-! ## What updates keep of one store -/

namespace World.OfScopes

variable {W : World} {s : Scopes}

theorem lt_next (h : W.OfScopes s) {i : ScopeId} (hi : W.Holds i) : i < s.next := by
  rcases hi with rfl | ⟨k, hk⟩
  · exact h.nonempty
  · exact Scopes.lt_next_of_parent? (h.parent i k hk)

theorem enter (h : W.OfScopes s) (i : ScopeId) (b : Bindings Value) :
    (W.enter s.next i).OfScopes (s.add (some i) b) where
  root := by rw [Scopes.parent?_add, if_neg (Nat.ne_of_lt h.nonempty), h.root]
  nonempty := by rw [Scopes.next_add]; exact Nat.succ_pos _
  parent j k hjk := by
    rw [Scopes.parent?_add]
    rcases hjk with hjk | ⟨rfl, rfl⟩
    · rw [if_neg (Nat.ne_of_lt (h.lt_next (.inr ⟨k, hjk⟩))), h.parent j k hjk]
    · exact if_pos rfl
  bound j x hx := by
    have hsome := h.bound j x hx
    obtain ⟨v, hv⟩ := Option.isSome_iff_exists.1 hsome
    rwa [Scopes.local?_add, if_neg (Nat.ne_of_lt (Scopes.lt_next_of_local? hv))]

theorem define (h : W.OfScopes s) (i : ScopeId) (x : String) (v : Value) :
    W.OfScopes (s.define i x v) where
  root := by rw [Scopes.parent?_define, h.root]
  nonempty := by rw [Scopes.next_define]; exact h.nonempty
  parent j k hjk := by rw [Scopes.parent?_define, h.parent j k hjk]
  bound j y hy := Scopes.isSome_local?_define (h.bound j y hy)

theorem bind (h : W.OfScopes s) {i : ScopeId} {x : String} (hx : (s.local? i x).isSome) :
    (W.bind i x).OfScopes s where
  root := h.root
  nonempty := h.nonempty
  parent := h.parent
  bound j y hy := by
    rcases hy with hy | ⟨rfl, rfl⟩
    · exact h.bound j y hy
    · exact hx

end World.OfScopes

namespace World.OfFrames

variable {W : World} {k : Nat} {s : Scopes} {i p q : ScopeId} {f : Frame} {x : String}

theorem lt_next (h : W.OfFrames k s) (hf : W.frame q = some f) : q < s.next :=
  Scopes.lt_next_of_parent? (h.parent q f hf)

theorem frame_next (h : W.OfFrames k s) : W.frame s.next = none := by
  cases hf : W.frame s.next with
  | none => rfl
  | some f => exact absurd (h.lt_next hf) (Nat.lt_irrefl _)

/-- The globals are not a frame. -/
theorem ne_zero (h : W.OfFrames k s) (hf : W.frame q = some f) : q ≠ 0 :=
  Nat.ne_of_gt (Nat.zero_lt_of_lt (h.parent_lt q f hf))

/-- There are more scopes. -/
theorem enter (h : W.OfFrames k s) (j i : ScopeId) : (W.enter j i).OfFrames (k + 1) s :=
  { h with owner := fun q f hf => ⟨(h.owner q f hf).1, Nat.lt_succ_of_lt (h.owner q f hf).2⟩ }

theorem declare (h : W.OfFrames k s) (w : Value) (h0 : i ≠ 0) (hi : i < k) (hp : p < s.next)
    (hnew : ∀ q f, W.frame q = some f → f.owner = i → f.name ≠ x) :
    (W.declare s.next ⟨i, x, p⟩).OfFrames k (s.add (some p) (Bindings.empty.set x w)) where
  root := by rw [Scopes.parent?_add, if_neg (Nat.ne_of_lt h.nonempty), h.root]
  nonempty := by rw [Scopes.next_add]; exact Nat.succ_pos _
  parent q f hf := by
    rw [Scopes.parent?_add]
    rcases World.frame_declare hf with hf | ⟨rfl, rfl⟩
    · rw [if_neg (Nat.ne_of_lt (h.lt_next hf)), h.parent q f hf]
    · exact if_pos rfl
  parent_lt q f hf := by
    rcases World.frame_declare hf with hf | ⟨rfl, rfl⟩
    · exact h.parent_lt q f hf
    · exact hp
  binds q f hf y := by
    rw [Scopes.local?_add]
    rcases World.frame_declare hf with hf | ⟨rfl, rfl⟩
    · rw [if_neg (Nat.ne_of_lt (h.lt_next hf))]
      exact h.binds q f hf y
    · rw [if_pos rfl, Bindings.get?_set]
      split <;> simp_all
  owner q f hf := by
    rcases World.frame_declare hf with hf | ⟨rfl, rfl⟩
    · exact h.owner q f hf
    · exact ⟨h0, hi⟩
  unique q q' f f' hf hf' howner hname := by
    rcases World.frame_declare hf with hf | ⟨rfl, rfl⟩ <;>
      rcases World.frame_declare hf' with hf' | ⟨rfl, rfl⟩
    · exact h.unique q q' f f' hf hf' howner hname
    · exact absurd hname (hnew q f hf howner)
    · exact absurd hname.symm (hnew q' f' hf' howner.symm)
    · rfl
  bound j y hb := by
    obtain ⟨q, r, hq⟩ := h.bound j y hb
    exact ⟨q, r, (World.le_declare h.frame_next _).2.2 q _ hq⟩

/-- A frame keeps its one name. -/
theorem define (h : W.OfFrames k s) (hx : ∀ f, W.frame q = some f → x = f.name) (w : Value) :
    W.OfFrames k (s.define q x w) where
  root := by rw [Scopes.parent?_define, h.root]
  nonempty := by rw [Scopes.next_define]; exact h.nonempty
  parent q' f hf := by rw [Scopes.parent?_define, h.parent q' f hf]
  parent_lt := h.parent_lt
  binds q' f hf y := by
    by_cases hne : q ≠ q' ∨ x ≠ y
    · rw [Scopes.local?_define_of_ne _ _ _ _ _ _ hne]
      exact h.binds q' f hf y
    · obtain ⟨rfl, rfl⟩ : q = q' ∧ x = y := by grind
      rw [Scopes.local?_define_self (h.lt_next hf)]
      simpa using hx f hf
  owner := h.owner
  unique := h.unique
  bound := h.bound

theorem bind (h : W.OfFrames k s) (hq : W.frame q = some ⟨i, x, p⟩) :
    (W.bind i x).OfFrames k s where
  root := h.root
  nonempty := h.nonempty
  parent := h.parent
  parent_lt := h.parent_lt
  binds := h.binds
  owner := h.owner
  unique := h.unique
  bound j y hy := by
    rcases hy with hy | ⟨rfl, rfl⟩
    · exact h.bound j y hy
    · exact ⟨q, p, hq⟩

end World.OfFrames

/-! ## Updates of both machines -/

section

variable {T : SiteTable} {W W' : World} {m n : Machine}

theorem View.lt_next (hA : Agree T W m n) {Γ : Static} {i p : ScopeId} (h : View W Γ i p) :
    p < n.scopes.next := by
  induction h with
  | globals => exact hA.frames.nonempty
  | enter _ _ ih => exact ih
  | declare _ hf _ _ => exact hA.frames.lt_next hf

/-- Inside a scope is not among the globals. -/
theorem View.ne_zero (hA : Agree T W m n) {scope : Bindings Bool} {Γ : Static} {i p : ScopeId}
    (h : View W (scope :: Γ) i p) : i ≠ 0 := by
  generalize hΓ : scope :: Γ = Δ at h
  induction h generalizing scope Γ with
  | globals => cases hΓ
  | enter _ hp _ =>
    rintro rfl
    have hroot := hA.scopes.parent _ _ hp
    rw [hA.scopes.root] at hroot
    cases hroot
  | declare _ _ _ ih => exact ih rfl

theorem Agree.fields_mono (hA : Agree T W m n) (hW : W ≤ W') (k : Nat) (x : String) :
    Option.Rel (Value.Alike T W') ((m.fields.getD k .empty).get? x)
      ((n.fields.getD k .empty).get? x) :=
  optionRel_mono (fun _ _ h => h.grow hW) (hA.fields k x)

theorem Agree.globals_mono (hA : Agree T W m n) (hW : W ≤ W') (x : String) :
    Option.Rel (Value.Alike T W') (m.scopes.local? 0 x) (n.scopes.local? 0 x) :=
  optionRel_mono (fun _ _ h => h.grow hW) (hA.contents.globals x)

/-- The active scope and frame may be others. -/
theorem Agree.within (hA : Agree T W m n) {i : ScopeId} (hi : W.Holds i) (p : ScopeId) :
    Agree T W { m with current := i } { n with current := p } :=
  { hA with active := hi }

/-- The first machine makes a scope. -/
theorem Agree.enter (hA : Agree T W m n) (i : ScopeId) (b : Bindings Value) :
    Agree T (W.enter m.scopes.next i) { m with scopes := m.scopes.add (some i) b } n := by
  have hle := W.le_enter m.scopes.next i
  have hold : ∀ j, j < m.scopes.next → ∀ x,
      (m.scopes.add (some i) b).local? j x = m.scopes.local? j x := by
    intro j hj x
    rw [Scopes.local?_add, if_neg (Nat.ne_of_lt hj)]
  have hframes := hA.frames.enter m.scopes.next i
  rw [← Scopes.next_add m.scopes (some i) b] at hframes
  refine { hA with
    scopes := hA.scopes.enter i b
    frames := hframes
    contents := ⟨fun q f v hf hb hv => ?_, fun x => ?_⟩
    active := hA.active.mono hle
    fields := hA.fields_mono hle }
  · rw [hold _ (hA.frames.owner q f hf).2] at hv
    obtain ⟨w, hw, hvw⟩ := hA.contents.locals q f v hf hb hv
    exact ⟨w, hw, hvw.grow hle⟩
  · rw [hold 0 hA.scopes.nonempty]
    exact hA.globals_mono hle x

/-- The second machine makes a frame for a name of the scope `i`. -/
theorem Agree.declare (hA : Agree T W m n) {i p : ScopeId} {x : String} (w : Value) (h0 : i ≠ 0)
    (hi : W.Holds i) (hp : p < n.scopes.next)
    (hnew : ∀ q f, W.frame q = some f → f.owner = i → f.name ≠ x) :
    Agree T (W.declare n.scopes.next ⟨i, x, p⟩) m
      { n with scopes := n.scopes.add (some p) (Bindings.empty.set x w) } := by
  have hle := World.le_declare hA.frames.frame_next ⟨i, x, p⟩
  refine { hA with
    scopes := ⟨hA.scopes.root, hA.scopes.nonempty, hA.scopes.parent, hA.scopes.bound⟩
    frames := hA.frames.declare w h0 (hA.scopes.lt_next hi) hp hnew
    contents := ⟨fun q f v hf hb hv => ?_, fun y => ?_⟩
    active := hA.active.mono hle
    fields := hA.fields_mono hle }
  · rw [Scopes.local?_add]
    rcases World.frame_declare hf with hf | ⟨rfl, rfl⟩
    · rw [if_neg (Nat.ne_of_lt (hA.frames.lt_next hf))]
      obtain ⟨w', hw', hvw⟩ := hA.contents.locals q f v hf hb hv
      exact ⟨w', hw', hvw.grow hle⟩
    · -- A variable without a frame is not bound.
      obtain ⟨q, r, hq⟩ := hA.frames.bound i x hb
      exact absurd rfl (hnew q _ hq rfl)
  · rw [Scopes.local?_add, if_neg (Nat.ne_of_lt hA.frames.nonempty)]
    exact hA.globals_mono hle y

/-- It becomes known that a scope binds a name. -/
theorem Agree.bind (hA : Agree T W m n) {i p q : ScopeId} {x : String} {v w : Value}
    (hq : W.frame q = some ⟨i, x, p⟩) (hv : m.scopes.local? i x = some v)
    (hw : n.scopes.local? q x = some w) (hvw : v.AlikeAs T (W.bind i x) x w) :
    Agree T (W.bind i x) m n := by
  have hle := W.le_bind i x
  refine { hA with
    scopes := hA.scopes.bind (Option.isSome_iff_exists.2 ⟨v, hv⟩)
    frames := hA.frames.bind hq
    contents := ⟨fun q' f v' hf hb hv' => ?_, hA.globals_mono hle⟩
    active := hA.active.mono hle
    fields := hA.fields_mono hle }
  rcases hb with hb | ⟨howner, hname⟩
  · obtain ⟨w', hw', hvw'⟩ := hA.contents.locals q' f v' hf hb hv'
    exact ⟨w', hw', hvw'.grow hle⟩
  · obtain rfl := hA.frames.unique q q' _ f hq hf howner.symm hname.symm
    obtain rfl : f = ⟨i, x, p⟩ := Option.some.inj (hf.symm.trans hq)
    obtain rfl : v = v' := Option.some.inj (hv.symm.trans hv')
    exact ⟨w, hw, hvw⟩

/-- A variable is bound or changed in both stores. -/
theorem Agree.set (hA : Agree T W m n) {i p q : ScopeId} {x : String} {v w : Value}
    (hq : W.frame q = some ⟨i, x, p⟩) (hvw : v.AlikeAs T (W.bind i x) x w) :
    Agree T (W.bind i x) { m with scopes := m.scopes.define i x v }
      { n with scopes := n.scopes.define q x w } := by
  have hle := W.le_bind i x
  have hi := hA.frames.owner q _ hq
  have hself : (m.scopes.define i x v).local? i x = some v := Scopes.local?_define_self hi.2
  have hframes : W.OfFrames m.scopes.next (n.scopes.define q x w) := by
    refine hA.frames.define (fun f hf => ?_) w
    rw [hq] at hf
    cases hf
    rfl
  rw [← Scopes.next_define m.scopes i x v] at hframes
  refine { hA with
    scopes := (hA.scopes.define i x v).bind (Option.isSome_iff_exists.2 ⟨v, hself⟩)
    frames := hframes.bind hq
    contents := ⟨fun q' f v' hf hb hv' => ?_, fun y => ?_⟩
    active := hA.active.mono hle
    fields := hA.fields_mono hle }
  · by_cases hqq : q = q'
    · subst hqq
      obtain rfl : f = ⟨i, x, p⟩ := Option.some.inj (hf.symm.trans hq)
      obtain rfl : v = v' := Option.some.inj (hself.symm.trans hv')
      exact ⟨w, Scopes.local?_define_self (hA.frames.lt_next hq), hvw⟩
    · -- Another frame is one of another variable.
      have hne : ¬ (f.owner = i ∧ f.name = x) := fun h =>
        hqq (hA.frames.unique q q' _ f hq hf h.1.symm h.2.symm)
      have hne' : i ≠ f.owner ∨ x ≠ f.name := by grind
      rw [Scopes.local?_define_of_ne _ _ _ _ _ _ hne'] at hv'
      obtain ⟨w', hw', hvw'⟩ := hA.contents.locals q' f v' hf (hb.resolve_right hne) hv'
      refine ⟨w', ?_, hvw'.grow hle⟩
      rw [Scopes.local?_define_of_ne _ _ _ _ _ _ (.inl hqq), hw']
  · rw [Scopes.local?_define_of_ne _ _ _ _ _ _ (.inl hi.1),
      Scopes.local?_define_of_ne _ _ _ _ _ _ (.inl (hA.frames.ne_zero hq))]
    exact hA.globals_mono hle y

/-- A global is bound or changed in both stores. -/
theorem Agree.setGlobal (hA : Agree T W m n) {i p : ScopeId} (hi : i = 0) (hp : p = 0) (x : String)
    {v w : Value} (hvw : v.Alike T W w) :
    Agree T W { m with scopes := m.scopes.define i x v }
      { n with scopes := n.scopes.define p x w } := by
  subst hi hp
  have hframes : W.OfFrames m.scopes.next (n.scopes.define 0 x w) :=
    hA.frames.define (fun _ hf => absurd rfl (hA.frames.ne_zero hf)) w
  rw [← Scopes.next_define m.scopes 0 x v] at hframes
  refine { hA with
    scopes := hA.scopes.define 0 x v
    frames := hframes
    contents := ⟨fun q f v' hf hb hv' => ?_, fun y => ?_⟩ }
  · rw [Scopes.local?_define_of_ne _ _ _ _ _ _ (.inl (hA.frames.owner q f hf).1.symm)] at hv'
    rw [Scopes.local?_define_of_ne _ _ _ _ _ _ (.inl (hA.frames.ne_zero hf).symm)]
    exact hA.contents.locals q f v' hf hb hv'
  · by_cases hxy : x = y
    · subst hxy
      rw [Scopes.local?_define_self hA.scopes.nonempty,
        Scopes.local?_define_self hA.frames.nonempty]
      exact .some hvw
    · rw [Scopes.local?_define_of_ne _ _ _ _ _ _ (.inr hxy),
        Scopes.local?_define_of_ne _ _ _ _ _ _ (.inr hxy)]
      exact hA.contents.globals y

/-- Both machines make a scope with one name: a method is bound, or a class has a superclass. -/
theorem Agree.single (hA : Agree T W m n) {Γ : Static} {i p : ScopeId} {x : String} {v w : Value}
    (hview : View W Γ i p) (hvw : v.AlikeAs T W x w) :
    ∃ W', W ≤ W' ∧ (∀ q f, W'.frame q = some f → W.frame q = some f ∨ f.owner = m.scopes.next) ∧
      View W' (Static.single x :: Γ) m.scopes.next n.scopes.next ∧
      Agree T W' { m with scopes := m.scopes.add (some i) (Bindings.empty.set x v) }
        { n with scopes := n.scopes.add (some p) (Bindings.empty.set x w) } := by
  have hA₁ := hA.enter i (Bindings.empty.set x v)
  have hle₁ := W.le_enter m.scopes.next i
  have h0 : m.scopes.next ≠ 0 := Nat.ne_of_gt hA.scopes.nonempty
  have hparent : (W.enter m.scopes.next i).parent m.scopes.next i := .inr ⟨rfl, rfl⟩
  have hA₂ := hA₁.declare (x := x) w h0 (.inr ⟨i, hparent⟩) (hview.lt_next hA) fun q f hf howner =>
    absurd howner (Nat.ne_of_lt (hA.frames.owner q f hf).2)
  have hle₂ := World.le_declare hA₁.frames.frame_next ⟨m.scopes.next, x, p⟩
  generalize hW₂ : (W.enter m.scopes.next i).declare n.scopes.next ⟨m.scopes.next, x, p⟩ =
    W₂ at hA₂ hle₂
  have hframe : W₂.frame n.scopes.next = some ⟨m.scopes.next, x, p⟩ :=
    hW₂ ▸ World.frame_declare_self ..
  have hle₃ := W₂.le_bind m.scopes.next x
  have hle : W ≤ W₂ := World.le_trans hle₁ hle₂
  have hA₃ :=
    hA₂.bind (v := v) (w := w) hframe (by simp [Scopes.local?_add]) (by simp [Scopes.local?_add])
      (hvw.grow (World.le_trans hle hle₃))
  refine ⟨_, World.le_trans hle hle₃, fun q f hf => ?_, ?_, hA₃⟩
  · rw [← hW₂] at hf
    rcases World.frame_declare hf with hf | ⟨-, rfl⟩
    · exact .inl hf
    · exact .inr rfl
  · exact ((hview.mono hle).mono hle₃).single (hle₂.1 _ _ hparent) hframe (.inr ⟨rfl, rfl⟩)

/-! ## Finding names -/

/-- The way outwards from a frame does not depend on how many steps it may take, if there are
enough. -/
theorem View.outward_eq (hA : Agree T W m n) {Γ : Static} {i p : ScopeId} (h : View W Γ i p) :
    ∀ k, p < k → n.scopes.outward k p = n.scopes.path p := by
  induction h with
  | globals =>
    intro k hk
    obtain ⟨k, rfl⟩ := Nat.exists_eq_succ_of_ne_zero (Nat.ne_of_gt hk)
    simp [Scopes.path, Scopes.outward, hA.frames.root]
  | enter _ _ ih => exact ih
  | @declare _ _ _ p q _ _ _ hf _ ih =>
    intro k hk
    have hparent := hA.frames.parent q _ hf
    have hlt := hA.frames.parent_lt q _ hf
    obtain ⟨k, rfl⟩ := Nat.exists_eq_succ_of_ne_zero (Nat.ne_of_gt (Nat.zero_lt_of_lt hk))
    simp only [Scopes.path, Scopes.outward, hparent, Option.elim_some]
    rw [ih k (Nat.lt_of_lt_of_le hlt (Nat.le_of_lt_succ hk)), ih q hlt]

theorem View.binder?_eq (hA : Agree T W m n) {Γ : Static} {i j p q : ScopeId} {x : String}
    (h : View W Γ i p) (hf : W.frame q = some ⟨j, x, p⟩) (y : String) :
    n.scopes.binder? q y = if y = x then some q else n.scopes.binder? p y := by
  have hpath : n.scopes.path q = q :: n.scopes.path p := by
    rw [Scopes.path, Scopes.outward, hA.frames.parent q _ hf]
    exact congrArg (q :: ·) (h.outward_eq hA q (hA.frames.parent_lt q _ hf))
  have hbinds := hA.frames.binds q _ hf y
  unfold Scopes.binder?
  rw [hpath, List.find?_cons]
  by_cases hy : y = x
  · rw [hbinds.2 hy, if_pos hy]
  · have hnone : (n.scopes.local? q y).isSome = false := by
      simpa using fun h => hy (hbinds.1 h)
    rw [hnone, if_neg hy]

/-- A local name is found in the scope at its distance and in a frame of that scope. -/
theorem Agree.found (hA : Agree T W m n) {Γ : Static} {i p : ScopeId} (h : View W Γ i p)
    {x : String} {d : Nat} (hd : Γ.distance? x = some d) :
    ∃ j q r, m.scopes.ancestor? i d = some j ∧ n.scopes.binder? p x = some q ∧
      W.frame q = some ⟨j, x, r⟩ ∧ (Γ.flag? x = some true → W.bound j x) := by
  induction h generalizing d with
  | globals => simp [Static.distance?] at hd
  | enter _ hp ih =>
    have hnone : (Bindings.empty : Bindings Bool).get? x = none := rfl
    rw [Static.distance?_cons_of_none hnone, Option.map_eq_some_iff] at hd
    obtain ⟨d, hd, rfl⟩ := hd
    obtain ⟨j, q, r, hj, hq, hframe, hbound⟩ := ih hd
    refine ⟨j, q, r, ?_, hq, hframe, ?_⟩
    · rw [Scopes.ancestor?, hA.scopes.parent _ _ hp]
      exact hj
    · rwa [Static.flag?_cons_of_none hnone]
  | @declare scope Γ i p q y b hview hf hb ih =>
    by_cases hxy : x = y
    · subst hxy
      have hget : (scope.set x b).get? x = some b := by simp
      rw [Static.distance?_cons_of_some (by rw [hget]; rfl)] at hd
      cases hd
      refine ⟨i, q, p, rfl, by rw [hview.binder?_eq hA hf, if_pos rfl], hf, fun hflag => ?_⟩
      rw [Static.flag?_cons_of_some hget] at hflag
      exact hb (Option.some.inj hflag)
    · rw [Static.distance?_set hxy] at hd
      rw [Static.flag?_set hxy, hview.binder?_eq hA hf, if_neg hxy]
      exact ih hd

/-- A name that is not local is left to the globals. -/
theorem Agree.not_found (hA : Agree T W m n) {Γ : Static} {i p : ScopeId} (h : View W Γ i p)
    {x : String} (hd : Γ.distance? x = none) : n.scopes.binder? p x = n.scopes.binder? 0 x := by
  induction h with
  | globals => rfl
  | enter _ _ ih =>
    have hnone : (Bindings.empty : Bindings Bool).get? x = none := rfl
    rw [Static.distance?_cons_of_none hnone, Option.map_eq_none_iff] at hd
    exact ih hd
  | @declare scope Γ i p q y b hview hf hb ih =>
    have hxy : x ≠ y := by
      rintro rfl
      rw [Static.distance?_cons_of_some (by simp)] at hd
      cases hd
    rw [Static.distance?_set hxy] at hd
    rw [hview.binder?_eq hA hf, if_neg hxy]
    exact ih hd

theorem Scopes.binder?_root {s : Scopes} (h : s.parent? 0 = none) (x : String) :
    s.binder? 0 x = if (s.local? 0 x).isSome then some 0 else none := by
  unfold Scopes.binder?
  rw [Scopes.path, Scopes.outward, h, List.find?_cons]
  cases (s.local? 0 x).isSome <;> rfl

end

end Lox
