import Lox.Proofs.Resolved
import Lox.Value
import Mathlib.Data.List.Forall2

/-!
# Scopes and frames

The same variables kept in two ways: in scopes, one for each block, that hold all names declared
there, and in frames, one for each declaration. `World` records what is known for good about two
such stores, and only grows. `View W Γ i p` says that the static scopes `Γ` describe both what is
around the scope `i` and what is around the frame `p`. Two values are `Alike` if they differ only in
the stores that their closures point into, and point to places with a common view in which their
declarations are resolved.
-/

namespace Lox

/-- A frame: the scope its name belongs to, the name, and the next frame outwards. -/
structure Frame where
  owner : ScopeId
  name : String
  parent : ScopeId

/-- What is known about the scopes and the frames. -/
structure World where
  /-- The scope around a scope. -/
  parent : ScopeId → ScopeId → Prop
  /-- A scope binds a name that has a frame. -/
  bound : ScopeId → String → Prop
  frame : ScopeId → Option Frame

namespace World

variable {W W' W'' : World}

instance : LE World where
  le W W' := (∀ j i, W.parent j i → W'.parent j i) ∧ (∀ i x, W.bound i x → W'.bound i x) ∧
    ∀ q f, W.frame q = some f → W'.frame q = some f

theorem le_refl (W : World) : W ≤ W := ⟨fun _ _ h => h, fun _ _ h => h, fun _ _ h => h⟩

theorem le_trans (h : W ≤ W') (h' : W' ≤ W'') : W ≤ W'' :=
  ⟨fun j i hp => h'.1 j i (h.1 j i hp), fun i x hb => h'.2.1 i x (h.2.1 i x hb),
    fun q f hf => h'.2.2 q f (h.2.2 q f hf)⟩

def Holds (W : World) (i : ScopeId) : Prop := i = 0 ∨ ∃ k, W.parent i k

theorem Holds.mono {i : ScopeId} (h : W.Holds i) (hle : W ≤ W') : W'.Holds i := by
  rcases h with h | ⟨k, h⟩
  · exact .inl h
  · exact .inr ⟨k, hle.1 i k h⟩

/-- A scope `j` is made inside `i`. -/
def enter (W : World) (j i : ScopeId) : World :=
  { W with parent := fun k l => W.parent k l ∨ k = j ∧ l = i }

def declare (W : World) (q : ScopeId) (f : Frame) : World :=
  { W with frame := fun k => if k = q then some f else W.frame k }

def bind (W : World) (i : ScopeId) (x : String) : World :=
  { W with bound := fun k y => W.bound k y ∨ k = i ∧ y = x }

theorem le_enter (W : World) (j i : ScopeId) : W ≤ W.enter j i :=
  ⟨fun _ _ h => .inl h, fun _ _ h => h, fun _ _ h => h⟩

theorem le_declare {q : ScopeId} (hq : W.frame q = none) (f : Frame) : W ≤ W.declare q f := by
  refine ⟨fun _ _ h => h, fun _ _ h => h, fun k g hg => ?_⟩
  have hne : k ≠ q := by
    rintro rfl
    rw [hq] at hg
    cases hg
  rw [← hg]
  exact if_neg hne

theorem le_bind (W : World) (i : ScopeId) (x : String) : W ≤ W.bind i x :=
  ⟨fun _ _ h => h, fun _ _ h => .inl h, fun _ _ h => h⟩

theorem frame_declare_self (W : World) (q : ScopeId) (f : Frame) :
    (W.declare q f).frame q = some f :=
  if_pos rfl

/-- What is a frame after a declaration. -/
theorem frame_declare {q k : ScopeId} {f g : Frame} (h : (W.declare q f).frame k = some g) :
    W.frame k = some g ∨ k = q ∧ g = f := by
  by_cases hk : k = q
  · right
    rw [hk, frame_declare_self] at h
    exact ⟨hk, (Option.some.inj h).symm⟩
  · left
    rw [← h]
    exact (if_neg hk).symm

end World

/-- The static scopes `Γ` describe what is around the scope `i` and around the frame `p`. A scope
may be made before its names are declared, and a name may be declared before the scope binds it. -/
inductive View (W : World) : Static → ScopeId → ScopeId → Prop where
  | globals : View W [] 0 0
  | enter {Γ : Static} {i j p : ScopeId} : View W Γ i p → W.parent j i → View W (.empty :: Γ) j p
  | declare {scope : Bindings Bool} {Γ : Static} {i p q : ScopeId} {x : String} {b : Bool} :
      View W (scope :: Γ) i p → W.frame q = some ⟨i, x, p⟩ → (b = true → W.bound i x) →
      View W (scope.set x b :: Γ) i q

theorem View.mono {W W' : World} (hle : W ≤ W') {Γ : Static} {i p : ScopeId} (h : View W Γ i p) :
    View W' Γ i p := by
  induction h with
  | globals => exact .globals
  | enter _ hp ih => exact .enter ih (hle.1 _ _ hp)
  | declare _ hf hb ih => exact .declare ih (hle.2.2 _ _ hf) fun h => hle.2.1 _ _ (hb h)

theorem View.holds {W : World} {Γ : Static} {i p : ScopeId} (h : View W Γ i p) : W.Holds i := by
  induction h with
  | globals => exact .inl rfl
  | enter _ hp _ => exact .inr ⟨_, hp⟩
  | declare _ _ _ ih => exact ih

theorem View.eq_zero {W : World} {i p : ScopeId} (h : View W [] i p) : i = 0 ∧ p = 0 := by
  cases h
  exact ⟨rfl, rfl⟩

/-- A scope with the only name `x`. -/
theorem View.single {W : World} {Γ : Static} {i j p q : ScopeId} {x : String} (h : View W Γ i p)
    (hp : W.parent j i) (hf : W.frame q = some ⟨j, x, p⟩) (hb : W.bound j x) :
    View W (Static.single x :: Γ) j q := .declare (.enter h hp) hf fun _ => hb

/-! ## Values -/

/-- Two functions are the same but for the places that they were closed over. When they are called,
the static scopes `around` come inside of what is around those places. An initializer finds `this`
there. -/
structure Closure.Alike (T : SiteTable) (W : World) (around : Static) (f g : Closure) : Prop where
  id : f.id = g.id
  decl : f.decl = g.decl
  isInitializer : f.isInitializer = g.isInitializer
  closed : ∃ Γ, View W Γ f.scope g.scope ∧ Stmt.FunctionResolved T (around ++ Γ) f.decl ∧
    (f.isInitializer = true → ∃ Δ, around ++ Γ = Static.single "this" :: Δ)

/-- A method is closed over what is around its class; `this` comes in between when it is bound. -/
def Closure.MethodAlike (T : SiteTable) (W : World) : Closure → Closure → Prop :=
  Closure.Alike T W [Static.single "this"]

structure ClassLayer.Alike (T : SiteTable) (W : World) (a b : ClassLayer) : Prop where
  id : a.id = b.id
  name : a.name = b.name
  methods : ∀ x, Option.Rel (Closure.MethodAlike T W) (a.methods.get? x) (b.methods.get? x)

structure Class.Alike (T : SiteTable) (W : World) (c d : Class) : Prop where
  own : c.own.Alike T W d.own
  inherited : List.Forall₂ (ClassLayer.Alike T W) c.inherited d.inherited

structure Instance.Alike (T : SiteTable) (W : World) (i j : Instance) : Prop where
  id : i.id = j.id
  cls : i.cls.Alike T W j.cls

inductive Value.Alike (T : SiteTable) (W : World) : Value → Value → Prop where
  | nil : Alike T W .nil .nil
  | bool (b : Bool) : Alike T W (.bool b) (.bool b)
  | number (x : Float) : Alike T W (.number x) (.number x)
  | text (s : String) : Alike T W (.text s) (.text s)
  | function {f g : Closure} : f.Alike T W [] g → Alike T W (.function f) (.function g)
  | cls {c d : Class} : c.Alike T W d → Alike T W (.cls c) (.cls d)
  | inst {i j : Instance} : i.Alike T W j → Alike T W (.inst i) (.inst j)
  -- A session without a host has no other natives.
  | native {n : Native} : n.behaviour = .clock → n.arity = 0 → Alike T W (.native n) (.native n)

theorem optionRel_mono {α β : Type} {r r' : α → β → Prop} (hr : ∀ a b, r a b → r' a b)
    {o : Option α} {o' : Option β} (h : Option.Rel r o o') : Option.Rel r' o o' := by
  cases h with
  | some h => exact .some (hr _ _ h)
  | none => exact .none

section

variable {T T' : SiteTable} {W W' : World}

theorem Closure.Alike.mono (hT : ∀ s o, T s o → T' s o) (hW : W ≤ W') {around : Static}
    {f g : Closure} (h : f.Alike T W around g) : f.Alike T' W' around g := by
  obtain ⟨Γ, hview, hdecl, hinit⟩ := h.closed
  exact ⟨h.id, h.decl, h.isInitializer, Γ, hview.mono hW, hdecl.mono hT, hinit⟩

theorem ClassLayer.Alike.mono (hT : ∀ s o, T s o → T' s o) (hW : W ≤ W') {a b : ClassLayer}
    (h : a.Alike T W b) : a.Alike T' W' b :=
  ⟨h.id, h.name, fun x => optionRel_mono (fun _ _ => Closure.Alike.mono hT hW) (h.methods x)⟩

theorem Class.Alike.mono (hT : ∀ s o, T s o → T' s o) (hW : W ≤ W') {c d : Class}
    (h : c.Alike T W d) : c.Alike T' W' d :=
  ⟨h.own.mono hT hW, h.inherited.imp fun _ _ => ClassLayer.Alike.mono hT hW⟩

/-- Values stay alike when more is known and more is resolved. -/
theorem Value.Alike.mono (hT : ∀ s o, T s o → T' s o) (hW : W ≤ W') {v w : Value}
    (h : v.Alike T W w) : v.Alike T' W' w := by
  cases h with
  | nil => exact .nil
  | bool => exact .bool _
  | number => exact .number _
  | text => exact .text _
  | function h => exact .function (h.mono hT hW)
  | cls h => exact .cls (h.mono hT hW)
  | inst h => exact .inst ⟨h.id, h.cls.mono hT hW⟩
  | native h h' => exact .native h h'

theorem Value.Alike.grow (hW : W ≤ W') {v w : Value} (h : v.Alike T W w) : v.Alike T W' w :=
  h.mono (fun _ _ h => h) hW

end

/-! ## What cannot tell values apart -/

/-- Data that are the same, or objects with the same identity. -/
inductive Value.SameIdentity : Value → Value → Prop where
  | refl (v : Value) : SameIdentity v v
  | function {f g : Closure} : f.id = g.id → SameIdentity (.function f) (.function g)
  | cls {c d : Class} : c.own.id = d.own.id → SameIdentity (.cls c) (.cls d)
  | inst {i j : Instance} : i.id = j.id → SameIdentity (.inst i) (.inst j)

namespace Value.SameIdentity

variable {v w v' w' : Value}

theorem equal_left (h : v.SameIdentity w) (u : Value) : v.equal u = w.equal u := by
  cases h with
  | refl => rfl
  | function h => cases u <;> simp only [equal, h]
  | cls h => cases u <;> simp only [equal, h]
  | inst h => cases u <;> simp only [equal, h]

theorem equal_right (h : v.SameIdentity w) (u : Value) : u.equal v = u.equal w := by
  cases h with
  | refl => rfl
  | function h => cases u <;> simp only [equal, h]
  | cls h => cases u <;> simp only [equal, h]
  | inst h => cases u <;> simp only [equal, h]

theorem equal_eq (h : v.SameIdentity w) (h' : v'.SameIdentity w') : v.equal v' = w.equal w' :=
  (h.equal_left v').trans (h'.equal_right w)

end Value.SameIdentity

section

variable {R : Closure → Closure → Prop} {c d : Class}

/-- Layers with related methods, one by one, make classes that find related methods. -/
theorem Class.method?_rel {x : String}
    (h : List.Forall₂ (fun a b => Option.Rel R (a.methods.get? x) (b.methods.get? x)) c.layers
      d.layers) :
    Option.Rel R (c.method? x) (d.method? x) := by
  unfold Class.method?
  generalize c.layers = cs at h ⊢
  generalize d.layers = ds at h ⊢
  induction h with
  | nil => exact .none
  | @cons a b _ _ hab _ ih =>
    rw [List.findSome?_cons, List.findSome?_cons]
    generalize a.methods.get? x = o at hab ⊢
    generalize b.methods.get? x = o' at hab ⊢
    cases hab with
    | some hfg => exact .some hfg
    | none => exact ih

theorem Class.arity_eq_of_rel (hR : ∀ f g, R f g → f.arity = g.arity)
    (h : Option.Rel R (c.method? initializerName) (d.method? initializerName)) :
    c.arity = d.arity := by
  unfold Class.arity Class.initializer?
  generalize c.method? initializerName = o at h ⊢
  generalize d.method? initializerName = o' at h ⊢
  cases h with
  | some hfg => exact hR _ _ hfg
  | none => rfl

end

section

variable {T : SiteTable} {W : World}

theorem Literal.alike_toValue (l : Literal) : l.toValue.Alike T W l.toValue := by
  cases l with
  | nil => exact .nil
  | bool b => exact .bool b
  | number x => exact .number x
  | text s => exact .text s

theorem Value.Alike.truthy_eq {v w : Value} (h : v.Alike T W w) : v.truthy = w.truthy := by
  cases h <;> rfl

theorem Value.Alike.shown_eq {v w : Value} (h : v.Alike T W w) : v.shown = w.shown := by
  cases h with
  | function h => simp only [Value.shown, Closure.name, h.decl]
  | cls h => simp only [Value.shown, Class.name, h.own.name]
  | inst h => simp only [Value.shown, Class.name, h.cls.own.name]
  | _ => rfl

theorem Value.Alike.sameIdentity {v w : Value} (h : v.Alike T W w) : v.SameIdentity w := by
  cases h with
  | function h => exact .function h.id
  | cls h => exact .cls h.own.id
  | inst h => exact .inst h.id
  | _ => exact .refl _

theorem Value.Alike.equal_eq {v w v' w' : Value} (h : v.Alike T W w) (h' : v'.Alike T W w') :
    v.equal v' = w.equal w' :=
  h.sameIdentity.equal_eq h'.sameIdentity

theorem Class.Alike.method? {c d : Class} (h : c.Alike T W d) (x : String) :
    Option.Rel (Closure.MethodAlike T W) (c.method? x) (d.method? x) := by
  have hlayers : List.Forall₂ (ClassLayer.Alike T W) c.layers d.layers := .cons h.own h.inherited
  exact Class.method?_rel (hlayers.imp fun _ _ hab => hab.methods x)

theorem Class.Alike.arity_eq {c d : Class} (h : c.Alike T W d) : c.arity = d.arity :=
  Class.arity_eq_of_rel (fun _ _ hfg => by simp only [Closure.arity, hfg.decl]) (h.method? _)

end

end Lox
