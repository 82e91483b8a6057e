import Lox.Proofs.Lexical
import Lox.Proofs.Lockstep

/-!
# Variables in lockstep

Variables are read and changed by distance on the machine with scopes and by name on the machine
with frames (`Lockstep.lookUp`, `Lockstep.assign`). A declaration begins with a frame
(`Declaring.declare`) and ends with a value for the name (`Lockstep.define`); `Declaring` says where
the machines stand in between.
-/

namespace Lox

abbrev Post.alike (T : SiteTable) : Post Value Value := fun W _ _ v w => v.Alike T W w

abbrev Post.any {α β : Type} : Post α β := fun _ _ _ _ _ => True

section

variable {T : SiteTable} {mode : Mode} {W : World} {m n : Machine} {Γ : Static}

/-! ## Variables -/

theorem Exec.lookUp_of_some {name : Token} {d : Nat} (h : m.distances.find? name.site = some d) :
    Exec.lookUp name m = Exec.ofFault (m.scopes.getAt m.current d name.lexeme) m := by
  simp only [Exec.lookUp, Exec.get_bind, h]

theorem Exec.lookUp_of_none {name : Token} (h : m.distances.find? name.site = none) :
    Exec.lookUp name m = Exec.ofFailure (m.scopes.lookup m.globals name) m := by
  simp only [Exec.lookUp, Exec.get_bind, h]

theorem Scopes.lookup_root {s : Scopes} (h : s.parent? 0 = none) (name : Token) :
    s.lookup 0 name = (s.local? 0 name.lexeme).elim (.error (Scopes.undefined name)) .ok := by
  rw [Scopes.lookup_eq, Scopes.binder?_root h]
  cases hx : s.local? 0 name.lexeme with
  | none => rfl
  | some v => simp [hx]

/-- A name that is bound holds values that are alike, at its distance and by name. -/
theorem Agree.read (hA : Agree T W m n) {i p : ScopeId} (hview : View W Γ i p)
    {x : String} {d : Nat} (hd : Γ.distance? x = some d) (hflag : Γ.flag? x = some true) :
    ∃ v w, m.scopes.getAt i d x = .ok v ∧
      (∀ t : Token, t.lexeme = x → n.scopes.lookup p t = .ok w) ∧ v.AlikeAs T W x w := by
  obtain ⟨j, q, r, hj, hq, hframe, hbound⟩ := hA.found hview hd
  have hb := hbound hflag
  obtain ⟨v, hv⟩ := Option.isSome_iff_exists.1 (hA.scopes.bound j x hb)
  obtain ⟨w, hw, hvw⟩ := hA.contents.locals q _ v hframe hb hv
  refine ⟨v, w, ?_, fun t ht => ?_, hvw⟩
  · rw [Scopes.getAt, Scopes.ancestor, hj]
    show Except.bind (.ok j) _ = _
    rw [Except.bind, hv]
    rfl
  · subst ht
    rw [Scopes.lookup_eq, hq]
    simp only [Option.bind_some]
    rw [hw]
    rfl

theorem Static.flag?_of_distance? {x : String} {d : Nat} (hd : Γ.distance? x = some d)
    (hflag : Γ.flag? x ≠ some false) : Γ.flag? x = some true := by
  induction Γ generalizing d with
  | nil => simp [Static.distance?] at hd
  | cons scope Γ ih =>
    cases hx : scope.get? x with
    | some b =>
      rw [Static.flag?_cons_of_some hx] at hflag ⊢
      cases b with
      | false => exact absurd rfl hflag
      | true => rfl
    | none =>
      rw [Static.distance?_cons_of_none hx, Option.map_eq_some_iff] at hd
      obtain ⟨d, hd, -⟩ := hd
      rw [Static.flag?_cons_of_none hx] at hflag ⊢
      exact ih hd hflag

theorem Lockstep.lookUp (hA : Agree T W m n) (hview : View W Γ m.current n.current) {name : Token}
    (hfind : Γ.Finds T name) (hflag : Γ.flag? name.lexeme ≠ some false) :
    Lockstep T mode W m n (Exec.lookUp name) (Lexical.lookUp name) (.alike T) := by
  have hsite := hA.table _ _ hfind
  show Ends T mode W m n _ (Exec.lookUp name m) (Exec.ofFailure (n.scopes.lookup n.current name) n)
  cases hd : Γ.distance? name.lexeme with
  | some d =>
    obtain ⟨v, w, hv, hw, hvw⟩ := hA.read hview hd (Static.flag?_of_distance? hd hflag)
    rw [Exec.lookUp_of_some (hsite.trans hd), hv, hw name rfl]
    exact .ok (.refl hA) hvw.1
  | none =>
    rw [Exec.lookUp_of_none (hsite.trans hd), hA.globals, Scopes.lookup_root hA.scopes.root,
      Scopes.lookup_eq, hA.not_found hview hd, ← Scopes.lookup_eq,
        Scopes.lookup_root hA.frames.root]
    have hrel := hA.contents.globals name.lexeme
    generalize m.scopes.local? 0 name.lexeme = o at hrel ⊢
    generalize n.scopes.local? 0 name.lexeme = o' at hrel ⊢
    cases hrel with
    | some hvw => exact .ok (.refl hA) hvw
    | none => exact .error (.refl hA) (.failed _)

/-- A variable is changed as the store changes it, by distance or by name. -/
theorem Exec.assign_eq (name : Token) (v : Value) (m : Machine) :
    Exec.assign name v m =
      ((match m.distances.find? name.site with
        | some d => Exec.ofFault (m.scopes.assignAt m.current d name.lexeme v)
        | none => Exec.ofFailure (m.scopes.assign m.globals name v)) >>=
          fun scopes => set { m with scopes }) m := by
  simp only [Exec.assign, Exec.get_bind, Scopes.assignAt, Scopes.assign]
  cases m.distances.find? name.site with
  | some d =>
    dsimp only
    cases m.scopes.ancestor m.current d <;> rfl
  | none =>
    dsimp only
    cases m.scopes.binder m.globals name <;> rfl

theorem Exec.assign_of_some {name : Token} {d : Nat} {j : ScopeId} (v : Value)
    (h : m.distances.find? name.site = some d) (hj : m.scopes.ancestor? m.current d = some j) :
    Exec.assign name v m = .ok () { m with scopes := m.scopes.define j name.lexeme v } := by
  simp only [Exec.assign_eq, h, Scopes.assignAt, Scopes.ancestor, hj]
  rfl

theorem Exec.assign_of_far {name : Token} {d : Nat} (v : Value)
    (h : m.distances.find? name.site = some d) (hd : m.scopes.ancestor? m.current d = none) :
    Exec.assign name v m = .error (.fault (.scopeDistance d)) m := by
  simp only [Exec.assign_eq, h, Scopes.assignAt, Scopes.ancestor, hd]
  rfl

theorem Exec.assign_of_none {name : Token} (v : Value) (h : m.distances.find? name.site = none) :
    Exec.assign name v m = (m.scopes.binder? m.globals name.lexeme).elim
      (.error (.failed (Scopes.undefined name)) m)
      fun j => .ok () { m with scopes := m.scopes.define j name.lexeme v } := by
  simp only [Exec.assign_eq, h, Scopes.assign, Scopes.binder]
  cases m.scopes.binder? m.globals name.lexeme <;> rfl

theorem Lexical.assign_eq (name : Token) (w : Value) :
    Lexical.assign name w n = (n.scopes.binder? n.current name.lexeme).elim
      (.error (.failed (Scopes.undefined name)) n)
      fun q => .ok () { n with scopes := n.scopes.define q name.lexeme w } := by
  simp only [Lexical.assign, Exec.get_bind, Scopes.assign, Scopes.binder]
  cases n.scopes.binder? n.current name.lexeme <;> rfl

theorem Lockstep.assign (hA : Agree T W m n) (hview : View W Γ m.current n.current) {name : Token}
    (hfind : Γ.Finds T name) (hsuper : name.lexeme ≠ "super") {v w : Value} (hvw : v.Alike T W w) :
    Lockstep T mode W m n (Exec.assign name v) (Lexical.assign name w) .any := by
  have hsite := hA.table _ _ hfind
  show Ends T mode W m n _ (Exec.assign name v m) (Lexical.assign name w n)
  rw [Lexical.assign_eq]
  cases hd : Γ.distance? name.lexeme with
  | some d =>
    obtain ⟨j, q, r, hj, hq, hframe, -⟩ := hA.found hview hd
    have hle := W.le_bind j name.lexeme
    rw [Exec.assign_of_some v (hsite.trans hd) hj, hq]
    have hA' := hA.set hframe ⟨hvw.grow hle, fun h => absurd h hsuper⟩
    exact .ok (.of_frame_eq hle hA' rfl rfl rfl) trivial
  | none =>
    have hroot : m.scopes.binder? m.globals name.lexeme =
        if (m.scopes.local? 0 name.lexeme).isSome then some 0 else none := by
      rw [hA.globals]
      exact Scopes.binder?_root hA.scopes.root _
    rw [Exec.assign_of_none v (hsite.trans hd), hroot, hA.not_found hview hd,
      Scopes.binder?_root hA.frames.root]
    have hrel := hA.contents.globals name.lexeme
    generalize m.scopes.local? 0 name.lexeme = o at hrel ⊢
    generalize n.scopes.local? 0 name.lexeme = o' at hrel ⊢
    cases hrel with
    | some _ => exact .ok (.of_frame_eq W.le_refl (hA.setGlobal rfl rfl _ hvw) rfl rfl rfl) trivial
    | none => exact .error (.refl hA) (.failed _)

/-! ## Declarations -/

/-- The machines stand behind the beginning of a declaration in the static scopes `Γ`: a local name
has its frame, and there is none for a global. -/
inductive Declaring (W : World) (name : Token) : Static → Machine → Machine → Prop where
  | globals {m n : Machine} : Placed W [] m n → Declaring W name [] m n
  | locals {scope : Bindings Bool} {Γ : Static} {m n : Machine} {p : ScopeId} :
      W.frame n.current = some ⟨m.current, name.lexeme, p⟩ → View W (scope :: Γ) m.current p →
      (∀ q f, W.frame q = some f → f.owner = m.current → f.name = name.lexeme ∨
        (scope.get? f.name).isSome) →
      Declaring W name (scope :: Γ) m n

variable {name : Token}

theorem Declaring.step {W' : World} {m' n' : Machine} (h : Declaring W name Γ m n)
    (hs : Step T false W m n W' m' n') : Declaring W' name Γ m' n' := by
  cases h with
  | globals h => exact .globals (h.step hs)
  | locals hf hview hdecl =>
    rw [← hs.current, ← hs.current' rfl] at hf
    rw [← hs.current] at hview
    refine .locals (hs.le.2.2 _ _ hf) (hview.mono hs.le) fun q f hf howner => ?_
    rw [hs.current] at howner
    rcases hs.fresh q f hf with hf | hlt | ⟨hd, -⟩
    · exact hdecl q f hf howner
    · exact absurd howner.symm (Nat.ne_of_lt hlt)
    · cases hd

theorem Declaring.frame {scope : Bindings Bool} {Γ : Static}
    (h : Declaring W name (scope :: Γ) m n) :
    ∃ p, W.frame n.current = some ⟨m.current, name.lexeme, p⟩ := by
  cases h with
  | locals hf _ _ => exact ⟨_, hf⟩

theorem Declaring.placed_set {scope : Bindings Bool} {Γ : Static}
    (h : Declaring W name (scope :: Γ) m n) {b : Bool} (hb : b = true →
      W.bound m.current name.lexeme) :
    Placed W (scope.set name.lexeme b :: Γ) m n := by
  cases h with
  | locals hf hview hdecl =>
    refine ⟨.declare hview hf hb, fun q f hf howner => ⟨scope.set name.lexeme b, rfl, ?_⟩⟩
    rw [Bindings.get?_set]
    rcases hdecl q f hf howner with hname | hsome
    · simp [hname]
    · split <;> simp [hsome]

/-- The place inside the declaration. -/
theorem Declaring.placed (h : Declaring W name Γ m n) : Placed W (Γ.declare name) m n := by
  cases Γ with
  | nil =>
    cases h with
    | globals h => exact h
  | cons scope Γ => exact h.placed_set nofun

/-- The place behind the declaration, once the name is bound. -/
theorem Declaring.extended (h : Declaring W name Γ m n)
    (hb : Γ ≠ [] → W.bound m.current name.lexeme) :
    Placed W (Γ.extend name) m n := by
  cases Γ with
  | nil =>
    cases h with
    | globals h => exact h
  | cons scope Γ =>
    rw [Static.extend_cons]
    exact h.placed_set fun _ => hb (List.cons_ne_nil scope Γ)

/-- Pushing a frame for a name that can be declared. -/
theorem Declaring.push {scope : Bindings Bool} {Γ : Static} (hA : Agree T W m n)
    (hP : Placed W (scope :: Γ) m n) (ha : Static.Admits (scope :: Γ) name) (w : Value) :
    ∃ W' n', Lexical.push name.lexeme w n = .ok () n' ∧ Step T true W m n W' m n' ∧
      n'.scopes.local? n'.current name.lexeme = some w ∧ Declaring W' name (scope :: Γ) m n' := by
  have hA' := hA.declare w (hP.view.ne_zero hA) hP.view.holds (hP.view.lt_next hA) (hP.new ha)
  have hle := World.le_declare hA.frames.frame_next ⟨m.current, name.lexeme, n.current⟩
  refine ⟨_, _, rfl, ⟨hle, hA'.within hA'.active _, rfl, nofun, ?_⟩, ?_, ?_⟩
  · intro q f hf
    rcases World.frame_declare hf with hf | ⟨-, rfl⟩
    · exact .inl hf
    · exact .inr (.inr ⟨rfl, rfl⟩)
  · simp [Scopes.local?_add]
  · refine .locals (World.frame_declare_self ..) (hP.view.mono hle) fun q f hf howner => ?_
    rcases World.frame_declare hf with hf | ⟨-, rfl⟩
    · obtain ⟨s, hs, hsome⟩ := hP.declared q f hf howner
      obtain rfl : scope = s := Option.some.inj hs
      exact .inr hsome
    · exact .inl rfl

/-- The beginning of a declaration. -/
theorem Declaring.declare (hA : Agree T W m n) (hP : Placed W Γ m n) (ha : Γ.Admits name) :
    ∃ W' n', Lexical.declare (!Γ.isEmpty) name n = .ok () n' ∧ Step T (!Γ.isEmpty) W m n W' m n' ∧
      Declaring W' name Γ m n' := by
  cases Γ with
  | nil => exact ⟨W, n, rfl, .refl hA, .globals hP⟩
  | cons scope Γ =>
    obtain ⟨W', n', hn, hs, -, hdecl⟩ := Declaring.push hA hP ha .nil
    exact ⟨W', n', hn, hs, hdecl⟩

/-- A declaration gives its name a value, which may refer to the name itself. -/
theorem Lockstep.define (hA : Agree T W m n) (hD : Declaring W name Γ m n)
    (hname : name.lexeme ≠ "super") {v w : Value} (hvw : ∀ W', W ≤ W' →
    Placed W' (Γ.extend name) m n → v.Alike T W' w) :
    Lockstep T mode W m n (Exec.define name.lexeme v) (Exec.define name.lexeme w)
      fun W' m' n' _ _ => Declaring W' name Γ m' n' ∧ Placed W' (Γ.extend name) m' n' := by
  cases hD with
  | globals hP =>
    obtain ⟨hm, hn⟩ := hP.view.eq_zero
    have hA' := hA.setGlobal hm hn name.lexeme (hvw W W.le_refl hP)
    have hs : ∀ declares, Step T declares W m n _ _ _ :=
      fun _ => .of_frame_eq W.le_refl hA' rfl rfl rfl
    exact .ok (hs _) ⟨.globals (hP.step (hs false)), hP.step (hs false)⟩
  | @locals scope Γ m n p hf hview hdecl =>
    have hle := W.le_bind m.current name.lexeme
    have hD : Declaring W name (scope :: Γ) m n := .locals hf hview hdecl
    have hD' : Declaring (W.bind m.current name.lexeme) name (scope :: Γ) m n :=
      .locals hf (hview.mono hle) hdecl
    have hP := hD'.extended fun _ => .inr ⟨rfl, rfl⟩
    have hA' := hA.set hf ⟨hvw _ hle hP, fun h => absurd h hname⟩
    have hs : ∀ declares, Step T declares W m n _ _ _ := fun _ => .of_frame_eq hle hA' rfl rfl rfl
    have hD'' := hD.step (hs false)
    exact .ok (hs _) ⟨hD'', hD''.extended fun _ => .inr ⟨rfl, rfl⟩⟩

end

end Lox
