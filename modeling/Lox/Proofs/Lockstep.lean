import Lox.Proofs.Agreement

/-!
# Lockstep

`Lockstep T mode W m n x y Q` says of two computations, `x` on the machine `m` with scopes and `y`
on the machine `n` with frames, that they end alike: both with results related by `Q`, or both early
with exits that are alike, and never in a fault. The machines agree afterwards, in a world that has
only grown, and new frames belong to scopes further inside (`Step`). Computations in lockstep are
composed with `Lockstep.bind`, and `Placed` says where in a program the machines stand.
-/

namespace Lox

/-- What a computation may do: declare names in the active scope, and return from a function. -/
structure Mode where
  declares : Bool
  returns : Bool

namespace Mode

def quiet : Mode := ⟨false, false⟩

instance : LE Mode where
  le a b := (a.declares = true → b.declares = true) ∧ (a.returns = true → b.returns = true)

theorem le_refl (a : Mode) : a ≤ a := ⟨id, id⟩

theorem quiet_le (a : Mode) : quiet ≤ a := ⟨nofun, nofun⟩

end Mode

/-- What execution does to both machines, whichever way it ends. -/
structure Step (T : SiteTable) (declares : Bool) (W : World) (m n : Machine) (W' : World)
    (m' n' : Machine) : Prop where
  le : W ≤ W'
  agree : Agree T W' m' n'
  kept : (m'.current, m'.distances, m'.nextSite) = (m.current, m.distances, m.nextSite)
  current' : declares = false → n'.current = n.current
  fresh : ∀ q f, W'.frame q = some f →
    W.frame q = some f ∨ m.current < f.owner ∨ declares = true ∧ f.owner = m.current

namespace Step

variable {T : SiteTable} {declares : Bool} {W W' W'' : World} {m n m' n' m'' n'' : Machine}

theorem current (h : Step T declares W m n W' m' n') : m'.current = m.current :=
  congrArg Prod.fst h.kept

theorem distances (h : Step T declares W m n W' m' n') : m'.distances = m.distances :=
  congrArg (fun k => k.2.1) h.kept

theorem nextSite (h : Step T declares W m n W' m' n') : m'.nextSite = m.nextSite :=
  congrArg (fun k => k.2.2) h.kept

theorem refl (hA : Agree T W m n) : Step T declares W m n W m n :=
  ⟨W.le_refl, hA, rfl, fun _ => rfl, fun _ _ hf => .inl hf⟩

theorem trans (h : Step T declares W m n W' m' n') (h' : Step T declares W' m' n' W'' m'' n'') :
    Step T declares W m n W'' m'' n'' where
  le := World.le_trans h.le h'.le
  agree := h'.agree
  kept := h'.kept.trans h.kept
  current' hd := (h'.current' hd).trans (h.current' hd)
  fresh q f hf := by
    have hnew := h'.fresh q f hf
    rw [h.current] at hnew
    rcases hnew with hf | hf
    · exact h.fresh q f hf
    · exact .inr hf

theorem weaken {declares' : Bool} (hd : declares = true → declares' = true)
    (h : Step T declares W m n W' m' n') : Step T declares' W m n W' m' n' where
  le := h.le
  agree := h.agree
  kept := h.kept
  current' hd' := h.current' (by grind)
  fresh q f hf := by
    rcases h.fresh q f hf with hf | hf | ⟨hdecl, hf⟩
    · exact .inl hf
    · exact .inr (.inl hf)
    · exact .inr (.inr ⟨hd hdecl, hf⟩)

/-- A step that makes no frames. -/
theorem of_frame_eq (hle : W ≤ W') (hA : Agree T W' m' n') (hframe : W'.frame = W.frame)
    (hm : (m'.current, m'.distances, m'.nextSite) = (m.current, m.distances, m.nextSite))
    (hn : n'.current = n.current) : Step T declares W m n W' m' n' :=
  ⟨hle, hA, hm, fun _ => hn, fun _ _ hf => .inl (hframe ▸ hf)⟩

end Step

/-- The machines stand at a place of the program with the static scopes `Γ`; what the active scope
has frames for is declared there. -/
structure Placed (W : World) (Γ : Static) (m n : Machine) : Prop where
  view : View W Γ m.current n.current
  declared : ∀ q f, W.frame q = some f → f.owner = m.current →
    ∃ scope ∈ Γ.head?, (scope.get? f.name).isSome

theorem Placed.step {T : SiteTable} {W W' : World} {Γ : Static} {m n m' n' : Machine}
    (h : Placed W Γ m n) (hs : Step T false W m n W' m' n') : Placed W' Γ m' n' := by
  constructor
  · rw [hs.current, hs.current' rfl]
    exact h.view.mono hs.le
  · intro q f hf howner
    rw [hs.current] at howner
    rcases hs.fresh q f hf with hf | hlt | ⟨hd, -⟩
    · exact h.declared q f hf howner
    · exact absurd howner.symm (Nat.ne_of_lt hlt)
    · cases hd

/-- In a scope that was just made nothing is declared. -/
theorem Agree.placed {T : SiteTable} {W : World} {Γ : Static} {m n : Machine} (hA : Agree T W m n)
    {i p : ScopeId} (hview : View W Γ i p) (b : Bindings Value) :
    Agree T (W.enter m.scopes.next i)
        { m with scopes := m.scopes.add (some i) b, current := m.scopes.next }
          { n with current := p } ∧
      Placed (W.enter m.scopes.next i) (.empty :: Γ)
        { m with scopes := m.scopes.add (some i) b, current := m.scopes.next }
          { n with current := p } := by
  have hparent : (W.enter m.scopes.next i).parent m.scopes.next i := .inr ⟨rfl, rfl⟩
  refine ⟨(hA.enter i b).within (.inr ⟨i, hparent⟩) p, ?_, fun q f hf howner => ?_⟩
  · exact .enter (hview.mono (W.le_enter m.scopes.next i)) hparent
  · exact absurd howner (Nat.ne_of_lt (hA.frames.owner q f hf).2)

/-- A name that can be declared has no frame yet. -/
theorem Placed.new {W : World} {Γ : Static} {m n : Machine} (h : Placed W Γ m n) {name : Token}
    (ha : Γ.Admits name) : ∀ q f, W.frame q = some f → f.owner = m.current →
    f.name ≠ name.lexeme := by
  intro q f hf howner hname
  obtain ⟨scope, hscope, hsome⟩ := h.declared q f hf howner
  rw [hname, ha.2 scope hscope] at hsome
  cases hsome

/-! ## Computations -/

inductive Exit.Alike (T : SiteTable) (W : World) (returns : Bool) : Exit → Exit → Prop where
  | returned {v w : Value} : returns = true → v.Alike T W w →
      Alike T W returns (.returned v) (.returned w)
  | failed (e : RuntimeError) : Alike T W returns (.failed e) (.failed e)
  | overflow : Alike T W returns .overflow .overflow
  | unfinished : Alike T W returns .unfinished .unfinished

/-- What holds when both computations have a result. -/
abbrev Post (α β : Type) := World → Machine → Machine → α → β → Prop

/-- Both computations end alike. -/
inductive Ends {α β : Type} (T : SiteTable) (mode : Mode) (W : World) (m n : Machine)
    (Q : Post α β) :
    EStateM.Result Exit Machine α → EStateM.Result Exit Machine β → Prop where
  | ok {W' : World} {m' n' : Machine} {a : α} {b : β} : Step T mode.declares W m n W' m' n' →
      Q W' m' n' a b → Ends T mode W m n Q (.ok a m') (.ok b n')
  | error {W' : World} {m' n' : Machine} {e e' : Exit} : Step T mode.declares W m n W' m' n' →
      e.Alike T W' mode.returns e' → Ends T mode W m n Q (.error e m') (.error e' n')

def Lockstep {α β : Type} (T : SiteTable) (mode : Mode) (W : World) (m n : Machine) (x : Exec α)
    (y : Exec β) (Q : Post α β) : Prop := Ends T mode W m n Q (x m) (y n)

section

variable {T : SiteTable} {mode mode' : Mode} {W W' : World} {m n m' n' : Machine}
variable {α β γ δ : Type} {x : Exec α} {y : Exec β} {f : α → Exec γ} {g : β → Exec δ}
variable {P : Post α β} {Q : Post γ δ}

theorem Exit.Alike.weaken {e e' : Exit} {returns returns' : Bool} (h : e.Alike T W returns e')
    (hr : returns = true → returns' = true) : e.Alike T W returns' e' := by
  cases h with
  | returned h hvw => exact .returned (hr h) hvw
  | failed => exact .failed _
  | overflow => exact .overflow
  | unfinished => exact .unfinished

theorem Ends.after {r : EStateM.Result Exit Machine γ} {r' : EStateM.Result Exit Machine δ}
    (hs : Step T mode.declares W m n W' m' n') (h : Ends T mode W' m' n' Q r r') :
    Ends T mode W m n Q r r' := by
  cases h with
  | ok hs' hQ => exact .ok (hs.trans hs') hQ
  | error hs' he => exact .error (hs.trans hs') he

theorem Exec.get_bind (f : Machine → Exec γ) : (get >>= f : Exec γ) m = f m m := rfl

namespace Lockstep

theorem pure (hA : Agree T W m n) {a : α} {b : β} (hP : P W m n a b) :
    Lockstep T mode W m n (Pure.pure a) (Pure.pure b) P := .ok (.refl hA) hP

theorem throw (hA : Agree T W m n) {e e' : Exit} (he : e.Alike T W mode.returns e') :
    Lockstep T mode W m n (throw e) (throw e') P := .error (.refl hA) he

theorem fail (hA : Agree T W m n) (t : Token) (cause : Cause) :
    Lockstep T mode W m n (Exec.fail t cause) (Exec.fail t cause) P := throw hA (.failed _)

theorem weaken {P' : Post α β} (h : Lockstep T mode W m n x y P) (hmode : mode ≤ mode')
    (hP : ∀ {W' m' n' a b}, Step T mode.declares W m n W' m' n' → P W' m' n' a b →
      P' W' m' n' a b) :
    Lockstep T mode' W m n x y P' := by
  unfold Lockstep at h ⊢
  generalize x m = r at h ⊢
  generalize y n = r' at h ⊢
  cases h with
  | ok hs h => exact .ok (hs.weaken hmode.1) (hP hs h)
  | error hs he => exact .error (hs.weaken hmode.1) (he.weaken hmode.2)

/-- One computation after another. The first may be of a mode that does less. -/
theorem bind (hmode : mode' ≤ mode) (hx : Lockstep T mode' W m n x y P)
    (hf : ∀ {W' m' n' a b}, Step T mode'.declares W m n W' m' n' → P W' m' n' a b →
      Lockstep T mode W' m' n' (f a) (g b) Q) : Lockstep T mode W m n (x >>= f) (y >>= g) Q := by
  show Ends T mode W m n Q (EStateM.bind x f m) (EStateM.bind y g n)
  unfold Lockstep at hx
  unfold EStateM.bind
  generalize x m = r at hx ⊢
  generalize y n = r' at hx ⊢
  cases hx with
  | ok hs hP => exact Ends.after (hs.weaken hmode.1) (hf hs hP)
  | error hs he => exact .error (hs.weaken hmode.1) (he.weaken hmode.2)

theorem withState {f : Machine → Exec γ} {g : Machine → Exec δ}
    (h : Lockstep T mode W m n (f m) (g n) Q) : Lockstep T mode W m n (get >>= f) (get >>= g) Q := h

theorem map {f : α → γ} {g : β → δ} (hx : Lockstep T mode W m n x y P)
    (hQ : ∀ {W' m' n' a b}, P W' m' n' a b → Q W' m' n' (f a) (g b)) :
    Lockstep T mode W m n (f <$> x) (g <$> y) Q := by
  show Ends T mode W m n Q (EStateM.map f x m) (EStateM.map g y n)
  unfold Lockstep at hx
  unfold EStateM.map
  generalize x m = r at hx ⊢
  generalize y n = r' at hx ⊢
  cases hx with
  | ok hs hP => exact .ok hs (hQ hP)
  | error hs he => exact .error hs he

/-- Only the first machine goes on. -/
theorem left {a : α} {y : Exec δ} (hs : Step T mode.declares W m n W' m' n) (hx : x m = .ok a m')
    (h : Lockstep T mode W' m' n (f a) y Q) : Lockstep T mode W m n (x >>= f) y Q := by
  show Ends T mode W m n Q (EStateM.bind x f m) (y n)
  unfold EStateM.bind
  rw [hx]
  exact Ends.after hs h

/-- Only the second machine goes on. -/
theorem right {b : β} {x : Exec γ} (hs : Step T mode.declares W m n W' m n') (hy : y n = .ok b n')
    (h : Lockstep T mode W' m n' x (g b) Q) : Lockstep T mode W m n x (y >>= g) Q := by
  show Ends T mode W m n Q (x m) (EStateM.bind y g n)
  unfold EStateM.bind
  rw [hy]
  exact Ends.after hs h

/-- In a scope further inside, declarations do not concern the active scope. -/
theorem within {i p : ScopeId} (hA : Agree T W m n) (hi : m.current < i)
    (h : Lockstep T mode W { m with current := i } { n with current := p } x y P) :
    Lockstep T ⟨false, mode.returns⟩ W m n (Exec.within i x) (Exec.within p y) fun _ _ _ _ _ =>
      True := by
  have hstep : ∀ {W' m' n'},
      Step T mode.declares W { m with current := i } { n with current := p } W' m' n' →
      Step T false W m n W' { m' with current := m.current } { n' with current := n.current } := by
    intro W' m' n' hs
    refine ⟨hs.le, hs.agree.within (hA.active.mono hs.le) _, ?_, fun _ => rfl, fun q f hf => ?_⟩
    · exact congrArg (m.current, ·) (congrArg Prod.snd hs.kept)
    rcases hs.fresh q f hf with hf | hlt | ⟨-, heq⟩
    · exact .inl hf
    · exact .inr (.inl (Nat.lt_trans hi hlt))
    · exact .inr (.inl (heq ▸ hi))
  unfold Lockstep Exec.within at *
  simp only
  generalize x { m with current := i } = r at h ⊢
  generalize y { n with current := p } = r' at h ⊢
  cases h with
  | ok hs _ => exact .ok (hstep hs) trivial
  | error hs he => exact .error (hstep hs) he

theorem catchReturn {x y : Exec Unit} {P : Post Unit Unit}
    (h : Lockstep T ⟨false, true⟩ W m n x y P) :
    Lockstep T .quiet W m n (Exec.catchReturn x) (Exec.catchReturn y)
      fun W' _ _ v w => v.Alike T W' w := by
  unfold Lockstep Exec.catchReturn at *
  generalize x m = r at h ⊢
  generalize y n = r' at h ⊢
  cases h with
  | ok hs _ => exact .ok hs .nil
  | error hs he =>
    cases he with
    | returned _ hvw => exact .ok hs hvw
    | failed => exact .error hs (.failed _)
    | overflow => exact .error hs .overflow
    | unfinished => exact .error hs .unfinished

/-- A loop keeps what its test and its body keep. -/
theorem loop {I : World → Machine → Machine → Prop} {test test' : Exec Bool}
    {body body' : Exec Unit} (htest : ∀ {W m n}, Agree T W m n → I W m n →
      Lockstep T mode W m n test test' fun W' m' n' a b => a = b ∧ I W' m' n')
    (hbody : ∀ {W m n}, Agree T W m n → I W m n →
      Lockstep T mode W m n body body' fun W' m' n' _ _ => I W' m' n') :
    ∀ (bound : Nat) {W m n}, Agree T W m n → I W m n →
      Lockstep T mode W m n (Exec.loop bound test body) (Exec.loop bound test' body')
        fun W' m' n' _ _ => I W' m' n' := by
  intro bound
  induction bound with
  | zero =>
    intro W m n hA _
    exact throw hA .unfinished
  | succ bound ih =>
    intro W m n hA hI
    refine bind mode.le_refl (htest hA hI) fun {W' m' n' a b} hs h => ?_
    obtain ⟨rfl, hI⟩ := h
    cases a with
    | false => exact pure hs.agree hI
    | true => exact bind mode.le_refl (hbody hs.agree hI) fun hs' hI' => ih hs'.agree hI'

end Lockstep

end

end Lox
