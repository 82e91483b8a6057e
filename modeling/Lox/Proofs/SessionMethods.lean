import Lox.Proofs.MethodScopes
import Lox.Proofs.Leaks

/-!
# Methods in sessions

`Machine.Begins` are the pieces of evaluation that are started in a session, and `Machine.Made` are
the classes that executions of class declarations make in it. Between runs, and whenever a piece is
started, what the machine holds is well bound, and the classes it knows were made in the session
(`Machine.MethodInv`, `Machine.Begins.wellBound`). No `this` or `super` that is bound at some point
of a session is ever bound to something else (`Machine.Visits.sameImplicit`).
-/

namespace Lox

/-! ## Classes that are made -/

/-- An execution of a class declaration on `n` makes a class. The name of the superclass, if there
is one, comes to `parent`. -/
inductive Machine.Makes (bound depth : Nat) (n : Machine) (name : Token) (methods : List FunDecl) :
    Option Token → Option Class → Class → Prop where
  | plain {n₁ n₂ : Machine} {c : Class} :
      Exec.define name.lexeme .nil n = .ok () n₁ →
      Exec.makeClass name.lexeme methods none n₁ = .ok c n₂ →
      Makes bound depth n name methods none none c
  | sub {t : Token} {parent c : Class} {n₁ n₂ n₃ : Machine} :
      Exec.define name.lexeme .nil n = .ok () n₁ →
      eval bound depth (.var t) n₁ = .ok (.cls parent) n₂ →
      Exec.makeClass name.lexeme methods (some parent) n₂ = .ok c n₃ →
      Makes bound depth n name methods (some t) (some parent) c

/-- What is made is a class with the declared methods and the given superclass. -/
theorem Exec.of_makeClass {name : String} {methods : List FunDecl} {parent : Option Class}
    {c : Class} {m m' : Machine} (h : Exec.makeClass name methods parent m = .ok c m') :
    c.superclass? = parent ∧ ∀ x f, c.own.methods.get? x = some f → f.decl ∈ methods := by
  have hclass : ∀ {scope n}, Exec.newClass name parent methods scope n = .ok c m' →
      c.superclass? = parent ∧ ∀ x f, c.own.methods.get? x = some f → f.decl ∈ methods := by
    intro scope n hc
    obtain ⟨b, hb, heq⟩ := Exec.newClass_eq name parent methods scope n
    cases heq.symm.trans hc
    exact ⟨MethodInvariant.superclass?_ofLayer _ parent, fun x f hf => (hb x f hf).2.1⟩
  cases parent with
  | none => exact hclass h
  | some parent => exact hclass h

theorem Machine.Makes.superclass {bound depth : Nat} {n : Machine} {name : Token}
    {methods : List FunDecl} {superclass : Option Token} {parent : Option Class} {c : Class}
    (h : n.Makes bound depth name methods superclass parent c) :
    c.superclass? = parent ∧ ∀ x f, c.own.methods.get? x = some f → f.decl ∈ methods := by
  cases h with
  | plain _ hc => exact Exec.of_makeClass hc
  | sub _ _ hc => exact Exec.of_makeClass hc

/-! ## Pieces of a session -/

/-- The pieces of evaluation that are started in a session, with the limits of their runs. -/
inductive Machine.Begins (clock : Clock) (turns : List Turn) :
    Limits → Nat → Task → Machine → Prop where
  | during {before after : List Turn} {turn : Turn} {depth : Nat} {task : Task} {n : Machine} :
      turns = before ++ turn :: after →
      Enters ((Machine.initial clock).session Machine.run before).2 turn.limits turn.source
        depth task n → Begins clock turns turn.limits depth task n

/-- In the session, an execution of the class declaration makes the class. -/
def Machine.Made (clock : Clock) (turns : List Turn) (name : Token) (superclass : Option Token)
    (methods : List FunDecl) (parent : Option Class) (c : Class) : Prop :=
  ∃ l depth n,
    Machine.Begins clock turns l (depth + 1) (.exec (.classDecl name superclass methods)) n ∧
    n.Makes l.iterations depth name methods superclass parent c

def Machine.Known (clock : Clock) (turns : List Turn) (c : Class) : Prop :=
  ∃ name superclass methods parent, Machine.Made clock turns name superclass methods parent c

theorem Machine.Begins.visits {clock : Clock} {turns : List Turn} {l : Limits} {depth : Nat}
    {task : Task} {n : Machine} (h : Begins clock turns l depth task n) : Visits clock turns n := by
  cases h with
  | during hturns hn => exact .during hturns hn

/-! ## Runs -/

/-- Between runs what the machine holds is well bound, and no token to come has a distance yet. -/
structure Machine.MethodInv (V : Class → Prop) (m : Machine) : Prop where
  wellBound : m.WellBound m.siteTable V m.fields.size
  unrecorded : m.Unrecorded

abbrev Machine.methodInvariantIn (m : Machine) (l : Limits) (source : String) (V : Class → Prop) :
    Invariant Nat MethodContext :=
  methodInvariant (m.analysed l source).siteTable V

/-- The classes that are made in a run satisfy `V`. -/
abbrev Machine.Admits (m : Machine) (l : Limits) (source : String) (V : Class → Prop) : Prop :=
  (m.methodInvariantIn l source V).Follows (m.course l source)

theorem Scopes.respects_sameImplicit (T : SiteTable) (V : Class → Prop) :
    (methodInvariant T V).Respects Scopes.SameImplicit :=
  ⟨.refl, .trans, fun h _ => h.2⟩

namespace Machine.MethodInv

variable {V : Class → Prop} {m : Machine}

theorem initial (V : Class → Prop) (clock : Clock) : (Machine.initial clock).MethodInv V where
  wellBound := {
    table := fun _ _ h => h.2
    instances := rfl
    stored := fun hv => by
      obtain rfl := Machine.eq_native_of_initial hv
      trivial
    field := fun hv => by cases hv }
  unrecorded := fun s _ => Distances.find?_empty s

/-- The table only grows when a text is read. -/
theorem wellBound_read (h : m.MethodInv V) {d : Distances} {nextSite : Nat}
    (hnext : m.nextSite ≤ nextSite) (hd : ∀ s, s < m.nextSite → d.find? s = m.distances.find? s) :
    Machine.WellBound (siteTable { m with distances := d, nextSite }) V m.fields.size
      { m with distances := d, nextSite } := by
  have hT : ∀ s o, m.siteTable s o → siteTable { m with distances := d, nextSite } s o :=
    fun s o hs => ⟨Nat.lt_of_lt_of_le hs.1 hnext, (hd s hs.1).trans hs.2⟩
  exact {
    table := fun _ _ hs => hs.2
    instances := rfl
    stored := fun hv => (h.wellBound.stored hv).mono (Nat.le_refl _) hT (.refl _) (.refl _)
    field := fun hv => (h.wellBound.field hv).mono (Nat.le_refl _) hT (.refl _) (.refl _) }

theorem wellBound_analysed (h : m.MethodInv V) (l : Limits) (source : String) :
    (m.analysed l source).WellBound (m.analysed l source).siteTable V m.fields.size :=
  h.wellBound_read (Nat.le_add_right _ _) fun _ hs => find?_analysed (.inl hs)

variable {l : Limits} {source : String}

/-- Keywords of a program stand in methods, and their distances are in the table. -/
theorem stmts (h : m.MethodInv V) {program : List Stmt}
    (hok : (m.analysis l source).program = .ok program) :
    (m.methodInvariantIn l source V).stmts ⟨0, none⟩ program := by
  obtain ⟨rfl, -, -, herr, -⟩ := (m.analysed_analysis l source).of_ok hok
  have hfound := (m.analysed_analysis l source).resolutions_of_ok hok
  have hwf := (parse_found_of_scan m.nextSite source).1
  obtain ⟨hnone, hmethods⟩ := methods_resolve hwf herr 0
  refine MethodInvariant.stmts hwf (by rw [hnone]; exact List.nil_subset _) fun p hp r hr => ?_
  obtain ⟨hsuper, hr⟩ := hmethods p hp r hr
  rw [← hfound] at hr
  refine ⟨⟨?_, (recordsOnce_analysed h.unrecorded l source).recorded r hr⟩, hsuper⟩
  rw [nextSite_analysed]
  exact ((m.analysed_analysis l source).site_of_mem hr).2

/-- What goes on during a run is well bound. -/
theorem enters (h : m.MethodInv V) (hV : m.Admits l source V) {d : Nat} {t : Task} {n : Machine}
    (hn : m.Enters l source d t n) :
    ∃ k, n.WellBound (m.analysed l source).siteTable V k ∧
      (m.methodInvariantIn l source V).Fits k n t :=
  Invariant.fits_of_enters (MethodInvariant.laws _ V) hV (h.wellBound_analysed l source) .outside
    (fun _ => h.stmts) hn

/-- From each state of a run to its end, implicit variables stay as they are. -/
theorem enters_sameImplicit (h : m.MethodInv V) (hV : m.Admits l source V) {d : Nat} {t : Task}
    {n : Machine} (hn : m.Enters l source d t n) :
    n.scopes.SameImplicit (m.run l source).2.scopes :=
  (Scopes.respects_sameImplicit _ V).enters (MethodInvariant.laws _ V) hV
    (h.wellBound_analysed l source) .outside (fun _ => h.stmts) hn

/-- They do so from the end of each piece too. -/
theorem after_sameImplicit (h : m.MethodInv V) (hV : m.Admits l source V) {d : Nat} {t : Task}
    {n : Machine} (hn : m.Enters l source d t n) :
    ((t.run l.iterations d).after n).scopes.SameImplicit (m.run l source).2.scopes :=
  (Scopes.respects_sameImplicit _ V).after_enters (MethodInvariant.laws _ V) hV
    (h.wellBound_analysed l source) .outside (fun _ => h.stmts) hn

/-- The execution of a program. -/
theorem execute (h : m.MethodInv V) (hV : m.Admits l source V) {program : List Stmt}
    (hok : (m.analysis l source).program = .ok program) :
    ∃ k, ((m.analysed l source).execute l program).2.WellBound (m.analysed l source).siteTable V k ∧
      m.scopes.SameImplicit ((m.analysed l source).execute l program).2.scopes := by
  obtain ⟨k, hwell, hmoves, -⟩ := Invariant.execute (MethodInvariant.laws _ V) hV (.program hok)
    (h.wellBound_analysed l source) .outside (h.stmts hok)
  rw [scopes_analysed] at hmoves
  exact ⟨k, hwell, hmoves.2⟩

theorem run (h : m.MethodInv V) (hV : m.Admits l source V) : (m.run l source).2.MethodInv V := by
  refine ⟨?_, h.unrecorded.run l source⟩
  cases hprogram : (m.analysis l source).program with
  | ok program =>
    obtain ⟨k, hwell, -⟩ := h.execute hV hprogram
    rw [run_of_ok hprogram, siteTable_execute]
    rw [hwell.instances] at hwell
    exact hwell
  | error o =>
    rw [run_of_error hprogram]
    exact h.wellBound_analysed l source

theorem sameImplicit (h : m.MethodInv V) (hV : m.Admits l source V) :
    m.scopes.SameImplicit (m.run l source).2.scopes := by
  cases hprogram : (m.analysis l source).program with
  | ok program =>
    obtain ⟨k, -, hsame⟩ := h.execute hV hprogram
    rw [run_of_ok hprogram]
    exact hsame
  | error o =>
    rw [run_of_error hprogram, scopes_analysed]
    exact .refl _

end Machine.MethodInv

/-! ## Sessions -/

namespace Machine

/-- The classes that are made in the runs of a session satisfy `V`. -/
def Permits (clock : Clock) (turns : List Turn) (V : Class → Prop) : Prop :=
  ∀ before turn after, turns = before ++ turn :: after →
    Admits ((Machine.initial clock).session Machine.run before).2 turn.limits turn.source V

variable {clock : Clock} {turns : List Turn} {V : Class → Prop}

theorem permits_known (clock : Clock) (turns : List Turn) :
    Permits clock turns (Known clock turns) :=
  fun _ _ _ hturns => {
    plain := fun hK hdefine _ _ hc => ⟨_, _, _, _, _, _, _, .during hturns hK, .plain hdefine hc⟩
    sub := fun hK hdefine hname _ _ hc =>
      ⟨_, _, _, _, _, _, _, .during hturns hK, .sub hdefine hname hc⟩ }

theorem permits_all (clock : Clock) (turns : List Turn) : Permits clock turns fun _ => True :=
  fun _ _ _ _ => MethodInvariant.follows_all _ _

theorem session_run (m : Machine) (before : List Turn) (turn : Turn) :
    (m.session Machine.run (before ++ [turn])).2 =
      ((m.session Machine.run before).2.run turn.limits turn.source).2 := by
  rw [session_append]
  rfl

theorem methodInv_session (hV : Permits clock turns V) {before after : List Turn}
    (hturns : turns = before ++ after) :
    ((Machine.initial clock).session Machine.run before).2.MethodInv V := by
  induction before using List.reverseRecOn generalizing after with
  | nil => exact .initial _ clock
  | append_singleton before turn ih =>
    have hturns : turns = before ++ turn :: after := by
      rw [hturns, List.append_assoc, List.singleton_append]
    rw [session_run]
    exact (ih hturns).run (hV _ _ _ hturns)

/-- From the end of a run to the end of the session, implicit variables stay as they are. -/
theorem sameImplicit_session {before after : List Turn} (hturns : turns = before ++ after) :
    ((Machine.initial clock).session Machine.run before).2.scopes.SameImplicit
      ((Machine.initial clock).session Machine.run turns).2.scopes := by
  induction after generalizing before with
  | nil =>
    rw [hturns, List.append_nil]
    exact .refl _
  | cons turn after ih =>
    have hnext : turns = (before ++ [turn]) ++ after := by
      rw [hturns, List.append_assoc, List.singleton_append]
    have hrest := ih hnext
    have hV := permits_all clock turns
    rw [session_run] at hrest
    exact ((methodInv_session hV hturns).sameImplicit (hV _ _ _ hturns)).trans hrest

theorem sameImplicit_of_run {before after : List Turn} {turn : Turn}
    (hturns : turns = before ++ turn :: after) :
    (((Machine.initial clock).session Machine.run before).2.run turn.limits
      turn.source).2.scopes.SameImplicit
        ((Machine.initial clock).session Machine.run turns).2.scopes := by
  have hturns : turns = (before ++ [turn]) ++ after := by
    rw [hturns, List.append_assoc, List.singleton_append]
  rw [← session_run]
  exact sameImplicit_session hturns

theorem Visits.sameImplicit {n : Machine} (h : Visits clock turns n) :
    n.scopes.SameImplicit ((Machine.initial clock).session Machine.run turns).2.scopes := by
  cases h with
  | between hturns => exact sameImplicit_session hturns
  | during hturns hn =>
    have hV := permits_all clock turns
    have hrun := (methodInv_session hV hturns).enters_sameImplicit (hV _ _ _ hturns) hn
    exact hrun.trans (sameImplicit_of_run hturns)

theorem Begins.after_sameImplicit {l : Limits} {depth : Nat} {task : Task} {n : Machine}
    (h : Begins clock turns l depth task n) :
    ((task.run l.iterations depth).after n).scopes.SameImplicit
      ((Machine.initial clock).session Machine.run turns).2.scopes := by
  cases h with
  | during hturns hn =>
    have hV := permits_all clock turns
    have hrun := (methodInv_session hV hturns).after_sameImplicit (hV _ _ _ hturns) hn
    exact hrun.trans (sameImplicit_of_run hturns)

/-- Whenever a piece is started, what the machine holds is well bound, and the piece can be done. -/
theorem Begins.wellBound (hV : Permits clock turns V) {l : Limits} {depth : Nat} {task : Task}
    {n : Machine} (h : Begins clock turns l depth task n) : ∃ T k, n.WellBound T V k ∧
    (methodInvariant T V).Fits k n task := by
  cases h with
  | during hturns hn => exact ⟨_, (methodInv_session hV hturns).enters (hV _ _ _ hturns) hn⟩

theorem Visits.wellBound (hV : Permits clock turns V) {n : Machine} (h : Visits clock turns n) :
    ∃ T k, n.WellBound T V k := by
  cases h with
  | between hturns => exact ⟨_, _, (methodInv_session hV hturns).wellBound⟩
  | during hturns hn =>
    obtain ⟨k, hwell, -⟩ := (methodInv_session hV hturns).enters (hV _ _ _ hturns) hn
    exact ⟨_, k, hwell⟩

end Machine

end Lox
