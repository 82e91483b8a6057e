import Lox.Proofs.Names
import Lox.Proofs.Recording

/-!
# Names do not leak

Between the runs of a session, and whenever something is started during a run, what the machine
holds is well scoped (`Machine.NameInv`, `Machine.NameInv.enters`). From there on the scopes that
are there can be restricted: a statement binds no name in them but the one that it declares, and
that in the active scope (`Machine.names_exec`), and a call none at all (`Machine.names_call`). So
local names never get into scopes that were there before, and only declarations at top level make
globals (`names_never_leak`).
-/

namespace Lox

/-! ## Names -/

theorem Scopes.mem_names {s : Scopes} {i : ScopeId} {x : String} :
    x ∈ s.names i ↔ (s.local? i x).isSome := by
  have hmem : ∀ b : Bindings Value, x ∈ b.sorted.map (·.1) ↔ (b.get? x).isSome := by
    intro b
    rw [Bindings.isSome_get?, Bindings.sorted, Bindings.names, List.mem_map, List.mem_map]
    simp only [List.mem_mergeSort]
  unfold names local?
  cases s.all[i]? with
  | none => simpa using hmem .empty
  | some scope => exact hmem scope.bindings

/-- The scopes that are there bind the names that they bound before. -/
def Machine.SameNames (m m' : Machine) : Prop :=
  ∀ i, i < m.scopes.next → ∀ x, x ∈ m'.scopes.names i ↔ x ∈ m.scopes.names i

def Machine.globalNames (m : Machine) : List String := m.scopes.names m.globals

/-- The value is bound in a scope or held by a field. -/
def Machine.Holds (m : Machine) (v : Value) : Prop :=
  (∃ i x, m.scopes.local? i x = some v) ∨ ∃ i x, (m.fieldsOf i).get? x = some v

/-! ## Restricted scopes -/

/-- Nothing is restricted, so that all scopes can be full. -/
def NameSpec.unrestricted (T : SiteTable) : NameSpec :=
  ⟨T, fun _ => True, fun _ => False, fun _ => True⟩

/-- Scopes with numbers below `next` are restricted; only they need to be full. -/
def NameSpec.below (T : SiteTable) (next : Nat) (kept : ScopeId → Prop) (allowed : String → Prop) :
    NameSpec :=
  ⟨T, fun i => i < next, fun i => i < next ∧ kept i, allowed⟩

theorem NameSpec.laws_unrestricted (T : SiteTable) : (NameSpec.unrestricted T).invariant.Laws :=
  NameSpec.laws fun _ => False.elim

theorem NameSpec.laws_below (T : SiteTable) (next : Nat) (kept : ScopeId → Prop)
    (allowed : String → Prop) :
    (NameSpec.below T next kept allowed).invariant.Laws := NameSpec.laws fun _ h => h.1

section

variable {T : SiteTable} {m : Machine} {kept : ScopeId → Prop} {allowed : String → Prop}

theorem Machine.WellScoped.below (h : m.WellScoped (.unrestricted T)) (kept : ScopeId → Prop)
    (allowed : String → Prop) :
    m.WellScoped (.below T m.scopes.next kept allowed) where
  table := h.table
  globals := h.globals
  next := h.next
  root := h.root
  stored hv := (h.stored hv).mono (fun _ _ => id) (.refl _) fun _ _ => trivial
  field hv := (h.field hv).mono (fun _ _ => id) (.refl _) fun _ _ => trivial
  kept _ hj := hj.1

/-- What is restricted during a computation gets only allowed names. -/
theorem Invariant.Preserves.names {α : Type} {W : NameSpec} {x : Exec α}
    {P : Unit → Scopes → α → Prop} (h : W.invariant.Preserves () m x P) {j : ScopeId}
    (hj : W.kept j) {y : String} (hy : ((x.after m).scopes.local? j y).isSome) :
    (m.scopes.local? j y).isSome ∨ W.allowed y := by
  unfold Invariant.Preserves at h
  unfold Exec.after at hy
  generalize x m = r at h hy
  cases h with
  | ok hs _ => exact hs.moves j y hj hy
  | error hs _ => exact hs.moves j y hj hy

/-- A statement binds no name in scopes that are there but the one that it declares, and that in the
active scope. -/
theorem Machine.names_exec (h : m.WellScoped (.unrestricted T)) {s : Stmt}
    (hs : (NameSpec.unrestricted T).invariant.Fits () m (.exec s)) (bound depth : Nat) {i : ScopeId}
    (hi : i < m.scopes.next) {x : String}
    (hx : (((exec bound depth s).after m).scopes.local? i x).isSome) :
    (m.scopes.local? i x).isSome ∨ i = m.current ∧ ∃ t, s.declared? = some t ∧ t.lexeme = x := by
  obtain ⟨⟨Γ, restricted⟩, ⟨hsees, -⟩, hresolved, hΓ, -⟩ := hs
  have hsees : Sees (· < m.scopes.next) m.scopes Γ m.current :=
    hsees.mono (.refl _) fun _ _ => trivial
  by_cases hcurrent : i = m.current
  · -- All scopes are restricted, and the declared name is allowed.
    let W := NameSpec.below T m.scopes.next (fun _ => True)
      fun y => ∃ t, s.declared? = some t ∧ t.lexeme = y
    have hrun : W.invariant.Preserves () m (exec bound depth s) _ :=
      (Invariant.Kept.of_depth (NameSpec.laws_below ..) (W.follows (.all bound)) depth).exec
        (c := (Γ, true)) trivial (h.below _ _) ⟨hsees, fun _ => rfl⟩
        ⟨hresolved, hΓ, fun _ t ht => ⟨t, ht, rfl⟩⟩
    exact (hrun.names ⟨hi, trivial⟩ hx).imp_right fun hdecl => ⟨hcurrent, hdecl⟩
  · -- All scopes but the active one are restricted, and no name is allowed.
    let W := NameSpec.below T m.scopes.next (· ≠ m.current) fun _ => False
    have hrun : W.invariant.Preserves () m (exec bound depth s) _ :=
      (Invariant.Kept.of_depth (NameSpec.laws_below ..) (W.follows (.all bound)) depth).exec
        (c := (Γ, false)) trivial (h.below _ _) ⟨hsees, fun hkept => absurd rfl hkept.2⟩
        ⟨hresolved, hΓ, nofun⟩
    exact (hrun.names ⟨hi, hcurrent⟩ hx).imp_right False.elim

/-- A call binds no name in scopes that are there, whatever the number of arguments. -/
theorem Machine.names_call (h : m.WellScoped (.unrestricted T)) {v : Value} {args : List Value}
    (hv : v.WellScoped T (fun _ => True) m.scopes)
    (hargs : ∀ a ∈ args, a.WellScoped T (fun _ => True) m.scopes)
    (bound depth : Nat) {i : ScopeId} (hi : i < m.scopes.next) {x : String}
    (hx : (((call bound depth v args).after m).scopes.local? i x).isSome) :
    (m.scopes.local? i x).isSome := by
  let W := NameSpec.below T m.scopes.next (fun _ => True) fun _ => False
  have hmono : ∀ a : Value, a.WellScoped T (fun _ => True) m.scopes →
      a.WellScoped T W.full m.scopes :=
    fun a ha => ha.mono (fun _ _ => id) (.refl _) fun _ _ => trivial
  have hloose : W.invariant.loose () m.scopes :=
    fun i hi hlt => Nat.lt_irrefl _ (Nat.lt_of_lt_of_le hlt hi)
  have hrun : W.invariant.Preserves () m (call bound depth v args) _ :=
    (Invariant.Kept.of_depth (NameSpec.laws_below ..) (W.follows (.all bound)) depth).call trivial
      (h.below _ _) (hmono v hv) (fun a ha => hmono a (hargs a ha)) (.inl hloose)
  exact (hrun.names ⟨hi, trivial⟩ hx).resolve_right id

theorem Machine.SameNames.of_restores {α : Type} {x : Exec α} (hx : Exec.Restores x)
    (h : ∀ i, i < m.scopes.next → ∀ y, ((x.after m).scopes.local? i y).isSome →
      (m.scopes.local? i y).isSome) :
    m.SameNames (x.after m) := by
  intro i hi y
  rw [Scopes.mem_names, Scopes.mem_names]
  exact ⟨h i hi y, (hx m).scopes.bound i y⟩

theorem Machine.Holds.wellScoped {v : Value} (hv : m.Holds v) (h : m.WellScoped (.unrestricted T)) :
    v.WellScoped T (fun _ => True) m.scopes := by
  obtain ⟨i, x, hv⟩ | ⟨i, x, hv⟩ := hv
  · exact h.stored hv
  · exact h.field hv

end

/-! ## Sessions -/

/-- Between runs the globals are active, what the machine holds is well scoped, and no token to come
has a distance yet. -/
structure Machine.NameInv (m : Machine) : Prop where
  wellScoped : m.WellScoped (.unrestricted m.siteTable)
  current : m.current = 0
  unrecorded : m.Unrecorded

theorem Machine.siteTable_execute (m : Machine) (l : Limits) (program : List Stmt) :
    (m.execute l program).2.siteTable = m.siteTable := by
  obtain ⟨e, hkeeps⟩ := m.keeps_execute l program
  unfold siteTable
  rw [hkeeps.distances, hkeeps.nextSite]

namespace Machine.NameInv

variable {m : Machine}

theorem initial (clock : Clock) : (Machine.initial clock).NameInv where
  wellScoped := {
    table := fun _ _ h => h.2
    globals := rfl
    next := Nat.zero_lt_one
    root := rfl
    stored := fun hv => by
      obtain rfl := Machine.eq_native_of_initial hv
      trivial
    field := fun hv => by cases hv
    kept := fun _ => False.elim }
  current := rfl
  unrecorded := fun s _ => Distances.find?_empty s

/-- The table only grows when a text is read. -/
theorem wellScoped_read (h : m.NameInv) {d : Distances} {nextSite : Nat}
    (hnext : m.nextSite ≤ nextSite) (hd : ∀ s, s < m.nextSite → d.find? s = m.distances.find? s) :
    Machine.WellScoped (.unrestricted (siteTable { m with distances := d, nextSite }))
      { m with distances := d, nextSite } := by
  have hT : ∀ s o, m.siteTable s o → siteTable { m with distances := d, nextSite } s o :=
    fun s o hs => ⟨Nat.lt_of_lt_of_le hs.1 hnext, (hd s hs.1).trans hs.2⟩
  exact {
    table := fun _ _ hs => hs.2
    globals := h.wellScoped.globals
    next := h.wellScoped.next
    root := h.wellScoped.root
    stored := fun hv => (h.wellScoped.stored hv).mono hT (.refl _) fun _ => id
    field := fun hv => (h.wellScoped.field hv).mono hT (.refl _) fun _ => id
    kept := fun _ => False.elim }

theorem wellScoped_analysed (h : m.NameInv) (l : Limits) (source : String) :
    (m.analysed l source).WellScoped (.unrestricted (m.analysed l source).siteTable) :=
  h.wellScoped_read (Nat.le_add_right _ _) fun _ hs => find?_analysed (.inl hs)

/-- The program of a text is resolved by the table that the text is analysed with. -/
theorem stmts (h : m.NameInv) {l : Limits} {source : String} {program : List Stmt}
    (hok : (m.analysis l source).program = .ok program) {W : NameSpec}
    (hW : W.table = (m.analysed l source).siteTable)
    {restricted : Bool} (hallowed : restricted = true → ∀ s ∈ program, ∀ t, s.declared? = some t →
      W.allowed t.lexeme) :
    W.invariant.stmts ([], restricted) program := by
  have hresolved : Stmt.AllResolved W.table false [] program := by
    rw [hW]
    exact allResolved_analysed h.unrecorded hok
  exact NameSpec.stmts_of_resolved (show Static.Complete [] from fun _ h => nomatch h)
    hresolved hallowed

/-- A program is executed in the globals. -/
theorem place (h : m.NameInv) {W : NameSpec} {restricted : Bool}
    (hrestricted : W.kept 0 → restricted = true) (s : Scopes) :
    W.invariant.place ([], restricted) () s m.current := by
  rw [h.current]
  exact ⟨.globals, hrestricted⟩

/-- What goes on during a run is well scoped. -/
theorem enters (h : m.NameInv) {l : Limits} {source : String} {d : Nat} {t : Task} {n : Machine}
    (hn : m.Enters l source d t n) : n.WellScoped (.unrestricted (m.analysed l source).siteTable) ∧
      (NameSpec.unrestricted (m.analysed l source).siteTable).invariant.Fits () n t := by
  have hplace : (NameSpec.unrestricted (m.analysed l source).siteTable).invariant.place
      ([], false) () m.scopes m.current :=
    h.place False.elim m.scopes
  obtain ⟨_, hwell, hfits⟩ :=
    Invariant.fits_of_enters (NameSpec.laws_unrestricted (m.analysed l source).siteTable)
      (NameSpec.follows _ _) (h.wellScoped_analysed l source) hplace
        (fun _ hok => h.stmts hok rfl nofun) hn
  exact ⟨hwell, hfits⟩

/-- The execution of a text, under any specification that the machine is well scoped for. -/
theorem execute (h : m.NameInv) {l : Limits} {source : String} {program : List Stmt}
    (hok : (m.analysis l source).program = .ok program) {W : NameSpec}
    (hfull : ∀ j, W.kept j → W.full j)
    (hW : W.table = (m.analysed l source).siteTable) (hwell : (m.analysed l source).WellScoped W)
    {restricted : Bool}
    (hrestricted : W.kept 0 → restricted = true)
    (hallowed : restricted = true → ∀ s ∈ program, ∀ t, s.declared? = some t → W.allowed t.lexeme) :
    ((m.analysed l source).execute l program).2.WellScoped W ∧
      W.invariant.moves () m.scopes () ((m.analysed l source).execute l program).2.scopes := by
  have hplace :
      W.invariant.place ([], restricted) () (m.analysed l source).scopes
      (m.analysed l source).current := by
    rw [current_analysed]
    exact h.place hrestricted _
  obtain ⟨_, hwell', hmoves, -⟩ :=
    Invariant.execute (NameSpec.laws hfull) (W.follows (.all l.iterations)) trivial hwell
      hplace (h.stmts hok hW hallowed)
  rw [scopes_analysed] at hmoves
  exact ⟨hwell', hmoves⟩

theorem run (h : m.NameInv) (l : Limits) (source : String) : (m.run l source).2.NameInv := by
  have hplace := (m.ran_run l source).place_eq
  refine ⟨?_, (congrArg Prod.fst hplace).trans h.current, h.unrecorded.run l source⟩
  cases hprogram : (m.analysis l source).program with
  | ok program =>
    have hrestricted : (NameSpec.unrestricted (m.analysed l source).siteTable).kept 0 →
        false = true :=
      False.elim
    have hwell :=
      (h.execute hprogram (fun _ => False.elim) rfl (h.wellScoped_analysed l source)
        hrestricted nofun).1
    rw [run_of_ok hprogram, siteTable_execute]
    exact hwell
  | error o =>
    rw [run_of_error hprogram]
    exact h.wellScoped_analysed l source

theorem session (h : m.NameInv) (turns : List Turn) : (m.session Machine.run turns).2.NameInv := by
  induction turns generalizing m with
  | nil => exact h
  | cons t ts ih => exact ih (h.run t.limits t.source)

end Machine.NameInv

/-! ## Globals -/

/-- The text of a turn is executed, and declares the name at top level. -/
def Machine.Declares (m : Machine) (turn : Turn) (x : String) : Prop :=
  ∃ program, (m.analysis turn.limits turn.source).program = .ok program ∧
    ∃ s ∈ program, ∃ t, s.declared? = some t ∧ t.lexeme = x

theorem Machine.extends_run (m : Machine) (l : Limits) (source : String) :
    m.scopes.Extends (m.run l source).2.scopes := by
  obtain ⟨d, k, hrun | ⟨l', program, hrun⟩⟩ := m.ran_run l source
  · rw [hrun]
    exact .refl _
  · obtain ⟨e, hkeeps⟩ := keeps_execute { m with distances := d, nextSite := k } l' program
    rw [hrun]
    exact hkeeps.scopes

theorem Machine.extends_session (m : Machine) (turns : List Turn) :
    m.scopes.Extends (m.session Machine.run turns).2.scopes := by
  induction turns generalizing m with
  | nil => exact .refl _
  | cons t ts ih => exact (Machine.extends_run m t.limits t.source).trans (ih _)

/-- A run adds to the globals only what it declares at top level. -/
theorem Machine.NameInv.names_run {m : Machine} (h : m.NameInv) (turn : Turn) {x : String}
    (hx : ((m.run turn.limits turn.source).2.scopes.local? 0 x).isSome) :
    (m.scopes.local? 0 x).isSome ∨ m.Declares turn x := by
  cases hprogram : (m.analysis turn.limits turn.source).program with
  | ok program =>
    let allowed : String → Prop := fun y => ∃ s ∈ program, ∃ t, s.declared? = some t ∧ t.lexeme = y
    let n := m.analysed turn.limits turn.source
    let W := NameSpec.below n.siteTable n.scopes.next (· = 0) allowed
    have hfull : ∀ j, W.kept j → W.full j := fun _ hj => hj.1
    have hallowed : true = true → ∀ s ∈ program, ∀ t, s.declared? = some t → W.allowed t.lexeme :=
      fun _ s hs t ht => ⟨s, hs, t, ht, rfl⟩
    have hwell := h.wellScoped_analysed turn.limits turn.source
    obtain ⟨-, hmoves⟩ := h.execute hprogram hfull rfl (hwell.below _ _) (fun _ => rfl) hallowed
    rw [run_of_ok hprogram] at hx
    dsimp only at hx
    exact (hmoves 0 x ⟨hwell.next, rfl⟩ hx).imp_right fun hx => ⟨program, hprogram, hx⟩
  | error o =>
    rw [run_of_error hprogram, scopes_analysed] at hx
    exact .inl hx

/-- Every global of a session is a native or declared at top level. -/
theorem Machine.names_session (clock : Clock) (turns : List Turn) {x : String}
    (hx : (((Machine.initial clock).session Machine.run turns).2.scopes.local? 0 x).isSome) :
    x ∈ (natives 0).map Native.name ∨ ∃ before turn after, turns = before ++ turn :: after ∧
      ((Machine.initial clock).session Machine.run before).2.Declares turn x := by
  induction turns using List.reverseRecOn with
  | nil =>
    left
    have hx : ((Machine.initial clock).scopes.local? 0 x).isSome := hx
    rw [Machine.local?_initial] at hx
    split at hx
    · rename_i heq
      exact heq ▸ List.mem_singleton.2 rfl
    · cases hx
  | append_singleton turns turn ih =>
    rw [Machine.session_append] at hx
    rcases ((Machine.NameInv.initial clock).session turns).names_run turn hx with hx | hx
    · refine (ih hx).imp_right fun ⟨before, t, after, heq, hdeclares⟩ => ?_
      exact ⟨before, t, after ++ [turn], by rw [heq, List.append_assoc, List.cons_append],
        hdeclares⟩
    · exact .inr ⟨turns, turn, [], rfl, hx⟩

/-! ## Whole sessions -/

/-- A block or a call: what has scopes of its own. -/
def Task.IsScoped : Task → Prop
  | .exec (.block _) => True
  | .call _ _ => True
  | _ => False

/-- The states that a session goes through: those between runs, and those in which a piece of a run
is started. -/
inductive Machine.Visits (clock : Clock) (turns : List Turn) : Machine → Prop where
  | between {before after : List Turn} : turns = before ++ after →
      Visits clock turns ((Machine.initial clock).session Machine.run before).2
  | during {before after : List Turn} {turn : Turn} {depth : Nat} {task : Task} {n : Machine} :
      turns = before ++ turn :: after →
      Enters ((Machine.initial clock).session Machine.run before).2 turn.limits turn.source
        depth task n → Visits clock turns n

theorem Machine.Visits.wellScoped {clock : Clock} {turns : List Turn} {n : Machine}
    (h : Visits clock turns n) :
    ∃ T, n.WellScoped (.unrestricted T) := by
  cases h with
  | between _ => exact ⟨_, ((NameInv.initial clock).session _).wellScoped⟩
  | during _ hn => exact ⟨_, (((NameInv.initial clock).session _).enters hn).1⟩

/-- Blocks and calls that are started during a run bind no names in the scopes that are there. -/
theorem Machine.NameInv.sameNames {m n : Machine} (h : m.NameInv) {l : Limits} {source : String}
    {depth : Nat} {task : Task} (hn : m.Enters l source depth task n) (htask : task.IsScoped) :
    n.SameNames ((task.run l.iterations depth).after n) := by
  obtain ⟨hwell, hfits⟩ := h.enters hn
  have hrestores := Restoring.of_depth l.iterations depth
  cases task with
  | exec s =>
    cases s with
    | block body =>
      refine .of_restores (hrestores.exec _) fun i hi x hx => ?_
      rcases names_exec hwell hfits _ _ hi hx with hx | ⟨-, t, ht, -⟩
      · exact hx
      · cases ht
    | _ => exact htask.elim
  | call v args =>
    rw [Task.run, Exec.after_discard]
    exact .of_restores (hrestores.call v args) fun i hi x =>
      names_call hwell hfits.1 hfits.2.1 _ _ hi
  | _ => exact htask.elim

/-- A statement that is started during a run adds no name to the scopes that are there but the one
that it declares, and that to the active scope. -/
theorem Machine.NameInv.names_statement {m n : Machine} (h : m.NameInv) {l : Limits}
    {source : String} {depth : Nat} {s : Stmt} (hn : m.Enters l source depth (.exec s) n)
    {i : ScopeId} (hi : i < n.scopes.next) {x : String}
    (hx : x ∈ ((exec l.iterations depth s).after n).scopes.names i) :
    x ∈ n.scopes.names i ∨ i = n.current ∧ ∃ t, s.declared? = some t ∧ t.lexeme = x := by
  obtain ⟨hwell, hfits⟩ := h.enters hn
  rw [Scopes.mem_names] at hx ⊢
  exact names_exec hwell hfits _ _ hi hx

theorem Machine.mem_globalNames_session (clock : Clock) (turns : List Turn) (x : String) :
    x ∈ ((Machine.initial clock).session Machine.run turns).2.globalNames ↔
      (((Machine.initial clock).session Machine.run turns).2.scopes.local? 0 x).isSome := by
  rw [Machine.globalNames, ((Machine.NameInv.initial clock).session turns).wellScoped.globals,
    Scopes.mem_names]

/-- **Local names never leak.** Whenever a block is executed or a value called during a session, the
scopes that are there bind the same names afterwards, however it ends. The same holds if any value
that a state of the session holds is called, with any arguments. Any statement that is executed adds
to them no other name than the one that it declares, and that to the active scope. A run removes no
name from the globals and adds only names that its text declares at top level, so that each global
of a session is a native or was declared at top level. -/
theorem names_never_leak (clock : Clock) (turns : List Turn) :
    (∀ before turn after, turns = before ++ turn :: after →
      let m := ((Machine.initial clock).session Machine.run before).2
      (∀ depth task n, m.Enters turn.limits turn.source depth task n → task.IsScoped →
        n.SameNames ((task.run turn.limits.iterations depth).after n)) ∧
      (∀ depth s n, m.Enters turn.limits turn.source depth (.exec s) n → ∀ i, i < n.scopes.next →
        ∀ x ∈ ((exec turn.limits.iterations depth s).after n).scopes.names i,
          x ∈ n.scopes.names i ∨ i = n.current ∧ ∃ t, s.declared? = some t ∧ t.lexeme = x) ∧
      ∀ x ∈ (m.run turn.limits turn.source).2.globalNames, x ∈ m.globalNames ∨ m.Declares turn x) ∧
    (∀ n, Machine.Visits clock turns n → ∀ bound depth v args, n.Holds v →
      (∀ a ∈ args, n.Holds a ∨ a.IsPlain) → n.SameNames ((call bound depth v args).after n)) ∧
    (∀ before after, turns = before ++ after →
      ((Machine.initial clock).session Machine.run before).2.globalNames ⊆
      ((Machine.initial clock).session Machine.run turns).2.globalNames) ∧
    ∀ x ∈ ((Machine.initial clock).session Machine.run turns).2.globalNames,
      x ∈ (Machine.natives 0).map Native.name ∨
        ∃ before turn after, turns = before ++ turn :: after ∧
          ((Machine.initial clock).session Machine.run before).2.Declares turn x := by
  have hnames := Machine.mem_globalNames_session clock
  refine ⟨?_, fun n hn bound depth v args hv hargs => ?_, ?_, fun x hx => ?_⟩
  · intro before turn after _ m
    have hinv : m.NameInv := (Machine.NameInv.initial clock).session before
    refine ⟨fun depth task n hn htask => hinv.sameNames hn htask,
      fun depth s n hn i hi x hx => hinv.names_statement hn hi hx, fun x hx => ?_⟩
    rw [Machine.globalNames, (hinv.run turn.limits turn.source).wellScoped.globals,
      Scopes.mem_names] at hx
    rw [Machine.globalNames, hinv.wellScoped.globals, Scopes.mem_names]
    exact hinv.names_run turn hx
  · obtain ⟨T, hwell⟩ := hn.wellScoped
    have hargs : ∀ a ∈ args, a.WellScoped T (fun _ => True) n.scopes :=
      fun a ha => (hargs a ha).elim (·.wellScoped hwell) (·.wellScoped T _ _)
    exact .of_restores ((Restoring.of_depth bound depth).call v args) fun i hi x =>
      Machine.names_call hwell (hv.wellScoped hwell) hargs _ _ hi
  · rintro before after rfl x hx
    rw [hnames] at hx ⊢
    rw [Machine.session_append]
    exact (Machine.extends_session _ after).bound 0 x hx
  · exact Machine.names_session clock turns ((hnames turns x).1 hx)

def changer : Turn := ⟨⟨30, 5⟩, "var g = 1; fun f(a) \x7b var l = a; g = l; \x7d"⟩

/-- A block that assigns its variable before it is declared. -/
def early : Turn := ⟨⟨30, 5⟩, "\x7b var b = (b = 2); f(b); \x7d"⟩

def firstBlock? : List Stmt → Option (List Stmt)
  | .block body :: _ => some body
  | _ => none

theorem Machine.enters_firstBlock {m : Machine} {l : Limits} {source : String} {body : List Stmt}
    (h : (m.analysis l source).program.toOption.bind firstBlock? = some body) :
    m.Enters l source l.depth (.exec (.block body))
      { m.analysed l source with lastError := none } := by
  obtain ⟨program, hok, hbody⟩ := Option.bind_eq_some_iff.1 h
  have hstart := enters_of_toOption hok
  unfold firstBlock? at hbody
  split at hbody
  · cases hbody
    exact hstart.piece .statement
  · cases hbody

theorem Machine.holds_global {m : Machine} {x : String} {v : Value} (h : m.global? x = some v) :
    m.Holds v :=
  .inl ⟨m.globals, x, h⟩

/-- The block is executed, the function could be called without an argument, and `g` is a declared
global. -/
theorem names_never_leak_block :
    let m := ((Machine.initial (.still 0)).session Machine.run [changer]).2
    (∃ body n, Machine.Enters m early.limits early.source 30 (.exec (.block body)) n ∧
      n.SameNames ((Task.run 5 30 (.exec (.block body))).after n)) ∧
    (∃ v, m.global? "f" = some v ∧ m.SameNames ((call 5 30 v []).after m)) ∧
    "g" ∈ m.globalNames ∧
    ("g" ∈ (Machine.natives 0).map Native.name ∨
      ∃ before turn after, [changer, early] = before ++ turn :: after ∧
        ((Machine.initial (.still 0)).session Machine.run before).2.Declares turn "g") := by
  obtain ⟨hduring, hheld, hkept, hglobals⟩ := names_never_leak (.still 0) [changer, early]
  have hblock :
      (((((Machine.initial (.still 0)).session Machine.run [changer]).2.analysis early.limits
      early.source).program.toOption.bind firstBlock?)).isSome = true := by decide +kernel
  have hf : (((Machine.initial (.still 0)).session Machine.run [changer]).2.global?
      "f").isSome = true := by decide +kernel
  have hg : (((Machine.initial (.still 0)).session Machine.run [changer]).2.scopes.local?
      ((Machine.initial (.still 0)).session Machine.run [changer]).2.globals "g").isSome =
        true := by decide +kernel
  specialize hkept [changer] [early] rfl
  obtain ⟨hscoped, -⟩ := hduring [changer] early [] rfl
  have hvisits : Machine.Visits (.still 0) [changer, early] _ :=
    .between (show _ = [changer] ++ [early] from rfl)
  generalize ((Machine.initial (.still 0)).session Machine.run [changer]).2 =
    m at hblock hf hg hkept hscoped hvisits ⊢
  intro m'
  obtain ⟨body, hbody⟩ := Option.isSome_iff_exists.1 hblock
  obtain ⟨v, hv⟩ := Option.isSome_iff_exists.1 hf
  have henters : Machine.Enters m early.limits early.source _ _ _ := Machine.enters_firstBlock hbody
  have hmem : "g" ∈ m.globalNames := Scopes.mem_names.2 hg
  exact ⟨⟨body, _, henters, hscoped _ _ _ henters trivial⟩,
    ⟨v, hv, hheld m hvisits 5 30 v [] (Machine.holds_global hv) fun _ h => nomatch h⟩, hmem,
      hglobals "g" (hkept hmem)⟩

end Lox
