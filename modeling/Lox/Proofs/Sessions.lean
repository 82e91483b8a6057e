import Lox.Proofs.Analysis
import Lox.Proofs.Simulation

/-!
# Sessions

Texts are run one after another on one machine (`Machine.session`). Between two runs the machine
that runs them by distance agrees with the one that runs them by name (`Between`); a run keeps that,
whichever way it ends, and gives the same report on both (`Between.run`). So a session never ends a
run in a fault or with a `return` that no function caught (`session_regular`).
-/

namespace Lox

structure Turn where
  limits : Limits
  source : String

/-- Runs texts one after another, `run` being how a text is run. -/
def Machine.session (run : Machine → Limits → String → Report × Machine) (m : Machine) :
    List Turn → List Report × Machine
  | [] => ([], m)
  | t :: ts =>
    let (r, m) := run m t.limits t.source
    let (rs, m) := m.session run ts
    (r :: rs, m)

theorem Machine.session_nil (run : Machine → Limits → String → Report × Machine) (m : Machine) :
    m.session run [] = ([], m) := rfl

theorem Machine.session_cons (run : Machine → Limits → String → Report × Machine) (m : Machine)
    (t : Turn) (ts : List Turn) : m.session run (t :: ts) =
      ((run m t.limits t.source).1 ::
        ((run m t.limits t.source).2.session run ts).1,
        ((run m t.limits t.source).2.session run ts).2) := rfl

theorem Machine.length_session (run : Machine → Limits → String → Report × Machine) (m : Machine)
    (turns : List Turn) : (m.session run turns).1.length = turns.length := by
  induction turns generalizing m with
  | nil => rfl
  | cons t ts ih => rw [Machine.session_cons, List.length_cons, List.length_cons, ih]

/-- Static errors keep a text from being executed, or it nests too deep for its static errors to be
known, or there are none and its execution ends, fails, or meets a limit. -/
def Report.Regular (r : Report) : Prop :=
  match r.outcome with
  | .refused => r.staticErrors ≠ []
  | .unread => r.staticErrors = []
  | .unresolved => r.staticErrors = []
  | .completed => r.staticErrors = []
  | .stopped (.failed _) => r.staticErrors = []
  | .stopped .overflow => r.staticErrors = []
  | .stopped .unfinished => r.staticErrors = []
  | .stopped (.returned _) => False
  | .stopped (.fault _) => False

def Machine.siteTable (m : Machine) : SiteTable :=
  fun s o => s < m.nextSite ∧ m.distances.find? s = o

/-- The machines agree and are outside of any block, and no token to come has a distance yet. -/
structure Between (m n : Machine) : Prop where
  agree : ∃ W, Agree m.siteTable W m n
  current : m.current = 0
  current' : n.current = 0
  fresh : ∀ s, m.nextSite ≤ s → m.distances.find? s = none

/-! ## A new machine -/

def World.none : World := ⟨fun _ _ => False, fun _ _ => False, fun _ => Option.none⟩

theorem Machine.local?_initial (clock : Clock) (x : String) :
    (Machine.initial clock).scopes.local? 0 x =
    if x = "clock" then some (.native ⟨0, "clock", 0, .clock⟩) else none := by
  show ((Scopes.empty.add none .empty).define 0 "clock"
    (.native ⟨0, "clock", 0, .clock⟩)).local? 0 x = _
  by_cases hx : x = "clock"
  · rw [hx, if_pos rfl]
    exact Scopes.local?_define_self (Nat.zero_lt_one)
  · rw [Scopes.local?_define_of_ne _ _ _ _ _ _ (.inr (Ne.symm hx)), if_neg hx]
    rfl

/-- All that a new machine holds. -/
theorem Machine.eq_native_of_initial {clock : Clock} {i : ScopeId} {x : String} {v : Value}
    (hv : (Machine.initial clock).scopes.local? i x = some v) :
    v = .native ⟨0, "clock", 0, .clock⟩ := by
  rcases Scopes.of_local?_define hv with hv | hv
  · exact hv
  · rcases Scopes.of_local?_add hv with hv | hv <;> cases hv

theorem Between.initial (clock : Clock) : Between (.initial clock) (.initial clock) := by
  have hglobals : ∀ x, Option.Rel (Value.Alike (Machine.initial clock).siteTable World.none)
      ((Machine.initial clock).scopes.local? 0 x) ((Machine.initial clock).scopes.local? 0 x) := by
    intro x
    rw [Machine.local?_initial]
    split
    · exact .some (.native rfl rfl)
    · exact .none
  refine ⟨⟨World.none, ?_⟩, rfl, rfl, fun s _ => Distances.find?_empty s⟩
  exact {
    scopes := ⟨rfl, Nat.zero_lt_one, nofun, nofun⟩
    frames := ⟨rfl, Nat.zero_lt_one, nofun, nofun, nofun, nofun, nofun, nofun⟩
    contents := ⟨nofun, hglobals⟩
    active := .inl rfl
    globals := rfl
    globals' := rfl
    fieldCount := rfl
    fields := fun _ _ => .none
    nextId := rfl
    printed := rfl
    clock := rfl
    lastError := rfl
    nextSite := rfl
    table := fun _ _ h => h.2 }

section

variable {T T' : SiteTable} {W : World} {m n : Machine}

/-! ## Static analysis -/

/-- More is resolved. -/
theorem Agree.resolve (hA : Agree T W m n) (hT : ∀ s o, T s o → T' s o) {d : Distances}
    (hd : ∀ s o, T' s o → d.find? s = o) (k : Nat) :
    Agree T' W { m with distances := d, nextSite := k } { n with nextSite := k } :=
  { hA with
    contents := {
      locals := fun q f v hf hb hv => by
        obtain ⟨w, hw, hvw, hsuper⟩ := hA.contents.locals q f v hf hb hv
        exact ⟨w, hw, hvw.mono hT W.le_refl, hsuper⟩
      globals :=
        fun x => optionRel_mono (fun _ _ h => h.mono hT W.le_refl) (hA.contents.globals x) }
    fields := fun k x => optionRel_mono (fun _ _ h => h.mono hT W.le_refl) (hA.fields k x)
    nextSite := rfl
    table := hd }

/-- A text in which resolution finds no errors is resolved by the table that its distances are added
to. -/
theorem allResolved_of_scan {m : Machine} (hnew : ∀ s, m.nextSite ≤ s → m.distances.find? s = none)
    {source : String} (herr : (resolve (statementsOf m.nextSite source)).errors = []) :
    Stmt.AllResolved (Machine.siteTable { m with
        distances := m.distances.recordAll (resolve (statementsOf m.nextSite source)).resolutions
        nextSite := m.nextSite + (scan m.nextSite source).tokens.length })
      false [] (statementsOf m.nextSite source) := by
  obtain ⟨hshape, -⟩ := parse_found_of_scan m.nextSite source
  have hsites := nodup_referenceSites m.nextSite source
  have hrec := recorded_recordAll (within_resolve _) hsites
    (fun _ hp => hnew _ (site_of_mem_references hp).1) (fun _ hp => (site_of_mem_references hp).2)
  exact resolved_of_resolve hshape ⟨herr, hrec, hsites.of_map⟩

theorem Machine.allResolved_analysed {m : Machine} {l : Limits} {source : String}
    {program : List Stmt} (hnew : ∀ s, m.nextSite ≤ s → m.distances.find? s = none)
    (hok : (m.analysis l source).program = .ok program) :
    Stmt.AllResolved (m.analysed l source).siteTable false [] program := by
  have hanalysed := m.analysed_analysis l source
  obtain ⟨rfl, -, -, herr, -⟩ := hanalysed.of_ok hok
  rw [analysed, hanalysed.resolutions_of_ok hok]
  exact allResolved_of_scan hnew herr

/-! ## Execution -/

/-- The outcome of a program that was executed. -/
def Outcome.Regular : Outcome → Prop
  | .completed => True
  | .stopped (.failed _) => True
  | .stopped .overflow => True
  | .stopped .unfinished => True
  | _ => False

/-- Programs that are resolved have the same outcome by distance and by name. -/
theorem Agree.execute (hA : Agree T W m n) (hm : m.current = 0) (hn : n.current = 0) (l : Limits)
    {program : List Stmt} (hres : Stmt.AllResolved T false [] program) :
    (m.execute l program).1 = (n.executeByName l program).1 ∧ (m.execute l program).1.Regular ∧
      ∃ W', Step T false W m n W' (m.execute l program).2 (n.executeByName l program).2 := by
  have hA₁ : Agree T W { m with lastError := none } { n with lastError := none } :=
    { hA with lastError := rfl }
  have hview : View W [] m.current n.current := by
    rw [hm, hn]
    exact .globals
  have hP : Placed W [] { m with lastError := none } { n with lastError := none } := by
    refine ⟨hview, fun q f hf howner => ?_⟩
    exact absurd (howner.trans hm) (hA.frames.owner q f hf).1
  have hrun := (simulated T l.iterations l.depth).execAll hA₁ hP hres
  have hstart : Step T false W m n W { m with lastError := none } { n with lastError := none } :=
    .of_frame_eq W.le_refl hA₁ rfl rfl rfl
  unfold Machine.execute Machine.executeByName
  unfold Lockstep at hrun
  change Ends _ _ _ _ _ _ (execAll l.iterations l.depth program { m with lastError := none })
    (Lexical.execAll l.iterations l.depth program { n with lastError := none }) at hrun
  generalize execAll l.iterations l.depth program { m with lastError := none } = r at hrun ⊢
  generalize Lexical.execAll l.iterations l.depth program { n with lastError := none } =
    r' at hrun ⊢
  cases hrun with
  | @ok W' _ _ _ _ hs _ => exact ⟨rfl, trivial, W', hstart.trans hs⟩
  | @error W' m' n' _ _ hs he =>
    cases he with
    | returned h _ => cases h
    | failed e =>
      have hA' : Agree T W' { m' with lastError := some e } { n' with lastError := some e } :=
        { hs.agree with lastError := rfl }
      exact ⟨rfl, trivial, W', (hstart.trans hs).trans (.of_frame_eq W'.le_refl hA' rfl rfl rfl)⟩
    | overflow => exact ⟨rfl, trivial, W', hstart.trans hs⟩
    | unfinished => exact ⟨rfl, trivial, W', hstart.trans hs⟩

end

/-! ## Runs -/

theorem Between.step {m n m' n' : Machine} {W W' : World} (h : Between m n)
    (hs : Step m.siteTable false W m n W' m' n') : Between m' n' := by
  have htable : m'.siteTable = m.siteTable := by
    unfold Machine.siteTable
    rw [hs.distances, hs.nextSite]
  refine ⟨⟨W', htable ▸ hs.agree⟩, hs.current.trans h.current, (hs.current' rfl).trans h.current',
    ?_⟩
  rw [hs.distances, hs.nextSite]
  exact h.fresh

theorem Between.execute {m n : Machine} (h : Between m n) (l : Limits) {program : List Stmt}
    (hres : Stmt.AllResolved m.siteTable false [] program) :
    (m.execute l program).1 = (n.executeByName l program).1 ∧ (m.execute l program).1.Regular ∧
      Between (m.execute l program).2 (n.executeByName l program).2 := by
  obtain ⟨W, hA⟩ := h.agree
  obtain ⟨hout, hreg, W', hs⟩ := hA.execute h.current h.current' l hres
  exact ⟨hout, hreg, h.step hs⟩

/-- What both ways of running do with a text before anything is executed. -/
theorem Between.analyse {m n : Machine} (h : Between m n) (l : Limits) (source : String) :
    Between (m.analysed l source) (n.scan source).2 := by
  obtain ⟨W, hA⟩ := h.agree
  have hnext : (n.scan source).2 = { n with nextSite := (m.analysed l source).nextSite } := by
    rw [Machine.nextSite_analysed, hA.nextSite]
    rfl
  rw [hnext]
  refine ⟨⟨W, hA.resolve (fun s o hs => ?_) (fun s o hs => hs.2) _⟩, h.current, h.current',
    fun s hs => ?_⟩
  · refine ⟨?_, (Machine.find?_analysed (.inl hs.1)).trans hs.2⟩
    rw [Machine.nextSite_analysed]
    exact Nat.lt_add_right _ hs.1
  · rw [Machine.nextSite_analysed] at hs
    rw [Machine.find?_analysed (.inr hs)]
    exact h.fresh s (by omega)

/-- The report on a text that is not executed. -/
theorem Analysed.regular {k depth : Nat} {source : String} {a : Analysis}
    (h : Analysed k depth source a) {o : Outcome} (ho : a.program = .error o) :
    Report.Regular ⟨a.toPhases, o⟩ := by
  cases h with
  | unread => cases ho; exact rfl
  | misread _ herr =>
    cases ho
    simpa [Report.Regular, Report.staticErrors, Outcome.parsed, Outcome.resolved, Phases.of]
      using herr
  | unresolved => cases ho; exact rfl
  | rejected _ _ herr =>
    cases ho
    simp [Report.Regular, Report.staticErrors, Outcome.parsed, Outcome.resolved, Phases.of, herr]
  | accepted => cases ho

/-- The report on a text that is executed. -/
theorem Analysed.regular_of_ok {k depth : Nat} {source : String} {a : Analysis}
    (h : Analysed k depth source a) {program : List Stmt} (hok : a.program = .ok program)
    {o : Outcome}
    (ho : o.Regular) : Report.Regular ⟨a.toPhases, o⟩ := by
  obtain ⟨-, hwell, -, herr, hphases⟩ := h.of_ok hok
  have hnone : Report.staticErrors ⟨a.toPhases, o⟩ = [] := by
    simp [Report.staticErrors, hphases, Phases.of, hwell.scanErrors, hwell.parseErrors, herr]
  unfold Report.Regular
  split <;> simp_all [Outcome.Regular]

theorem Machine.runByName_of_ok {m : Machine} {l : Limits} {source : String} {program : List Stmt}
    (h : (m.analysis l source).program = .ok program) :
    m.runByName l source =
      (⟨(m.analysis l source).toPhases, ((m.scan source).2.executeByName l program).1⟩,
      ((m.scan source).2.executeByName l program).2) := by
  unfold analysis at h
  unfold runByName Machine.scan
  dsimp only
  rw [h]
  rfl

theorem Machine.runByName_of_error {m : Machine} {l : Limits} {source : String} {o : Outcome}
    (h : (m.analysis l source).program = .error o) :
    m.runByName l source = (⟨(m.analysis l source).toPhases, o⟩, (m.scan source).2) := by
  unfold analysis at h
  unfold runByName Machine.scan
  dsimp only
  rw [h]
  rfl

/-- A run by distance and a run by name. -/
theorem Between.run {m n : Machine} (h : Between m n) (l : Limits) (source : String) :
    (m.run l source).1 = (n.runByName l source).1 ∧ (m.run l source).1.Regular ∧
      Between (m.run l source).2 (n.runByName l source).2 := by
  obtain ⟨W, hA⟩ := h.agree
  have hsame : n.analysis l source = m.analysis l source := by
    rw [Machine.analysis, Machine.analysis, hA.nextSite]
  have hanalysed := m.analysed_analysis l source
  have hbefore := h.analyse l source
  cases hprogram : (m.analysis l source).program with
  | ok program =>
    obtain ⟨hout, hreg, hafter⟩ := hbefore.execute l (Machine.allResolved_analysed h.fresh hprogram)
    have hprogram' : (n.analysis l source).program = .ok program := by rw [hsame, hprogram]
    rw [Machine.run_of_ok hprogram, Machine.runByName_of_ok hprogram', hsame]
    exact ⟨congrArg (Report.mk _) hout, hanalysed.regular_of_ok hprogram hreg, hafter⟩
  | error o =>
    have hprogram' : (n.analysis l source).program = .error o := by rw [hsame, hprogram]
    rw [Machine.run_of_error hprogram, Machine.runByName_of_error hprogram', hsame]
    exact ⟨rfl, hanalysed.regular hprogram, hbefore⟩

/-- A session by distance and a session by name. -/
theorem Between.session {m n : Machine} (h : Between m n) (turns : List Turn) :
    (m.session Machine.run turns).1 = (n.session Machine.runByName turns).1 ∧
      (∀ r ∈ (m.session Machine.run turns).1, r.Regular) ∧
      Between (m.session Machine.run turns).2 (n.session Machine.runByName turns).2 := by
  induction turns generalizing m n with
  | nil =>
    rw [Machine.session_nil, Machine.session_nil]
    exact ⟨rfl, fun _ hr => absurd hr List.not_mem_nil, h⟩
  | cons t ts ih =>
    obtain ⟨hreport, hregular, hafter⟩ := h.run t.limits t.source
    obtain ⟨hreports, hregulars, hend⟩ := ih hafter
    rw [Machine.session_cons, Machine.session_cons]
    exact ⟨congrArg₂ List.cons hreport hreports, List.forall_mem_cons.2 ⟨hregular, hregulars⟩, hend⟩

/-- In a session with a new machine every run ends with a report. A text nests too deep to be parsed
or resolved, or it is refused for its static errors, or it has none and is executed; then it
completes, fails with a runtime error, nests too deep, or does not end. No fault and no stray
`return` gets out, whatever the runs before came to. -/
theorem session_regular (clock : Clock) (turns : List Turn) :
    ((Machine.initial clock).session Machine.run turns).1.length = turns.length ∧
      ∀ r ∈ ((Machine.initial clock).session Machine.run turns).1, r.Regular := by
  obtain ⟨-, hregular, -⟩ := (Between.initial clock).session turns
  exact ⟨Machine.length_session _ _ turns, hregular⟩

/-- One text is refused, one nests without end, and one fails; the last calls a function of the one
that failed. -/
def recovery : List Turn := [
  ⟨⟨30, 5⟩, "return nil;"⟩,
  ⟨⟨30, 5⟩, "fun f() \x7b f(); \x7d f();"⟩,
  ⟨⟨30, 5⟩, "var a = \"a\"; fun g() \x7b return a; \x7d nil();"⟩,
  ⟨⟨30, 5⟩, "print g();"⟩]

theorem session_regular_recovery :
    ((Machine.initial (.still 0)).session Machine.run recovery).1.map Report.ok =
      [false, true, false, true] ∧
      ∃ r ∈ ((Machine.initial (.still 0)).session Machine.run recovery).1, r.ok = false ∧
      r.Regular := by
  have hok : ((Machine.initial (.still 0)).session Machine.run recovery).1.map Report.ok =
      [false, true, false, true] := by decide +kernel
  have hmem : false ∈
      ((Machine.initial (.still 0)).session Machine.run recovery).1.map Report.ok := by
    rw [hok]
    decide
  obtain ⟨r, hr, hfalse⟩ := List.mem_map.1 hmem
  exact ⟨hok, r, hr, hfalse, (session_regular (.still 0) recovery).2 r hr⟩

end Lox
