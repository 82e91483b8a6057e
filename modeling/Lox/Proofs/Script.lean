import Lox.Proofs.Joining

/-!
# Scripts and sessions

Texts that are run one after another, and the script that they join to, come to the same
(`script_eq_session`). The script is executed part by part (`Machine.execute_append`), and before
each part its machine is a twin of the machine of the session (`Pasting`). The table of the script
has all distances from the start; what it has beyond that of the session is for tokens that the
session has not met yet.
-/

namespace Lox

/-! ## Execution part by part -/

theorem execAll_append (bound depth : Nat) (ss rs : List Stmt) :
    execAll bound depth (ss ++ rs) = execAll bound depth ss >>= fun _ => execAll bound depth rs :=
      List.forM_append

/-- A program goes on where its first part completed. -/
theorem Machine.execute_append {m : Machine} {l : Limits} {ss : List Stmt}
    (h : (m.execute l ss).1 = .completed) (rs : List Stmt) :
    m.execute l (ss ++ rs) = (m.execute l ss).2.execute l rs := by
  have hkeeps := Restoring.execAll l.iterations l.depth ss { m with lastError := none }
  unfold Exec.after at hkeeps
  unfold Machine.execute at h ⊢
  rw [execAll_append]
  cases hrun : execAll l.iterations l.depth ss { m with lastError := none } with
  | ok u m' =>
    rw [hrun] at hkeeps
    have hnone : m'.lastError = none := hkeeps.lastError
    have hsame : { m' with lastError := none } = m' := by rw [← hnone]
    rw [Exec.bind_of_ok hrun]
    dsimp only
    rw [hsame]
  | error why m' =>
    rw [hrun] at h
    cases why <;> cases h

/-- A session prints what its runs print, one after another. -/
theorem Machine.printed_session (m : Machine) (turns : List Turn) :
    (m.session Machine.run turns).2.printed.toList =
      m.printed.toList ++ (m.showings turns).flatMap Showing.lines := by
  induction turns generalizing m with
  | nil => exact (List.append_nil _).symm
  | cons t ts ih =>
    obtain ⟨lines, hlines⟩ := (m.ran_run t.limits t.source).printed
    have hshown : (Showing.of m (Machine.run m t.limits t.source).1
        (Machine.run m t.limits t.source).2).lines = lines := by
      rw [Showing.of, ← hlines]
      simp
    rw [Machine.session_cons, Machine.showings_cons, List.flatMap_cons, hshown, ih, ← hlines,
      List.append_assoc]

/-! ## The session and the script side by side -/

theorem Machine.session_concat (run : Machine → Limits → String → Report × Machine) (m : Machine)
    (ts : List Turn) (t : Turn) : m.session run (ts ++ [t]) =
      ((m.session run ts).1 ++ [(run (m.session run ts).2 t.limits t.source).1],
        (run (m.session run ts).2 t.limits t.source).2) := by
  induction ts generalizing m with
  | nil => rfl
  | cons u ts ih =>
    rw [List.cons_append, Machine.session_cons, Machine.session_cons, ih]
    rfl

def turnsOf (l : Limits) (texts : List String) : List Turn := texts.map (Turn.mk l)

theorem Machine.session_turnsOf_cons (m : Machine) (l : Limits) (s : String) (texts : List String) :
    m.session Machine.run (turnsOf l (s :: texts)) =
      ((m.run l s).1 :: ((m.run l s).2.session Machine.run (turnsOf l texts)).1,
        ((m.run l s).2.session Machine.run (turnsOf l texts)).2) := rfl

theorem Machine.session_turnsOf_concat (m : Machine) (l : Limits) (texts : List String)
    (s : String) :
    m.session Machine.run (turnsOf l (texts ++ [s])) =
      ((m.session Machine.run (turnsOf l texts)).1 ++
        [((m.session Machine.run (turnsOf l texts)).2.run l s).1],
        ((m.session Machine.run (turnsOf l texts)).2.run l s).2) := by
  have hsplit : turnsOf l (texts ++ [s]) = turnsOf l texts ++ [⟨l, s⟩] := List.map_append
  rw [hsplit, Machine.session_concat]

theorem Outcome.eq_completed {o : Outcome} (h : o.ending = .completed) : o = .completed := by
  cases o with
  | completed => rfl
  | stopped why => cases why <;> cases h
  | refused | unread | unresolved => cases h

/-- The depth is enough for a text that completes. -/
theorem Machine.fits_of_completed {m : Machine} {l : Limits} {source : String}
    (h : (m.run l source).1.outcome.ending = .completed) : fits l.depth source = true := by
  rw [← Bool.not_eq_false]
  intro hunfit
  rcases Machine.program_of_unfit (m := m) hunfit with hprogram | hprogram <;>
    rw [Machine.run_of_error hprogram] at h <;> cases h

theorem Machine.fits_of_session {m : Machine} {l : Limits} {texts : List String}
    (h : ∀ r ∈ (m.session Machine.run (turnsOf l texts)).1, r.outcome.ending = .completed) :
    ∀ s ∈ texts, fits l.depth s = true := by
  induction texts generalizing m with
  | nil => exact fun _ hs => absurd hs List.not_mem_nil
  | cons s texts ih =>
    rw [Machine.session_turnsOf_cons] at h
    obtain ⟨hcompleted, hdone⟩ := List.forall_mem_cons.1 h
    exact List.forall_mem_cons.2 ⟨Machine.fits_of_completed hcompleted, ih hdone⟩

/-- The machines of the session and of the script after the texts `before`, with the texts `rest` to
come. -/
structure Pasting (before rest : List String) (m n : Machine) : Prop where
  twin : m.Twin (Pasted before) n
  nextSite : m.nextSite = tokenCount before
  distances : ∀ s, n.distances.find? s = (m.distances.recordAll (foundBehind before rest)).find? s

theorem Distances.recordAll_append (d : Distances) (rs rs' : List Resolution) :
    d.recordAll (rs ++ rs') = (d.recordAll rs).recordAll rs' := List.foldl_append

theorem Pasting.initial (clock : Clock) (texts : List String) {d : Distances}
    (hd : ∀ s, d.find? s = (Distances.empty.recordAll (foundBehind [] texts)).find? s) (k : Nat) :
    Pasting [] texts (.initial clock)
      { Machine.initial clock with distances := d, nextSite := k } := by
  have hnone : ∀ t t', ¬Pasted [] t t' := by
    rintro t t' ⟨before, source, after, h, -⟩
    cases before <;> cases h
  exact ⟨(Machine.twin_initial _ hnone clock).grow (fun _ _ => id) fun h =>
    absurd h (hnone _ _), rfl, hd⟩

namespace Pasting

variable {before rest texts after : List String} {m n : Machine} {l : Limits} {source : String}

/-- The session has resolved a text: the machines are twins for its tokens too. -/
theorem analysed (h : Pasting before (source :: rest) m n)
    (hok : (m.analysis l source).program = .ok (statementsOf m.nextSite source)) :
    (m.analysed l source).Twin (Pasted (before ++ [source])) n := by
  refine h.twin.grow (fun _ _ ht => ht.append [source]) fun {t t'} ht => ?_
  rw [(m.analysed_analysis l source).resolutions_of_ok hok, ← ht.site_eq, h.distances, foundBehind,
    Distances.recordAll_append, ← h.nextSite]
  -- What is still to come is at later sites.
  refine (Distances.find?_recordAll_of_not_mem _ _ fun r hr => ?_).symm
  have hlater := site_of_mem_foundBehind hr
  have hsite := ht.site_lt
  omega

/-- A text in the session and its part of the script end in the same way. -/
theorem run (h : Pasting before (source :: rest) m n) (hclean : staticErrors source = [])
    (hfits : fits l.depth source = true) :
    (m.run l source).1.outcome.Twin (Pasted (before ++ [source]))
        (n.execute l (parsePasted before source).statements).1 ∧
      Pasting (before ++ [source]) rest (m.run l source).2
        (n.execute l (parsePasted before source).statements).2 := by
  have hok := Machine.program_of_fits (m := m) hclean hfits
  have hprogram : List.Forall₂ (Stmt.Twin (Pasted (before ++ [source])))
      (statementsOf m.nextSite source) (parsePasted before source).statements := by
    rw [h.nextSite]
    exact (twin_parsePasted before source).statements
  obtain ⟨houtcome, htwin⟩ := (h.analysed hok).execute (Pasted.spelled _) l hprogram
  obtain ⟨e, hkeeps⟩ := (m.analysed l source).keeps_execute l (statementsOf m.nextSite source)
  obtain ⟨e', hkeeps'⟩ := n.keeps_execute l (parsePasted before source).statements
  rw [Machine.run_of_ok hok]
  refine ⟨houtcome, htwin, ?_, fun s => ?_⟩
  · rw [hkeeps.nextSite, Machine.nextSite_analysed, tokenCount_concat before m.nextSite,
      ← h.nextSite]
  · rw [hkeeps'.distances, hkeeps.distances, Machine.distances_analysed,
      (m.analysed_analysis l source).resolutions_of_ok hok, h.distances, foundBehind,
      Distances.recordAll_append, ← h.nextSite]

/-- Texts that complete are executed alike in the session and in the script. -/
theorem session (h : Pasting before (texts ++ after) m n)
    (hclean : ∀ s ∈ texts, staticErrors s = [])
    (hdone : ∀ r ∈ (m.session Machine.run (turnsOf l texts)).1, r.outcome.ending = .completed) :
    ∃ n', Pasting (before ++ texts) after (m.session Machine.run (turnsOf l texts)).2 n' ∧
      n.execute l (scriptProgram before (texts ++ after)) =
        n'.execute l (scriptProgram (before ++ texts) after) := by
  induction texts generalizing before m n with
  | nil =>
    rw [List.append_nil]
    exact ⟨n, h, rfl⟩
  | cons s texts ih =>
    obtain ⟨hs, hrest⟩ := List.forall_mem_cons.1 hclean
    rw [Machine.session_turnsOf_cons] at hdone ⊢
    obtain ⟨hcompleted, hdone⟩ := List.forall_mem_cons.1 hdone
    obtain ⟨houtcome, hpasting⟩ := h.run hs (Machine.fits_of_completed hcompleted)
    have hcompleted' : (n.execute l (parsePasted before s).statements).1 = .completed :=
      Outcome.eq_completed (houtcome.ending_eq.symm.trans hcompleted)
    obtain ⟨n', hpasting', hexecute⟩ := ih hpasting hrest hdone
    rw [List.append_assoc, List.singleton_append] at hpasting' hexecute
    refine ⟨n', hpasting', ?_⟩
    rw [List.cons_append, scriptProgram, Machine.execute_append hcompleted', hexecute]

end Pasting

/-! ## Whole scripts -/

/-- A script is executed on a machine that has resolved all of it. -/
theorem Pasting.script (clock : Clock) (l : Limits) (first : String) (rest : List String)
    (h : ∀ s ∈ first :: rest, staticErrors s = [] ∧ fits l.depth s = true) :
    ∃ n, Pasting [] (first :: rest) (.initial clock) n ∧
      ((Machine.initial clock).run l ("\n".intercalate (first :: rest))).1.outcome =
        (n.execute l (scriptProgram [] (first :: rest))).1 ∧
      ((Machine.initial clock).run l ("\n".intercalate (first :: rest))).2 =
        (n.execute l (scriptProgram [] (first :: rest))).2 := by
  have hclean : ∀ s ∈ first :: rest, staticErrors s = [] := fun s hs => (h s hs).1
  have hprogram : statementsOf 0 ("\n".intercalate (first :: rest)) =
      scriptProgram [] (first :: rest) :=
    congrArg Parsed.statements (script_clean first rest hclean).2
  have hok := Machine.program_of_fits (m := .initial clock) (staticErrors_script first rest hclean)
    (fits_script first rest h)
  have hfound := ((Machine.initial clock).analysed_analysis l _).resolutions_of_ok hok
  rw [show (Machine.initial clock).nextSite = 0 from rfl, hprogram] at hok hfound
  refine ⟨(Machine.initial clock).analysed l ("\n".intercalate (first :: rest)), ?_, ?_⟩
  · refine Pasting.initial clock (first :: rest) (fun s => ?_) _
    rw [hfound]
    refine (Distances.find?_recordAll_congr ((resolve_script [] (first :: rest) hclean).1.imp ?_)
      rfl).symm
    exact fun r r' hr => ⟨by rw [hr.1], hr.2⟩
  · rw [Machine.run_of_ok hok]
    exact ⟨rfl, rfl⟩

theorem Machine.Twin.shown_global? {R : Pairing} (hR : R.Spelled) {m n : Machine} (h : m.Twin R n)
    (x : String) :
    (m.global? x).map Value.shown = (n.global? x).map Value.shown := by
  have hbound := h.scopes.bound m.globals x
  rw [Machine.global?, Machine.global?, ← h.globals]
  generalize m.scopes.local? m.globals x = o at hbound ⊢
  generalize n.scopes.local? m.globals x = o' at hbound ⊢
  cases hbound with
  | none => rfl
  | some hv => exact congrArg some (hv.shown_eq hR)

/-- **A session is a script.** If texts without static errors are run one after another, all but
perhaps the last complete, and the last does not nest too deep to be parsed and resolved, then the
script of these texts goes as the session does up to where the last run ended: it has no static
error, prints what the runs print, leaves the same globals with the same values as far as they can
be shown, takes the same readings of the clock one after another, and ends as the last run does. A
failure has the same cause, and the token it is blamed on is as many lines further down as the texts
in front of that token take up. -/
theorem script_eq_session (clock : Clock) (l : Limits) (earlier : List String) (last : String)
    (hclean : ∀ s ∈ earlier ++ [last], staticErrors s = [])
    (hdone : ∀ r ∈ ((Machine.initial clock).session Machine.run (turnsOf l earlier)).1,
      r.outcome.ending = .completed)
    (hfits : fits l.depth last = true) :
    let texts := earlier ++ [last]
    let session := (Machine.initial clock).session Machine.run (turnsOf l texts)
    let script := (Machine.initial clock).run l ("\n".intercalate texts)
    script.1.staticErrors = [] ∧
      script.2.printed.toList =
        ((Machine.initial clock).showings (turnsOf l texts)).flatMap Showing.lines ∧
      (∀ x, (script.2.global? x).map Value.shown = (session.2.global? x).map Value.shown) ∧
      script.2.clock = session.2.clock ∧
      ∃ r, session.1.getLast? = some r ∧ script.1.outcome.ending = r.outcome.ending ∧
        Option.Rel (RuntimeError.Twin (Pasted texts)) r.failure? script.1.failure? := by
  intro texts session script
  obtain ⟨first, rest, htexts⟩ : ∃ first rest, texts = first :: rest :=
    List.exists_cons_of_ne_nil (by simp [texts])
  have hall : ∀ s ∈ first :: rest, staticErrors s = [] ∧ fits l.depth s = true := by
    rw [← htexts]
    intro s hs
    refine ⟨hclean s hs, ?_⟩
    rcases List.mem_append.1 hs with hs | hs
    · exact Machine.fits_of_session hdone s hs
    · rw [List.mem_singleton.1 hs, hfits]
  obtain ⟨n, hstart, houtcome, hmachine⟩ := Pasting.script clock l first rest hall
  rw [← htexts] at hstart houtcome hmachine
  -- The script goes on from the earlier texts as the session does.
  obtain ⟨n', hpasting, hexecute⟩ := hstart.session
    (fun s hs => hclean s (List.mem_append_left _ hs)) hdone
  obtain ⟨hending, hend⟩ := hpasting.run (hclean last (by simp)) hfits
  rw [hexecute, scriptProgram, scriptProgram, List.append_nil] at houtcome hmachine
  rw [← houtcome, List.nil_append] at hending
  rw [← hmachine, List.nil_append] at hend
  have hprinted : session.2.printed.toList = _ :=
    Machine.printed_session (Machine.initial clock) (turnsOf l texts)
  have hsession := (Machine.initial clock).session_turnsOf_concat l earlier last
  change session = _ at hsession
  rw [hsession] at hprinted ⊢
  refine ⟨?_, ?_, fun x => (hend.twin.shown_global? (Pasted.spelled _) x).symm,
    hend.twin.clock.symm, _, List.getLast?_concat, hending.ending_eq.symm, hending.failure?⟩
  · rw [Machine.staticErrors_run, htexts, if_pos (fits_script first rest hall)]
    exact staticErrors_script first rest fun s hs => (hall s hs).1
  · rw [← hend.twin.printed, hprinted]
    rfl

/-- Two texts that complete, one of them reading the clock. The last text reads it once more and
calls a function of the second, which fails. -/
def typedEarlier : List String :=
  ["var a = clock();\n", "// reads a property\nfun f(x) \x7b\n  return x.p;\n\x7d"]

def typedLast : String := "print clock() - a; f(a);"

def typedScript : String :=
  "var a = clock();

// reads a property
fun f(x) \x7b
  return x.p;
\x7d
print clock() - a; f(a);"

/-- The failure is in line 3 of the second text, behind the two lines that the first one takes
up. -/
theorem script_eq_session_failure :
    ((Machine.initial .ticking).session Machine.run
      (turnsOf ⟨30, 5⟩ (typedEarlier ++ [typedLast]))).1.map Report.failureLine? =
        [none, none, some 3] ∧
      ((Machine.initial .ticking).run ⟨30, 5⟩ typedScript).1.failureLine? = some 5 ∧
      ((Machine.initial .ticking).run ⟨30, 5⟩ typedScript).1.staticErrors = [] ∧
      ((Machine.initial .ticking).run ⟨30, 5⟩ typedScript).2.printed.toList = ["1"] ∧
      ((Machine.initial .ticking).showings (turnsOf ⟨30, 5⟩ (typedEarlier ++ [typedLast]))).flatMap
        Showing.lines = ["1"] ∧
      ((Machine.initial .ticking).run ⟨30, 5⟩ typedScript).2.clock =
        ((Machine.initial .ticking).session Machine.run
          (turnsOf ⟨30, 5⟩ (typedEarlier ++ [typedLast]))).2.clock := by
  -- Evaluation is of the literal text: texts to be joined would be joined anew wherever the script
  -- is read.
  have hscript : "\n".intercalate (typedEarlier ++ [typedLast]) = typedScript := by decide +kernel
  obtain ⟨hstatic, hprinted, -, hclock, -⟩ :=
    script_eq_session .ticking ⟨30, 5⟩ typedEarlier typedLast (by decide +kernel)
      (by decide +kernel) (by decide +kernel)
  rw [hscript] at hstatic hprinted hclock
  have hlines : ((Machine.initial .ticking).showings
      (turnsOf ⟨30, 5⟩ (typedEarlier ++ [typedLast]))).flatMap Showing.lines = ["1"] := by
    decide +kernel
  exact ⟨by decide +kernel, by decide +kernel, hstatic, hprinted.trans hlines, hlines, hclock⟩

end Lox
