import Lox.Proofs.TwinRuns

/-!
# Layout

Blanks, comments and line ends between tokens make no difference to a program but for the lines in
its reports (`layout_independent`). Texts with the same tokens are twins by the places of the
tokens, so that this is a case of `Aligned.run`.
-/

namespace Lox

/-- What the grammar sees of a token. -/
def Token.spelling (t : Token) : Kind × String := (t.kind, t.lexeme)

/-- A static error without its line. -/
def StaticError.wording (e : StaticError) : Place × Complaint := (e.place, e.complaint)

/-- A reference without its line: its sort, which token it is, how that is spelled, and the
distance. -/
def Resolution.entry (r : Resolution) : Reference × Nat × (Kind × String) × Nat :=
  (r.reference, r.token.site, r.token.spelling, r.distance)

/-- The same token of a text, perhaps on another line. -/
structure Token.Moved (t t' : Token) : Prop where
  spelling : t.spelling = t'.spelling
  site : t.site = t'.site

theorem Token.spelled_moved : Pairing.Spelled Token.Moved :=
  ⟨fun h => congrArg Prod.fst h.spelling, fun h => congrArg Prod.snd h.spelling⟩

theorem Token.reports_moved : Pairing.Reports Token.Moved fun e e' => e.wording = e'.wording := by
  intro t t' h c
  simp only [StaticError.atToken, StaticError.wording, spelled_moved.kind h, spelled_moved.lexeme h]

theorem forall₂_map_eq_iff {α β : Type} {f : α → β} {as bs : List α} :
    List.Forall₂ (fun a b => f a = f b) as bs ↔ as.map f = bs.map f := by
  rw [← List.forall₂_eq_eq_eq, List.forall₂_map_left_iff, List.forall₂_map_right_iff]

/-- Texts with the same tokens, each at its place. -/
theorem Scan.twin_moved {source source' : String} (hscan : (scan 0 source).errors = [])
    (hscan' : (scan 0 source').errors = [])
    (htokens : (scan 0 source).tokens.map Token.spelling =
      (scan 0 source').tokens.map Token.spelling) :
    (scan 0 source).Twin Token.Moved (fun e e' => e.wording = e'.wording) (scan 0 source') where
  tokens := by
    have hlength : (scan 0 source).tokens.length = (scan 0 source').tokens.length := by
      simpa using congrArg List.length htokens
    refine List.forall₂_iff_zip.2 ⟨hlength, fun {t t'} h => ⟨?_, by simpa using site_of_along h⟩⟩
    exact List.forall₂_zip (forall₂_map_eq_iff.2 htokens) h
  eof _ := rfl
  errors := by
    rw [hscan, hscan']
    exact .nil

theorem Report.Twin.entries_eq {E : StaticError → StaticError → Prop} {r r' : Report}
    (h : r.Twin Token.Moved E r') :
    r.findings.map (·.resolutions.map Resolution.entry) =
      r'.findings.map (·.resolutions.map Resolution.entry) := by
  have hfindings := h.phases.findings
  generalize r.findings = o at hfindings ⊢
  generalize r'.findings = o' at hfindings ⊢
  cases hfindings with
  | none => rfl
  | some hf =>
    refine congrArg some (forall₂_map_eq_iff.1 (hf.resolutions.imp fun r r' hr => ?_))
    rw [Resolution.entry, Resolution.entry, hr.reference, hr.token.site, hr.token.spelling,
      hr.distance]

/-- **Layout.** Two texts with the same tokens, on whatever lines, are run alike: the same errors
are reported in the same words and the same order, the same references are recorded with the same
distances in the same order, the same lines are printed, the clock is read equally often, and the
runs end in the same way. -/
theorem layout_independent (clock : Clock) (l : Limits) (source source' : String)
    (hscan : (scan 0 source).errors = []) (hscan' : (scan 0 source').errors = [])
    (htokens : (scan 0 source).tokens.map Token.spelling =
      (scan 0 source').tokens.map Token.spelling) :
    let run := (Machine.initial clock).run l source
    let run' := (Machine.initial clock).run l source'
    run.1.staticErrors.map StaticError.wording = run'.1.staticErrors.map StaticError.wording ∧
      run.1.findings.map (·.resolutions.map Resolution.entry) =
        run'.1.findings.map (·.resolutions.map Resolution.entry) ∧
      run.2.printed = run'.2.printed ∧ run.2.clock = run'.2.clock ∧
      run.1.outcome.ending = run'.1.outcome.ending := by
  obtain ⟨hreport, R, haligned⟩ := (Aligned.initial Token.Moved clock).run Token.spelled_moved
    Token.reports_moved l (Scan.twin_moved hscan hscan' htokens)
  exact ⟨forall₂_map_eq_iff.1 hreport.staticErrors, hreport.entries_eq, haligned.twin.printed,
    haligned.twin.clock, hreport.outcome.ending_eq⟩

/-- A method that reads the clock and fails, on one line and on several. -/
def layouts : String × String :=
  ("class A \x7b m(x) \x7b print x == clock(); return this.x; \x7d \x7d A().m(clock());",
    "class A // a class
\x7b
  m(x)
  \x7b
    print x == clock();
    return this.x;
  \x7d
\x7d
A().m(clock());
")

/-- The line of the failure is all that differs. With a smaller depth neither text is read to its
end. -/
theorem layout_independent_failure :
    ((Machine.initial .ticking).run ⟨30, 5⟩ layouts.1).1.failure?.map (·.token.line) = some 1 ∧
      ((Machine.initial .ticking).run ⟨30, 5⟩ layouts.2).1.failure?.map (·.token.line) = some 6 ∧
      ((Machine.initial .ticking).run ⟨30, 5⟩ layouts.1).2.printed = #["false"] ∧
      ((Machine.initial .ticking).run ⟨30, 5⟩ layouts.1).2.printed =
        ((Machine.initial .ticking).run ⟨30, 5⟩ layouts.2).2.printed ∧
      ((Machine.initial .ticking).run ⟨30, 5⟩ layouts.1).2.clock =
        ((Machine.initial .ticking).run ⟨30, 5⟩ layouts.2).2.clock ∧
      ((Machine.initial .ticking).run ⟨30, 5⟩ layouts.1).1.outcome.ending =
        ((Machine.initial .ticking).run ⟨30, 5⟩ layouts.2).1.outcome.ending ∧
      ((Machine.initial .ticking).run ⟨9, 5⟩ layouts.1).1.outcome.ending = .overflow ∧
      ((Machine.initial .ticking).run ⟨9, 5⟩ layouts.2).1.outcome.ending = .overflow := by
  have hscan : (scan 0 layouts.1).errors = [] := by decide +kernel
  have hscan' : (scan 0 layouts.2).errors = [] := by decide +kernel
  have htokens : (scan 0 layouts.1).tokens.map Token.spelling =
      (scan 0 layouts.2).tokens.map Token.spelling := by
    decide +kernel
  obtain ⟨-, -, hprinted, hclock, hending⟩ :=
    layout_independent .ticking ⟨30, 5⟩ layouts.1 layouts.2 hscan hscan' htokens
  obtain ⟨-, -, -, -, hending'⟩ :=
    layout_independent .ticking ⟨9, 5⟩ layouts.1 layouts.2 hscan hscan' htokens
  have hdeep : ((Machine.initial .ticking).run ⟨9, 5⟩ layouts.1).1.outcome.ending = .overflow := by
    decide +kernel
  exact ⟨by decide +kernel, by decide +kernel, by decide +kernel, hprinted, hclock, hending, hdeep,
    hending'.symm.trans hdeep⟩

end Lox
