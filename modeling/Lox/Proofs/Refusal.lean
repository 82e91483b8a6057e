import Lox.Proofs.TwinRuns

/-!
# Refused texts

A text with static errors is not executed (`Machine.program_of_refused`), but resolution may have
added distances for it before and after it met an error. They are at sites that no other text has,
so the machine stays aligned with one that never saw the text (`Aligned.refused`), and a session
goes on as if it had not been run (`refused_invisible`).
-/

namespace Lox

/-- A text with static errors is not executed. -/
theorem Machine.program_of_refused {source : String} (h : staticErrors source ≠ []) (m : Machine)
    (l : Limits) :
    ∃ o, (m.analysis l source).program = .error o ∧
      o.ending = if fits l.depth source then .refused else .overflow := by
  rw [Ne, staticErrors_eq_nil_iff m.nextSite] at h
  rw [← m.settled_analysis]
  have hanalysed := m.analysed_analysis l source
  generalize m.analysis l source = a at hanalysed ⊢
  cases hanalysed with
  | unread | misread | unresolved | rejected => exact ⟨_, rfl, rfl⟩
  | accepted hwell _ herr => exact absurd ⟨⟨hwell.scanErrors, hwell.parseErrors⟩, herr⟩ h

/-- A machine that refused a text is aligned with one that never saw it. -/
theorem Aligned.refused {L R : Pairing} {m n : Machine} (h : Aligned L R m n) {source : String}
    (hbad : staticErrors source ≠ []) (l : Limits) : Aligned L R m (n.run l source).2 := by
  obtain ⟨o, hprogram, -⟩ := Machine.program_of_refused hbad n l
  rw [Machine.run_of_error hprogram]
  refine ⟨?_, h.sound, fun t t' ht => ?_, h.fresh, fun s hs => ?_⟩
  · refine { h.twin with distance := fun {t t'} ht => ?_ }
    rw [h.twin.distance ht]
    exact (Machine.find?_analysed (.inl (h.seen t t' ht).2)).symm
  · obtain ⟨hlt, hlt'⟩ := h.seen t t' ht
    rw [Machine.nextSite_analysed]
    exact ⟨hlt, Nat.lt_add_right _ hlt'⟩
  · rw [Machine.nextSite_analysed] at hs
    exact (Machine.find?_analysed (.inr hs)).trans (h.fresh' s (by omega))

/-- What a text with static errors shows: the errors, unless it nests too deep for them to be
found. -/
def Showing.refusal (t : Turn) : Showing :=
  if fits t.limits.depth t.source then ⟨[], staticErrors t.source, .refused, none⟩
    else ⟨[], [], .overflow, none⟩

theorem Showing.of_refused {t : Turn} (hbad : staticErrors t.source ≠ []) (m : Machine) :
    Showing.of m (m.run t.limits t.source).1 (m.run t.limits t.source).2 = .refusal t := by
  obtain ⟨o, hprogram, hending⟩ := Machine.program_of_refused hbad m t.limits
  have hfailure : (m.run t.limits t.source).1.failureLine? = none := by
    rw [Machine.run_of_error hprogram, Report.failureLine?, Report.failure?]
    cases o with
    | stopped why =>
      cases why with
      | failed e => split at hending <;> cases hending
      | _ => rfl
    | _ => rfl
  have hlines : (m.run t.limits t.source).2.printed.toList.drop m.printed.size = [] := by
    rw [Machine.run_of_error hprogram, Machine.printed_analysed]
    simp
  have houtcome : (m.run t.limits t.source).1.outcome = o := by rw [Machine.run_of_error hprogram]
  rw [Showing.of, hlines, Machine.staticErrors_run, hfailure, houtcome, hending, Showing.refusal]
  split <;> rfl

/-- Inserting a refused text into the turns inserts what it shows. -/
theorem Aligned.showings_insertIdx {R : Pairing} {m : Machine} (h : Aligned Token.Copy R m m)
    {bad : Turn} (hbad : staticErrors bad.source ≠ []) (turns : List Turn) (i : Nat) :
    m.showings (turns.insertIdx i bad) = (m.showings turns).insertIdx i (.refusal bad) := by
  induction turns generalizing R m i with
  | nil =>
    cases i with
    | zero => exact congrArg (· :: []) (Showing.of_refused hbad m)
    | succ i => rfl
  | cons t ts ih =>
    cases i with
    | zero =>
      -- The machine that ran the text differs in sites only. It has not even read the clock.
      have hafter := (h.refused hbad bad.limits).showings_eq (t :: ts)
      rw [List.insertIdx_zero, List.insertIdx_zero, Machine.showings_cons m bad,
        Showing.of_refused hbad, ← hafter]
    | succ i =>
      obtain ⟨-, R', haligned⟩ := h.turn t
      rw [List.insertIdx_succ_cons, Machine.showings_cons, Machine.showings_cons,
        List.insertIdx_succ_cons, ih haligned]

/-- **Refused texts are invisible.** A run that is stopped by static errors changes nothing about
any machine but the sites and distances of that text: it takes no reading of the clock. Inserted
anywhere into a session, it prints nothing and reports its errors, or that it nests too deep for
them to be found, and every other run shows what it shows without it. -/
theorem refused_invisible (bad : Turn) (hbad : staticErrors bad.source ≠ []) :
    (∀ m : Machine, ∃ d k,
      (m.run bad.limits bad.source).2 = { m with distances := d, nextSite := k } ∧
        ∀ s < m.nextSite, d.find? s = m.distances.find? s) ∧
    ∀ (clock : Clock) (turns : List Turn) (i : Nat),
      (Machine.initial clock).showings (turns.insertIdx i bad) =
        ((Machine.initial clock).showings turns).insertIdx i (.refusal bad) := by
  refine ⟨fun m => ?_, fun clock turns i => ?_⟩
  · obtain ⟨o, hprogram, -⟩ := Machine.program_of_refused hbad m bad.limits
    rw [Machine.run_of_error hprogram]
    exact ⟨_, _, rfl, fun s hs => Machine.find?_analysed (.inl hs)⟩
  · exact (Aligned.initial Token.Copy clock).showings_insertIdx hbad turns i

/-- Distances are found on both sides of the error. -/
def leftovers : Turn := ⟨⟨30, 5⟩, "fun f(a) \x7b print a; var a; return a; \x7d"⟩

/-- A session that reads the clock in two of its runs. -/
def timing : List Turn :=
  recovery ++ [⟨⟨30, 5⟩, "var t = clock();"⟩, ⟨⟨30, 5⟩, "print t == clock();"⟩]

theorem refused_invisible_leftovers :
    staticErrors leftovers.source = [⟨1, .at "a", .alreadyDeclared⟩] ∧
      ((Machine.initial .ticking).run leftovers.limits leftovers.source).2.distances.size = 2 ∧
      (Machine.initial .ticking).showings (timing.insertIdx 5 leftovers) =
        ((Machine.initial .ticking).showings timing).insertIdx 5 (.refusal leftovers) ∧
      ((Machine.initial .ticking).showings timing).map Showing.lines =
        [[], [], [], ["a"], [], ["false"]] ∧
      Showing.refusal leftovers = ⟨[], [⟨1, .at "a", .alreadyDeclared⟩], .refused, none⟩ := by
  have herrors : staticErrors leftovers.source = [⟨1, .at "a", .alreadyDeclared⟩] := by
    decide +kernel
  have hbad : staticErrors leftovers.source ≠ [] := by
    rw [herrors]
    exact List.cons_ne_nil _ _
  exact ⟨herrors, by decide +kernel,
    (refused_invisible leftovers hbad).2 .ticking timing 5, by decide +kernel, by decide +kernel⟩

end Lox
