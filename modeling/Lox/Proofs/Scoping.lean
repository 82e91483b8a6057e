import Lox.Proofs.Limits
import Lox.Proofs.Sessions

/-!
# Scoping

Running texts by the distances that resolution found shows what running them by name shows, frame by
frame (`session_by_name`): the same reports and the same printed lines, with as many readings of the
clock. Under the same limits this is so even where they cut a run short. If no run is cut short, the
limits may differ.
-/

namespace Lox

/-- What can be seen of a session: the reports, the printed lines, and how the clock is left. -/
def Machine.observe (run : Machine → Limits → String → Report × Machine) (m : Machine)
    (turns : List Turn) :
    List Report × Array String × Clock :=
  ((m.session run turns).1, (m.session run turns).2.printed, (m.session run turns).2.clock)

/-- The turn with limits that are at least those of both. -/
def Turn.widen (t t' : Turn) : Turn :=
  { t with limits := ⟨max t.limits.depth t'.limits.depth,
    max t.limits.iterations t'.limits.iterations⟩ }

theorem Turn.widen_comm {t t' : Turn} (h : t.source = t'.source) : t.widen t' = t'.widen t := by
  obtain ⟨limits, source⟩ := t
  obtain ⟨limits', source'⟩ := t'
  obtain rfl : source = source' := h
  simp only [widen, Nat.max_comm]

theorem Turn.zipWith_widen_comm {turns turns' : List Turn}
    (h : turns.map Turn.source = turns'.map Turn.source) :
    turns.zipWith Turn.widen turns' = turns'.zipWith Turn.widen turns := by
  induction turns generalizing turns' with
  | nil => simp
  | cons t ts ih =>
    cases turns' with
    | nil => rfl
    | cons t' ts' =>
      obtain ⟨htext, hrest⟩ := List.cons.inj h
      rw [List.zipWith_cons_cons, List.zipWith_cons_cons, widen_comm htext, ih hrest]

/-- Larger limits change nothing about a session that met none. -/
theorem Machine.session_widen {turns turns' : List Turn}
    (htext : turns.map Turn.source = turns'.map Turn.source) (m : Machine)
    (hends : ∀ r ∈ (m.session Machine.run turns).1, r.exhausted = false) :
    m.session Machine.run (turns.zipWith Turn.widen turns') = m.session Machine.run turns := by
  induction turns generalizing turns' m with
  | nil => rfl
  | cons t ts ih =>
    cases turns' with
    | nil => cases htext
    | cons t' ts' =>
      obtain ⟨-, hrest⟩ := List.cons.inj htext
      rw [Machine.session_cons, List.forall_mem_cons] at hends
      have hlimits : t.limits ≤ (t.widen t').limits := ⟨Nat.le_max_left _ _, Nat.le_max_left _ _⟩
      have hrun : Machine.run m (t.widen t').limits (t.widen t').source =
          Machine.run m t.limits t.source := Machine.run_of_le hlimits _ _ hends.1
      rw [List.zipWith_cons_cons, Machine.session_cons, Machine.session_cons, hrun,
        ih hrest _ hends.2]

/-- Two sessions with the same texts are the same if neither met a limit. -/
theorem Machine.session_eq_of_text {turns turns' : List Turn}
    (htext : turns.map Turn.source = turns'.map Turn.source) (m : Machine)
    (hends : ∀ r ∈ (m.session Machine.run turns).1, r.exhausted = false)
    (hends' : ∀ r ∈ (m.session Machine.run turns').1, r.exhausted = false) :
    m.session Machine.run turns = m.session Machine.run turns' := by
  rw [← m.session_widen htext hends, Turn.zipWith_widen_comm htext,
    m.session_widen htext.symm hends']

/-- A session by distance shows what the session by name shows. -/
theorem Machine.observe_run (clock : Clock) (turns : List Turn) :
    (Machine.initial clock).observe Machine.run turns =
      (Machine.initial clock).observe Machine.runByName turns := by
  obtain ⟨hreports, -, hafter⟩ := (Between.initial clock).session turns
  obtain ⟨W, hA⟩ := hafter.agree
  exact Prod.ext hreports (Prod.ext hA.printed hA.clock)

/-- **Lexical scoping.** Sessions by distance and by name show the same. They may have different
limits if no run meets a limit. -/
theorem session_by_name (clock : Clock) (turns : List Turn) :
    (Machine.initial clock).observe Machine.run turns =
        (Machine.initial clock).observe Machine.runByName turns ∧
      ∀ turns', turns.map Turn.source = turns'.map Turn.source →
        (∀ r ∈ ((Machine.initial clock).observe Machine.run turns).1, r.exhausted = false) →
        (∀ r ∈ ((Machine.initial clock).observe Machine.runByName turns').1, r.exhausted = false) →
        (Machine.initial clock).observe Machine.run turns =
          (Machine.initial clock).observe Machine.runByName turns' := by
  refine ⟨Machine.observe_run clock turns, fun turns' htext hends hends' => ?_⟩
  rw [← Machine.observe_run] at hends' ⊢
  unfold Machine.observe
  rw [Machine.session_eq_of_text htext _ hends hends']

/-- A function reads a global that a block declares again, in an initializer that assigns the new
variable; a method calls its superclass, and a run fails before it is used. The clock is read in two
runs. -/
def shadowing (l : Limits) : List Turn := [
  ⟨l, "fun f() \x7b return a; \x7d var a = \"global\";"⟩,
  ⟨l, "\x7b var b = f(); var a = (a = b) + \"!\"; print a + f(); \x7d"⟩,
  ⟨l, "class A \x7b m() \x7b return this; \x7d \x7d"⟩,
  ⟨l, "class B < A \x7b m() \x7b return super.m(); \x7d \x7d missing;"⟩,
  ⟨l, "var t = clock(); print B().m();"⟩,
  ⟨l, "print t == clock();"⟩]

theorem session_by_name_shadowing :
    (shadowing ⟨40, 10⟩).map Turn.source = (shadowing ⟨60, 5⟩).map Turn.source ∧
      (∀ r ∈ ((Machine.initial .ticking).observe Machine.run (shadowing ⟨40, 10⟩)).1,
        r.exhausted = false) ∧
      (∀ r ∈ ((Machine.initial .ticking).observe Machine.runByName (shadowing ⟨60, 5⟩)).1,
        r.exhausted = false) ∧
      ((Machine.initial .ticking).observe Machine.run (shadowing ⟨40, 10⟩)).1.map Report.ok =
        [true, true, true, false, true, true] ∧
      ((Machine.initial .ticking).observe Machine.run (shadowing ⟨40, 10⟩)).2.1 =
        #["global!global", "B instance", "false"] ∧
      (Machine.initial .ticking).observe Machine.run (shadowing ⟨40, 10⟩) =
        (Machine.initial .ticking).observe Machine.runByName (shadowing ⟨60, 5⟩) := by
  have htext : (shadowing ⟨40, 10⟩).map Turn.source = (shadowing ⟨60, 5⟩).map Turn.source := rfl
  have hends : ∀ r ∈ ((Machine.initial .ticking).observe Machine.run (shadowing ⟨40, 10⟩)).1,
      r.exhausted = false := by decide +kernel
  have hends' : ∀ r ∈ ((Machine.initial .ticking).observe Machine.runByName (shadowing ⟨60, 5⟩)).1,
      r.exhausted = false := by decide +kernel
  exact ⟨htext, hends, hends', by decide +kernel, by decide +kernel,
    (session_by_name .ticking _).2 _ htext hends hends'⟩

end Lox
