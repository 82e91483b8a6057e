import Lox.Console
import Lox.Proofs.Limits

/-!
# The limit on nesting

`Machine.Ends m depth source r` says that a text ends with `r` if parsing, resolution and evaluation
may nest to `depth` and loops may go on for as long as they take. A run that no loop bound cut short
is the same with every larger bound, so there is at most one such end (`Machine.Ends.unique`). With
the same bound for two depths, the runs differ only if the one with the smaller depth met it
(`Machine.run_deeper`).
-/

namespace Lox

/-- A loop was cut short. -/
def Report.unfinished (r : Report) : Bool :=
  match r.outcome with
  | .stopped .unfinished => true
  | _ => false

namespace Machine

variable {m : Machine} {source : String} {depth depth' bound bound' : Nat} {r r' : Report × Machine}

/-- Only the depth is larger. -/
theorem run_deeper (hdepth : depth ≤ depth') (bound : Nat) (m : Machine) (source : String) :
    ((m.run ⟨depth, bound⟩ source).1.outcome.overflowed = true ∧
      (m.run ⟨depth, bound⟩ source).2.printed.toList <+:
        (m.run ⟨depth', bound⟩ source).2.printed.toList) ∨
    m.run ⟨depth, bound⟩ source = m.run ⟨depth', bound⟩ source := by
  have hl : (⟨depth, bound⟩ : Limits) ≤ ⟨depth', bound⟩ := ⟨hdepth, Nat.le_refl _⟩
  refine (run_cutShort_or_eq hl m source).imp_left fun hcut => ⟨?_, hcut.printed⟩
  have hpremature := hcut.premature
  generalize (m.run ⟨depth, bound⟩ source).1.outcome = o at hpremature
  cases o with
  | unread | unresolved => rfl
  | refused | completed => exact hpremature.elim
  | stopped e =>
    cases e with
    | overflow => rfl
    | unfinished => exact absurd hpremature (Nat.lt_irrefl _)
    | returned | failed | fault => exact hpremature.elim

/-- Only loops may go on longer. -/
theorem run_longer (hbound : bound ≤ bound')
    (h : (m.run ⟨depth, bound⟩ source).1.unfinished = false) :
    m.run ⟨depth, bound'⟩ source = m.run ⟨depth, bound⟩ source := by
  have hl : (⟨depth, bound⟩ : Limits) ≤ ⟨depth, bound'⟩ := ⟨Nat.le_refl _, hbound⟩
  rcases run_cutShort_or_eq hl m source with hcut | heq
  · have hpremature := hcut.premature
    unfold Report.unfinished at h
    generalize (m.run ⟨depth, bound⟩ source).1.outcome = o at hpremature h
    cases o with
    | unread | unresolved => exact absurd hpremature (Nat.lt_irrefl _)
    | refused | completed => exact hpremature.elim
    | stopped e =>
      cases e with
      | overflow => exact absurd hpremature (Nat.lt_irrefl _)
      | unfinished => cases h
      | returned | failed | fault => exact hpremature.elim
  · exact heq.symm

/-- The run of the text ends so, however often its loops repeat. -/
def Ends (m : Machine) (depth : Nat) (source : String) (r : Report × Machine) : Prop :=
  ∃ bound, m.run ⟨depth, bound⟩ source = r ∧ r.1.unfinished = false

namespace Ends

/-- From some bound on, all runs end so. -/
theorem eventually (h : m.Ends depth source r) :
    ∃ bound, ∀ bound', bound ≤ bound' → m.run ⟨depth, bound'⟩ source = r := by
  obtain ⟨bound, rfl, hr⟩ := h
  exact ⟨bound, fun _ hle => run_longer hle hr⟩

theorem unique (h : m.Ends depth source r) (h' : m.Ends depth source r') : r' = r := by
  obtain ⟨bound, hr⟩ := h.eventually
  obtain ⟨bound', hr'⟩ := h'.eventually
  rw [← hr (max bound bound') (Nat.le_max_left _ _), hr' (max bound bound') (Nat.le_max_right _ _)]

theorem iff_eq (h : m.Ends depth source r) (r' : Report × Machine) :
    m.Ends depth source r' ↔ r' = r :=
  ⟨h.unique, fun heq => heq ▸ h⟩

/-- A run that did not meet the depth ends in the same way with a larger one. -/
theorem deeper (h : m.Ends depth source r) (hdepth : depth ≤ depth')
    (hr : r.1.outcome.overflowed = false) :
    m.Ends depth' source r := by
  obtain ⟨bound, rfl, hfinished⟩ := h
  rcases run_deeper hdepth bound m source with ⟨hover, -⟩ | heq
  · exact absurd hover (ne_true_of_eq_false hr)
  · exact ⟨bound, heq.symm, hfinished⟩

/-- A run that ends also ends with a smaller depth: if not in the same way, then by meeting it. -/
theorem shallower (h : m.Ends depth' source r') (hdepth : depth ≤ depth') :
    ∃ r, m.Ends depth source r ∧ (r = r' ∨ r.1.outcome.overflowed = true) ∧
      r.2.printed.toList <+: r'.2.printed.toList := by
  obtain ⟨bound, rfl, hfinished⟩ := h
  rcases run_deeper hdepth bound m source with ⟨hover, hprinted⟩ | heq
  · refine ⟨_, ⟨bound, rfl, ?_⟩, .inr hover, hprinted⟩
    unfold Outcome.overflowed at hover
    unfold Report.unfinished
    split at hover
    case h_1 hunread => rw [hunread]
    case h_2 hunresolved => rw [hunresolved]
    case h_3 hstop => rw [hstop]
    case h_4 => cases hover
  · exact ⟨_, ⟨bound, heq, hfinished⟩, .inl rfl, List.prefix_rfl⟩

end Ends

/-- **The limit on nesting is seen only where it is met.** If a run ends without meeting it, then
with any larger limit the text has this end and no other: the report, what is printed and the whole
machine are the same. If a run ends, then with any smaller limit there is one end too, and what is
printed until then is a part of what is printed with the larger one; and where the larger limit is
met, so is the smaller one. -/
theorem depth_seen_only_if_met (m : Machine) (source : String) {depth depth' : Nat}
    (hdepth : depth ≤ depth') :
    (∀ r, m.Ends depth source r → r.1.outcome.overflowed = false →
      ∀ r', m.Ends depth' source r' ↔ r' = r) ∧
    ∀ r', m.Ends depth' source r' → ∃ r, (∀ q, m.Ends depth source q ↔ q = r) ∧
      (r'.1.outcome.overflowed = true → r.1.outcome.overflowed = true) ∧
        r.2.printed.toList <+: r'.2.printed.toList := by
  refine ⟨fun r hr hover => (hr.deeper hdepth hover).iff_eq, fun r' hr' => ?_⟩
  obtain ⟨r, hr, hsame, hprinted⟩ := hr'.shallower hdepth
  refine ⟨r, hr.iff_eq, fun hover => ?_, hprinted⟩
  rcases hsame with rfl | hmet
  · exact hover
  · exact hmet

/-- A function that prints and calls itself, six times in all, and two readings of the clock. -/
def deepening : String :=
  "fun f(s) \x7b print s; if (s != \"aaaaa\") f(s + \"a\"); \x7d f(\"\"); print clock() == clock();"

/-- The smallest depth is met in parsing, the next one in execution behind five of the seven
lines. -/
theorem depth_seen_only_if_met_deepening :
    let m := Machine.initial .ticking
    let r := m.run ⟨10, 1⟩ deepening
    let r' := m.run ⟨24, 1⟩ deepening
    let r'' := m.run ⟨30, 1⟩ deepening
    (10 ≤ 24 ∧ m.Ends 10 deepening r ∧ r.1.outcome.parsed = false ∧ r.2.printed = #[]) ∧
    (24 ≤ 30 ∧ m.Ends 24 deepening r' ∧ r'.1.outcome.overflowed = true ∧
      r'.2.printed = #["", "a", "aa", "aaa", "aaaa"]) ∧
    (30 ≤ 40 ∧ m.Ends 30 deepening r'' ∧ r''.1.outcome.overflowed = false ∧
      r''.2.printed = #["", "a", "aa", "aaa", "aaaa", "aaaaa", "false"]) ∧
    r.1.outcome.overflowed = true ∧ r'.2.printed.toList <+: r''.2.printed.toList ∧
      ∀ q, m.Ends 40 deepening q ↔ q = r'' := by
  intro m r r' r''
  have hruns : (r.1.unfinished = false ∧ r.1.outcome.parsed = false ∧ r.2.printed = #[]) ∧
      (r'.1.unfinished = false ∧ r'.1.outcome.overflowed = true ∧
        r'.2.printed = #["", "a", "aa", "aaa", "aaaa"]) ∧
      r''.1.unfinished = false ∧ r''.1.outcome.overflowed = false ∧
        r''.2.printed = #["", "a", "aa", "aaa", "aaaa", "aaaaa", "false"] := by
    decide +kernel
  obtain ⟨⟨hfinished, hunread⟩, ⟨hfinished', hmet⟩, hfinished'', hwhole⟩ := hruns
  have hr : m.Ends 10 deepening r := ⟨1, rfl, hfinished⟩
  have hr' : m.Ends 24 deepening r' := ⟨1, rfl, hfinished'⟩
  have hr'' : m.Ends 30 deepening r'' := ⟨1, rfl, hfinished''⟩
  obtain ⟨q, hq, hover, -⟩ := (depth_seen_only_if_met m deepening (show 10 ≤ 24 by decide)).2 r' hr'
  obtain ⟨q', hq', -, hprinted⟩ :=
    (depth_seen_only_if_met m deepening (show 24 ≤ 30 by decide)).2 r'' hr''
  obtain rfl := (hq r).1 hr
  obtain rfl := (hq' r').1 hr'
  refine ⟨⟨by decide, hr, hunread⟩, ⟨by decide, hr', hmet⟩, ⟨by decide, hr'', hwhole⟩, hover hmet.1,
    hprinted, ?_⟩
  exact (depth_seen_only_if_met m deepening (show 30 ≤ 40 by decide)).1 r'' hr'' hwhole.1

end Machine

end Lox
