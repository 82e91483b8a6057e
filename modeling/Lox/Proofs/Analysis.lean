import Lox.Proofs.Locality
import Lox.Proofs.Resolving
import Lox.Proofs.Sentences
import Lox.Proofs.Walks
import Lox.Session

/-!
# The analysis of a text

Before a text is executed it is parsed and resolved, both to a depth. `Scan.analyse` ends in one of
the five ways of `Analysed`: the text may nest too deep for either, or have errors in either, or be
accepted. Whichever it is, what was resolved is the beginning of what resolution finds without a
limit (`Analysed.resolutions`), so it concerns sites of the text only.

A run analyses its text and executes the program if there is one (`Machine.run_of_ok`,
`Machine.run_of_error`).
-/

namespace Lox

/-- What is read of a text whose tokens get sites from `k` on. -/
abbrev parseOf (k : Nat) (source : String) : Parsed :=
  parse (scan k source).tokens (scan k source).eof

abbrev statementsOf (k : Nat) (source : String) : List Stmt := (parseOf k source).statements

theorem parse_found_of_scan (k : Nat) (source : String) :
    Stmt.AllWellFormed Token.Spelled (statementsOf k source) ∧
      ((Stmt.allReferences (statementsOf k source)).map Prod.snd).Subperm
        (scan k source).tokens := by
  have hspelled : ∀ t ∈ (scan k source).tokens, t.Spelled := fun _ ht => Scan.spelled_of_mem ht
  have hfound := parse_found hspelled (scan k source).eof
  exact ⟨hfound.shape, hfound.refs⟩

/-! ## Sites -/

def referenceSites (program : List Stmt) : List Nat :=
  (Stmt.allReferences program).map fun p => p.2.site

theorem nodup_referenceSites (k : Nat) (source : String) :
    (referenceSites (statementsOf k source)).Nodup := by
  obtain ⟨-, refs, hperm, hsub⟩ := parse_found_of_scan k source
  have hsites := (hperm.map Token.site).nodup_iff.1
    ((hsub.map Token.site).nodup (Scan.nodup_sites k source))
  rwa [List.map_map] at hsites

/-- A reference in a text is one of its tokens. -/
theorem site_of_mem_references {k : Nat} {source : String} {p : Reference × Token}
    (h : p ∈ Stmt.allReferences (statementsOf k source)) :
    k ≤ p.2.site ∧ p.2.site < k + (scan k source).tokens.length := by
  obtain ⟨-, hrefs⟩ := parse_found_of_scan k source
  exact Scan.site_of_mem (hrefs.subset (List.mem_map_of_mem h))

theorem bounds_of_mem_referenceSites {k site : Nat} {source : String}
    (h : site ∈ referenceSites (statementsOf k source)) :
    k ≤ site ∧ site < k + (scan k source).tokens.length := by
  obtain ⟨p, hp, rfl⟩ := List.mem_map.1 h
  exact site_of_mem_references hp

/-- What is found in a text concerns sites of the text. -/
theorem site_of_mem_resolve {k : Nat} {source : String} {r : Resolution}
    (hr : r ∈ (resolve (statementsOf k source)).resolutions) :
    k ≤ r.token.site ∧ r.token.site < k + (scan k source).tokens.length :=
  site_of_mem_references ((within_resolve _).mem hr)

/-! ## The ways it ends -/

/-- What the phases say of a text that was read to its end. -/
def Phases.of (k : Nat) (source : String) (findings : Option Findings) : Phases :=
  ⟨(scan k source).all.length, (scan k source).errors, (statementsOf k source).length,
    (parseOf k source).errors, findings⟩

/-- The text is read to the depth, and without errors. -/
structure ReadsWell (k depth : Nat) (source : String) : Prop where
  read : parseWithin depth (scan k source).tokens (scan k source).eof = .ok (parseOf k source)
  scanErrors : (scan k source).errors = []
  parseErrors : (parseOf k source).errors = []

inductive Analysed (k depth : Nat) (source : String) : Analysis → Prop
  /-- The text nests too deep to be read. -/
  | unread {errors : List StaticError}
      (h : parseWithin depth (scan k source).tokens (scan k source).eof = .error errors) :
      Analysed k depth source
        ⟨⟨(scan k source).all.length, (scan k source).errors, 0, errors, none⟩, .error .unread⟩
  /-- The text is read, with errors. -/
  | misread
      (h : parseWithin depth (scan k source).tokens (scan k source).eof = .ok (parseOf k source))
      (herr : ¬((scan k source).errors = [] ∧ (parseOf k source).errors = [])) :
      Analysed k depth source ⟨.of k source none, .error .refused⟩
  /-- The program nests too deep to be resolved. -/
  | unresolved (h : ReadsWell k depth source) {f : Findings}
      (hdeep : depth < Stmt.heightAll (statementsOf k source))
      (hf : f.IsPrefix (resolve (statementsOf k source))) :
      Analysed k depth source ⟨.of k source (some f), .error .unresolved⟩
  /-- Resolution finds errors. -/
  | rejected (h : ReadsWell k depth source)
      (hdepth : Stmt.heightAll (statementsOf k source) ≤ depth)
      (herr : (resolve (statementsOf k source)).errors ≠ []) :
      Analysed k depth source
        ⟨.of k source (some (resolve (statementsOf k source))), .error .refused⟩
  | accepted (h : ReadsWell k depth source)
      (hdepth : Stmt.heightAll (statementsOf k source) ≤ depth)
      (herr : (resolve (statementsOf k source)).errors = []) :
      Analysed k depth source
        ⟨.of k source (some (resolve (statementsOf k source))), .ok (statementsOf k source)⟩

theorem analysed_analyse (k depth : Nat) (source : String) :
    Analysed k depth source ((scan k source).analyse depth) := by
  rw [Scan.analyse]
  cases hread : parseWithin depth (scan k source).tokens (scan k source).eof with
  | error errors => exact .unread hread
  | ok p =>
    obtain rfl := parseWithin_ok hread
    dsimp only
    by_cases herr : (scan k source).errors = [] ∧ (parseOf k source).errors = []
    · have hwell : ReadsWell k depth source := ⟨hread, herr.1, herr.2⟩
      rw [if_pos (by simp [herr])]
      cases hres : resolveWithin depth (statementsOf k source) with
      | error f =>
        have hdeep : ¬Stmt.heightAll (statementsOf k source) ≤ depth := by
          intro hle
          have hok := resolveWithin_ok_iff.2 ⟨hle, rfl⟩
          rw [hres] at hok
          cases hok
        exact .unresolved hwell (Nat.lt_of_not_le hdeep) (isPrefix_of_resolveWithin hres)
      | ok f =>
        obtain ⟨hdepth, rfl⟩ := resolveWithin_ok_iff.1 hres
        by_cases hfound : (resolve (statementsOf k source)).errors = []
        · have haccepted := Analysed.accepted hwell hdepth hfound
          simpa [hfound, Phases.of] using haccepted
        · have hrejected := Analysed.rejected hwell hdepth hfound
          simpa [hfound, Phases.of] using hrejected
    · rw [if_neg (by simpa using herr)]
      exact .misread hread herr

namespace Analysed

variable {k depth : Nat} {source : String} {a : Analysis}

/-- The beginning of what is found without a limit was resolved. -/
theorem resolutions (h : Analysed k depth source a) :
    a.resolutions <+: (resolve (statementsOf k source)).resolutions := by
  cases h with
  | unread => exact List.nil_prefix
  | misread => exact List.nil_prefix
  | unresolved _ _ hf => exact hf.resolutions
  | rejected => exact List.prefix_rfl
  | accepted => exact List.prefix_rfl

theorem site_of_mem (h : Analysed k depth source a) {r : Resolution} (hr : r ∈ a.resolutions) :
    k ≤ r.token.site ∧ r.token.site < k + (scan k source).tokens.length :=
  site_of_mem_resolve (h.resolutions.subset hr)

/-- What is known of a text that is executed. -/
theorem of_ok (h : Analysed k depth source a) {program : List Stmt}
    (hok : a.program = .ok program) :
    program = statementsOf k source ∧ ReadsWell k depth source ∧
      Stmt.heightAll (statementsOf k source) ≤ depth ∧
      (resolve (statementsOf k source)).errors = [] ∧
      a.toPhases = .of k source (some (resolve (statementsOf k source))) := by
  cases h with
  | accepted hwell hdepth herr => exact ⟨(Except.ok.inj hok).symm, hwell, hdepth, herr, rfl⟩
  | _ => cases hok

/-- A text that is executed is resolved as a whole. -/
theorem resolutions_of_ok (h : Analysed k depth source a) {program : List Stmt}
    (hok : a.program = .ok program) :
    a.resolutions = (resolve (statementsOf k source)).resolutions := by
  obtain ⟨-, -, -, -, hphases⟩ := h.of_ok hok
  rw [Analysis.resolutions, hphases]
  rfl

end Analysed

/-- A program that is resolved to some depth is resolved to any greater one. -/
theorem resolveWithin_of_le {depth depth' : Nat} (hle : depth ≤ depth') {program : List Stmt}
    {f : Findings} (h : resolveWithin depth program = .ok f) :
    resolveWithin depth' program = .ok f := by
  obtain ⟨hdepth, hf⟩ := resolveWithin_ok_iff.1 h
  exact resolveWithin_ok_iff.2 ⟨hdepth.trans hle, hf⟩

/-- A greater depth makes no difference to a text for which the depth is enough. -/
theorem Scan.analyse_of_le {depth depth' : Nat} (hle : depth ≤ depth') (s : Scan) :
    (s.analyse depth).program = .error .unread ∨ (s.analyse depth).program = .error .unresolved ∨
      s.analyse depth' = s.analyse depth := by
  unfold Scan.analyse
  cases hread : parseWithin depth s.tokens s.eof with
  | error errors => exact .inl rfl
  | ok p =>
    rw [parseWithin_of_le hle hread]
    dsimp only
    split
    · cases hres : resolveWithin depth p.statements with
      | error f => exact .inr (.inl rfl)
      | ok f =>
        rw [resolveWithin_of_le hle hres]
        exact .inr (.inr rfl)
    · exact .inr (.inr rfl)

/-! ## Runs -/

namespace Machine

variable {m : Machine} {l : Limits} {source : String}

/-- What a run on the machine finds in a text before anything is executed. -/
def analysis (m : Machine) (l : Limits) (source : String) : Analysis :=
  (Lox.scan m.nextSite source).analyse l.depth

theorem analysed_analysis (m : Machine) (l : Limits) (source : String) :
    Analysed m.nextSite l.depth source (m.analysis l source) := analysed_analyse _ _ _

def analysed (m : Machine) (l : Limits) (source : String) : Machine :=
  { m with
    distances := m.distances.recordAll (m.analysis l source).resolutions
    nextSite := m.nextSite + (Lox.scan m.nextSite source).tokens.length }

section

variable (m : Machine) (l : Limits) (source : String)

@[simp] theorem distances_analysed :
    (m.analysed l source).distances = m.distances.recordAll (m.analysis l source).resolutions := by
  rw [analysed]

@[simp] theorem nextSite_analysed :
    (m.analysed l source).nextSite = m.nextSite + (Lox.scan m.nextSite source).tokens.length := by
  rw [analysed]

@[simp] theorem printed_analysed : (m.analysed l source).printed = m.printed := by
  rw [analysed]

@[simp] theorem scopes_analysed : (m.analysed l source).scopes = m.scopes := by
  rw [analysed]

@[simp] theorem current_analysed : (m.analysed l source).current = m.current := by
  rw [analysed]

@[simp] theorem fields_analysed : (m.analysed l source).fields = m.fields := by
  rw [analysed]

end

/-- The distances of other texts stay as they are. -/
theorem find?_analysed {s : Nat}
    (hs : s < m.nextSite ∨ m.nextSite + (Lox.scan m.nextSite source).tokens.length ≤ s) :
    (m.analysed l source).distances.find? s = m.distances.find? s := by
  rw [distances_analysed]
  refine Distances.find?_recordAll_of_not_mem _ _ fun r hr heq => ?_
  have hsite := (m.analysed_analysis l source).site_of_mem hr
  omega

/-- A text with a program is executed. -/
theorem run_of_ok {program : List Stmt} (h : (m.analysis l source).program = .ok program) :
    m.run l source = (⟨(m.analysis l source).toPhases, ((m.analysed l source).execute l program).1⟩,
      ((m.analysed l source).execute l program).2) := by
  unfold analysis at h
  unfold run Machine.scan
  dsimp only
  rw [h]
  rfl

/-- Of a text without a program the distances stay. -/
theorem run_of_error {o : Outcome} (h : (m.analysis l source).program = .error o) :
    m.run l source = (⟨(m.analysis l source).toPhases, o⟩, m.analysed l source) := by
  unfold analysis at h
  unfold run Machine.scan
  dsimp only
  rw [h]
  rfl

end Machine
end Lox
