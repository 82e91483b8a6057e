import Lox.Proofs.Restoring
import Lox.Proofs.Sessions
import Lox.Proofs.Tandem
import Lox.Proofs.TwinReading

/-!
# Runs of twin texts

Two machines are `Aligned` if they are twins and no token to come has a distance on either yet.
Running texts whose tokens are alike keeps them aligned, and the reports say the same
(`Aligned.run`): the tokens at the same places of both texts are paired from then on. Whether a
depth is enough for a text and what its static errors are is thus a matter of the text alone
(`Machine.staticErrors_run`).
-/

namespace Lox

/-! ## Related lists -/

section

variable {α β : Type} {r : α → β → Prop} {as : List α} {bs : List β}

theorem eq_nil_iff_of_forall₂ (h : List.Forall₂ r as bs) : as = [] ↔ bs = [] := by
  cases h <;> simp

theorem isEmpty_eq_of_forall₂ (h : List.Forall₂ r as bs) : as.isEmpty = bs.isEmpty := by
  cases h <;> rfl

end

/-! ## Twin texts -/

/-- The tokens of both texts are related one by one, and the same is wrong with them. -/
structure Scan.Twin (L : Pairing) (E : StaticError → StaticError → Prop) (s s' : Scan) : Prop where
  tokens : List.Forall₂ L s.tokens s'.tokens
  eof : ∀ c, E (.atToken s.eof c) (.atToken s'.eof c)
  errors : List.Forall₂ E s.errors s'.errors

/-- Tokens at the same places of two lists. -/
def Pairing.along (ts ts' : List Token) : Pairing := fun t t' => (t, t') ∈ ts.zip ts'

theorem Pairing.twins_along {ts ts' : List Token} (h : ts.length = ts'.length) :
    List.Forall₂ (Pairing.along ts ts') ts ts' := List.forall₂_iff_zip.2 ⟨h, id⟩

theorem Pairing.of_along {L : Pairing} {ts ts' : List Token} (h : List.Forall₂ L ts ts')
    {t t' : Token} (ht : along ts ts' t t') : L t t' := List.forall₂_zip h ht

theorem Scan.site_of_getElem? {k i : Nat} {source : String} {t : Token}
    (h : (scan k source).tokens[i]? = some t) : t.site = k + i := by
  have hsites := congrArg (·[i]?) (Scan.sites_tokens k source)
  obtain ⟨hi, hget⟩ := List.getElem?_eq_some_iff.1 h
  simpa [hi, hget] using hsites

/-- Tokens at the same places are equally far from the first site of their texts. -/
theorem Scan.site_of_along {k k' : Nat} {source source' : String} {t t' : Token}
    (h : Pairing.along (scan k source).tokens (scan k' source').tokens t t') :
    t.site + k' = t'.site + k := by
  obtain ⟨i, hi⟩ := List.mem_iff_getElem?.1 h
  obtain ⟨ht, ht'⟩ := List.getElem?_zip_eq_some.1 hi
  rw [site_of_getElem? ht, site_of_getElem? ht']
  omega

theorem Scan.site_of_mem_along {k k' : Nat} {source source' : String} {t t' : Token}
    (h : Pairing.along (scan k source).tokens (scan k' source').tokens t t') :
    (k ≤ t.site ∧ t.site < k + (scan k source).tokens.length) ∧
      k' ≤ t'.site ∧ t'.site < k' + (scan k' source').tokens.length := by
  obtain ⟨ht, ht'⟩ := List.of_mem_zip h
  exact ⟨site_of_mem ht, site_of_mem ht'⟩

/-- What was recorded at a site, if the same was recorded at another. -/
theorem Distances.find?_recordAll_congr {rs rs' : List Resolution} {s s' : Nat}
    (h : List.Forall₂ (fun r r' => (r.token.site = s ↔ r'.token.site = s') ∧
      r.distance = r'.distance) rs rs')
    {d d' : Distances} (hd : d.find? s = d'.find? s') :
    (d.recordAll rs).find? s = (d'.recordAll rs').find? s' := by
  induction h generalizing d d' with
  | nil => exact hd
  | @cons r r' rs rs' h _ ih =>
    have hrecord : (d.record r).find? s = (d'.record r').find? s' := by
      rw [find?_record, find?_record, h.2, hd]
      exact if_congr h.1 rfl rfl
    exact ih hrecord

/-! ## Reports -/

structure Phases.Twin (R : Pairing) (E : StaticError → StaticError → Prop) (p p' : Phases) :
    Prop where
  tokens : p.tokens = p'.tokens
  scanErrors : List.Forall₂ E p.scanErrors p'.scanErrors
  statements : p.statements = p'.statements
  parseErrors : List.Forall₂ E p.parseErrors p'.parseErrors
  findings : Option.Rel (Findings.Twin R E) p.findings p'.findings

structure Report.Twin (R : Pairing) (E : StaticError → StaticError → Prop) (r r' : Report) :
    Prop where
  phases : r.toPhases.Twin R E r'.toPhases
  outcome : r.outcome.Twin R r'.outcome

structure Analysis.Twin (R : Pairing) (E : StaticError → StaticError → Prop) (a a' : Analysis) :
    Prop where
  phases : a.toPhases.Twin R E a'.toPhases
  program : TwinExcept (Outcome.Twin R) (List.Forall₂ (Stmt.Twin R)) a.program a'.program

section

variable {R L : Pairing} {E : StaticError → StaticError → Prop}

theorem Report.Twin.staticErrors {r r' : Report} (h : r.Twin R E r') :
    List.Forall₂ E r.staticErrors r'.staticErrors := by
  obtain ⟨⟨-, hscan, -, hparse, hfindings⟩, houtcome⟩ := h
  have hfound :
      List.Forall₂ E (r.findings.elim [] Findings.errors)
      (r'.findings.elim [] Findings.errors) := by
    generalize r.findings = o at hfindings ⊢
    generalize r'.findings = o' at hfindings ⊢
    cases hfindings with
    | none => exact .nil
    | some hf => exact hf.errors
  have hall := List.rel_append (List.rel_append hscan hparse) hfound
  unfold Report.staticErrors
  generalize r.outcome = o at houtcome ⊢
  generalize r'.outcome = o' at houtcome ⊢
  cases houtcome with
  | refused | completed | stopped _ => exact hall
  | unread | unresolved => exact .nil

theorem Phases.Twin.resolutions {a a' : Analysis} (h : a.toPhases.Twin R E a'.toPhases) :
    List.Forall₂ (Resolution.Twin R) a.resolutions a'.resolutions := by
  have hfindings := h.findings
  unfold Analysis.resolutions
  generalize a.findings = o at hfindings ⊢
  generalize a'.findings = o' at hfindings ⊢
  cases hfindings with
  | none => exact .nil
  | some hf => exact hf.resolutions

theorem Findings.Twin.mono (hR : ∀ t t', R t t' → L t t') {f g : Findings} (h : f.Twin R E g) :
    f.Twin L E g :=
  { h with resolutions := h.resolutions.imp fun _ _ hr => { hr with token := hR _ _ hr.token } }

theorem Phases.Twin.mono (hR : ∀ t t', R t t' → L t t') {p p' : Phases} (h : p.Twin R E p') :
    p.Twin L E p' :=
  { h with findings := optionRel_mono (fun _ _ hf => hf.mono hR) h.findings }

theorem Outcome.Twin.mono (hR : ∀ t t', R t t' → L t t') {o o' : Outcome} (h : o.Twin R o') :
    o.Twin L o' := by
  cases h with
  | refused => exact .refused
  | completed => exact .completed
  | unread => exact .unread
  | unresolved => exact .unresolved
  | stopped he =>
    cases he with
    | returned hv => exact .stopped (.returned (hv.mono hR))
    | failed he => exact .stopped (.failed ⟨hR _ _ he.token, he.cause⟩)
    | fault f => exact .stopped (.fault f)
    | overflow => exact .stopped .overflow
    | unfinished => exact .stopped .unfinished

theorem Scan.Twin.along {k k' : Nat} {source source' : String}
    (h : (scan k source).Twin L E (scan k' source')) :
    List.Forall₂ (Pairing.along (scan k source).tokens (scan k' source').tokens)
      (scan k source).tokens (scan k' source').tokens := Pairing.twins_along h.tokens.length_eq

theorem Pairing.Spelled.of_le (hL : L.Spelled) (hR : ∀ t t', R t t' → L t t') : R.Spelled :=
  ⟨fun h => hL.kind (hR _ _ h), fun h => hL.lexeme (hR _ _ h)⟩

theorem twin_parseOf (hL : L.Spelled) (hE : L.Reports E) {k k' : Nat} {source source' : String}
    (h : (scan k source).Twin L E (scan k' source')) :
    (parseOf k source).Twin (Pairing.along (scan k source).tokens (scan k' source').tokens) E
      (parseOf k' source') :=
  twin_parse (hL.of_le fun _ _ => Pairing.of_along h.tokens).read
    (fun ht => hE (Pairing.of_along h.tokens ht)) h.eof h.along

theorem twin_resolveOf (hL : L.Spelled) (hE : L.Reports E) {k k' : Nat} {source source' : String}
    (h : (scan k source).Twin L E (scan k' source')) :
    (resolve (statementsOf k source)).Twin
      (Pairing.along (scan k source).tokens (scan k' source').tokens) E
      (resolve (statementsOf k' source')) :=
  twin_resolve (hL.of_le fun _ _ => Pairing.of_along h.tokens)
    (fun ht => hE (Pairing.of_along h.tokens ht)) (twin_parseOf hL hE h).statements

/-- Twin texts are analysed alike. -/
theorem Scan.Twin.analyse (hR : R.Spelled) (hE : R.Reports E) {s s' : Scan} (h : s.Twin R E s')
    (depth : Nat) :
    (s.analyse depth).Twin R E (s'.analyse depth) := by
  have hlength : s.all.length = s'.all.length := by
    simp [Scan.all, h.tokens.length_eq]
  have hread := twin_parseWithin hR.read hE depth h.eof h.tokens
  unfold Scan.analyse
  generalize parseWithin depth s.tokens s.eof = x at hread ⊢
  generalize parseWithin depth s'.tokens s'.eof = x' at hread ⊢
  cases hread with
  | error herrors => exact ⟨⟨hlength, h.errors, rfl, herrors, .none⟩, .error .unread⟩
  | @ok p p' hp =>
    have hclean : (s.errors.isEmpty && p.errors.isEmpty) =
        (s'.errors.isEmpty && p'.errors.isEmpty) := by
      rw [isEmpty_eq_of_forall₂ h.errors, isEmpty_eq_of_forall₂ hp.errors]
    have hphases : ∀ {f f' : Option Findings}, Option.Rel (Findings.Twin R E) f f' →
        Phases.Twin R E ⟨s.all.length, s.errors, p.statements.length, p.errors, f⟩
          ⟨s'.all.length, s'.errors, p'.statements.length, p'.errors, f'⟩ :=
      fun hf => ⟨hlength, h.errors, hp.statements.length_eq, hp.errors, hf⟩
    dsimp only
    rw [hclean]
    split
    · have hresolve := twin_resolveWithin hR hE depth hp.statements
      generalize resolveWithin depth p.statements = y at hresolve ⊢
      generalize resolveWithin depth p'.statements = y' at hresolve ⊢
      cases hresolve with
      | error hf => exact ⟨hphases (.some hf), .error .unresolved⟩
      | ok hf =>
        refine ⟨hphases (.some hf), ?_⟩
        dsimp only
        rw [isEmpty_eq_of_forall₂ hf.errors]
        split
        · exact .ok hp.statements
        · exact .error .refused
    · exact ⟨hphases .none, .error .refused⟩

end

/-! ## Aligned machines -/

/-- The machines are twins by a pairing of tokens that they have seen. It is part of `L`, which says
how tokens have to compare. -/
structure Aligned (L R : Pairing) (m n : Machine) : Prop where
  twin : m.Twin R n
  sound : ∀ t t', R t t' → L t t'
  seen : ∀ t t', R t t' → t.site < m.nextSite ∧ t'.site < n.nextSite
  fresh : ∀ s, m.nextSite ≤ s → m.distances.find? s = none
  fresh' : ∀ s, n.nextSite ≤ s → n.distances.find? s = none

theorem Machine.twin_initial (R : Pairing) (hR : ∀ t t', ¬R t t') (clock : Clock) :
    (Machine.initial clock).Twin R (.initial clock) := by
  have hempty : Scopes.empty.Twin R .empty :=
    ⟨rfl, fun _ => rfl, fun i x => by simp [Scopes.local?, Scopes.empty]⟩
  have hscopes : (Machine.initial clock).scopes.Twin R (Machine.initial clock).scopes :=
    (hempty.add none .empty).define 0 "clock" (.native ⟨0, "clock", 0, .clock⟩)
  exact ⟨hscopes, ⟨rfl, fun _ _ => .none⟩, rfl, rfl, rfl, rfl, rfl, fun h => absurd h (hR _ _)⟩

/-- A new machine is aligned with itself. -/
theorem Aligned.initial (L : Pairing) (clock : Clock) :
    Aligned L (fun _ _ => False) (.initial clock) (.initial clock) :=
  ⟨Machine.twin_initial _ (fun _ _ => id) clock, fun _ _ h => h.elim, fun _ _ h => h.elim,
    fun s _ => Distances.find?_empty s, fun s _ => Distances.find?_empty s⟩

namespace Aligned

variable {L R : Pairing} {E : StaticError → StaticError → Prop} {m n : Machine}

/-- Recording what was found in twin texts. The tokens at the same places are paired from then
on. -/
theorem analyse (h : Aligned L R m n) {source source' : String}
    (hs : (scan m.nextSite source).Twin L E (scan n.nextSite source')) {l : Limits}
    (hrs : List.Forall₂ (Resolution.Twin
      (Pairing.along (scan m.nextSite source).tokens (scan n.nextSite source').tokens))
      (m.analysis l source).resolutions (n.analysis l source').resolutions) :
    Aligned L (fun t t' => R t t' ∨ Pairing.along (scan m.nextSite source).tokens
        (scan n.nextSite source').tokens t t') (m.analysed l source) (n.analysed l source') where
  twin := by
    refine h.twin.grow (fun _ _ => .inl) fun {t t'} ht => Distances.find?_recordAll_congr ?_ ?_
    · refine hrs.imp fun r r' hr => ⟨?_, hr.distance⟩
      have hsite := Scan.site_of_along hr.token
      have hrange := Scan.site_of_mem_along hr.token
      rcases ht with ht | ht
      · -- An earlier token is at none of the new sites, on either side.
        have hseen := h.seen t t' ht
        omega
      · have hsite' := Scan.site_of_along ht
        omega
    · rcases ht with ht | ht
      · exact h.twin.distance ht
      · obtain ⟨⟨hlow, -⟩, hlow', -⟩ := Scan.site_of_mem_along ht
        rw [h.fresh _ hlow, h.fresh' _ hlow']
  sound t t' ht := ht.elim (h.sound t t') (Pairing.of_along hs.tokens)
  seen t t' ht := by
    rw [Machine.nextSite_analysed, Machine.nextSite_analysed]
    rcases ht with ht | ht
    · have hseen := h.seen t t' ht
      omega
    · have hrange := Scan.site_of_mem_along ht
      omega
  fresh s hs := by
    rw [Machine.nextSite_analysed] at hs
    exact (Machine.find?_analysed (.inr hs)).trans (h.fresh s (by omega))
  fresh' s hs := by
    rw [Machine.nextSite_analysed] at hs
    exact (Machine.find?_analysed (.inr hs)).trans (h.fresh' s (by omega))

theorem execute (hL : L.Spelled) (h : Aligned L R m n) (l : Limits) {ss ss' : List Stmt}
    (hss : List.Forall₂ (Stmt.Twin R) ss ss') :
    (m.execute l ss).1.Twin L (n.execute l ss').1 ∧
      Aligned L R (m.execute l ss).2 (n.execute l ss').2 := by
  obtain ⟨houtcome, htwin⟩ := h.twin.execute (hL.of_le h.sound) l hss
  obtain ⟨e, hkeeps⟩ := m.keeps_execute l ss
  obtain ⟨e', hkeeps'⟩ := n.keeps_execute l ss'
  refine ⟨houtcome.mono h.sound, htwin, h.sound, ?_, ?_, ?_⟩
  · rw [hkeeps.nextSite, hkeeps'.nextSite]
    exact h.seen
  · rw [hkeeps.nextSite, hkeeps.distances]
    exact h.fresh
  · rw [hkeeps'.nextSite, hkeeps'.distances]
    exact h.fresh'

/-- Runs of twin texts report the same and leave the machines aligned. -/
theorem run (hL : L.Spelled) (hE : L.Reports E) (h : Aligned L R m n) (l : Limits)
    {source source' : String} (hs : (scan m.nextSite source).Twin L E (scan n.nextSite source')) :
    (m.run l source).1.Twin L E (n.run l source').1 ∧
      ∃ R', Aligned L R' (m.run l source).2 (n.run l source').2 := by
  have hsound :
      ∀ t t', Pairing.along (scan m.nextSite source).tokens (scan n.nextSite source').tokens t t' →
      L t t' :=
    fun _ _ => Pairing.of_along hs.tokens
  have hpaired : (scan m.nextSite source).Twin _ E (scan n.nextSite source') :=
    ⟨hs.along, hs.eof, hs.errors⟩
  obtain ⟨hphases, hprogram⟩ :=
    hpaired.analyse (hL.of_le hsound) (fun ht => hE (hsound _ _ ht)) l.depth
  change (m.analysis l source).toPhases.Twin _ E (n.analysis l source').toPhases at hphases
  change TwinExcept _ _ (m.analysis l source).program (n.analysis l source').program at hprogram
  have haligned := h.analyse hs hphases.resolutions
  cases hm : (m.analysis l source).program with
  | error o =>
    cases hn : (n.analysis l source').program with
    | error o' =>
      rw [hm, hn] at hprogram
      cases hprogram with
      | error ho =>
        rw [Machine.run_of_error hm, Machine.run_of_error hn]
        exact ⟨⟨hphases.mono hsound, ho.mono hsound⟩, _, haligned⟩
    | ok _ =>
      rw [hm, hn] at hprogram
      cases hprogram
  | ok ss =>
    cases hn : (n.analysis l source').program with
    | error _ =>
      rw [hm, hn] at hprogram
      cases hprogram
    | ok ss' =>
      rw [hm, hn] at hprogram
      cases hprogram with
      | ok hss =>
        rw [Machine.run_of_ok hm, Machine.run_of_ok hn]
        obtain ⟨houtcome, hafter⟩ := haligned.execute hL l (Stmt.twins_mono (fun _ _ => .inr) hss)
        exact ⟨⟨hphases.mono hsound, houtcome⟩, _, hafter⟩

end Aligned

/-! ## The static errors of a text -/

/-- The same token at another site. -/
structure Token.Copy (t t' : Token) : Prop where
  kind : t.kind = t'.kind
  lexeme : t.lexeme = t'.lexeme
  line : t.line = t'.line

theorem Token.spelled_copy : Pairing.Spelled Token.Copy := ⟨Copy.kind, Copy.lexeme⟩

theorem Token.reports_copy : Pairing.Reports Token.Copy Eq := by
  intro t t' h c
  rw [StaticError.atToken, StaticError.atToken, h.kind, h.lexeme, h.line]

theorem Scan.copies_tokensOf (line k k' : Nat) (ss : List Segment) :
    List.Forall₂ Token.Copy (tokensOf line k ss) (tokensOf line k' ss) := by
  induction ss generalizing line k k' with
  | nil => exact .nil
  | cons s ss ih =>
    cases s with
    | token kind lexeme => exact .cons ⟨rfl, rfl, rfl⟩ (ih _ _ _)
    | _ => exact ih _ _ _

/-- Where the sites begin makes no difference to a text otherwise. -/
theorem Scan.twin_copy (k k' : Nat) (source : String) :
    (scan k source).Twin Token.Copy Eq (scan k' source) :=
  ⟨copies_tokensOf 1 k k' _, fun _ => rfl, List.forall₂_refl _⟩

/-- The static errors of a text whose tokens get sites from `k` on. -/
def staticErrorsAt (k : Nat) (source : String) : List StaticError :=
  (scan k source).errors ++ (parseOf k source).errors ++
    if (scan k source).errors = [] ∧ (parseOf k source).errors = [] then
      (resolve (statementsOf k source)).errors
    else []

def staticErrors (source : String) : List StaticError := staticErrorsAt 0 source

theorem staticErrorsAt_eq (k : Nat) (source : String) :
    staticErrorsAt k source = staticErrors source := by
  have htwin := Scan.twin_copy k 0 source
  have hscan := htwin.errors
  have hparse := (twin_parseOf Token.spelled_copy Token.reports_copy htwin).errors
  have hresolve := (twin_resolveOf Token.spelled_copy Token.reports_copy htwin).errors
  rw [List.forall₂_eq_eq_eq] at hscan hparse hresolve
  rw [staticErrors, staticErrorsAt, staticErrorsAt, hscan, hparse, hresolve]

theorem staticErrors_eq_nil_iff (k : Nat) (source : String) : staticErrors source = [] ↔
    ((scan k source).errors = [] ∧ (parseOf k source).errors = []) ∧
      (resolve (statementsOf k source)).errors = [] := by
  rw [← staticErrorsAt_eq k, staticErrorsAt, List.append_eq_nil_iff, List.append_eq_nil_iff]
  refine and_congr_right fun h => ?_
  rw [if_pos h]

/-- The text was read to its end, and resolved if it had no errors. -/
def Analysis.settled (a : Analysis) : Bool :=
  match a.program with
  | .ok _ => true
  | .error o => o.parsed && o.resolved

/-- Whether a depth is enough to parse and resolve a text. -/
def fits (depth : Nat) (source : String) : Bool := ((scan 0 source).analyse depth).settled

/-- What the depth has to be enough for, if the text has no static errors. -/
theorem fits_iff_of_clean {source : String} (hclean : staticErrors source = []) (depth : Nat) :
    fits depth source = true ↔
      (parseWithin depth (scan 0 source).tokens (scan 0 source).eof).isOk = true ∧
        Stmt.heightAll (statementsOf 0 source) ≤ depth := by
  obtain ⟨hread, hfound⟩ := (staticErrors_eq_nil_iff 0 source).1 hclean
  have hanalysed := analysed_analyse 0 depth source
  unfold fits
  generalize (scan 0 source).analyse depth = a at hanalysed ⊢
  cases hanalysed with
  | unread h => simp [Analysis.settled, Outcome.parsed, h, Except.isOk, Except.toBool]
  | misread _ herr => exact absurd hread herr
  | unresolved h hdeep => simp [Analysis.settled, Outcome.resolved, Nat.not_le.2 hdeep]
  | rejected _ _ herr => exact absurd hfound herr
  | accepted h hdepth => simp [Analysis.settled, h.read, hdepth, Except.isOk, Except.toBool]

theorem Scan.settled_analyse (k depth : Nat) (source : String) :
    ((scan k source).analyse depth).settled = fits depth source := by
  have hprogram :=
    ((Scan.twin_copy k 0 source).analyse Token.spelled_copy Token.reports_copy depth).program
  unfold fits Analysis.settled
  generalize ((scan k source).analyse depth).program = x at hprogram ⊢
  generalize ((scan 0 source).analyse depth).program = x' at hprogram ⊢
  cases hprogram with
  | ok _ => rfl
  | error ho => cases ho <;> rfl

/-- A text without static errors is accepted if the depth is enough. -/
theorem accepted_of_fits {depth : Nat} {source : String} (hclean : staticErrors source = [])
    (hfits : fits depth source = true) (k : Nat) :
    ReadsWell k depth source ∧ Stmt.heightAll (statementsOf k source) ≤ depth ∧
      ((scan k source).analyse depth).program = .ok (statementsOf k source) := by
  obtain ⟨hread, hfound⟩ := (staticErrors_eq_nil_iff k source).1 hclean
  have hanalysed := analysed_analyse k depth source
  rw [← Scan.settled_analyse k] at hfits
  generalize (scan k source).analyse depth = a at hanalysed hfits ⊢
  cases hanalysed with
  | unread | unresolved => cases hfits
  | misread _ herr => exact absurd hread herr
  | rejected _ _ herr => exact absurd hfound herr
  | accepted hwell hdepth => exact ⟨hwell, hdepth, rfl⟩

theorem Machine.program_of_fits {m : Machine} {l : Limits} {source : String}
    (hclean : staticErrors source = []) (hfits : fits l.depth source = true) :
    (m.analysis l source).program = .ok (statementsOf m.nextSite source) := by
  obtain ⟨-, -, hprogram⟩ := accepted_of_fits hclean hfits m.nextSite
  exact hprogram

theorem Machine.settled_analysis (m : Machine) (l : Limits) (source : String) :
    (m.analysis l source).settled = fits l.depth source := Scan.settled_analyse _ _ _

/-- If the depth is not enough, nothing is executed. -/
theorem Machine.program_of_unfit {m : Machine} {l : Limits} {source : String}
    (hfits : fits l.depth source = false) :
    (m.analysis l source).program = .error .unread ∨
      (m.analysis l source).program = .error .unresolved := by
  rw [← m.settled_analysis] at hfits
  have hanalysed := m.analysed_analysis l source
  generalize m.analysis l source = a at hanalysed hfits ⊢
  cases hanalysed with
  | unread => exact .inl rfl
  | unresolved => exact .inr rfl
  | misread | rejected | accepted => cases hfits

/-- What the phases found is reported if they came to their ends. -/
theorem Analysed.staticErrors {k depth : Nat} {source : String} {a : Analysis}
    (h : Analysed k depth source a) (hsettled : a.settled = true) {o : Outcome}
    (ho : (o.parsed && o.resolved) = true) :
    Report.staticErrors ⟨a.toPhases, o⟩ = staticErrorsAt k source := by
  rw [Report.staticErrors, if_pos ho, staticErrorsAt]
  cases h with
  | unread => cases hsettled
  | misread _ herr =>
    rw [if_neg herr]
    rfl
  | unresolved => cases hsettled
  | rejected hwell =>
    rw [if_pos ⟨hwell.scanErrors, hwell.parseErrors⟩]
    rfl
  | accepted hwell =>
    rw [if_pos ⟨hwell.scanErrors, hwell.parseErrors⟩]
    rfl

theorem Machine.known_execute (m : Machine) (l : Limits) (program : List Stmt) :
    ((m.execute l program).1.parsed && (m.execute l program).1.resolved) = true := by
  unfold Machine.execute
  split <;> rfl

/-- Every machine reports the static errors of a text, if the depth is enough to find them. -/
theorem Machine.staticErrors_run (m : Machine) (l : Limits) (source : String) :
    (m.run l source).1.staticErrors = if fits l.depth source then Lox.staticErrors source
      else [] := by
  have hanalysed := m.analysed_analysis l source
  rw [← m.settled_analysis, ← staticErrorsAt_eq m.nextSite]
  cases hprogram : (m.analysis l source).program with
  | ok program =>
    have hsettled : (m.analysis l source).settled = true := by rw [Analysis.settled, hprogram]
    rw [run_of_ok hprogram, if_pos hsettled]
    exact hanalysed.staticErrors hsettled (known_execute _ l program)
  | error o =>
    have hsettled : (m.analysis l source).settled = (o.parsed && o.resolved) := by
      rw [Analysis.settled, hprogram]
    rw [run_of_error hprogram, hsettled]
    split
    case isTrue ho => exact hanalysed.staticErrors (hsettled.trans ho) ho
    case isFalse ho => exact if_neg ho

/-! ## What a session shows -/

/-- How a run ends, as far as it can be seen: failures without the place they are blamed on. -/
inductive RunEnding where
  | refused
  | completed
  | failed (cause : Cause)
  | overflow
  | unfinished
  /-- No run of a session ends like this. -/
  | returned
  | fault (f : Fault)
  deriving DecidableEq, Repr

def Outcome.ending : Outcome → RunEnding
  | refused => .refused
  | completed => .completed
  | unread => .overflow
  | unresolved => .overflow
  | stopped (.failed e) => .failed e.cause
  | stopped .overflow => .overflow
  | stopped .unfinished => .unfinished
  | stopped (.returned _) => .returned
  | stopped (.fault f) => .fault f

def Report.failureLine? (r : Report) : Option Nat := r.failure?.map (·.token.line)

/-- What one run shows: the lines it prints, its static errors, its ending, and the line of its
failure. -/
structure Showing where
  lines : List String
  errors : List StaticError
  ending : RunEnding
  failureLine? : Option Nat
  deriving DecidableEq, Repr

/-- What a run on the machine `m` shows, which ends with the report `r` and the machine `m'`. -/
def Showing.of (m : Machine) (r : Report) (m' : Machine) : Showing :=
  ⟨m'.printed.toList.drop m.printed.size, r.staticErrors, r.outcome.ending, r.failureLine?⟩

def Machine.showings (m : Machine) : List Turn → List Showing
  | [] => []
  | t :: ts =>
    let (r, m') := m.run t.limits t.source
    .of m r m' :: m'.showings ts

theorem Machine.showings_cons (m : Machine) (t : Turn) (ts : List Turn) : m.showings (t :: ts) =
    .of m (m.run t.limits t.source).1
        (m.run t.limits t.source).2 ::
      (m.run t.limits t.source).2.showings ts := rfl

theorem Outcome.Twin.ending_eq {R : Pairing} {o o' : Outcome} (h : o.Twin R o') :
    o.ending = o'.ending := by
  cases h with
  | refused | completed | unread | unresolved => rfl
  | stopped he =>
    cases he with
    | failed he => exact congrArg RunEnding.failed he.cause
    | _ => rfl

theorem Outcome.Twin.failure? {R : Pairing} {r r' : Report} (h : r.outcome.Twin R r'.outcome) :
    Option.Rel (RuntimeError.Twin R) r.failure? r'.failure? := by
  unfold Report.failure?
  generalize r.outcome = o at h ⊢
  generalize r'.outcome = o' at h ⊢
  cases h with
  | refused | completed | unread | unresolved => exact .none
  | stopped he =>
    cases he with
    | failed he => exact .some he
    | _ => exact .none

theorem Report.Twin.failureLine?_eq {E : StaticError → StaticError → Prop} {r r' : Report}
    (h : r.Twin Token.Copy E r') : r.failureLine? = r'.failureLine? := by
  have hfailure := h.outcome.failure?
  unfold Report.failureLine?
  generalize r.failure? = o at hfailure ⊢
  generalize r'.failure? = o' at hfailure ⊢
  cases hfailure with
  | none => rfl
  | some he => exact congrArg some he.token.line

namespace Aligned

variable {L R : Pairing} {m n : Machine}

/-- A run of the same text on machines that differ in sites. -/
theorem turn (h : Aligned Token.Copy R m n) (t : Turn) :
    let run := m.run t.limits t.source
    let run' := n.run t.limits t.source
    Showing.of m run.1 run.2 = .of n run'.1 run'.2 ∧ ∃ R', Aligned Token.Copy R' run.2 run'.2 := by
  intro run run'
  obtain ⟨hreport, R', haligned⟩ := h.run Token.spelled_copy Token.reports_copy t.limits
    (Scan.twin_copy m.nextSite n.nextSite t.source)
  have herrors := hreport.staticErrors
  rw [List.forall₂_eq_eq_eq] at herrors
  refine ⟨?_, R', haligned⟩
  rw [Showing.of, Showing.of, haligned.twin.printed, h.twin.printed, herrors,
    hreport.outcome.ending_eq, hreport.failureLine?_eq]

/-- Machines that differ in sites show the same. -/
theorem showings_eq (h : Aligned Token.Copy R m n) (turns : List Turn) :
    m.showings turns = n.showings turns := by
  induction turns generalizing R m n with
  | nil => rfl
  | cons t ts ih =>
    obtain ⟨hshowing, R', haligned⟩ := h.turn t
    rw [Machine.showings_cons, Machine.showings_cons, hshowing, ih haligned]

end Aligned
end Lox
