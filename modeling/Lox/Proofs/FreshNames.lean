import Lox.Proofs.LocalNames
import Lox.Proofs.RenamedRuns
import Lox.Proofs.SentenceAcceptance
import Lox.Proofs.TwinRuns

/-!
# Fresh names

`renameLocal` gives a local variable of a program another name. If the program has no static errors
and does not have the name yet (`FreshName`), nothing changes but the name: the tokens of the
variable are the only ones that are spelled differently, and `fresh_name` shows that the new program
is resolved and run like the old one. What is said of trees and their tokens comes first
(`Respellable`), then what is said of texts.
-/

namespace Lox

/-- The sites of a local variable: that of its declaration and those of the references to it. -/
def variableSites (declaration : Token) (program : List Stmt) : List Nat :=
  ((Stmt.allOccurrences [] program).filter (Occurrence.isOf declaration)).map fun o => o.token.site

def renameLocal (declaration : Token) (word source : String) : String :=
  respell (variableSites declaration (statementsOf 0 source)) word source

/-- An identifier that does not occur in a program without static errors, as the name of one of its
local variables or parameters. -/
structure FreshName (source : String) (declaration : Token) (word : String) : Prop where
  clean : staticErrors source = []
  binder : ⟨declaration, .binder⟩ ∈ Stmt.allOccurrences [] (statementsOf 0 source)
  isWord : IsWord word.toList
  notKeyword : ∀ k, (word, k) ∉ Kind.keywords
  unused : ∀ t ∈ (scan 0 source).tokens, t.lexeme ≠ word

/-! ## The table of a program -/

theorem Occurrence.sublist_filterMap (os : List Occurrence) :
    ((os.filterMap resolution?).map fun r => r.token.site).Sublist
      (os.map fun o => o.token.site) := by
  induction os with
  | nil => exact .slnil
  | cons o os ih =>
    obtain ⟨t, role⟩ := o
    cases role with
    | reference sort distance declaration => exact ih.cons_cons _
    | _ => exact ih.cons _

theorem Occurrence.token_of_resolution? {o : Occurrence} {r : Resolution}
    (h : o.resolution? = some r) :
    r.token = o.token := by
  obtain ⟨t, role⟩ := o
  cases role with
  | reference => cases h; rfl
  | _ => cases h

theorem Occurrence.distance?_eq (o : Occurrence) :
    o.role.distance? = o.resolution?.map Resolution.distance := by
  obtain ⟨t, role⟩ := o
  cases role <;> rfl

/-- The table has the distances of the references that occur, and none for other tokens. -/
theorem Distances.find?_occurrence {os : List Occurrence}
    (hn : (os.map fun o => o.token.site).Nodup) {o : Occurrence} (ho : o ∈ os) :
    (Distances.empty.recordAll (os.filterMap Occurrence.resolution?)).find? o.token.site =
      o.role.distance? := by
  rw [o.distance?_eq]
  cases hr : o.resolution? with
  | some r =>
    rw [← Occurrence.token_of_resolution? hr]
    exact find?_recordAll_of_mem _ (List.mem_filterMap.2 ⟨o, ho, hr⟩)
      ((Occurrence.sublist_filterMap os).nodup hn)
  | none =>
    rw [find?_recordAll_of_not_mem, find?_empty]
    · rfl
    · intro r hmem hsite
      obtain ⟨o', ho', hr'⟩ := List.mem_filterMap.1 hmem
      rw [Occurrence.token_of_resolution? hr'] at hsite
      obtain rfl := List.inj_on_of_nodup_map hn ho' ho hsite
      rw [hr] at hr'
      cases hr'

/-! ## Trees -/

/-- The tree of the tokens `ts` is without errors, `declaration` declares a local variable of it,
and no token is spelled like `word`. -/
structure Respellable (ts : List Token) (program : List Stmt) (declaration : Token)
    (word : String) : Prop where
  sites : (ts.map Token.site).Nodup
  spelled : ∀ t ∈ ts, t.Spelled
  tokens : ((Stmt.allOccurrences [] program).map Occurrence.token).Subperm ts
  wellFormed : Stmt.AllWellFormed Token.Spelled program
  clean : (resolve program).errors = []
  resolved : ∃ T, Stmt.AllResolved T false [] program
  binder : ⟨declaration, .binder⟩ ∈ Stmt.allOccurrences [] program
  ordinary : word ≠ "this" ∧ word ≠ "super"
  unused : ∀ t ∈ ts, t.lexeme ≠ word

namespace Respellable

variable {ts : List Token} {program program' : List Stmt} {declaration : Token} {word : String}

theorem mem_tokens (h : Respellable ts program declaration word) {o : Occurrence}
    (ho : o ∈ Stmt.allOccurrences [] program) :
    o.token ∈ ts := h.tokens.subset (List.mem_map_of_mem ho)

/-- No two tokens that occur have the same site. -/
theorem nodup_sites (h : Respellable ts program declaration word) :
    ((Stmt.allOccurrences [] program).map fun o => o.token.site).Nodup := by
  obtain ⟨us, hperm, hsub⟩ := h.tokens
  have hnodup := (hperm.map Token.site).nodup_iff.1 ((hsub.map Token.site).nodup h.sites)
  rwa [List.map_map] at hnodup

theorem mem_variableSites (h : Respellable ts program declaration word) {o : Occurrence}
    (ho : o ∈ Stmt.allOccurrences [] program) :
    o.token.site ∈ variableSites declaration program ↔ o.isOf declaration := by
  constructor
  · intro hsite
    obtain ⟨o', ho', heq⟩ := List.mem_map.1 hsite
    obtain ⟨hmem, hof⟩ := List.mem_filter.1 ho'
    obtain rfl := List.inj_on_of_nodup_map h.nodup_sites hmem ho heq
    exact hof
  · intro hof
    exact List.mem_map.2 ⟨o, List.mem_filter.2 ⟨ho, hof⟩, rfl⟩

/-- The tokens of the variable are identifiers. -/
theorem kind_eq (h : Respellable ts program declaration word) {t : Token} (ht : t ∈ ts)
    (hsite : t.site ∈ variableSites declaration program) : t.kind = .identifier := by
  obtain ⟨o, ho, heq⟩ := List.mem_map.1 hsite
  obtain ⟨hmem, hof⟩ := List.mem_filter.1 ho
  obtain rfl := List.inj_on_of_nodup_map h.sites (h.mem_tokens hmem) ht heq
  exact h.wellFormed.proper [] o hmem (Occurrence.isName_of_isOf hof)

theorem declared (h : Respellable ts program declaration word) :
    declaration.site ∈ variableSites declaration program :=
  (h.mem_variableSites h.binder).2 (by simp [Occurrence.isOf])

def toLocal (h : Respellable ts program declaration word) : LocalRenaming where
  declaration := declaration
  word := word
  sites := variableSites declaration program
  table := (Distances.empty.recordAll (resolve program).resolutions).find?
  declared := h.declared
  ordinary :=
    (h.spelled declaration (h.mem_tokens h.binder)).1 (h.kind_eq (h.mem_tokens h.binder) h.declared)
  ordinary' := h.ordinary

theorem fits (h : Respellable ts program declaration word) :
    Occurrence.All h.toLocal.Fits (Stmt.allOccurrences [] program) := by
  intro o ho
  refine ⟨h.mem_variableSites ho, ?_⟩
  show (Distances.empty.recordAll (resolve program).resolutions).find? o.token.site =
    o.role.distance?
  rw [resolutions_eq_occurrences h.wellFormed h.clean]
  exact Distances.find?_occurrence h.nodup_sites ho

/-- A token of the text and what stands in its place. -/
def pairing (ts : List Token) (sites : List Nat) (word : String) : Pairing := fun t t' =>
  t ∈ ts ∧ t' = t.respelled sites word

/-- An identifier stands for no constant. -/
theorem read (h : Respellable ts program declaration word) :
    (pairing ts (variableSites declaration program) word).Read where
  kind := by
    rintro t t' ⟨-, ht'⟩
    rw [ht', Token.kind_respelled]
  constant := by
    rintro t t' ⟨ht, ht'⟩
    rw [ht', Token.respelled]
    split
    · rename_i hsite
      simp [Token.constant, Token.literal?, h.kind_eq ht hsite]
    · rfl

/-- Trees that differ in the tokens of the variable are renamed. -/
theorem allRenamed (h : Respellable ts program declaration word)
    (htwin : List.Forall₂ (Stmt.Twin (pairing ts (variableSites declaration program) word)) program
      program') :
    Stmt.AllRenamed h.toLocal.toRenaming [] program program' := by
  obtain ⟨T, hresolved⟩ := h.resolved
  have hpairs : ∀ t t', pairing ts (variableSites declaration program) word t t' →
      h.toLocal.toRenaming.pairs t t' := fun t t' ht => ⟨ht.2, h.unused t ht.1⟩
  exact Stmt.twins_renamed (Stmt.twins_mono hpairs htwin) .nil (fun _ _ hs => absurd rfl hs)
    h.wellFormed hresolved h.fits

theorem findings (h : Respellable ts program declaration word)
    (hrenamed : Stmt.AllRenamed h.toLocal.toRenaming [] program program') :
    (resolve program).Twin h.toLocal.toRenaming.pairs anyError (resolve program') :=
  (hrenamed.resolve h.toLocal.apart .topLevel .nil .nil h.wellFormed fun o ho =>
    (h.fits o ho).distance).findings

/-- The same references are found at the same distances. -/
theorem resolutions_eq (h : Respellable ts program declaration word)
    (hrenamed : Stmt.AllRenamed h.toLocal.toRenaming [] program program') :
    (resolve program').resolutions = (resolve program).resolutions.map fun r =>
      { r with token := r.token.respelled (variableSites declaration program) word } := by
  have hpaired := (h.findings hrenamed).resolutions
  rw [← List.forall₂_eq_eq_eq, List.forall₂_map_right_iff]
  refine hpaired.flip.imp fun r' r hr => ?_
  obtain ⟨reference, token, distance⟩ := r
  obtain ⟨reference', token', distance'⟩ := r'
  obtain ⟨rfl, ⟨rfl, -⟩, rfl⟩ := hr
  rfl

def machine (clock : Clock) (program : List Stmt) (k : Nat) : Machine :=
  { Machine.initial clock with
    distances := Distances.empty.recordAll (resolve program).resolutions
    nextSite := k }

theorem renamed_machine (h : Respellable ts program declaration word)
    (hrenamed : Stmt.AllRenamed h.toLocal.toRenaming [] program program') (clock : Clock)
    (k k' : Nat) :
    (machine clock program k).Renamed h.toLocal.toRenaming [(none, h.toLocal.toRenaming.plain)]
      (machine clock program' k') := by
  refine Machine.renamed_initial clock (fun _ => rfl) fun {t t'} ht => ?_
  have hsite : t'.site = t.site := by rw [ht.1, Token.site_respelled]
  rw [hsite, h.resolutions_eq hrenamed]
  refine (Distances.find?_recordAll_congr ?_ rfl).symm
  rw [List.forall₂_map_right_iff, List.forall₂_same]
  exact fun r _ => ⟨by rw [Token.site_respelled], rfl⟩

/-- Both programs have the same outcome, print the same and read the clock equally often. -/
theorem execute (h : Respellable ts program declaration word)
    (hrenamed : Stmt.AllRenamed h.toLocal.toRenaming [] program program') (clock : Clock)
    (k k' : Nat) (l : Limits) :
    (∃ W, ((machine clock program k).execute l program).1.Renamed h.toLocal.toRenaming W
      ((machine clock program' k').execute l program').1) ∧
    ((machine clock program' k').execute l program').2.printed =
      ((machine clock program k).execute l program).2.printed ∧
    ((machine clock program' k').execute l program').2.clock =
      ((machine clock program k).execute l program).2.clock := by
  obtain ⟨W, -, hout, hmachine⟩ :=
    (h.renamed_machine hrenamed clock k k').execute (Renaming.along_globals _) l hrenamed
  exact ⟨⟨W, hout⟩, hmachine.printed.symm, hmachine.clock.symm⟩

end Respellable

/-! ## Texts -/

namespace FreshName

variable {source word : String} {declaration : Token}

theorem respellable (h : FreshName source declaration word) :
    Respellable (scan 0 source).tokens (statementsOf 0 source) declaration word := by
  obtain ⟨⟨-, hread⟩, hclean⟩ := (staticErrors_eq_nil_iff 0 source).1 h.clean
  have hderived : Derives.Declarations (scan 0 source).tokens (statementsOf 0 source) :=
    (parse_derived (fun _ ht => Scan.kind_ne_eof ht) (scan 0 source).eof _).2
      (congrArg (Parsed.mk _) hread)
  have hresolved := allResolved_of_scan (m := Machine.initial (.still 0))
    (fun s _ => Distances.find?_empty s) hclean
  exact {
    sites := Scan.nodup_sites 0 source
    spelled := fun _ ht => Scan.spelled_of_mem ht
    tokens := List.subperm_ext_iff.2 fun t _ => hderived.tally_le t []
    wellFormed := (parse_found_of_scan 0 source).1
    clean := hclean
    resolved := ⟨_, hresolved⟩
    binder := h.binder
    ordinary := ⟨fun hw => h.notKeyword .thisKw (by rw [hw]; decide),
      fun hw => h.notKeyword .superKw (by rw [hw]; decide)⟩
    unused := h.unused }

theorem scan_renameLocal (h : FreshName source declaration word) :
    scan 0 (renameLocal declaration word source) =
      { scan 0 source with
        tokens := (scan 0 source).tokens.map
          (Token.respelled (variableSites declaration (statementsOf 0 source)) word) } :=
  scan_respell h.isWord (isKindOfWord_iff.1 (.inr ⟨rfl, h.notKeyword⟩)).symm fun _ =>
    h.respellable.kind_eq

theorem twin_tokens (source word : String) (declaration : Token) :
    List.Forall₂
      (Respellable.pairing (scan 0 source).tokens
        (variableSites declaration (statementsOf 0 source)) word)
      (scan 0 source).tokens ((scan 0 source).tokens.map
        (Token.respelled (variableSites declaration (statementsOf 0 source)) word)) := by
  rw [List.forall₂_map_right_iff, List.forall₂_same]
  exact fun t ht => ⟨ht, rfl⟩

theorem twin_parse (h : FreshName source declaration word) :
    (parseOf 0 source).Twin
      (Respellable.pairing (scan 0 source).tokens
        (variableSites declaration (statementsOf 0 source)) word) anyError
      (parseOf 0 (renameLocal declaration word source)) := by
  rw [parseOf, parseOf, h.scan_renameLocal]
  exact Lox.twin_parse h.respellable.read (fun _ _ => trivial) (fun _ => trivial)
    (twin_tokens source word _)

theorem allRenamed (h : FreshName source declaration word) :
    Stmt.AllRenamed h.respellable.toLocal.toRenaming [] (statementsOf 0 source)
      (statementsOf 0 (renameLocal declaration word source)) :=
  h.respellable.allRenamed h.twin_parse.statements

theorem clean_renameLocal (h : FreshName source declaration word) :
    staticErrors (renameLocal declaration word source) = [] := by
  obtain ⟨⟨hscan, hparse⟩, hresolve⟩ := (staticErrors_eq_nil_iff 0 source).1 h.clean
  refine (staticErrors_eq_nil_iff 0 _).2 ⟨⟨?_, ?_⟩, ?_⟩
  · rw [h.scan_renameLocal]
    exact hscan
  · exact (eq_nil_iff_of_forall₂ h.twin_parse.errors).1 hparse
  · exact (eq_nil_iff_of_forall₂ (h.respellable.findings h.allRenamed).errors).1 hresolve

/-- The depth is enough for both texts or for neither. -/
theorem fits_renameLocal (h : FreshName source declaration word) (depth : Nat) :
    fits depth (renameLocal declaration word source) = fits depth source := by
  have hread : (parseWithin depth (scan 0 source).tokens (scan 0 source).eof).isOk =
      (parseWithin depth (scan 0 (renameLocal declaration word source)).tokens
        (scan 0 (renameLocal declaration word source)).eof).isOk := by
    have htwin := twin_tokens source word declaration
    rw [h.scan_renameLocal]
    exact (twin_parseWithin (E := anyError) h.respellable.read (fun _ _ => trivial) depth
      (fun _ => trivial) htwin).isOk_eq
  have hheight := Stmt.twins_height_eq h.twin_parse.statements
  rw [Bool.eq_iff_iff, fits_iff_of_clean h.clean_renameLocal, fits_iff_of_clean h.clean,
    hread, hheight]

end FreshName

/-! ## Runs -/

section

variable (clock : Clock) {l : Limits} {source : String}

/-- A program without static errors is executed, if the depth is enough. -/
theorem Machine.run_of_fits (h : staticErrors source = []) (hfits : fits l.depth source = true) :
    ∃ k, ((Machine.initial clock).run l source).1.outcome =
        ((Respellable.machine clock (statementsOf 0 source) k).execute l
          (statementsOf 0 source)).1 ∧
      ((Machine.initial clock).run l source).2 =
        ((Respellable.machine clock (statementsOf 0 source) k).execute l
          (statementsOf 0 source)).2 := by
  have hok : ((initial clock).analysis l source).program = .ok (statementsOf 0 source) :=
    program_of_fits h hfits
  have hresolutions := ((initial clock).analysed_analysis l source).resolutions_of_ok hok
  rw [run_of_ok hok, analysed, hresolutions]
  exact ⟨_, rfl, rfl⟩

/-- Otherwise nothing is done. -/
theorem Machine.run_of_unfit (hfits : fits l.depth source = false) :
    ((Machine.initial clock).run l source).2.printed = #[] ∧
      ((Machine.initial clock).run l source).2.clock = clock ∧
      ((Machine.initial clock).run l source).1.outcome.ending = .overflow ∧
      ((Machine.initial clock).run l source).1.failureLine? = none := by
  obtain herr | herr : ((initial clock).analysis l source).program = .error .unread ∨
      ((initial clock).analysis l source).program = .error .unresolved := program_of_unfit hfits
  · rw [run_of_error herr]
    exact ⟨rfl, rfl, rfl, rfl⟩
  · rw [run_of_error herr]
    exact ⟨rfl, rfl, rfl, rfl⟩

/-- No fault gets out. -/
theorem Outcome.regular_of_fits (h : staticErrors source = [])
    (hfits : fits l.depth source = true) :
    ((Machine.initial clock).run l source).1.outcome.Regular := by
  have hok : ((Machine.initial clock).analysis l source).program = .ok (statementsOf 0 source) :=
    Machine.program_of_fits h hfits
  have hbetween := Between.initial clock
  obtain ⟨-, hregular, -⟩ :=
    (hbetween.analyse l source).execute l (Machine.allResolved_analysed hbetween.fresh hok)
  rw [Machine.run_of_ok hok]
  exact hregular

end

section

variable {ι : Type} {ρ : Renaming ι} {W : Styles ι}

/-- Renamed programs end in the same way, unless something happens that cannot happen in a run. -/
theorem Outcome.Renamed.ending_eq {o o' : Outcome} (h : o.Renamed ρ W o') (hregular : o.Regular) :
    o'.ending = o.ending := by
  cases h with
  | completed => rfl
  | stopped he =>
    cases he with
    | failed he => exact congrArg RunEnding.failed he.cause.symm
    | returned _ => exact hregular.elim
    | fault _ => exact hregular.elim
    | overflow => rfl
    | unfinished => rfl

theorem Outcome.Renamed.failureLine?_eq (hρ : ∀ {t t'}, ρ.pairs t t' → t'.line = t.line)
    {r r' : Report} (h : r.outcome.Renamed ρ W r'.outcome) : r'.failureLine? = r.failureLine? := by
  unfold Report.failureLine? Report.failure?
  generalize r.outcome = o at h ⊢
  generalize r'.outcome = o' at h ⊢
  cases h with
  | completed => rfl
  | stopped he =>
    cases he with
    | failed he => exact congrArg some (hρ he.token)
    | _ => rfl

end

/-- Both programs print the same, read the clock equally often and end in the same way, if the depth
is enough for them. -/
theorem FreshName.run_renameLocal {source word : String} {declaration : Token}
    (h : FreshName source declaration word) (clock : Clock) {l : Limits}
    (hfits : fits l.depth source = true) {r r' : Report × Machine}
    (hr : (Machine.initial clock).run l source = r)
    (hr' : (Machine.initial clock).run l (renameLocal declaration word source) = r') :
    r'.2.printed = r.2.printed ∧ r'.2.clock = r.2.clock ∧ r'.1.outcome.ending = r.1.outcome.ending ∧
      r'.1.failureLine? = r.1.failureLine? := by
  have hfits' : fits l.depth (renameLocal declaration word source) = true :=
    (h.fits_renameLocal l.depth).trans hfits
  have hregular := Outcome.regular_of_fits clock h.clean hfits
  obtain ⟨k, hrun, hend⟩ := Machine.run_of_fits clock h.clean hfits
  obtain ⟨k', hrun', hend'⟩ := Machine.run_of_fits clock h.clean_renameLocal hfits'
  obtain ⟨⟨W, hout⟩, hprinted, hclock⟩ := h.respellable.execute h.allRenamed clock k k' l
  rw [← hrun, ← hrun', hr, hr'] at hout
  rw [← hend, ← hend', hr, hr'] at hprinted hclock
  rw [hr] at hregular
  have hline : ∀ {t t'}, h.respellable.toLocal.toRenaming.pairs t t' → t'.line = t.line := by
    intro t t' ht
    rw [ht.1, Token.line_respelled]
  exact ⟨hprinted, hclock, hout.ending_eq hregular, hout.failureLine?_eq hline⟩

/-- **Renaming a local variable.** A local variable or parameter of a program without static errors
is given a name that does not occur in the program. The new program differs from the old one in the
tokens of the variable only: its declaration and the references that resolution finds to be its own.
It has no static errors either, the same references are found at the same distances, it prints the
same, reads the clock equally often, and ends in the same way, with the same message and on the same
line; also if it ends because it nests too deep, in whatever phase. -/
theorem fresh_name (clock : Clock) (l : Limits) {source word : String} {declaration : Token}
    (h : FreshName source declaration word) :
    let program := statementsOf 0 source
    let source' := renameLocal declaration word source
    let respelled := Token.respelled (variableSites declaration program) word
    let run := (Machine.initial clock).run l source
    let run' := (Machine.initial clock).run l source'
    (resolve program).resolutions =
        (Stmt.allOccurrences [] program).filterMap Occurrence.resolution? ∧
      (scan 0 source').tokens = (scan 0 source).tokens.map respelled ∧
      staticErrors source' = [] ∧
      (resolve (statementsOf 0 source')).resolutions =
        (resolve program).resolutions.map (fun r => { r with token := respelled r.token }) ∧
      run'.2.printed = run.2.printed ∧ run'.2.clock = run.2.clock ∧
      run'.1.outcome.ending = run.1.outcome.ending ∧ run'.1.failureLine? = run.1.failureLine? := by
  have hr := h.respellable
  refine ⟨resolutions_eq_occurrences hr.wellFormed hr.clean,
    congrArg Scan.tokens h.scan_renameLocal, h.clean_renameLocal, hr.resolutions_eq h.allRenamed,
    ?_⟩
  cases hfits : fits l.depth source with
  | true => exact h.run_renameLocal clock hfits rfl rfl
  | false =>
    have hfits' : fits l.depth (renameLocal declaration word source) = false :=
      (h.fits_renameLocal l.depth).trans hfits
    obtain ⟨hprinted, hclock, hending, hline⟩ := Machine.run_of_unfit clock hfits
    obtain ⟨hprinted', hclock', hending', hline'⟩ := Machine.run_of_unfit clock hfits'
    exact ⟨hprinted'.trans hprinted.symm, hclock'.trans hclock.symm, hending'.trans hending.symm,
      hline'.trans hline.symm⟩

/-- A variable that a function captures, with its name and with another one. A variable of an inner
block keeps the name. -/
def captured : String × String :=
  ("fun f(x) \x7b
 var y = x;
 fun g() \x7b y = y + x; \x7d
 \x7b var y = clock(); \x7d
 g();
 print y;
 print clock() == clock();
 x();
\x7d
f(\"a\");",
    "fun f(x) \x7b
 var z = x;
 fun g() \x7b z = z + x; \x7d
 \x7b var y = clock(); \x7d
 g();
 print z;
 print clock() == clock();
 x();
\x7d
f(\"a\");")

theorem fresh_name_captured :
    FreshName captured.1 ⟨.identifier, "y", 2, 7⟩ "z" ∧
      renameLocal ⟨.identifier, "y", 2, 7⟩ "z" captured.1 = captured.2 ∧
        staticErrors captured.2 = [] ∧
      ((Machine.initial .ticking).run ⟨30, 5⟩ captured.1).2.printed = #["aa", "true"] ∧
        ((Machine.initial .ticking).run ⟨30, 5⟩ captured.2).2.printed = #["aa", "true"] ∧
      ((Machine.initial .ticking).run ⟨30, 5⟩ captured.1).2.clock.readings = 3 ∧
        ((Machine.initial .ticking).run ⟨30, 5⟩ captured.2).2.clock.readings = 3 ∧
      ((Machine.initial .ticking).run ⟨30, 5⟩ captured.1).1.failureLine? = some 8 ∧
        ((Machine.initial .ticking).run ⟨30, 5⟩ captured.2).1.failureLine? = some 8 := by
  have hname : FreshName captured.1 ⟨.identifier, "y", 2, 7⟩ "z" :=
    { clean := by decide +kernel
      binder := by decide +kernel
      isWord := ⟨'z', [], by decide, by decide, by simp⟩
      notKeyword := by simp [Kind.keywords]
      unused := by decide +kernel }
  have hrenamed : renameLocal ⟨.identifier, "y", 2, 7⟩ "z" captured.1 = captured.2 := by
    decide +kernel
  have hrun : ((Machine.initial .ticking).run ⟨30, 5⟩ captured.1).2.printed = #["aa", "true"] ∧
      ((Machine.initial .ticking).run ⟨30, 5⟩ captured.1).2.clock.readings = 3 ∧
      ((Machine.initial .ticking).run ⟨30, 5⟩ captured.1).1.failureLine? = some 8 := by
    decide +kernel
  obtain ⟨-, -, hclean, -, hprinted, hclock, -, hline⟩ := fresh_name .ticking ⟨30, 5⟩ hname
  rw [hrenamed] at hclean hprinted hclock hline
  exact ⟨hname, hrenamed, hclean, hrun.1, hprinted.trans hrun.1, hrun.2.1,
    (congrArg Clock.readings hclock).trans hrun.2.1, hrun.2.2, hline.trans hrun.2.2⟩

end Lox
