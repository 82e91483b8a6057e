import Lox.Proofs.TwinRuns

/-!
# Distances are recorded once

`Stmt.allReferences` lists the reference nodes of a program in the order in which resolution comes
to them, and `Stmt.covers_resolveAll` says that it comes to each of them once: nothing is found but
for them, and all of them are found where their names are in scope. A node is told from all others
by its site. The nodes of all texts of a session have different sites (`Machine.nodup_programs`), so
that what a pass records is at sites without an entry (`Machine.recordsOnce_run`), and the table
only grows.
-/

namespace Lox

/-! ## Each node is visited once -/

def Static.Declares (Γ : Static) (x : String) : Prop := (Γ.distance? x).isSome

namespace Static.Declares

variable {Γ : Static} {x : String}

theorem cons (h : Γ.Declares x) (scope : Bindings Bool) : Declares (scope :: Γ) x := by
  unfold Declares at h ⊢
  cases hx : scope.get? x with
  | none => rw [distance?_cons_of_none hx, Option.isSome_map]; exact h
  | some b => rw [distance?_cons_of_some (by rw [hx]; rfl)]; rfl

theorem set {scope : Bindings Bool} (h : Declares (scope :: Γ) x) (name : String) (b : Bool) :
    Declares (scope.set name b :: Γ) x := by
  by_cases hx : x = name
  · unfold Declares
    rw [distance?_cons_of_some (by simp [hx])]
    rfl
  · unfold Declares at h ⊢
    rwa [distance?_set hx]

theorem declare (h : Γ.Declares x) (name : Token) : (Γ.declare name).Declares x := by
  cases Γ with
  | nil => exact h
  | cons scope Γ => exact h.set name.lexeme false

theorem extend (h : Γ.Declares x) (name : Token) : (Γ.extend name).Declares x := by
  cases Γ with
  | nil => exact h
  | cons scope Γ =>
    rw [extend_cons]
    exact h.set name.lexeme true

theorem extendAll (h : Γ.Declares x) (params : List Token) : (Γ.extendAll params).Declares x := by
  induction params generalizing Γ with
  | nil => exact h
  | cons p ps ih => exact ih (h.extend p)

theorem forMethods (h : Γ.Declares x) (superclass : Option Token) :
    (Γ.forMethods superclass).Declares x := by
  cases superclass with
  | none => exact h.cons _
  | some _ => exact (h.cons _).cons _

theorem after (h : Γ.Declares x) (s : Stmt) : (Γ.after s).Declares x := by
  cases s with
  | varDecl name _ => exact h.extend name
  | funDecl decl => exact h.extend decl.name
  | classDecl name _ _ => exact h.extend name
  | _ => exact h

end Static.Declares

/-- Nothing was found but for the nodes, in their order and for none of them twice, and if `K` holds
of all their names then something was found for each of them. -/
structure Findings.Covers (K : String → Prop) (f : Findings) (nodes : List (Reference × Token)) :
    Prop where
  within : f.Within nodes
  all : (∀ n ∈ nodes, K n.2.lexeme) → f.resolutions.map Resolution.node = nodes

namespace Findings.Covers

variable {K : String → Prop} {f g : Findings} {nodes nodes' : List (Reference × Token)}

theorem none (K : String → Prop) : Findings.none.Covers K [] := ⟨.refl _, fun _ => rfl⟩

theorem append (hf : f.Covers K nodes) (hg : g.Covers K nodes') :
    (f ++ g).Covers K (nodes ++ nodes') where
  within := hf.within.append hg.within
  all h := by
    obtain ⟨hl, hr⟩ := List.forall_mem_append.1 h
    rw [resolutions_append, List.map_append, hf.all hl, hg.all hr]

/-- Errors are of no account here. -/
theorem of_errors (hf : f.resolutions = []) (hg : g.Covers K nodes) : (f ++ g).Covers K nodes where
  within := .of_errors hf hg.within
  all h := by
    rw [resolutions_append, hf]
    exact hg.all h

theorem refer {Γ : Static} (hK : ∀ x, K x → Γ.Declares x) (r : Reference) (t : Token) :
    (Γ.refer r t).Covers K [(r, t)] := by
  unfold Static.refer
  cases hd : Γ.distance? t.lexeme with
  | some d => exact ⟨.refl _, fun _ => rfl⟩
  | none =>
    refine ⟨List.nil_sublist _, fun h => ?_⟩
    have hdeclared := hK _ (h _ (List.mem_singleton_self _))
    rw [Static.Declares, hd] at hdeclared
    cases hdeclared

theorem referVar {Γ : Static} (hK : ∀ x, K x → Γ.Declares x) (t : Token) :
    (Γ.referVar t).Covers K [(.var, t)] := of_errors (by simp) (refer hK .var t)

end Findings.Covers

open Findings (Covers)

section

variable {K : String → Prop}

mutual

/-- `K` holds of no name that is not in scope, and of none at all outside of classes. -/
theorem Expr.covers_resolve {ctx : Context} {Γ : Static} (hK : ∀ x, K x → Γ.Declares x)
    (hctx : ∀ x, K x → ctx.cls ≠ .none) : ∀ e : Expr, (e.resolve ctx Γ).Covers K e.references
  | .literal _ => .none K
  | .var name => .referVar hK name
  | .assign name value => (value.covers_resolve hK hctx).append (.refer hK .assign name)
  | .unary _ operand => operand.covers_resolve hK hctx
  | .binary left _ right => (left.covers_resolve hK hctx).append (right.covers_resolve hK hctx)
  | .logical left _ right => (left.covers_resolve hK hctx).append (right.covers_resolve hK hctx)
  | .grouping inner => inner.covers_resolve hK hctx
  | .call callee _ arguments =>
    (callee.covers_resolve hK hctx).append (Expr.covers_resolveAll hK hctx arguments)
  | .get object _ => object.covers_resolve hK hctx
  | .set object _ value => (value.covers_resolve hK hctx).append (object.covers_resolve hK hctx)
  | .super keyword _ => .of_errors (by simp) (.refer hK .super keyword)
  | .this keyword => by
    rw [Expr.resolve, Expr.references]
    split
    · rename_i hnone
      refine ⟨List.nil_sublist _, fun h => ?_⟩
      exact absurd (by simpa using hnone) (hctx _ (h _ (List.mem_singleton_self _)))
    · exact .refer hK .this keyword

theorem Expr.covers_resolveAll {ctx : Context} {Γ : Static} (hK : ∀ x, K x → Γ.Declares x)
    (hctx : ∀ x, K x → ctx.cls ≠ .none) : ∀ es : List Expr,
    (Expr.resolveAll ctx Γ es).Covers K (Expr.allReferences es)
  | [] => .none K
  | e :: es => (e.covers_resolve hK hctx).append (Expr.covers_resolveAll hK hctx es)

end

theorem Expr.covers_resolveOption {ctx : Context} {Γ : Static} (hK : ∀ x, K x → Γ.Declares x)
    (hctx : ∀ x, K x → ctx.cls ≠ .none) (o : Option Expr) :
    (Expr.resolveOption ctx Γ o).Covers K (Expr.optionReferences o) := by
  cases o with
  | none => exact .none K
  | some e => exact e.covers_resolve hK hctx

theorem Static.covers_referSuperclass {Γ : Static} (hK : ∀ x, K x → Γ.Declares x) (name : Token)
    (superclass : Option Token) :
    (Γ.referSuperclass name superclass).Covers K (superclassReferences superclass) := by
  cases superclass with
  | none => exact .none K
  | some t => exact .of_errors (by simp) (.referVar hK t)

mutual

theorem Stmt.covers_resolve : ∀ {s : Stmt} {ctx : Context} {Γ : Static}, (∀ x, K x → Γ.Declares x) →
    (∀ x, K x → ctx.cls ≠ .none) → s.WellFormed Token.Spelled →
      (s.resolve ctx Γ).2.Covers K s.references
  | .expr value, _, _, hK, hctx, _ => value.covers_resolve hK hctx
  | .print value, _, _, hK, hctx, _ => value.covers_resolve hK hctx
  | .varDecl name initializer, _, Γ, hK, hctx, _ =>
    .of_errors (Γ.resolutions_declareError name)
      (Expr.covers_resolveOption (fun x hx => (hK x hx).declare name) hctx initializer)
  | .block body, ctx, Γ, hK, hctx, hwf =>
    show (Stmt.resolveAll ctx (.empty :: Γ) body).2.Covers K (Stmt.allReferences body) from
      Stmt.covers_resolveAll (fun x hx => (hK x hx).cons _) hctx hwf
  | .ifElse condition _ none, _, _, hK, hctx, hwf =>
    (condition.covers_resolve hK hctx).append (Stmt.covers_resolve hK hctx hwf.2.1)
  | .ifElse condition thenBranch (some elseBranch), ctx, Γ, hK, hctx, hwf => by
    rw [Stmt.snd_resolve_ifElse ctx Γ condition hwf.2.1]
    exact (condition.covers_resolve hK hctx).append
      ((Stmt.covers_resolve hK hctx hwf.2.1.1).append (Stmt.covers_resolve hK hctx hwf.2.2.1))
  | .whileDo condition _, _, _, hK, hctx, hwf =>
    (condition.covers_resolve hK hctx).append (Stmt.covers_resolve hK hctx hwf.2.1)
  | .funDecl ⟨name, _, _⟩, _, Γ, hK, hctx, hwf =>
    .of_errors (Γ.resolutions_declareError name)
      (Stmt.covers_resolveFunction (fun x hx => (hK x hx).extend name) hctx hwf)
  | .ret _ value, _, _, hK, hctx, _ =>
    .of_errors (by simp) (Expr.covers_resolveOption hK hctx value)
  | .classDecl name superclass _, _, Γ, hK, hctx, hwf => by
    have hK' : ∀ x, K x → (Γ.extend name).Declares x := fun x hx => (hK x hx).extend name
    have hof : ClassContext.of superclass ≠ .none := by
      unfold ClassContext.of
      split <;> simp
    exact (Covers.of_errors (Γ.resolutions_declareError name)
        (Static.covers_referSuperclass hK' name superclass)).append
      (Stmt.covers_resolveMethods (fun x hx => (hK' x hx).forMethods superclass)
        (fun _ _ => hof) hwf.2.2)

/-- Resolution comes to each reference node of a program once. -/
theorem Stmt.covers_resolveAll : ∀ {ss : List Stmt} {ctx : Context} {Γ : Static},
    (∀ x, K x → Γ.Declares x) → (∀ x, K x → ctx.cls ≠ .none) → Stmt.AllWellFormed Token.Spelled ss →
    (Stmt.resolveAll ctx Γ ss).2.Covers K (Stmt.allReferences ss)
  | [], _, _, _, _, _ => .none K
  | s :: ss, ctx, Γ, hK, hctx, hwf => by
    have hrest :
        (Stmt.resolveAll ctx (s.resolve ctx Γ).1 ss).2.Covers K (Stmt.allReferences ss) := by
      rw [Stmt.fst_resolve ctx Γ hwf.1]
      exact Stmt.covers_resolveAll (fun x hx => (hK x hx).after s) hctx hwf.2
    exact (Stmt.covers_resolve hK hctx hwf.1).append hrest

theorem Stmt.covers_resolveFunction :
    ∀ {f : Callable Stmt} {ctx : Context} {Γ : Static} {kind : FunctionContext},
      (∀ x, K x → Γ.Declares x) → (∀ x, K x → ctx.cls ≠ .none) →
    Stmt.FunctionWellFormed Token.Spelled f →
    (Stmt.resolveFunction ctx Γ kind f).Covers K (Stmt.functionReferences f)
  | ⟨_, params, body⟩, ctx, Γ, kind, hK, hctx, hwf => by
    refine .of_errors (Static.resolutions_declareParams _ params) ?_
    rw [Static.declareParams_fst]
    exact Stmt.covers_resolveAll (fun x hx => ((hK x hx).cons _).extendAll params) hctx hwf.2.2

theorem Stmt.covers_resolveMethods : ∀ {fs : List (Callable Stmt)} {ctx : Context} {Γ : Static},
    (∀ x, K x → Γ.Declares x) → (∀ x, K x → ctx.cls ≠ .none) →
      Stmt.MethodsWellFormed Token.Spelled fs →
    (Stmt.resolveMethods ctx Γ fs).Covers K (Stmt.methodReferences fs)
  | [], _, _, _, _, _ => .none K
  | _ :: _, _, _, hK, hctx, hwf =>
    (Stmt.covers_resolveFunction hK hctx hwf.1).append (Stmt.covers_resolveMethods hK hctx hwf.2)

end

end

/-- Resolution comes to each reference node once: whatever the scopes around the program, it finds
at most one distance for a node, and it finds one for every node if the scopes declare their names
and belong to a class. -/
def VisitedOnce (program : List Stmt) : Prop :=
  ∀ ctx Γ, ((Stmt.resolveAll ctx Γ program).2.resolutions.map Resolution.node).Sublist
      (Stmt.allReferences program) ∧
    (ctx.cls ≠ .none → (∀ n ∈ Stmt.allReferences program, (Γ.distance? n.2.lexeme).isSome) →
      (Stmt.resolveAll ctx Γ program).2.resolutions.map Resolution.node =
        Stmt.allReferences program)

theorem visitedOnce_of_wellFormed {program : List Stmt}
    (h : Stmt.AllWellFormed Token.Spelled program) :
    VisitedOnce program := by
  intro ctx Γ
  have hcovers : (Stmt.resolveAll ctx Γ program).2.Covers (fun x => ctx.cls ≠ .none ∧ Γ.Declares x)
      (Stmt.allReferences program) := Stmt.covers_resolveAll (fun _ hx => hx.2) (fun _ hx => hx.1) h
  exact ⟨hcovers.within, fun hcls hknown => hcovers.all fun n hn => ⟨hcls, hknown n hn⟩⟩

/-! ## The sites of a session -/

/-- What can be read of each text of a session, whether or not it has errors. -/
def Machine.programs (m : Machine) : List Turn → List (List Stmt)
  | [] => []
  | t :: ts =>
    statementsOf m.nextSite t.source :: (m.run t.limits t.source).2.programs ts

theorem Machine.nextSite_run (m : Machine) (l : Limits) (source : String) :
    (m.run l source).2.nextSite = m.nextSite + (Lox.scan m.nextSite source).tokens.length := by
  obtain ⟨-, -, hnext⟩ := m.of_run l source
  rw [hnext, nextSite_analysed]

theorem Machine.le_of_mem_programs {m : Machine} {turns : List Turn} {site : Nat}
    (h : site ∈ (m.programs turns).flatMap referenceSites) : m.nextSite ≤ site := by
  induction turns generalizing m with
  | nil => exact absurd h List.not_mem_nil
  | cons t ts ih =>
    rw [programs, List.flatMap_cons, List.mem_append] at h
    rcases h with h | h
    · exact (bounds_of_mem_referenceSites h).1
    · have hnext := ih h
      rw [nextSite_run] at hnext
      exact Nat.le_of_add_right_le hnext

/-- No two reference nodes of a session have the same site, be they of one text or of two. -/
theorem Machine.nodup_programs (m : Machine) (turns : List Turn) :
    ((m.programs turns).flatMap referenceSites).Nodup := by
  induction turns generalizing m with
  | nil => exact List.nodup_nil
  | cons t ts ih =>
    rw [programs, List.flatMap_cons, List.nodup_append']
    refine ⟨nodup_referenceSites _ _, ih _, fun site hsite hlater => ?_⟩
    have hbound := (bounds_of_mem_referenceSites hsite).2
    have hnext := le_of_mem_programs hlater
    rw [nextSite_run] at hnext
    exact absurd hbound (Nat.not_lt.2 hnext)

/-! ## The table -/

theorem Distances.size_record {d : Distances} {r : Resolution} (h : d.find? r.token.site = none) :
    (d.record r).size = d.size + 1 := by
  have hnew : d.table.contains r.token.site = false := by
    rw [Std.TreeMap.contains_eq_isSome_getElem?]
    rw [find?] at h
    rw [h]
    rfl
  rw [record, size, size, Std.TreeMap.size_insert, hnew]
  rfl

/-- What a pass does to the table when it records the resolutions `rs`, one after another: each is
for a site without an entry, and nothing else happens. -/
structure RecordsOnce (d : Distances) (rs : List Resolution) (d' : Distances) : Prop where
  table : d' = d.recordAll rs
  absent : ∀ earlier r later, rs = earlier ++ r :: later →
    (d.recordAll earlier).find? r.token.site = none
  kept : ∀ site distance, d.find? site = some distance → d'.find? site = some distance
  recorded : ∀ r ∈ rs, d'.find? r.token.site = some r.distance
  size : d'.size = d.size + rs.length

theorem Distances.size_recordAll {d : Distances} {rs : List Resolution}
    (h : ∀ earlier r later, rs = earlier ++ r :: later →
      (d.recordAll earlier).find? r.token.site = none) :
    (d.recordAll rs).size = d.size + rs.length := by
  induction rs generalizing d with
  | nil => rfl
  | cons r rs ih =>
    have hrest : ((d.record r).recordAll rs).size = (d.record r).size + rs.length :=
      ih fun earlier r' later hrs => h (r :: earlier) r' later (by rw [hrs]; rfl)
    have hfirst : d.find? r.token.site = none := h [] r rs rfl
    show ((d.record r).recordAll rs).size = _
    rw [hrest, size_record hfirst, List.length_cons]
    omega

theorem recordsOnce_recordAll {d : Distances} {rs : List Resolution}
    (hsites : (rs.map fun r => r.token.site).Nodup) (hnew : ∀ r ∈ rs, d.find? r.token.site = none) :
    RecordsOnce d rs (d.recordAll rs) := by
  have habsent : ∀ earlier r later, rs = earlier ++ r :: later →
      (d.recordAll earlier).find? r.token.site = none := by
    intro earlier r later hrs
    subst hrs
    rw [Distances.find?_recordAll_of_not_mem, hnew r (by simp)]
    intro r' hr' heq
    rw [List.map_append, List.nodup_append'] at hsites
    exact hsites.2.2 (List.mem_map_of_mem hr') (by simp [heq])
  refine ⟨rfl, habsent, fun site distance hfind => ?_,
    fun r hr => ?_, Distances.size_recordAll habsent⟩
  · rw [Distances.find?_recordAll_of_not_mem, hfind]
    rintro r hr rfl
    rw [hnew r hr] at hfind
    cases hfind
  · exact Distances.find?_recordAll_of_mem d hr hsites

/-- The references that a run reports as resolved. A text that cannot be read is not resolved, and
one that nests too deep only in part. -/
def Report.resolved (r : Report) : List Resolution := r.findings.elim [] Findings.resolutions

theorem Machine.resolved_run (m : Machine) (l : Limits) (source : String) :
    (m.run l source).1.resolved = (m.analysis l source).resolutions := by
  obtain ⟨hphases, -, -⟩ := m.of_run l source
  exact congrArg (fun p : Phases => p.findings.elim [] Findings.resolutions) hphases

/-- No token to come has an entry. -/
def Machine.Unrecorded (m : Machine) : Prop := ∀ s, m.nextSite ≤ s → m.distances.find? s = none

theorem Analysed.nodup_sites {k depth : Nat} {source : String} {a : Analysis}
    (h : Analysed k depth source a) :
    (a.resolutions.map fun r => r.token.site).Nodup := by
  have hsub := (within_resolve (statementsOf k source)).map fun p => p.2.site
  rw [List.map_map] at hsub
  exact (h.resolutions.sublist.map _).nodup (hsub.nodup (nodup_referenceSites _ _))

theorem Machine.recordsOnce_analysed {m : Machine} (hm : m.Unrecorded) (l : Limits)
    (source : String) :
    RecordsOnce m.distances (m.analysis l source).resolutions (m.analysed l source).distances := by
  have hanalysed := m.analysed_analysis l source
  rw [distances_analysed]
  exact recordsOnce_recordAll hanalysed.nodup_sites fun r hr => hm _ (hanalysed.site_of_mem hr).1

/-- A run adds the references that it reports as resolved, each for the first time. -/
theorem Machine.recordsOnce_run {m : Machine} (hm : m.Unrecorded) (l : Limits) (source : String) :
    RecordsOnce m.distances (m.run l source).1.resolved (m.run l source).2.distances := by
  obtain ⟨-, hdistances, -⟩ := m.of_run l source
  rw [resolved_run, hdistances]
  exact recordsOnce_analysed hm l source

theorem Machine.Unrecorded.run {m : Machine} (hm : m.Unrecorded) (l : Limits) (source : String) :
    (m.run l source).2.Unrecorded := by
  intro s hs
  obtain ⟨-, hdistances, -⟩ := m.of_run l source
  rw [nextSite_run] at hs
  rw [hdistances, find?_analysed (.inr hs)]
  exact hm s (by omega)

theorem Machine.Unrecorded.session {m : Machine} (hm : m.Unrecorded) (turns : List Turn) :
    (m.session Machine.run turns).2.Unrecorded := by
  induction turns generalizing m with
  | nil => exact hm
  | cons t ts ih => exact ih (Machine.Unrecorded.run (m := m) hm t.limits t.source)

/-- Entries stay as they are to the end of a session. -/
theorem Machine.Unrecorded.find?_session {m : Machine} (hm : m.Unrecorded) (turns : List Turn)
    {site distance : Nat} (h : m.distances.find? site = some distance) :
    (m.session Machine.run turns).2.distances.find? site = some distance := by
  induction turns generalizing m with
  | nil => exact h
  | cons t ts ih =>
    have hm' : Machine.Unrecorded m := hm
    exact ih (hm'.run t.limits t.source)
      ((recordsOnce_run hm' t.limits t.source).kept site distance h)

theorem Machine.forall_mem_programs {P : List Stmt → Prop}
    (hP : ∀ k source, P (statementsOf k source)) (m : Machine) (turns : List Turn) :
    ∀ program ∈ m.programs turns, P program := by
  induction turns generalizing m with
  | nil => exact fun _ h => absurd h List.not_mem_nil
  | cons t ts ih => exact List.forall_mem_cons.2 ⟨hP _ _, ih _⟩

theorem Machine.session_append (m : Machine) (turns turns' : List Turn) :
    (m.session Machine.run (turns ++ turns')).2 =
      ((m.session Machine.run turns).2.session Machine.run turns').2 := by
  induction turns generalizing m with
  | nil => rfl
  | cons t ts ih => exact ih _

/-- **The table of distances is written once.** In a session each pass records at sites that have no
entry, as many as it reports as resolved, and entries stay to the end. The reference nodes of all
texts have different sites, also where texts are the same or have errors, and resolution comes to
each node once. -/
theorem distances_recorded_once (clock : Clock) (turns : List Turn) :
    (((Machine.initial clock).programs turns).flatMap referenceSites).Nodup ∧
    (∀ program ∈ (Machine.initial clock).programs turns, VisitedOnce program) ∧
    ∀ before turn after, turns = before ++ turn :: after →
      let m := ((Machine.initial clock).session Machine.run before).2
      let run := m.run turn.limits turn.source
      RecordsOnce m.distances run.1.resolved run.2.distances ∧
      ∀ site distance, run.2.distances.find? site = some distance →
        ((Machine.initial clock).session Machine.run turns).2.distances.find? site =
            some distance := by
  have hinitial : (Machine.initial clock).Unrecorded := fun s _ => Distances.find?_empty s
  refine ⟨Machine.nodup_programs _ turns, ?_, ?_⟩
  · exact Machine.forall_mem_programs
      (fun k source => visitedOnce_of_wellFormed (parse_found_of_scan k source).1) _ turns
  · rintro before turn after rfl
    have hbefore : Machine.Unrecorded
        ((Machine.initial clock).session Machine.run before).2 :=
      hinitial.session before
    refine ⟨Machine.recordsOnce_run hbefore turn.limits turn.source, fun site distance h => ?_⟩
    rw [Machine.session_append]
    exact (hbefore.run turn.limits turn.source).find?_session after h

/-- A text that is refused after its references were resolved. -/
def leftover : Turn := ⟨⟨30, 5⟩, "\x7b var a = 1; a = a; return a; \x7d"⟩

/-- The same text again finds its entries there, and makes new ones. -/
theorem distances_recorded_once_repeated :
    let m := ((Machine.initial (.still 0)).session Machine.run [leftover]).2
    let run := m.run leftover.limits leftover.source
    m.distances.size = 3 ∧ RecordsOnce m.distances run.1.resolved run.2.distances ∧
        run.2.distances.size = 6 := by
  have hrun :=
    ((distances_recorded_once (.still 0) [leftover, leftover]).2.2 [leftover] leftover [] rfl).1
  exact ⟨by decide +kernel, hrun, by decide +kernel⟩

end Lox
