import Lox.Proofs.Occurrences
import Lox.Proofs.Renamings

/-!
# Resolving renamed programs

A name that is found in a scope of one style must not be spelled like a name of a scope inside it:
it would be captured there. `Renaming.Apart` excludes this for the names in use, whatever the
styles. Then both programs are resolved alike (`Stmt.AllRenamed.resolve`): the same references are
found at the same distances, and the same complaints are made.
-/

namespace Lox

/-- Names in use are kept apart, even those of scopes in different styles. -/
structure Renaming.Apart {ι : Type} (ρ : Renaming ι) (used : String → Prop) : Prop where
  token : ∀ {t t'}, ρ.pairs t t' → used t.lexeme
  this : used "this"
  super : used "super"
  eq_of_spell_eq : ∀ {k l x y}, used x → used y → ρ.spell k x = ρ.spell l y → x = y

/-- The names of a static scope in the style `k`. -/
structure Static.ScopeRenamed {ι : Type} (ρ : Renaming ι) (used : String → Prop) (k : ι)
    (g g' : Bindings Bool) :
    Prop where
  get?_eq : ∀ x, used x → g'.get? (ρ.spell k x) = g.get? x
  spelled : ∀ y, (g'.get? y).isSome → ∃ x, used x ∧ y = ρ.spell k x

/-- Static scopes in the given styles. -/
inductive Static.Renamed {ι : Type} (ρ : Renaming ι) (used : String → Prop) :
    List ι → Static → Static → Prop where
  | nil : Renamed ρ used [] [] []
  | cons {k : ι} {Δ : List ι} {g g' : Bindings Bool} {Γ Γ' : Static} : ScopeRenamed ρ used k g g' →
      Renamed ρ used Δ Γ Γ' → Renamed ρ used (k :: Δ) (g :: Γ) (g' :: Γ')

section

variable {ι : Type} {ρ : Renaming ι} {used : String → Prop}

namespace Static.ScopeRenamed

variable {k : ι} {g g' : Bindings Bool}

theorem empty : ScopeRenamed ρ used k .empty .empty := ⟨fun _ _ => rfl, fun _ h => by cases h⟩

theorem set (h : ScopeRenamed ρ used k g g') {x y : String} (hx : used x) (hy : y = ρ.spell k x)
    (b : Bool) :
    ScopeRenamed ρ used k (g.set x b) (g'.set y b) where
  get?_eq := by
    intro z hz
    simp only [Bindings.get?_set, h.get?_eq z hz, hy, (ρ.injective k).eq_iff]
  spelled := by
    intro z hz
    rw [Bindings.get?_set] at hz
    split at hz
    · rename_i hzy
      exact ⟨x, hx, hzy.trans hy⟩
    · exact h.spelled z hz

theorem single {x : String} (hx : used x) (hspell : ρ.spell k x = x) :
    ScopeRenamed ρ used k (Static.single x) (Static.single x) :=
  empty.set hx hspell.symm true

/-- A name that is not in the scope is not captured there, however it is spelled. -/
theorem get?_eq_none (hρ : ρ.Apart used) (h : ScopeRenamed ρ used k g g') {x : String} (hx : used x)
    (hnone : g.get? x = none) (l : ι) : g'.get? (ρ.spell l x) = none := by
  by_contra hsome
  obtain ⟨y, hy, hspell⟩ := h.spelled _ (Option.ne_none_iff_isSome.1 hsome)
  obtain rfl := hρ.eq_of_spell_eq hx hy hspell
  rw [hspell, h.get?_eq x hx] at hsome
  exact hsome hnone

end Static.ScopeRenamed

theorem Renaming.exists_spelling (ρ : Renaming ι) (Δ : List ι) (d : Option Nat) (x : String) :
    ∃ k, ρ.spelling Δ d x = ρ.spell k x := by
  cases d with
  | none => exact ⟨ρ.plain, (ρ.spell_plain x).symm⟩
  | some d => exact ⟨_, rfl⟩

namespace Static.Renamed

variable {Δ : List ι} {Γ Γ' : Static}

theorem distance?_eq_none (hρ : ρ.Apart used) (h : Static.Renamed ρ used Δ Γ Γ') {x : String}
    (hx : used x) (hnone : Γ.distance? x = none) (k : ι) : Γ'.distance? (ρ.spell k x) = none := by
  induction h with
  | nil => rfl
  | @cons _ _ g _ _ _ hg _ ih =>
    cases hx' : g.get? x with
    | some b => rw [Static.distance?_cons_of_some (by simp [hx'])] at hnone; cases hnone
    | none =>
      rw [Static.distance?_cons_of_none hx', Option.map_eq_none_iff] at hnone
      rw [Static.distance?_cons_of_none (hg.get?_eq_none hρ hx hx' k), ih hnone]
      rfl

theorem distance?_eq_some (hρ : ρ.Apart used) (h : Static.Renamed ρ used Δ Γ Γ') {x : String}
    (hx : used x) {d : Nat} (hd : Γ.distance? x = some d) :
    Γ'.distance? (ρ.spell (Δ.getD d ρ.plain) x) = some d := by
  induction h generalizing d with
  | nil => cases hd
  | @cons _ _ g _ _ _ hg _ ih =>
    cases hx' : g.get? x with
    | some b =>
      rw [Static.distance?_cons_of_some (by simp [hx'])] at hd
      cases hd
      exact Static.distance?_cons_of_some (by rw [List.getD_cons_zero, hg.get?_eq x hx, hx']; rfl)
    | none =>
      rw [Static.distance?_cons_of_none hx', Option.map_eq_some_iff] at hd
      obtain ⟨d, hd, rfl⟩ := hd
      rw [List.getD_cons_succ, Static.distance?_cons_of_none (hg.get?_eq_none hρ hx hx' _), ih hd]
      rfl

/-- A name has the same distance in the spelling of the scope that it is found in. -/
theorem distance?_spelling (hρ : ρ.Apart used) (h : Static.Renamed ρ used Δ Γ Γ') {x : String}
    (hx : used x) :
    Γ'.distance? (ρ.spelling Δ (Γ.distance? x) x) = Γ.distance? x := by
  cases hd : Γ.distance? x with
  | none =>
    have hnone := h.distance?_eq_none hρ hx hd ρ.plain
    rwa [ρ.spell_plain] at hnone
  | some d => exact h.distance?_eq_some hρ hx hd

theorem isInitializing_spelling (hρ : ρ.Apart used) (h : Static.Renamed ρ used Δ Γ Γ') {x : String}
    (hx : used x) :
    Γ'.isInitializing (ρ.spelling Δ (Γ.distance? x) x) = Γ.isInitializing x := by
  cases h with
  | nil => rfl
  | @cons k Δ g g' Γ Γ' hg _ =>
    rw [Static.isInitializing, Static.isInitializing]
    cases hx' : g.get? x with
    | some b =>
      rw [Static.distance?_cons_of_some (by simp [hx'])]
      show (g'.get? (ρ.spell k x) == _) = _
      rw [hg.get?_eq x hx, hx']
    | none =>
      obtain ⟨l, hl⟩ := ρ.exists_spelling (k :: Δ) (Static.distance? (g :: Γ) x) x
      rw [hl, hg.get?_eq_none hρ hx hx' l]

theorem declare (hρ : ρ.Apart used) (h : Static.Renamed ρ used Δ Γ Γ') {t t' : Token}
    (ht : ρ.Spells (Δ.headD ρ.plain) t t') :
    Static.Renamed ρ used Δ (Γ.declare t) (Γ'.declare t') := by
  cases h with
  | nil => exact .nil
  | cons hg h => exact .cons (hg.set (hρ.token ht.paired) ht.lexeme false) h

theorem complete (hρ : ρ.Apart used) (h : Static.Renamed ρ used Δ Γ Γ') {t t' : Token}
    (ht : ρ.Spells (Δ.headD ρ.plain) t t') :
    Static.Renamed ρ used Δ (Γ.complete t) (Γ'.complete t') := by
  cases h with
  | nil => exact .nil
  | cons hg h => exact .cons (hg.set (hρ.token ht.paired) ht.lexeme true) h

theorem enter (h : Static.Renamed ρ used Δ Γ Γ') (k : ι) :
    Static.Renamed ρ used (k :: Δ) (.empty :: Γ) (.empty :: Γ') := .cons .empty h

theorem forMethods (hρ : ρ.Apart used) (h : Static.Renamed ρ used Δ Γ Γ') {o o' : Option Token}
    (ho : Option.Rel (ρ.Refers Δ) o o') :
    Static.Renamed ρ used (ρ.plain :: ρ.aroundMethods Δ o) (Γ.forMethods o) (Γ'.forMethods o') := by
  cases ho with
  | none => exact .cons (.single hρ.this (ρ.spell_plain _)) h
  | some _ =>
    exact .cons (.single hρ.this (ρ.spell_plain _)) (.cons (.single hρ.super (ρ.spell_plain _)) h)

end Static.Renamed

/-! ## Findings -/

/-- The table has the distances of the references that occur. -/
def Renaming.Records (ρ : Renaming ι) (os : List Occurrence) : Prop :=
  Occurrence.All (fun o => ρ.table o.token.site = o.role.distance?) os

theorem Binders.distance?_reference (s : Binders) (r : Reference) (t : Token) :
    (s.reference r t).role.distance? = (s.find? t.lexeme).map Prod.fst := by
  rw [Binders.reference]
  cases s.find? t.lexeme <;> rfl

theorem Binders.distance?_keyword (s : Binders) (r : Reference) (t : Token) :
    (s.keyword r t).role.distance? = (s.find? t.lexeme).map Prod.fst := by
  rw [Binders.keyword]
  cases s.find? t.lexeme <;> rfl

/-- Complaints are not compared further. -/
def anyError (_ _ : StaticError) : Prop := True

theorem Renaming.reports (ρ : Renaming ι) : ρ.pairs.Reports anyError := fun _ _ => trivial

namespace Static.Renamed

variable {Δ : List ι} {Γ Γ' : Static}

theorem declareError (hρ : ρ.Apart used) (h : Static.Renamed ρ used Δ Γ Γ') {t t' : Token}
    (ht : ρ.Spells (Δ.headD ρ.plain) t t') :
    (Γ.declareError t).Twin ρ.pairs anyError (Γ'.declareError t') := by
  cases h with
  | nil => exact .none
  | cons hg h =>
    rw [Static.declareError, Static.declareError, ht.lexeme]
    rw [List.headD_cons, hg.get?_eq _ (hρ.token ht.paired)]
    exact .errorIf ρ.reports _ ht.paired _

theorem refer (hρ : ρ.Apart used) (h : Static.Renamed ρ used Δ Γ Γ') (r : Reference) {t t' : Token}
    (ht : ρ.Refers Δ t t') (hd : ρ.table t.site = Γ.distance? t.lexeme) :
    (Γ.refer r t).Twin ρ.pairs anyError (Γ'.refer r t') := by
  rw [Static.refer, Static.refer, ht.lexeme, hd, h.distance?_spelling hρ (hρ.token ht.paired)]
  cases Γ.distance? t.lexeme with
  | none => exact .none
  | some d => exact ⟨.cons ⟨rfl, ht.paired, rfl⟩ .nil, .nil⟩

theorem referVar (hρ : ρ.Apart used) (h : Static.Renamed ρ used Δ Γ Γ') {t t' : Token}
    (ht : ρ.Refers Δ t t') (hd : ρ.table t.site = Γ.distance? t.lexeme) :
    (Γ.referVar t).Twin ρ.pairs anyError (Γ'.referVar t') := by
  have hinit := h.isInitializing_spelling hρ (hρ.token ht.paired)
  rw [← hd, ← ht.lexeme] at hinit
  rw [Static.referVar, Static.referVar, hinit]
  exact (Findings.Twin.errorIf ρ.reports _ ht.paired _).append (h.refer hρ .var ht hd)

/-- A name of the innermost scope is spelled in its style. -/
theorem spelling_of_declared (h : Static.Renamed ρ used Δ Γ Γ') {x : String}
    (hx : ∀ g ∈ Γ.head?, (g.get? x).isSome) :
    ρ.spelling Δ (Γ.distance? x) x = ρ.spell (Δ.headD ρ.plain) x := by
  cases h with
  | nil => exact (ρ.spell_plain x).symm
  | cons _ _ =>
    rw [Static.distance?_cons_of_some (hx _ rfl)]
    rfl

theorem referSuperclass (hρ : ρ.Apart used) (h : Static.Renamed ρ used Δ Γ Γ') {t t' : Token}
    (ht : ρ.Spells (Δ.headD ρ.plain) t t') (hdeclared : ∀ g ∈ Γ.head?, (g.get? t.lexeme).isSome)
    {o o' : Option Token} (ho : Option.Rel (ρ.Refers Δ) o o')
    (hd : ∀ p ∈ o, ρ.table p.site = Γ.distance? p.lexeme) :
    (Γ.referSuperclass t o).Twin ρ.pairs anyError (Γ'.referSuperclass t' o') := by
  cases ho with
  | none => exact .none
  | @some p p' hp =>
    -- A class is called like its superclass in both programs or in none.
    have hself : t'.lexeme = p'.lexeme ↔ t.lexeme = p.lexeme := by
      rw [ht.lexeme, hp.lexeme, hd p rfl]
      constructor
      · intro heq
        obtain ⟨l, hl⟩ := ρ.exists_spelling Δ (Γ.distance? p.lexeme) p.lexeme
        exact hρ.eq_of_spell_eq (hρ.token ht.paired) (hρ.token hp.paired) (heq.trans hl)
      · intro heq
        rw [← heq, h.spelling_of_declared hdeclared]
    have hself : (t'.lexeme == p'.lexeme) = (t.lexeme == p.lexeme) := by
      rw [Bool.eq_iff_iff, beq_iff_eq, beq_iff_eq, hself]
    rw [Static.referSuperclass, Static.referSuperclass, hself]
    exact (Findings.Twin.errorIf ρ.reports _ hp.paired _).append (h.referVar hρ hp (hd p rfl))

theorem declareParams (hρ : ρ.Apart used) {k : ι} {ps ps' : List Token}
    (hps : List.Forall₂ (ρ.Spells k) ps ps') {Γ Γ' : Static}
    (h : Static.Renamed ρ used (k :: Δ) Γ Γ') :
    Static.Renamed ρ used (k :: Δ) (Γ.declareParams ps).1 (Γ'.declareParams ps').1 ∧
      (Γ.declareParams ps).2.Twin ρ.pairs anyError (Γ'.declareParams ps').2 := by
  induction hps generalizing Γ Γ' with
  | nil => exact ⟨h, .none⟩
  | cons hp _ ih =>
    obtain ⟨hscopes, hfound⟩ := ih ((h.declare hρ hp).complete hρ hp)
    exact ⟨hscopes, (h.declareError hρ hp).append hfound⟩

end Static.Renamed

/-! ## Trees -/

section

variable {Δ : List ι} {Γ Γ' : Static} {s : Binders}

theorem Binders.Matches.table_reference {r : Reference} {t : Token} (hs : s.Matches Γ)
    (h : ρ.table t.site = (s.reference r t).role.distance?) :
    ρ.table t.site = Γ.distance? t.lexeme :=
  h.trans ((s.distance?_reference r t).trans (hs.distance t.lexeme))

theorem Binders.Matches.table_keyword {r : Reference} {t : Token} (hs : s.Matches Γ)
    (h : ρ.table t.site = (s.keyword r t).role.distance?) : ρ.table t.site = Γ.distance? t.lexeme :=
  h.trans ((s.distance?_keyword r t).trans (hs.distance t.lexeme))

mutual

theorem Expr.Renamed.resolve (hρ : ρ.Apart used) (ctx : Context) (hΓ : Static.Renamed ρ used Δ Γ Γ')
    (hs : s.Matches Γ) : ∀ {e e' : Expr}, e.Renamed ρ Δ e' → ρ.Records (e.occurrences s) →
      (e.resolve ctx Γ).Twin ρ.pairs anyError (e'.resolve ctx Γ')
  | .literal _, _, .literal _, _ => .none
  | .var _, _, .var h, hT => hΓ.referVar hρ h (hs.table_reference hT.head)
  | .assign .., _, .assign h he, hT =>
    (he.resolve hρ ctx hΓ hs hT.left).append
      (hΓ.refer hρ .assign h (hs.table_reference hT.right.head))
  | .unary .., _, .unary _ he, hT => he.resolve hρ ctx hΓ hs hT.tail
  | .binary .., _, .binary he _ hf, hT =>
    (he.resolve hρ ctx hΓ hs hT.left).append (hf.resolve hρ ctx hΓ hs hT.right.tail)
  | .logical .., _, .logical he _ hf, hT =>
    (he.resolve hρ ctx hΓ hs hT.left).append (hf.resolve hρ ctx hΓ hs hT.right.tail)
  | .grouping _, _, .grouping he, hT => he.resolve hρ ctx hΓ hs hT
  | .call .., _, .call he _ hes, hT =>
    (he.resolve hρ ctx hΓ hs hT.left).append
      (Expr.renamed_resolveAll hρ ctx hΓ hs hes hT.right.tail)
  | .get .., _, .get he _, hT => he.resolve hρ ctx hΓ hs hT.left
  | .set .., _, .set he _ hf, hT =>
    (hf.resolve hρ ctx hΓ hs hT.left).append (he.resolve hρ ctx hΓ hs hT.right.tail)
  | .super .., _, .super h _, hT =>
    ((Findings.Twin.errorIf ρ.reports _ h.paired _).append (.errorIf ρ.reports _ h.paired _)).append
      (hΓ.refer hρ .super h (hs.table_keyword hT.head))
  | .this _, _, .this h, hT => by
    rw [Expr.resolve, Expr.resolve]
    split
    · exact .error ρ.reports h.paired _
    · exact hΓ.refer hρ .this h (hs.table_keyword hT.head)

theorem Expr.renamed_resolveAll (hρ : ρ.Apart used) (ctx : Context)
    (hΓ : Static.Renamed ρ used Δ Γ Γ') (hs : s.Matches Γ) :
    ∀ {es es' : List Expr}, List.Forall₂ (Expr.Renamed ρ Δ) es es' →
      ρ.Records (Expr.allOccurrences s es) →
      (Expr.resolveAll ctx Γ es).Twin ρ.pairs anyError (Expr.resolveAll ctx Γ' es')
  | [], _, .nil, _ => .none
  | _ :: _, _, .cons h hes, hT =>
    (h.resolve hρ ctx hΓ hs hT.left).append (Expr.renamed_resolveAll hρ ctx hΓ hs hes hT.right)

end

theorem Expr.renamed_resolveOption (hρ : ρ.Apart used) (ctx : Context)
    (hΓ : Static.Renamed ρ used Δ Γ Γ') (hs : s.Matches Γ) {o o' : Option Expr}
    (h : Option.Rel (Expr.Renamed ρ Δ) o o') (hT : ρ.Records (Expr.optionOccurrences s o)) :
    (Expr.resolveOption ctx Γ o).Twin ρ.pairs anyError (Expr.resolveOption ctx Γ' o') := by
  cases h with
  | none => exact .none
  | some h => exact h.resolve hρ ctx hΓ hs hT

end

/-- The scopes are still renamed, and the findings are alike. -/
structure Static.RenamedStep (ρ : Renaming ι) (used : String → Prop) (Δ : List ι)
    (a b : Static × Findings) :
    Prop where
  scopes : Static.Renamed ρ used Δ a.1 b.1
  findings : a.2.Twin ρ.pairs anyError b.2

theorem Static.isSome_complete (Γ : Static) (t : Token) :
    ∀ g ∈ (Γ.complete t).head?, (g.get? t.lexeme).isSome := by
  cases Γ with
  | nil => rintro _ ⟨⟩
  | cons scope Γ =>
    rintro _ ⟨⟩
    rw [Bindings.get?_set, if_pos rfl]
    rfl

theorem ClassContext.of_congr {r : Token → Token → Prop} {o o' : Option Token}
    (h : Option.Rel r o o') :
    of o = of o' := by
  cases h <;> rfl

mutual

theorem Stmt.Renamed.resolve {P : Token → Prop} (hρ : ρ.Apart used) :
    ∀ {st st' : Stmt} {Δ : List ι} {Γ Γ' : Static} {s : Binders} (ctx : Context),
    st.Renamed ρ Δ st' → Static.Renamed ρ used Δ Γ Γ' → s.Matches Γ →
      st.WellFormed P → ρ.Records (st.occurrences s) →
      Static.RenamedStep ρ used Δ (st.resolve ctx Γ) (st'.resolve ctx Γ')
  | .expr _, _, _, _, _, _, ctx, .expr he, hΓ, hs, _, hT => ⟨hΓ, he.resolve hρ ctx hΓ hs hT⟩
  | .print _, _, _, _, _, _, ctx, .print he, hΓ, hs, _, hT => ⟨hΓ, he.resolve hρ ctx hΓ hs hT⟩
  | .varDecl t _, _, _, _, _, _, ctx, .varDecl ht ho, hΓ, hs, _, hT => by
    have hdeclared := hΓ.declare hρ ht
    exact ⟨hdeclared.complete hρ ht,
      (hΓ.declareError hρ ht).append
        (Expr.renamed_resolveOption hρ ctx hdeclared (hs.declare t) ho hT.tail)⟩
  | .block _, _, _, _, _, _, ctx, .block k hss, hΓ, hs, hwf, hT =>
    ⟨hΓ, (hss.resolve hρ ctx (hΓ.enter k) hs.enter hwf hT).findings⟩
  | .ifElse _ _ none, _, _, _, _, _, ctx, .ifThen he hst, hΓ, hs, hwf, hT =>
    have hthen := hst.resolve hρ ctx hΓ hs hwf.2.1 hT.right
    ⟨hthen.scopes, (he.resolve hρ ctx hΓ hs hT.left).append hthen.findings⟩
  | .ifElse _ st (some _), _, _, Γ, _, s, ctx, .ifElse he hst hst', hΓ, hs, hwf, hT => by
    have hscopes : (st.resolve ctx Γ).1 = Γ := Stmt.fst_resolve_branch ctx Γ hwf.2.1
    have hthen := hst.resolve hρ ctx hΓ hs hwf.2.1.1 hT.right.left
    have helse := hst'.resolve hρ ctx hthen.scopes (hscopes.symm ▸ hs) hwf.2.2.1 hT.right.right
    exact ⟨helse.scopes,
      ((he.resolve hρ ctx hΓ hs hT.left).append hthen.findings).append helse.findings⟩
  | .whileDo .., _, _, _, _, _, ctx, .whileDo he hst, hΓ, hs, hwf, hT =>
    have hbody := hst.resolve hρ ctx hΓ hs hwf.2.1 hT.right
    ⟨hbody.scopes, (he.resolve hρ ctx hΓ hs hT.left).append hbody.findings⟩
  | .funDecl f, _, _, _, _, _, ctx, .funDecl ht hf, hΓ, hs, hwf, hT => by
    have hscopes := (hΓ.declare hρ ht).complete hρ ht
    exact ⟨hscopes,
      (hΓ.declareError hρ ht).append (hf.resolve hρ ctx _ hscopes (hs.extend f.name) hwf hT)⟩
  | .ret _ _, _, _, _, _, _, ctx, .ret ht ho, hΓ, hs, _, hT => by
    refine ⟨hΓ, ((Findings.Twin.errorIf ρ.reports _ ht.paired _).append ?_).append
      (Expr.renamed_resolveOption hρ ctx hΓ hs ho hT.tail)⟩
    cases ho <;> exact .errorIf ρ.reports _ ht.paired _
  | .classDecl t o _, _, _, Γ, _, _, ctx, .classDecl ht _ ho hfs, hΓ, hs, hwf, hT => by
    have hscopes := (hΓ.declare hρ ht).complete hρ ht
    have hs := hs.extend t
    have hsuper : ∀ p ∈ o, ρ.table p.site = (Γ.extend t).distance? p.lexeme := by
      rintro p ⟨⟩
      exact hs.table_reference hT.tail.left.head
    have hmethods :=
      hfs.resolve hρ { ctx with cls := .of o } (hscopes.forMethods hρ ho) (hs.forMethods o) hwf.2.2
        hT.tail.right
    rw [Stmt.resolve, Stmt.resolve, ← ClassContext.of_congr ho]
    exact ⟨hscopes, ((hΓ.declareError hρ ht).append
      (hscopes.referSuperclass hρ ht (Static.isSome_complete _ t) ho hsuper)).append hmethods⟩
termination_by structural st => st

theorem Stmt.AllRenamed.resolve {P : Token → Prop} (hρ : ρ.Apart used) :
    ∀ {ss ss' : List Stmt} {Δ : List ι} {Γ Γ' : Static} {s : Binders} (ctx : Context),
    Stmt.AllRenamed ρ Δ ss ss' → Static.Renamed ρ used Δ Γ Γ' →
      s.Matches Γ → Stmt.AllWellFormed P ss → ρ.Records (Stmt.allOccurrences s ss) →
      Static.RenamedStep ρ used Δ (Stmt.resolveAll ctx Γ ss) (Stmt.resolveAll ctx Γ' ss')
  | [], _, _, _, _, _, _, .nil, hΓ, _, _, _ => ⟨hΓ, .none⟩
  | st :: _, _, _, Γ, _, s, ctx, .cons h hss, hΓ, hs, hwf, hT => by
    have hfirst := h.resolve hρ ctx hΓ hs hwf.1 hT.left
    have hs' := hs.after st
    rw [← Stmt.fst_resolve ctx Γ hwf.1] at hs'
    have hrest := hss.resolve hρ ctx hfirst.scopes hs' hwf.2 hT.right
    exact ⟨hrest.scopes, hfirst.findings.append hrest.findings⟩
termination_by structural ss => ss

theorem Stmt.FunctionRenamed.resolve {P : Token → Prop} (hρ : ρ.Apart used) :
    ∀ {f g : Callable Stmt} {Δ : List ι} {Γ Γ' : Static} {s : Binders} (ctx : Context)
    (kind : FunctionContext), Stmt.FunctionRenamed ρ Δ f g →
      Static.Renamed ρ used Δ Γ Γ' → s.Matches Γ → Stmt.FunctionWellFormed P f →
      ρ.Records (Stmt.functionOccurrences s f) →
      (Stmt.resolveFunction ctx Γ kind f).Twin ρ.pairs anyError (Stmt.resolveFunction ctx Γ' kind g)
  | ⟨_, ps, _⟩, _, _, _, _, _, ctx, kind, .mk k _ hps hss, hΓ, hs, hwf, hT => by
    obtain ⟨hscopes, hfound⟩ := Static.Renamed.declareParams hρ hps (hΓ.enter k)
    have hbody :=
      hss.resolve hρ { ctx with function := kind } hscopes (hs.enter.declareParams ps) hwf.2.2
        hT.tail.right
    exact hfound.append hbody.findings
termination_by structural f => f

theorem Stmt.MethodsRenamed.resolve {P : Token → Prop} (hρ : ρ.Apart used) :
    ∀ {fs gs : List (Callable Stmt)} {Δ : List ι} {Γ Γ' : Static} {s : Binders} (ctx : Context),
    Stmt.MethodsRenamed ρ Δ fs gs →
      Static.Renamed ρ used Δ Γ Γ' → s.Matches Γ → Stmt.MethodsWellFormed P fs →
      ρ.Records (Stmt.methodOccurrences s fs) →
      (Stmt.resolveMethods ctx Γ fs).Twin ρ.pairs anyError (Stmt.resolveMethods ctx Γ' gs)
  | [], _, _, _, _, _, _, .nil, _, _, _, _ => .none
  | _ :: _, _, _, _, _, _, ctx, .cons h hfs, hΓ, hs, hwf, hT => by
    rw [Stmt.resolveMethods, Stmt.resolveMethods, ← FunctionContext.ofMethod_congr h.name.lexeme]
    exact (h.resolve hρ ctx _ hΓ hs hwf.1 hT.left).append (hfs.resolve hρ ctx hΓ hs hwf.2 hT.right)
termination_by structural fs => fs

end

end

end Lox
