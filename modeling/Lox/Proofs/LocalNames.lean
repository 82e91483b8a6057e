import Lox.Proofs.RenamedResolution
import Lox.Proofs.Respelling
import Mathlib.Logic.Equiv.Basic

/-!
# Renaming a local variable

A `LocalRenaming` gives one local variable another name: at the site of its declaration and at those
of the references to it. The scope that declares the variable is in the style `true`, in which the
two names are swapped, and all other scopes keep their names. `Stmt.allRenamed_of_twin` shows that
trees that differ in these tokens alone are renamed in the sense of `Stmt.Renamed`.
-/

namespace Lox

/-- The variable that `declaration` declares gets the name `word`. -/
structure LocalRenaming where
  declaration : Token
  word : String
  /-- The sites of the declaration and of the references to the variable. -/
  sites : List Nat
  table : Nat → Option Nat
  declared : declaration.site ∈ sites
  ordinary : declaration.lexeme ≠ "this" ∧ declaration.lexeme ≠ "super"
  ordinary' : word ≠ "this" ∧ word ≠ "super"

namespace LocalRenaming

variable (L : LocalRenaming)

/-- How the names of a scope are spelled, `true` for the scope of the variable. -/
def spell (k : Bool) (x : String) : String :=
  if k then Equiv.swap L.declaration.lexeme L.word x else x

theorem spell_declaration : L.spell true L.declaration.lexeme = L.word := by simp [spell]

theorem spell_of_ne {k : Bool} {x : String} (hx : k = true → x ≠ L.declaration.lexeme)
    (hword : x ≠ L.word) :
    L.spell k x = x := by
  cases k with
  | false => rfl
  | true => exact Equiv.swap_apply_of_ne_of_ne (hx rfl) hword

def toRenaming : Renaming Bool where
  plain := false
  spell := L.spell
  spell_plain _ := rfl
  injective k := by
    cases k with
    | false => exact fun _ _ h => h
    | true => exact Equiv.injective _
  spell_this _ := L.spell_of_ne (fun _ => L.ordinary.1.symm) L.ordinary'.1.symm
  spell_super _ := L.spell_of_ne (fun _ => L.ordinary.2.symm) L.ordinary'.2.symm
  pairs t t' := t' = t.respelled L.sites L.word ∧ t.lexeme ≠ L.word
  kind h := by rw [h.1, Token.kind_respelled]
  table := L.table

/-- Names other than the new one are kept apart. -/
theorem apart : L.toRenaming.Apart (· ≠ L.word) where
  token h := h.2
  this := L.ordinary'.1.symm
  super := L.ordinary'.2.symm
  eq_of_spell_eq := by
    intro k l x y hx hy h
    -- A name that is not replaced is spelled as it is, and the other ones are the variable and its
    -- new name.
    have hcases : ∀ (k : Bool) z, z ≠ L.word →
        L.spell k z = z ∨ L.spell k z = L.word ∧ z = L.declaration.lexeme := by
      intro k z hz
      by_cases hk : k = true → z ≠ L.declaration.lexeme
      · exact .inl (L.spell_of_ne hk hz)
      · obtain ⟨rfl, rfl⟩ : k = true ∧ z = L.declaration.lexeme := by simpa using hk
        exact .inr ⟨L.spell_declaration, rfl⟩
    change L.spell k x = L.spell l y at h
    rcases hcases k x hx with hx' | ⟨hx', hxd⟩ <;> rcases hcases l y hy with hy' | ⟨hy', hyd⟩
    · rw [← hx', h, hy']
    · exact absurd (by rw [← hx', h, hy']) hx
    · exact absurd (by rw [← hy', ← h, hx']) hy
    · rw [hxd, hyd]

/-! ## Styles of scopes -/

/-- A static scope in the style `k`: the variable is declared in it if and only if that is `true`,
as far as the declarations of the scope were read. -/
structure Styled (b : Bindings (Option Token)) (k : Bool) : Prop where
  lexeme : ∀ {x t}, b.get? x = some (some t) → t.lexeme = x
  own : k = true → ∀ o, b.get? L.declaration.lexeme = some o → o = some L.declaration
  other : k = false → ∀ x, b.get? x ≠ some (some L.declaration)

/-- A name that can be declared in a scope of the style `k`. -/
structure Suits (k : Bool) (t : Token) : Prop where
  style : t = L.declaration → k = true
  unique : k = true → t.lexeme = L.declaration.lexeme → t = L.declaration

variable {L}

namespace Styled

variable {b : Bindings (Option Token)} {k : Bool}

theorem empty (k : Bool) : L.Styled .empty k where
  lexeme h := by cases h
  own _ _ h := by cases h
  other _ _ h := by cases h

theorem set (h : L.Styled b k) {t : Token} (ht : L.Suits k t) :
    L.Styled (b.set t.lexeme (some t)) k where
  lexeme := by
    intro x u hu
    rw [Bindings.get?_set] at hu
    split at hu
    · cases hu
      exact Eq.symm ‹_›
    · exact h.lexeme hu
  own := by
    intro hk o ho
    rw [Bindings.get?_set] at ho
    split at ho
    · cases ho
      exact congrArg some (ht.unique hk (Eq.symm ‹_›))
    · exact h.own hk o ho
  other := by
    intro hk x hx
    rw [Bindings.get?_set] at hx
    split at hx
    · have hdecl := ht.style (Option.some.inj (Option.some.inj hx))
      rw [hk] at hdecl
      cases hdecl
    · exact h.other hk x hx

theorem implicit (x : String) : L.Styled (Binders.implicit x) false where
  lexeme := by
    intro y t ht
    rw [Binders.implicit, Bindings.get?_set] at ht
    split at ht <;> cases ht
  own hk := by cases hk
  other := by
    intro _ y hy
    rw [Binders.implicit, Bindings.get?_set] at hy
    split at hy <;> cases hy

end Styled

abbrev AllStyled (L : LocalRenaming) (s : Binders) (Δ : List Bool) : Prop :=
  List.Forall₂ L.Styled s Δ

namespace AllStyled

variable {s : Binders} {Δ : List Bool}

/-- A declaration is found in the scope of its variable only, and other variables of its name are
found in other scopes. -/
theorem find? (h : L.AllStyled s Δ) {x : String} {d : Nat} {o : Option Token}
    (hfind : s.find? x = some (d, o)) :
    (o = some L.declaration → x = L.declaration.lexeme ∧ Δ.getD d false = true) ∧
      (o ≠ some L.declaration → Δ.getD d false = true → x ≠ L.declaration.lexeme) := by
  induction h generalizing d with
  | nil => cases hfind
  | @cons b k s Δ hb _ ih =>
    rw [Binders.find?] at hfind
    cases hx : b.get? x with
    | some o' =>
      rw [hx] at hfind
      cases hfind
      rw [List.getD_cons_zero]
      constructor
      · rintro rfl
        refine ⟨(hb.lexeme hx).symm, ?_⟩
        by_contra hk
        exact hb.other (by simpa using hk) x hx
      · rintro ho hk rfl
        exact ho (hb.own hk o hx)
    | none =>
      rw [hx] at hfind
      obtain ⟨⟨d', o'⟩, hfound, heq⟩ := Option.map_eq_some_iff.1 hfind
      cases heq
      rw [List.getD_cons_succ]
      exact ih hfound

theorem declare (h : L.AllStyled s Δ) {t : Token} (ht : s ≠ [] → L.Suits (Δ.headD false) t) :
    L.AllStyled (s.declare t) Δ := by
  cases h with
  | nil => exact .nil
  | cons hb h => exact .cons (hb.set (ht (by simp))) h

theorem declareAll {b : Bindings (Option Token)} {k : Bool} (hb : L.Styled b k)
    (h : L.AllStyled s Δ) {ps : List Token} (hps : ∀ p ∈ ps, L.Suits k p) :
    L.AllStyled (Binders.declareAll (b :: s) ps) (k :: Δ) := by
  induction ps generalizing b with
  | nil => exact .cons hb h
  | cons p ps ih =>
    exact ih (hb.set (hps p List.mem_cons_self)) fun q hq => hps q (List.mem_cons_of_mem _ hq)

theorem forMethods (h : L.AllStyled s Δ) (o : Option Token) :
    L.AllStyled (s.forMethods o) (false :: L.toRenaming.aroundMethods Δ o) := by
  cases o with
  | none => exact .cons (.implicit _) h
  | some _ => exact .cons (.implicit _) (.cons (.implicit _) h)

theorem after (h : L.AllStyled s Δ) {st : Stmt}
    (hst : s ≠ [] → ∀ t, st.declared? = some t → L.Suits (Δ.headD false) t) :
    L.AllStyled (s.after st) Δ := by
  cases st with
  | varDecl name _ => exact h.declare fun hs => hst hs name rfl
  | funDecl decl => exact h.declare fun hs => hst hs decl.name rfl
  | classDecl name _ _ => exact h.declare fun hs => hst hs name rfl
  | _ => exact h

end AllStyled

def styleOf (L : LocalRenaming) (names : List Token) : Bool := decide (L.declaration ∈ names)

theorem suits_styleOf {scope : Bindings Bool} {names : List Token} (h : scope.Accepts names)
    {t : Token} (ht : t ∈ names) : L.Suits (L.styleOf names) t where
  style := by
    rintro rfl
    exact decide_eq_true ht
  unique hk := List.inj_on_of_nodup_map h.nodup ht (of_decide_eq_true hk)

/-! ## Tokens -/

/-- A token is replaced if it names the variable, and the table has its distance. -/
structure Fits (L : LocalRenaming) (o : Occurrence) : Prop where
  replaced : o.token.site ∈ L.sites ↔ o.isOf L.declaration
  distance : L.table o.token.site = o.role.distance?

section

variable {s : Binders} {Δ : List Bool} {t t' : Token}

theorem lexeme_of_mem (h : L.toRenaming.pairs t t') (ht : t.site ∈ L.sites) :
    t'.lexeme = L.word := by
  rw [h.1, Token.respelled, if_pos ht]

theorem eq_of_not_mem (h : L.toRenaming.pairs t t') (ht : t.site ∉ L.sites) : t' = t := by
  rw [h.1, Token.respelled, if_neg ht]

theorem Fits.keeps (h : L.toRenaming.pairs t t') (ht : L.Fits (.plain t)) :
    L.toRenaming.Keeps t t' :=
  ⟨h, by rw [eq_of_not_mem h fun hmem => by cases ht.replaced.1 hmem]⟩

/-- The name of a variable. -/
theorem spells (h : L.toRenaming.pairs t t') {k : Bool} (ht : L.Fits ⟨t, .binder⟩)
    (hk : L.Suits k t) :
    L.toRenaming.Spells k t t' := by
  refine ⟨h, ?_⟩
  by_cases hdecl : t = L.declaration
  · rw [lexeme_of_mem h (ht.replaced.2 (by simpa [Occurrence.isOf] using hdecl)),
      hk.style hdecl, hdecl]
    exact L.spell_declaration.symm
  · have hnot : t.site ∉ L.sites :=
      fun hmem => hdecl (by simpa [Occurrence.isOf] using ht.replaced.1 hmem)
    rw [eq_of_not_mem h hnot]
    exact (L.spell_of_ne (fun hk' heq => hdecl (hk.unique hk' heq)) h.2).symm

/-- A name that is not replaced is no other name of the scope of the variable. -/
theorem spells_of_not_mem (h : L.toRenaming.pairs t t') {k : Bool} (ht : t.site ∉ L.sites)
    (hk : k = true → L.Suits k t) : L.toRenaming.Spells k t t' := by
  refine ⟨h, ?_⟩
  rw [eq_of_not_mem h ht]
  refine (L.spell_of_ne (fun hk' heq => ht ?_) h.2).symm
  rw [(hk hk').unique hk' heq]
  exact L.declared

/-- The name of a function or class. -/
theorem spells_plain (h : L.toRenaming.pairs t t') (hΔ : L.AllStyled s Δ) (ht : L.Fits (.plain t))
    (hk : s ≠ [] → L.Suits (Δ.headD false) t) : L.toRenaming.Spells (Δ.headD false) t t' := by
  refine spells_of_not_mem h (fun hmem => by cases ht.replaced.1 hmem) fun hstyle => hk ?_
  rintro rfl
  cases hΔ
  cases hstyle

theorem spells_binder (h : L.toRenaming.pairs t t') (hΔ : L.AllStyled s Δ)
    (ht : L.Fits (s.binder t)) (hk : s ≠ [] → L.Suits (Δ.headD false) t) :
    L.toRenaming.Spells (Δ.headD false) t t' := by
  cases hΔ with
  | nil =>
    refine spells_of_not_mem h (fun hmem => ?_) fun hstyle => ?_
    · cases ht.replaced.1 hmem
    · cases hstyle
  | cons _ _ => exact spells h ht (hk (by simp))

theorem refers (h : L.toRenaming.pairs t t') (hΔ : L.AllStyled s Δ) {r : Reference}
    (ht : L.Fits (s.reference r t)) : L.toRenaming.Refers Δ t t' := by
  refine ⟨h, ?_⟩
  have hreplaced := ht.replaced
  have hdistance : L.toRenaming.table t.site = _ := ht.distance
  rw [hdistance, Binders.distance?_reference]
  cases hfind : s.find? t.lexeme with
  | none =>
    have hnot : t.site ∉ L.sites := by
      simpa [Binders.reference, hfind, Occurrence.isOf] using hreplaced
    rw [eq_of_not_mem h hnot]
    rfl
  | some found =>
    obtain ⟨d, o⟩ := found
    obtain ⟨hown, hother⟩ := hΔ.find? hfind
    have hiff : t.site ∈ L.sites ↔ o = some L.declaration := by
      simpa [Binders.reference, hfind, Occurrence.isOf] using hreplaced
    show t'.lexeme = L.spell (Δ.getD d false) t.lexeme
    by_cases ho : o = some L.declaration
    · rw [lexeme_of_mem h (hiff.2 ho), (hown ho).1, (hown ho).2, L.spell_declaration]
    · rw [eq_of_not_mem h fun hmem => ho (hiff.1 hmem), L.spell_of_ne (hother ho) h.2]

/-- A keyword is no name of a variable. -/
theorem refers_keyword (h : L.toRenaming.pairs t t') {r : Reference} (ht : L.Fits (s.keyword r t))
    (hlexeme : t.lexeme ≠ L.declaration.lexeme) : L.toRenaming.Refers Δ t t' := by
  have hnot : t.site ∉ L.sites := by
    intro hmem
    have hisOf := ht.replaced.1 hmem
    cases hfind : s.find? t.lexeme <;> simp [Binders.keyword, hfind, Occurrence.isOf] at hisOf
  refine ⟨h, ?_⟩
  obtain ⟨k, hk⟩ := L.toRenaming.exists_spelling Δ (L.toRenaming.table t.site) t.lexeme
  rw [hk, eq_of_not_mem h hnot]
  exact (L.spell_of_ne (fun _ => hlexeme) h.2).symm

end

end LocalRenaming

/-! ## Trees -/

section

variable {L : LocalRenaming} {Δ : List Bool} {s : Binders}

open LocalRenaming

theorem Token.Is.ne_declaration {t : Token}
    (h : t.Is Token.Spelled .thisKw ∨ t.Is Token.Spelled .superKw) :
    t.lexeme ≠ L.declaration.lexeme := by
  rcases h with h | h
  · rw [h.1.2.1 h.2]
    exact L.ordinary.1.symm
  · rw [h.1.2.2 h.2]
    exact L.ordinary.2.symm

mutual

theorem Expr.Twin.renamed (hΔ : L.AllStyled s Δ) : ∀ {e e' : Expr}, e.Twin L.toRenaming.pairs e' →
    e.WellFormed Token.Spelled → Occurrence.All L.Fits (e.occurrences s) →
      e.Renamed L.toRenaming Δ e'
  | .literal _, _, .literal v, _, _ => .literal v
  | .var _, _, .var h, _, hfit => .var (refers h hΔ hfit.head)
  | .assign .., _, .assign h he, hwf, hfit =>
    .assign (refers h hΔ hfit.right.head) (he.renamed hΔ hwf.2 hfit.left)
  | .unary .., _, .unary h he, hwf, hfit =>
    .unary (hfit.head.keeps h) (he.renamed hΔ hwf.2.2 hfit.tail)
  | .binary .., _, .binary he h hf, hwf, hfit =>
    .binary (he.renamed hΔ hwf.1 hfit.left) (hfit.right.head.keeps h)
      (hf.renamed hΔ hwf.2.2.2 hfit.right.tail)
  | .logical .., _, .logical he h hf, hwf, hfit =>
    .logical (he.renamed hΔ hwf.1 hfit.left) (hfit.right.head.keeps h)
      (hf.renamed hΔ hwf.2.2.2 hfit.right.tail)
  | .grouping _, _, .grouping he, hwf, hfit => .grouping (he.renamed hΔ hwf hfit)
  | .call .., _, .call he h hes, hwf, hfit =>
    .call (he.renamed hΔ hwf.1 hfit.left) (hfit.right.head.keeps h)
      (Expr.twins_renamed hΔ hes hwf.2.2 hfit.right.tail)
  | .get .., _, .get he h, hwf, hfit =>
    .get (he.renamed hΔ hwf.1 hfit.left) (hfit.right.head.keeps h)
  | .set .., _, .set he h hf, hwf, hfit =>
    .set (he.renamed hΔ hwf.1 hfit.right.tail) (hfit.right.head.keeps h)
      (hf.renamed hΔ hwf.2.2 hfit.left)
  | .super .., _, .super h h', hwf, hfit =>
    .super (refers_keyword h hfit.head (Token.Is.ne_declaration (.inr hwf.1)))
      (hfit.tail.head.keeps h')
  | .this _, _, .this h, hwf, hfit =>
    .this (refers_keyword h hfit.head (Token.Is.ne_declaration (.inl hwf)))

theorem Expr.twins_renamed (hΔ : L.AllStyled s Δ) : ∀ {es es' : List Expr},
    List.Forall₂ (Expr.Twin L.toRenaming.pairs) es es' → Expr.AllWellFormed Token.Spelled es →
    Occurrence.All L.Fits (Expr.allOccurrences s es) →
      List.Forall₂ (Expr.Renamed L.toRenaming Δ) es es'
  | [], _, .nil, _, _ => .nil
  | _ :: _, _, .cons h hs, hwf, hfit =>
    .cons (h.renamed hΔ hwf.1 hfit.left) (Expr.twins_renamed hΔ hs hwf.2 hfit.right)

end

theorem Expr.twin_option_renamed (hΔ : L.AllStyled s Δ) {o o' : Option Expr}
    (h : Option.Rel (Expr.Twin L.toRenaming.pairs) o o')
    (hwf : Expr.OptionWellFormed Token.Spelled o)
    (hfit : Occurrence.All L.Fits (Expr.optionOccurrences s o)) :
    Option.Rel (Expr.Renamed L.toRenaming Δ) o o' := by
  cases h with
  | none => exact .none
  | some h => exact .some (h.renamed hΔ hwf hfit)

theorem LocalRenaming.params_spelled {k : Bool} {ps ps' : List Token}
    (h : List.Forall₂ L.toRenaming.pairs ps ps') (hsuits : ∀ p ∈ ps, L.Suits k p)
    (hfit : Occurrence.All L.Fits (ps.map (⟨·, .binder⟩))) :
    List.Forall₂ (L.toRenaming.Spells k) ps ps' := by
  induction h with
  | nil => exact .nil
  | cons hp _ ih =>
    exact .cons (spells hp hfit.head (hsuits _ List.mem_cons_self))
      (ih (fun q hq => hsuits q (List.mem_cons_of_mem _ hq)) hfit.tail)

end

/-- The name that a statement declares goes with the style of the scope around it, if there is
one. -/
def LocalRenaming.StmtSuits (L : LocalRenaming) (s : Binders) (Δ : List Bool) (st : Stmt) : Prop :=
  s ≠ [] → ∀ t, st.declared? = some t → L.Suits (Δ.headD false) t

theorem LocalRenaming.stmtSuits_of_branch {L : LocalRenaming} {s : Binders} {Δ : List Bool}
    {st : Stmt} (h : ¬ st.IsDeclaration) : L.StmtSuits s Δ st := by
  intro _ t ht
  rw [Stmt.declared?_of_not_isDeclaration h] at ht
  cases ht

section

variable {L : LocalRenaming} {T : SiteTable}

open LocalRenaming

mutual

theorem Stmt.Twin.renamed :
    ∀ {st st' : Stmt} {inside : Bool} {Γ : Static} {s : Binders} {Δ : List Bool},
    st.Twin L.toRenaming.pairs st' → L.AllStyled s Δ → L.StmtSuits s Δ st →
      st.WellFormed Token.Spelled →
    st.Resolved T inside Γ → Occurrence.All L.Fits (st.occurrences s) →
      st.Renamed L.toRenaming Δ st'
  | .expr _, _, _, _, _, _, .expr he, hΔ, _, hwf, _, hfit => .expr (he.renamed hΔ hwf hfit)
  | .print _, _, _, _, _, _, .print he, hΔ, _, hwf, _, hfit => .print (he.renamed hΔ hwf hfit)
  | .varDecl t _, _, _, _, _, _, .varDecl h ho, hΔ, hst, hwf, _, hfit =>
    .varDecl (spells_binder h hΔ hfit.head fun hs => hst hs t rfl)
      (Expr.twin_option_renamed (hΔ.declare fun hs => hst hs t rfl) ho hwf.2 hfit.tail)
  | .block ss, _, _, _, _, _, .block hss, hΔ, _, hwf, hres, hfit => by
    refine .block (L.styleOf (ss.filterMap Stmt.declared?))
      (Stmt.twins_renamed hss (.cons (.empty _) hΔ) (fun st hst _ t ht => ?_) hwf hres hfit)
    exact suits_styleOf hres.accepts (List.mem_filterMap.2 ⟨st, hst, ht⟩)
  | .ifElse _ _ none, _, _, _, _, _, .ifElse he hst .none, hΔ, _, hwf, hres, hfit =>
    .ifThen (he.renamed hΔ hwf.1 hfit.left)
      (hst.renamed hΔ (stmtSuits_of_branch hwf.2.2) hwf.2.1 hres.2.1 hfit.right)
  | .ifElse _ _ (some _), _, _, _, _, _, .ifElse he hst (.some hst'), hΔ, _, hwf, hres, hfit =>
    .ifElse (he.renamed hΔ hwf.1 hfit.left)
      (hst.renamed hΔ (stmtSuits_of_branch hwf.2.1.2) hwf.2.1.1 hres.2.1.1 hfit.right.left)
      (hst'.renamed hΔ (stmtSuits_of_branch hwf.2.2.2) hwf.2.2.1 hres.2.2.1 hfit.right.right)
  | .whileDo .., _, _, _, _, _, .whileDo he hst, hΔ, _, hwf, hres, hfit =>
    .whileDo (he.renamed hΔ hwf.1 hfit.left)
      (hst.renamed hΔ (stmtSuits_of_branch hwf.2.2) hwf.2.1 hres.2.1 hfit.right)
  | .funDecl f, _, _, _, _, _, .funDecl hf, hΔ, hst, hwf, hres, hfit => by
    have hname : L.Fits (.plain f.name) := by
      obtain ⟨name, params, body⟩ := f
      exact hfit.head
    exact .funDecl (spells_plain hf.name hΔ hname fun hs => hst hs f.name rfl)
      (Stmt.twinFunction_renamed hf (hΔ.declare fun hs => hst hs f.name rfl) hwf hres.2 hfit)
  | .ret .., _, _, _, _, _, .ret h ho, hΔ, _, hwf, _, hfit =>
    .ret (hfit.head.keeps h) (Expr.twin_option_renamed hΔ ho hwf.2 hfit.tail)
  | .classDecl t o _, _, _, _, _, _, .classDecl h ho hfs, hΔ, hst, hwf, hres, hfit => by
    have hΔ' := hΔ.declare fun hs => hst hs t rfl
    refine .classDecl (spells_plain h hΔ hfit.head fun hs => hst hs t rfl) (hfit.head.keeps h) ?_
      (Stmt.twinMethods_renamed hfs (hΔ'.forMethods o) hwf.2.2 hres.2.2 hfit.tail.right)
    cases ho with
    | none => exact .none
    | some hp => exact .some (refers hp hΔ' hfit.tail.left.head)
termination_by structural st => st

theorem Stmt.twins_renamed :
    ∀ {ss ss' : List Stmt} {inside : Bool} {Γ : Static} {s : Binders} {Δ : List Bool},
    List.Forall₂ (Stmt.Twin L.toRenaming.pairs) ss ss' → L.AllStyled s Δ →
      (∀ st ∈ ss, L.StmtSuits s Δ st) →
    Stmt.AllWellFormed Token.Spelled ss → Stmt.AllResolved T inside Γ ss →
    Occurrence.All L.Fits (Stmt.allOccurrences s ss) → Stmt.AllRenamed L.toRenaming Δ ss ss'
  | [], _, _, _, _, _, .nil, _, _, _, _, _ => .nil
  | st :: _, _, _, _, s, _, .cons h hss, hΔ, hst, hwf, hres, hfit => by
    have hfirst := hst st List.mem_cons_self
    refine .cons (h.renamed hΔ hfirst hwf.1 hres.1 hfit.left)
      (Stmt.twins_renamed hss (hΔ.after hfirst) (fun st' hst' hs => ?_) hwf.2 hres.2 hfit.right)
    refine hst st' (List.mem_cons_of_mem _ hst') fun hnil => hs ?_
    subst hnil
    cases st <;> rfl
termination_by structural ss => ss

theorem Stmt.twinFunction_renamed :
    ∀ {f g : Callable Stmt} {Γ : Static} {s : Binders} {Δ : List Bool},
    Callable.Twin L.toRenaming.pairs (Stmt.Twin L.toRenaming.pairs) f g → L.AllStyled s Δ →
    Stmt.FunctionWellFormed Token.Spelled f → Stmt.FunctionResolved T Γ f →
    Occurrence.All L.Fits (Stmt.functionOccurrences s f) → Stmt.FunctionRenamed L.toRenaming Δ f g
  | ⟨_, ps, ss⟩, _, Γ, s, Δ, .mk h hps hss, hΔ, hwf, hres, hfit => by
    -- The parameters and the body declare their names in one scope.
    have haccepts := hres.1.accepts_append fun scope hscope => by
      have hbody := hres.2
      rw [hscope] at hbody
      exact hbody.accepts
    have hsuits : ∀ t ∈ ps ++ ss.filterMap Stmt.declared?, L.Suits _ t :=
      fun t ht => suits_styleOf haccepts ht
    have hparams : ∀ p ∈ ps, L.Suits _ p := fun p hp => hsuits p (List.mem_append_left _ hp)
    refine .mk _ (hfit.head.keeps h) (params_spelled hps hparams hfit.tail.left)
      (Stmt.twins_renamed hss (AllStyled.declareAll (.empty _) hΔ hparams) (fun st hst _ t ht => ?_)
        hwf.2.2 hres.2 hfit.tail.right)
    exact hsuits t (List.mem_append_right _ (List.mem_filterMap.2 ⟨st, hst, ht⟩))
termination_by structural f => f

theorem Stmt.twinMethods_renamed :
    ∀ {fs gs : List (Callable Stmt)} {Γ : Static} {s : Binders} {Δ : List Bool},
    List.Forall₂ (Callable.Twin L.toRenaming.pairs (Stmt.Twin L.toRenaming.pairs)) fs gs →
    L.AllStyled s Δ → Stmt.MethodsWellFormed Token.Spelled fs → Stmt.MethodsResolved T Γ fs →
    Occurrence.All L.Fits (Stmt.methodOccurrences s fs) → Stmt.MethodsRenamed L.toRenaming Δ fs gs
  | [], _, _, _, _, .nil, _, _, _, _ => .nil
  | _ :: _, _, _, _, _, .cons h hfs, hΔ, hwf, hres, hfit =>
    .cons (Stmt.twinFunction_renamed h hΔ hwf.1 hres.1 hfit.left)
      (Stmt.twinMethods_renamed hfs hΔ hwf.2 hres.2 hfit.right)
termination_by structural fs => fs

end

end

end Lox
