import Lox.Proofs.Phrases

/-!
# What the rules of statements read

`StmtRules P n` continues `ExprRules` with the rules of statements and declarations, which recover
from errors. `parse_found` is the outcome for a whole list of tokens: the statements are well formed
and take their references from the tokens, and if there is no error they are derived from them.
-/

namespace Lox

namespace Rule

variable {α : Type} {P : Token → Prop} {eof : Token} {ts : List Token}

theorem skipToBoundary_suffix (last : Token) (ts : List Token) : skipToBoundary last ts <:+ ts := by
  induction ts generalizing last with
  | nil => exact List.suffix_rfl
  | cons t ts ih =>
    rw [skipToBoundary]
    split
    · exact List.suffix_rfl
    · exact (ih t).trans (List.suffix_cons t ts)

/-- Recovery passes over at least one token, if there is one. -/
theorem synchronize_used (ts : List Token) :
    ∃ used, ts = used ++ synchronize ts ∧ (ts ≠ [] → used ≠ []) := by
  cases ts with
  | nil => exact ⟨[], rfl, fun h => absurd rfl h⟩
  | cons t ts =>
    obtain ⟨used, hused⟩ := skipToBoundary_suffix t ts
    exact ⟨t :: used, by rw [List.cons_append, synchronize, hused], fun _ => by simp⟩

/-- A rule that recovers is never rejected, and nothing that is rejected remains in front. -/
theorem Reads.recover {r : Rule α} {Q : List Token → α → List StaticError → List Token → Prop}
    {R : List Token → Option α → List StaticError → List Token → Prop} (h : Reads P r eof ts Q)
    (hdone : ∀ used a es rest, Q used a es rest → R used (some a) es rest)
    (hnone : ∀ used es rest, es ≠ [] → (ts ≠ [] → used ≠ []) → R used none es rest) :
    Reads P (recover r) eof ts R := by
  intro hP
  have h := h hP
  rw [Rule.recover]
  cases hr : r eof ts with
  | mk v es rest =>
    rw [hr] at h
    cases v with
    | exhausted => exact h
    | done a =>
      obtain ⟨used, hts, hq⟩ := h
      exact ⟨used, hts, hdone _ _ _ _ hq⟩
    | rejected =>
      obtain ⟨hne, used, hts⟩ := h
      obtain ⟨skipped, hskip, hpos⟩ := synchronize_used rest
      refine ⟨used ++ skipped, by rw [hts, List.append_assoc, ← hskip], hnone _ _ _ hne ?_⟩
      intro hne'
      rcases eq_or_ne rest [] with rfl | hrest
      · rw [List.append_nil] at hts
        simp [← hts, hne']
      · simp [hpos hrest]

end Rule

namespace Grammar

open Rule Derives

variable {P : Token → Prop} {n : Nat} {eof : Token} {ts : List Token}

/-! ## Parts of statements -/

theorem parameters_found {count : Nat} (hn : ts.length + 1 ≤ n) :
    Reads P (parameters n count) eof ts fun used ps es _ =>
      (∀ p ∈ ps, p.Is P .identifier) ∧
        (es = [] → ps ≠ [] ∧ Parameters used ps ∧ count + ps.length ≤ maxArguments) := by
  induction n generalizing count ts with
  | zero => omega
  | succ n ih =>
    rw [parameters]
    suffices hlist : Reads P _ eof ts fun used ps es _ =>
        (∀ p ∈ ps, p.Is P .identifier) ∧ (es = [] → ps ≠ [] ∧ Parameters used ps ∧
          (ps.length = 1 ∨ count + ps.length ≤ maxArguments)) from by
      refine .noteIf (hlist.imp ?_)
      rintro us ps es rest ⟨hshape, hderived⟩
      refine ⟨fun hcount => ⟨hshape, fun hes => ?_⟩, fun _ e => ⟨hshape, by simp⟩⟩
      obtain ⟨hne, hps, hone⟩ := hderived hes
      exact ⟨hne, hps, by omega⟩
    refine .expect (by decide) ?_
    rintro name rest rfl hname hP
    refine .accept (by decide) ?_ ?_
    · rintro comma rest' rfl hcomma -
      refine (ih (by simp at hn; omega)).bind ?_
      rintro us ps es rest'' - ⟨hshape, hderived⟩
      refine .pure ⟨?_, ?_⟩
      · intro p hp
        rcases List.mem_cons.1 hp with rfl | hp
        · exact ⟨hP, hname⟩
        · exact hshape p hp
      · intro hes
        obtain ⟨hne, hps, hcount⟩ := hderived (by simpa using hes)
        obtain ⟨q, qs, rfl⟩ := List.exists_cons_of_ne_nil hne
        refine ⟨by simp, by simpa using Parameters.more hname hcomma hps, .inr ?_⟩
        simp only [List.length_cons] at hcount ⊢
        omega
    · intro _
      exact .pure ⟨by simpa using ⟨hP, hname⟩, fun _ => ⟨by simp, .one hname, .inl rfl⟩⟩

theorem parameterList_found (hn : ts.length + 1 ≤ n) :
    Reads P (parameterList n) eof ts fun used ps es _ =>
      (∀ p ∈ ps, p.Is P .identifier) ∧
        (es = [] → Parameters used ps ∧ ps.length ≤ maxArguments) := by
  rw [parameterList]
  apply Reads.peekKind
  split
  · exact .pure ⟨by simp, fun _ => ⟨.none, by simp⟩⟩
  · refine (parameters_found hn).imp ?_
    rintro us ps es rest ⟨hshape, hderived⟩
    refine ⟨hshape, fun hes => ?_⟩
    obtain ⟨-, hps, hcount⟩ := hderived hes
    exact ⟨hps, by omega⟩

theorem expressionUnless_found {k : Kind} (hn : 16 * ts.length + 9 ≤ n) :
    Reads P (expressionUnless n .unlimited k) eof ts fun used e es _ =>
      Found (Expr.OptionWellFormed P e) (Expr.optionReferences e) used es
        (OptionalExpression used e) := by
  rw [expressionUnless]
  apply Reads.peekKind
  split
  · exact .pure ⟨trivial, by simp [Expr.optionReferences], fun _ => .none⟩
  · refine .map (((exprRules P n).assignment hn).imp ?_)
    rintro us e es rest ⟨-, hshape, hrefs, hderived⟩
    exact ⟨hshape, hrefs, fun hes => .some (hderived hes)⟩

theorem varDeclaration_found (hn : 16 * ts.length + 9 ≤ n) :
    Reads P (varDeclaration n .unlimited) eof ts fun used s es _ =>
      Found (s.WellFormed P) s.references used es
        (∀ keyword : Token, keyword.kind = .varKw → Variable (keyword :: used) s) := by
  rw [varDeclaration]
  refine .expect (by decide) ?_
  rintro name rest rfl hname hP
  refine .accept (by decide) ?_ ?_
  · rintro equal rest' rfl hequal -
    simp only [List.length_cons] at hn
    refine ((exprRules P n).assignment (by omega)).map_bind ?_
    rintro us e es rest'' - ⟨-, hshape, hrefs, hderived⟩
    refine .expect (by decide) ?_
    rintro stop rest₃ rfl hstop -
    refine .pure ⟨⟨⟨hP, hname⟩, hshape⟩, ?_, ?_⟩
    · exact ((hrefs.trans (List.sublist_append_left _ _).subperm).cons_right equal).cons_right name
    · intro hes keyword hk
      exact .initialized hk hname hequal (hderived (by simpa using hes)) hstop
  · intro _
    refine .pure_bind (.expect (by decide) ?_)
    rintro stop rest' rfl hstop -
    refine .pure ⟨⟨⟨hP, hname⟩, trivial⟩, by simp [Stmt.references, Expr.optionReferences], ?_⟩
    exact fun _ keyword hk => .plain hk hname hstop

theorem expressionStatement_found (hn : 16 * ts.length + 9 ≤ n) :
    Reads P (expressionStatement n .unlimited) eof ts fun used s es _ =>
      used ≠ [] ∧ ¬ s.IsDeclaration ∧
        Found (s.WellFormed P) s.references used es (Effect used s) := by
  rw [expressionStatement]
  refine ((exprRules P n).assignment hn).bind ?_
  rintro us e es rest - ⟨hus, hshape, hrefs, hderived⟩
  refine .expect (by decide) ?_
  rintro stop rest' rfl hstop -
  refine .pure ⟨by simp, id, hshape, hrefs.trans (List.sublist_append_left _ _).subperm, ?_⟩
  intro hes
  exact .mk (hderived (by simpa using hes)) hstop

theorem forInitializer_found (hn : 16 * ts.length + 9 ≤ n) :
    Reads P (forInitializer n .unlimited) eof ts fun used i es _ =>
      Found (∀ s ∈ i, s.WellFormed P) (Stmt.allReferences i.toList) used es
        (Initializer used i) := by
  rw [forInitializer]
  apply Reads.peekKind
  cases ts with
  | nil =>
    refine .map ((expressionStatement_found hn).imp ?_)
    rintro us s es rest ⟨-, -, hshape, hrefs, hderived⟩
    exact ⟨by simpa using hshape, by simpa [Stmt.allReferences] using hrefs,
      fun hes => .effect (hderived hes)⟩
  | cons t ts =>
    rw [headKind_cons]
    split
    · rename_i hk
      exact .skip fun _ => .pure ⟨by simp, by simp [Stmt.allReferences], fun _ => .none hk⟩
    · rename_i hk
      simp only [List.length_cons] at hn
      refine .skip fun _ => .map ((varDeclaration_found (by omega)).imp ?_)
      rintro us s es rest ⟨hshape, hrefs, hderived⟩
      refine ⟨by simpa using hshape, ?_, fun hes => .variable (hderived hes t hk)⟩
      simpa [Stmt.allReferences] using hrefs.cons_right t
    · refine .map ((expressionStatement_found hn).imp ?_)
      rintro us s es rest ⟨-, -, hshape, hrefs, hderived⟩
      exact ⟨by simpa using hshape, by simpa [Stmt.allReferences] using hrefs,
        fun hes => .effect (hderived hes)⟩

theorem superclass_found :
    Reads P superclass eof ts fun used parent es _ =>
      Found (∀ t ∈ parent, t.Is P .identifier) (superclassReferences parent) used es
        (Superclass used parent) := by
  rw [superclass]
  refine .accept (by decide) ?_ ?_
  · rintro less rest rfl hless -
    rw [map_eq]
    refine .expect (by decide) ?_
    rintro name rest' rfl hname hP
    exact .pure ⟨by simpa using ⟨hP, hname⟩, by simp [superclassReferences],
      fun _ => .some hless hname⟩
  · intro _
    exact .pure ⟨by simp, by simp [superclassReferences], fun _ => .none⟩

/-! ## Loops as blocks -/

theorem wellFormed_forLoop {i : Option Stmt} {c m : Option Expr} {s : Stmt}
    (hi : ∀ s ∈ i, s.WellFormed P) (hc : Expr.OptionWellFormed P c) (hm : Expr.OptionWellFormed P m)
    (hs : s.WellFormed P) (hd : ¬ s.IsDeclaration) : (Stmt.forLoop i c m s).WellFormed P := by
  have hcond : (c.getD (.literal (.bool true))).WellFormed P := by
    cases c with
    | none => exact .inr (.inl ⟨true, rfl⟩)
    | some c => exact hc
  have hbody : ∀ body : Stmt, body.WellFormed P → ¬ body.IsDeclaration →
      (Stmt.whileDo (c.getD (.literal (.bool true))) body).WellFormed P :=
    fun body hb hd => ⟨hcond, hb, hd⟩
  cases m with
  | none =>
    cases i with
    | none => exact hbody s hs hd
    | some i => exact ⟨hi i rfl, hbody s hs hd, trivial⟩
  | some m =>
    have hblock : (Stmt.block [s, .expr m]).WellFormed P := ⟨hs, hm, trivial⟩
    cases i with
    | none => exact hbody _ hblock id
    | some i => exact ⟨hi i rfl, hbody _ hblock id, trivial⟩

theorem not_isDeclaration_forLoop (i : Option Stmt) (c m : Option Expr) (s : Stmt) :
    ¬ (Stmt.forLoop i c m s).IsDeclaration := by
  cases i <;> exact id

/-- The increment stands in front of the body and is resolved after it. -/
theorem references_forLoop (i : Option Stmt) (c m : Option Expr) (s : Stmt) :
    (Stmt.forLoop i c m s).references.Perm
      (Stmt.allReferences i.toList ++
        (Expr.optionReferences c ++ (Expr.optionReferences m ++ s.references))) := by
  have hcond : (c.getD (.literal (.bool true))).references = Expr.optionReferences c := by
    cases c <;> rfl
  have hswap :
      (s.references ++ Expr.optionReferences m).Perm (Expr.optionReferences m ++ s.references) :=
    List.perm_append_comm
  cases i <;> cases m <;>
    simp only [Stmt.forLoop, Stmt.references, Stmt.allReferences, Expr.optionReferences, hcond,
      Option.toList, List.append_nil, List.nil_append] at hswap ⊢
  · rfl
  · exact hswap.append_left _
  · rfl
  · exact (hswap.append_left _).append_left _

/-! ## Statements and declarations -/

/-- What is said of a statement: it is no declaration, and if it ends in an `if` without `else`,
then no `else` follows. -/
def StatementFound (P : Token → Prop) (used : List Token) (s : Stmt) (es : List StaticError)
    (front rest : List Token) : Prop :=
  ¬ s.IsDeclaration ∧ Found (s.WellFormed P) s.references used es
    (∃ b, Statement b (front ++ used) s ∧ (b = true → headKind rest ≠ .elseKw))

structure StmtRules (P : Token → Prop) (n : Nat) : Prop where
  declaration {eof : Token} {ts : List Token} : 16 * ts.length + 11 ≤ n →
    Reads P (declaration n .unlimited) eof ts fun used o es _ =>
      (ts ≠ [] → used ≠ []) ∧ Found (∀ s ∈ o, s.WellFormed P) (Stmt.allReferences o.toList) used es
        (∃ s, o = some s ∧ Declaration used s)
  classDeclaration {eof : Token} {ts : List Token} : 16 * ts.length + 20 ≤ n →
    Reads P (classDeclaration n .unlimited) eof ts fun used s es _ =>
      Found (s.WellFormed P) s.references used es
        (∀ keyword : Token, keyword.kind = .classKw → Declaration (keyword :: used) s)
  methodList {eof : Token} {ts : List Token} : 16 * ts.length + 21 ≤ n →
    Reads P (methodList n .unlimited) eof ts fun used fs es _ =>
      Found (Stmt.MethodsWellFormed P fs) (Stmt.methodReferences fs) used es (Methods used fs)
  function {c : Callee} {eof : Token} {ts : List Token} : 16 * ts.length + 20 ≤ n →
    Reads P (function n .unlimited c) eof ts fun used f es _ =>
      used ≠ [] ∧ Found (Stmt.FunctionWellFormed P f) (Stmt.functionReferences f) used es
        (Function used f)
  statement {eof : Token} {ts : List Token} : 16 * ts.length + 10 ≤ n →
    Reads P (statement n .unlimited) eof ts fun used s es rest =>
      used ≠ [] ∧ StatementFound P used s es [] rest
  forStatement {keyword eof : Token} {ts : List Token} : 16 * ts.length + 20 ≤ n →
    keyword.kind = .forKw →
    Reads P (forStatement n .unlimited) eof ts fun used s es rest =>
      StatementFound P used s es [keyword] rest
  ifStatement {keyword eof : Token} {ts : List Token} : 16 * ts.length + 20 ≤ n →
    keyword.kind = .ifKw →
    Reads P (ifStatement n .unlimited) eof ts fun used s es rest =>
      StatementFound P used s es [keyword] rest
  whileStatement {keyword eof : Token} {ts : List Token} : 16 * ts.length + 20 ≤ n →
    keyword.kind = .whileKw →
    Reads P (whileStatement n .unlimited) eof ts fun used s es rest =>
      StatementFound P used s es [keyword] rest
  block {eof : Token} {ts : List Token} : 16 * ts.length + 20 ≤ n →
    Reads P (block n .unlimited) eof ts fun used body es _ =>
      Found (Stmt.AllWellFormed P body) (Stmt.allReferences body) used es
        (∀ left : Token, left.kind = .leftBrace → Block (left :: used) body)
  declarations {inBlock : Bool} {eof : Token} {ts : List Token} : 16 * ts.length + 12 ≤ n →
    Reads P (declarations n .unlimited inBlock) eof ts fun used ss es rest =>
      Found (Stmt.AllWellFormed P ss) (Stmt.allReferences ss) used es (Declarations used ss) ∧
        (inBlock = false → headKind rest = .eof)

theorem StatementFound.cons {t : Token} {used rest : List Token} {s : Stmt} {es : List StaticError}
    (h : StatementFound P used s es [t] rest) : StatementFound P (t :: used) s es [] rest :=
  ⟨h.1, h.2.shape, h.2.refs.cons_right t, h.2.derived⟩

theorem printStatement_found {keyword : Token} (hn : 16 * ts.length + 9 ≤ n)
    (hk : keyword.kind = .printKw) :
    Reads P (printStatement n .unlimited) eof ts fun used s es rest =>
      StatementFound P used s es [keyword] rest := by
  rw [printStatement]
  refine ((exprRules P n).assignment hn).bind ?_
  rintro us e es rest - ⟨-, hshape, hrefs, hderived⟩
  refine .expect (by decide) ?_
  rintro stop rest' rfl hstop -
  refine .pure ⟨id, hshape, hrefs.trans (List.sublist_append_left _ _).subperm, ?_⟩
  intro hes
  exact ⟨false, .print hk (hderived (by simpa using hes)) hstop, by simp⟩

theorem returnStatement_found {keyword : Token} (hn : 16 * ts.length + 9 ≤ n)
    (hk : keyword.Is P .returnKw) :
    Reads P (returnStatement n .unlimited keyword) eof ts fun used s es rest =>
      StatementFound P used s es [keyword] rest := by
  rw [returnStatement]
  refine (expressionUnless_found hn).bind ?_
  rintro us e es rest - ⟨hshape, hrefs, hderived⟩
  refine .expect (by decide) ?_
  rintro stop rest' rfl hstop -
  refine .pure ⟨id, ⟨hk, hshape⟩, hrefs.trans (List.sublist_append_left _ _).subperm, ?_⟩
  intro hes
  exact ⟨false, .ret hk.2 (hderived (by simpa using hes)) hstop, by simp⟩

theorem StmtRules.declaration_succ (h : StmtRules P n) (hn : 16 * ts.length + 11 ≤ n + 1) :
    Reads P (Grammar.declaration (n + 1) .unlimited) eof ts fun used o es _ =>
      (ts ≠ [] → used ≠ []) ∧ Found (∀ s ∈ o, s.WellFormed P) (Stmt.allReferences o.toList) used es
        (∃ s, o = some s ∧ Declaration used s) := by
  rw [Grammar.declaration, nest_unlimited]
  refine Reads.recover (Q := fun used s es _ =>
    used ≠ [] ∧ Found (s.WellFormed P) s.references used es (Declaration used s)) ?_ ?_ ?_
  · have hstatement : Reads P (Grammar.statement n .unlimited) eof ts fun used s es _ =>
        used ≠ [] ∧ Found (s.WellFormed P) s.references used es (Declaration used s) := by
      refine (h.statement (by omega)).imp ?_
      rintro us s es rest ⟨hus, -, hshape, hrefs, hderived⟩
      refine ⟨hus, hshape, hrefs, fun hes => ?_⟩
      obtain ⟨b, hs, -⟩ := hderived hes
      exact .statement hs
    apply Reads.peekKind
    cases ts with
    | nil => exact hstatement
    | cons t ts =>
      simp only [List.length_cons] at hn
      rw [headKind_cons]
      split
      · rename_i hk
        refine .skip fun _ => (h.classDeclaration (by omega)).imp ?_
        rintro us s es rest ⟨hshape, hrefs, hderived⟩
        exact ⟨by simp, hshape, hrefs.cons_right t, fun hes => hderived hes t hk⟩
      · rename_i hk
        refine .skip fun _ => .map ((h.function (by omega)).imp ?_)
        rintro us f es rest ⟨-, hshape, hrefs, hderived⟩
        exact ⟨by simp, hshape, hrefs.cons_right t, fun hes => .function hk (hderived hes)⟩
      · rename_i hk
        refine .skip fun _ => (varDeclaration_found (by omega)).imp ?_
        rintro us s es rest ⟨hshape, hrefs, hderived⟩
        exact ⟨by simp, hshape, hrefs.cons_right t, fun hes => .variable (hderived hes t hk)⟩
      · exact hstatement
  · rintro us s es rest ⟨hus, hshape, hrefs, hderived⟩
    refine ⟨fun _ => hus, by simpa using hshape, by simpa [Stmt.allReferences] using hrefs, ?_⟩
    exact fun hes => ⟨s, rfl, hderived hes⟩
  · intro us es rest hes hus
    exact ⟨hus, by simp, by simp [Stmt.allReferences], fun h => absurd h hes⟩

theorem StmtRules.classDeclaration_succ (h : StmtRules P n) (hn : 16 * ts.length + 20 ≤ n + 1) :
    Reads P (Grammar.classDeclaration (n + 1) .unlimited) eof ts fun used s es _ =>
      Found (s.WellFormed P) s.references used es
        (∀ keyword : Token, keyword.kind = .classKw → Declaration (keyword :: used) s) := by
  rw [Grammar.classDeclaration, nest_unlimited]
  refine .expect (by decide) ?_
  rintro name rest rfl hname hP
  simp only [List.length_cons] at hn
  refine superclass_found.bind ?_
  rintro us parent es rest' hts ⟨hparent, hrefs, hderived⟩
  have hlen := length_le_of_used hts
  refine .expect (by decide) ?_
  rintro left rest'' rfl hleft -
  simp only [List.length_cons] at hlen
  refine (h.methodList (by omega)).bind ?_
  rintro vs methods es' rest₃ - ⟨hshape, hrefs', hderived'⟩
  refine .expect (by decide) ?_
  rintro right rest₄ rfl hright -
  refine .pure ⟨⟨⟨hP, hname⟩, hparent, hshape⟩, ?_, ?_⟩
  · have hms : ((Stmt.methodReferences methods).map Prod.snd).Subperm (left :: (vs ++ [right])) :=
      (hrefs'.trans (List.sublist_append_left _ _).subperm).cons_right left
    simpa [Stmt.references] using (hrefs.append hms).cons_right name
  · intro hes keyword hk
    simp only [List.append_nil, List.append_eq_nil_iff] at hes
    exact .cls hk hname (hderived hes.1) hleft (hderived' hes.2) hright

theorem StmtRules.methodList_succ (h : StmtRules P n) (hn : 16 * ts.length + 21 ≤ n + 1) :
    Reads P (Grammar.methodList (n + 1) .unlimited) eof ts fun used fs es _ =>
      Found (Stmt.MethodsWellFormed P fs) (Stmt.methodReferences fs) used es (Methods used fs) := by
  rw [Grammar.methodList]
  apply Reads.peekKind
  split
  · exact .pure ⟨trivial, by simp [Stmt.methodReferences], fun _ => .nil⟩
  · exact .pure ⟨trivial, by simp [Stmt.methodReferences], fun _ => .nil⟩
  · refine (h.function (by omega)).bind ?_
    rintro us f es rest hts ⟨hus, hshape, hrefs, hderived⟩
    have hlen := length_lt_of_used hts hus
    refine (h.methodList (by omega)).bind ?_
    rintro vs fs es' rest' - ⟨hshape', hrefs', hderived'⟩
    refine .pure ⟨⟨hshape, hshape'⟩, by simpa [Stmt.methodReferences] using hrefs.append hrefs', ?_⟩
    intro hes
    simp only [List.append_nil, List.append_eq_nil_iff] at hes
    simpa using Methods.cons (hderived hes.1) (hderived' hes.2)

theorem StmtRules.function_succ (h : StmtRules P n) {c : Callee}
    (hn : 16 * ts.length + 20 ≤ n + 1) :
    Reads P (Grammar.function (n + 1) .unlimited c) eof ts fun used f es _ =>
      used ≠ [] ∧
        Found (Stmt.FunctionWellFormed P f) (Stmt.functionReferences f) used es
          (Function used f) := by
  rw [Grammar.function, nest_unlimited]
  refine .expect (by decide) ?_
  rintro name rest rfl hname hP
  refine .expect (by decide) ?_
  rintro left rest' rfl hleft -
  simp only [List.length_cons] at hn
  refine (parameterList_found (by omega)).bind ?_
  rintro us params es rest'' hts ⟨hparams, hderived⟩
  have hlen := length_le_of_used hts
  refine .expect (by decide) ?_
  rintro right rest₃ rfl hright -
  refine .expect (by decide) ?_
  rintro brace rest₄ rfl hbrace -
  simp only [List.length_cons] at hlen
  refine (h.block (by omega)).bind ?_
  rintro vs body es' rest₅ - ⟨hshape, hrefs, hderived'⟩
  refine .pure ⟨by simp, ⟨⟨hP, hname⟩, hparams, hshape⟩, ?_, ?_⟩
  · have hbody : ((Stmt.allReferences body).map Prod.snd).Subperm (us ++ right :: brace :: vs) :=
      ((hrefs.cons_right brace).cons_right right).trans (List.sublist_append_right _ _).subperm
    simpa [Stmt.functionReferences] using (hbody.cons_right left).cons_right name
  · intro hes
    simp only [List.append_nil, List.append_eq_nil_iff] at hes
    obtain ⟨hps, hcount⟩ := hderived hes.1
    simpa using Function.mk hname hleft hps hcount hright (hderived' hes.2 brace hbrace)

theorem StmtRules.statement_succ (h : StmtRules P n) (hn : 16 * ts.length + 10 ≤ n + 1) :
    Reads P (Grammar.statement (n + 1) .unlimited) eof ts fun used s es rest =>
      used ≠ [] ∧ StatementFound P used s es [] rest := by
  have heffect : Reads P (expressionStatement n .unlimited) eof ts fun used s es rest =>
      used ≠ [] ∧ StatementFound P used s es [] rest := by
    refine (expressionStatement_found (by omega)).imp ?_
    rintro us s es rest ⟨hus, hd, hshape, hrefs, hderived⟩
    exact ⟨hus, hd, hshape, hrefs, fun hes => ⟨false, .effect (hderived hes), by simp⟩⟩
  rw [Grammar.statement, nest_unlimited]
  apply Reads.peek
  apply Reads.peekKind
  cases ts with
  | nil => exact heffect
  | cons t ts =>
    simp only [List.length_cons] at hn
    have hcons : ∀ {used : List Token} {s : Stmt} {es : List StaticError} {rest : List Token},
        StatementFound P used s es [t] rest →
          t :: used ≠ [] ∧ StatementFound P (t :: used) s es [] rest :=
      fun h => ⟨by simp, h.cons⟩
    rw [headKind_cons, List.head?_cons, Option.getD_some]
    split
    · rename_i hk
      exact .skip fun _ => (h.forStatement (by omega) hk).imp fun _ _ _ _ => hcons
    · rename_i hk
      exact .skip fun _ => (h.ifStatement (by omega) hk).imp fun _ _ _ _ => hcons
    · rename_i hk
      exact .skip fun _ => (printStatement_found (by omega) hk).imp fun _ _ _ _ => hcons
    · rename_i hk
      exact .skip fun hP => (returnStatement_found (by omega) ⟨hP, hk⟩).imp fun _ _ _ _ => hcons
    · rename_i hk
      exact .skip fun _ => (h.whileStatement (by omega) hk).imp fun _ _ _ _ => hcons
    · rename_i hk
      refine .skip fun _ => .map ((h.block (by omega)).imp ?_)
      rintro us body es rest ⟨hshape, hrefs, hderived⟩
      refine hcons ⟨id, hshape, hrefs, fun hes => ⟨false, ?_, by simp⟩⟩
      exact .block (hderived hes t hk)
    · exact heffect

theorem StmtRules.whileStatement_succ (h : StmtRules P n) {keyword : Token}
    (hn : 16 * ts.length + 20 ≤ n + 1) (hk : keyword.kind = .whileKw) :
    Reads P (Grammar.whileStatement (n + 1) .unlimited) eof ts fun used s es rest =>
      StatementFound P used s es [keyword] rest := by
  rw [Grammar.whileStatement, nest_unlimited]
  refine .expect (by decide) ?_
  rintro left rest rfl hleft -
  simp only [List.length_cons] at hn
  refine ((exprRules P n).assignment (by omega)).bind ?_
  rintro us c es rest' hts ⟨-, hshape, hrefs, hderived⟩
  have hlen := length_le_of_used hts
  refine .expect (by decide) ?_
  rintro right rest'' rfl hright -
  simp only [List.length_cons] at hlen
  refine (h.statement (by omega)).bind ?_
  rintro vs s es' rest₃ - ⟨-, hd, hshape', hrefs', hderived'⟩
  refine .pure ⟨id, ⟨hshape, hshape', hd⟩, ?_, ?_⟩
  · simpa [Stmt.references] using (hrefs.append (hrefs'.cons_right right)).cons_right left
  · intro hes
    simp only [List.append_nil, List.append_eq_nil_iff] at hes
    obtain ⟨b, hs, hb⟩ := hderived' hes.2
    exact ⟨b, by simpa using Statement.whileDo hk hleft (hderived hes.1) hright hs, hb⟩

theorem StmtRules.ifStatement_succ (h : StmtRules P n) {keyword : Token}
    (hn : 16 * ts.length + 20 ≤ n + 1) (hk : keyword.kind = .ifKw) :
    Reads P (Grammar.ifStatement (n + 1) .unlimited) eof ts fun used s es rest =>
      StatementFound P used s es [keyword] rest := by
  rw [Grammar.ifStatement, nest_unlimited]
  refine .expect (by decide) ?_
  rintro left rest rfl hleft -
  simp only [List.length_cons] at hn
  refine ((exprRules P n).assignment (by omega)).bind ?_
  rintro us c es rest' hts ⟨-, hshape, hrefs, hderived⟩
  have hlen := length_le_of_used hts
  refine .expect (by decide) ?_
  rintro right rest'' rfl hright -
  simp only [List.length_cons] at hlen
  refine (h.statement (by omega)).bind ?_
  rintro vs s es' rest₃ hts' ⟨-, hd, hshape', hrefs', hderived'⟩
  have hlen' := length_le_of_used hts'
  have hthen :
      (c.references.map Prod.snd ++ s.references.map Prod.snd).Subperm
      (left :: (us ++ right :: vs)) :=
    (hrefs.append (hrefs'.cons_right right)).cons_right left
  refine .accept (by decide) ?_ ?_
  · rintro other rest₄ rfl hother -
    simp only [List.length_cons] at hlen'
    refine (h.statement (by omega)).bind ?_
    rintro ws t es'' rest₅ - ⟨-, hd', hshape'', hrefs'', hderived''⟩
    refine .pure ⟨id, ⟨hshape, ⟨hshape', hd⟩, hshape'', hd'⟩, ?_, ?_⟩
    · simpa [Stmt.references] using hthen.append (hrefs''.cons_right other)
    · intro hes
      simp only [List.append_nil, List.append_eq_nil_iff] at hes
      -- The first branch is followed by this `else`, so it does not end in an `if` without one.
      obtain ⟨b, hs, hb⟩ := hderived' hes.2.1
      obtain rfl : b = false := by
        cases b with
        | false => rfl
        | true => exact absurd hother (hb rfl)
      obtain ⟨b', ht, hb'⟩ := hderived'' hes.2.2
      exact ⟨b', by simpa using Statement.ifElse hk hleft (hderived hes.1) hright hs hother ht, hb'⟩
  · intro hne
    refine .pure ⟨id, ⟨hshape, hshape', hd⟩, by simpa [Stmt.references] using hthen, ?_⟩
    intro hes
    simp only [List.append_nil, List.append_eq_nil_iff] at hes
    obtain ⟨b, hs, -⟩ := hderived' hes.2
    exact ⟨true, by simpa using Statement.ifThen hk hleft (hderived hes.1) hright hs, fun _ => hne⟩

theorem StmtRules.forStatement_succ (h : StmtRules P n) {keyword : Token}
    (hn : 16 * ts.length + 20 ≤ n + 1) (hk : keyword.kind = .forKw) :
    Reads P (Grammar.forStatement (n + 1) .unlimited) eof ts fun used s es rest =>
      StatementFound P used s es [keyword] rest := by
  rw [Grammar.forStatement, nest_unlimited]
  refine .expect (by decide) ?_
  rintro left rest rfl hleft -
  simp only [List.length_cons] at hn
  refine (forInitializer_found (by omega)).bind ?_
  rintro us i es rest' hts ⟨hi, hrefs, hderived⟩
  have hlen := length_le_of_used hts
  refine (expressionUnless_found (by omega)).bind ?_
  rintro vs c es' rest'' hts' ⟨hc, hrefs', hderived'⟩
  have hlen' := length_le_of_used hts'
  refine .expect (by decide) ?_
  rintro stop rest₃ rfl hstop -
  simp only [List.length_cons] at hlen'
  refine (expressionUnless_found (by omega)).bind ?_
  rintro ws m es'' rest₄ hts'' ⟨hm, hrefs'', hderived''⟩
  have hlen'' := length_le_of_used hts''
  refine .expect (by decide) ?_
  rintro right rest₅ rfl hright -
  simp only [List.length_cons] at hlen''
  refine (h.statement (by omega)).bind ?_
  rintro xs s es₃ rest₆ - ⟨-, hd, hs, hrefs₃, hderived₃⟩
  refine .pure ⟨not_isDeclaration_forLoop i c m s, wellFormed_forLoop hi hc hm hs hd, ?_, ?_⟩
  · have hclauses :=
      hrefs.append (hrefs'.append ((hrefs''.append (hrefs₃.cons_right right)).cons_right stop))
    have hloop := ((references_forLoop i c m s).map Prod.snd).subperm
    simp only [List.map_append] at hloop
    simpa using (hloop.trans hclauses).cons_right left
  · intro hes
    simp only [List.append_nil, List.append_eq_nil_iff] at hes
    obtain ⟨b, hbody, hb⟩ := hderived₃ hes.2.2.2
    have hloop := Statement.forDo hk hleft (hderived hes.1) (hderived' hes.2.1) hstop
      (hderived'' hes.2.2.1) hright hbody
    exact ⟨b, by simpa using hloop, hb⟩

theorem StmtRules.block_succ (h : StmtRules P n) (hn : 16 * ts.length + 20 ≤ n + 1) :
    Reads P (Grammar.block (n + 1) .unlimited) eof ts fun used body es _ =>
      Found (Stmt.AllWellFormed P body) (Stmt.allReferences body) used es
        (∀ left : Token, left.kind = .leftBrace → Block (left :: used) body) := by
  rw [Grammar.block, nest_unlimited]
  refine (h.declarations (by omega)).bind ?_
  rintro us body es rest - ⟨⟨hshape, hrefs, hderived⟩, -⟩
  refine .expect (by decide) ?_
  rintro right rest' rfl hright -
  refine .pure ⟨hshape, hrefs.trans (List.sublist_append_left _ _).subperm, ?_⟩
  intro hes left hleft
  exact .mk hleft (hderived (by simpa using hes)) hright

theorem allWellFormed_append {ss ss' : List Stmt} (h : Stmt.AllWellFormed P ss)
    (h' : Stmt.AllWellFormed P ss') : Stmt.AllWellFormed P (ss ++ ss') := by
  induction ss with
  | nil => exact h'
  | cons s ss ih => exact ⟨h.1, ih h.2⟩

theorem allReferences_append (ss ss' : List Stmt) :
    Stmt.allReferences (ss ++ ss') = Stmt.allReferences ss ++ Stmt.allReferences ss' := by
  induction ss with
  | nil => rfl
  | cons s ss ih =>
    rw [List.cons_append, Stmt.allReferences, Stmt.allReferences, ih, List.append_assoc]

theorem StmtRules.declarations_succ (h : StmtRules P n) {inBlock : Bool}
    (hn : 16 * ts.length + 12 ≤ n + 1) :
    Reads P (Grammar.declarations (n + 1) .unlimited inBlock) eof ts fun used ss es rest =>
      Found (Stmt.AllWellFormed P ss) (Stmt.allReferences ss) used es (Declarations used ss) ∧
        (inBlock = false → headKind rest = .eof) := by
  rw [Grammar.declarations]
  apply Reads.peekKind
  split
  · rename_i hstop
    refine .pure ⟨⟨trivial, by simp [Stmt.allReferences], fun _ => .nil⟩, ?_⟩
    rintro rfl
    simpa using hstop
  · rename_i hgo
    have hts : ts ≠ [] := by
      rintro rfl
      simp at hgo
    refine (h.declaration (by omega)).bind ?_
    rintro us first es rest hsplit ⟨hus, hshape, hrefs, hderived⟩
    have hlen := length_lt_of_used hsplit (hus hts)
    refine (h.declarations (by omega)).bind ?_
    rintro vs others es' rest' - ⟨⟨hshape', hrefs', hderived'⟩, hend⟩
    have hfirst : Stmt.AllWellFormed P first.toList := by
      cases first with
      | none => trivial
      | some s => exact ⟨hshape s rfl, trivial⟩
    refine .pure ⟨⟨allWellFormed_append hfirst hshape', ?_, ?_⟩, hend⟩
    · rw [allReferences_append]
      simpa using hrefs.append hrefs'
    · intro hes
      simp only [List.append_nil, List.append_eq_nil_iff] at hes
      obtain ⟨s, rfl, hs⟩ := hderived hes.1
      simpa using Declarations.cons hs (hderived' hes.2)

/-- The rules of statements, by induction on the number of steps. -/
theorem stmtRules (P : Token → Prop) (n : Nat) : StmtRules P n := by
  induction n with
  | zero => constructor <;> intros <;> omega
  | succ n ih =>
    exact ⟨ih.declaration_succ, ih.classDeclaration_succ, ih.methodList_succ, ih.function_succ,
      ih.statement_succ, ih.forStatement_succ, ih.ifStatement_succ, ih.whileStatement_succ,
      ih.block_succ, ih.declarations_succ⟩

end Grammar

open Grammar Rule Derives in
/-- What is read of a text, with errors or without. -/
theorem parse_found {P : Token → Prop} {tokens : List Token} (hP : ∀ t ∈ tokens, P t)
    (eof : Token) :
    Found (Stmt.AllWellFormed P (parse tokens eof).statements)
      (Stmt.allReferences (parse tokens eof).statements) tokens (parse tokens eof).errors
      (Declarations (tokens.takeWhile (·.kind ≠ .eof)) (parse tokens eof).statements) := by
  have hsub := List.takeWhile_sublist (fun t : Token => decide (t.kind ≠ .eof)) (l := tokens)
  have hkind : ∀ t ∈ tokens.takeWhile (·.kind ≠ .eof), t.kind ≠ .eof :=
    fun t ht => by simpa using List.all_eq_true.1 List.all_takeWhile t ht
  rw [parse, readAll]
  generalize tokens.takeWhile (·.kind ≠ .eof) = body at hsub hkind ⊢
  generalize (tokens.dropWhile (·.kind ≠ .eof)).headD eof = stop
  have hsteps : 16 * body.length + 12 ≤ stepsFor body := by
    rw [stepsFor]
    omega
  have hread := @(stmtRules P (stepsFor body)).declarations false stop body hsteps
    fun t ht => hP t (hsub.mem ht)
  cases hd : declarations (stepsFor body) .unlimited false stop body with
  | mk v es rest =>
    rw [hd] at hread
    cases v with
    | exhausted => exact hread.elim
    | rejected =>
      exact ⟨trivial, by simp [Stmt.allReferences], fun hes => absurd hes hread.1⟩
    | done ss =>
      obtain ⟨used, hused, ⟨hshape, hrefs, hderived⟩, hend⟩ := hread
      -- Reading stops at the end of the text only, so that nothing is left.
      obtain rfl : rest = [] := by
        cases rest with
        | nil => rfl
        | cons t rest => exact absurd (hend rfl) (hkind t (by simp [hused]))
      obtain rfl : body = used := by simpa using hused
      exact ⟨hshape, hrefs.trans hsub.subperm, hderived⟩

end Lox
