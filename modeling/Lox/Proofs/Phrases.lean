import Lox.Proofs.Derivation
import Lox.Proofs.Reading
import Lox.Proofs.Shape
import Mathlib.Data.List.Perm.Subperm

/-!
# What the rules of expressions read

`ExprRules P n` has one statement for each rule with `n` steps and no limit to its depth. Given
enough steps for the tokens in front of it, a rule ends; its tree is well formed and takes its
references from the tokens that were used; and if no error was recorded, these tokens are derived
with that tree. `exprRules` proves them for all numbers of steps at once.
-/

namespace Lox

def Level.strength : Level → Nat
  | .disjunction => 1
  | .conjunction => 2
  | .equality => 3
  | .comparison => 4
  | .term => 5
  | .factor => 6

/-- How tightly an operand binds; one without infix operators binds tightest. -/
def operandStrength : Option Level → Nat
  | none => 7
  | some l => l.strength

theorem operandStrength_tighter (l : Level) : operandStrength l.tighter = l.strength + 1 := by
  cases l <;> rfl

theorem Level.strength_le (l : Level) : l.strength ≤ 6 := by
  cases l <;> decide

theorem Level.has_eof (l : Level) : l.has .eof = false := by
  cases l <;> rfl

theorem Level.wellFormed_join {P : Token → Prop} {l : Level} {e f : Expr} {op : Token}
    (he : e.WellFormed P) (hP : P op) (hop : l.has op.kind) (hf : f.WellFormed P) :
    (l.join e op f).WellFormed P := by
  have hlogical : l = .disjunction ∨ l = .conjunction → op.kind.isLogicalOperator := by
    rintro (rfl | rfl) <;> revert hop <;> cases op.kind <;> simp [Level.has, Kind.isLogicalOperator]
  have hbinary : l ≠ .disjunction → l ≠ .conjunction → op.kind.isBinaryOperator := by
    cases l <;> revert hop <;> cases op.kind <;> simp [Level.has, Kind.isBinaryOperator]
  cases l with
  | disjunction => exact ⟨he, hP, hlogical (.inl rfl), hf⟩
  | conjunction => exact ⟨he, hP, hlogical (.inr rfl), hf⟩
  | _ => exact ⟨he, hP, hbinary (by simp) (by simp), hf⟩

theorem Level.references_join (l : Level) (e f : Expr) (op : Token) :
    (l.join e op f).references = e.references ++ f.references := by
  cases l <;> rfl

/-- What can be said of a phrase whatever its errors are, and what if it has none. -/
structure Found (shape : Prop) (refs : List (Reference × Token)) (used : List Token)
    (es : List StaticError) (derived : Prop) : Prop where
  shape : shape
  refs : (refs.map Prod.snd).Subperm used
  derived : es = [] → derived

namespace Grammar

open Rule Derives

structure ExprRules (P : Token → Prop) (n : Nat) : Prop where
  assignment {eof : Token} {ts : List Token} : 16 * ts.length + 9 ≤ n →
    Reads P (assignment n .unlimited) eof ts fun used e es _ =>
      used ≠ [] ∧ Found (e.WellFormed P) e.references used es (Assignment used e)
  operand {o : Option Level} {eof : Token} {ts : List Token} :
    16 * ts.length + 9 ≤ n + operandStrength o →
    Reads P (operand n .unlimited o) eof ts fun used e es _ =>
      used ≠ [] ∧ Found (e.WellFormed P) e.references used es (Operand o used e)
  chain {l : Level} {left : Expr} {eof : Token} {ts : List Token} : 16 * ts.length + 1 ≤ n →
    left.WellFormed P →
    Reads P (chain n .unlimited l left) eof ts fun used e es _ =>
      Found (e.WellFormed P) e.references (left.references.map Prod.snd ++ used) es
        (∀ ls, Operand (some l) ls left → Operand (some l) (ls ++ used) e)
  suffixes {left : Expr} {eof : Token} {ts : List Token} : 16 * ts.length + 1 ≤ n →
    left.WellFormed P →
    Reads P (suffixes n .unlimited left) eof ts fun used e es _ =>
      Found (e.WellFormed P) e.references (left.references.map Prod.snd ++ used) es
        (∀ ls, Call ls left → Call (ls ++ used) e)
  argumentList {eof : Token} {ts : List Token} : 16 * ts.length + 11 ≤ n →
    Reads P (argumentList n .unlimited) eof ts fun used as es _ =>
      Found (Expr.AllWellFormed P as) (Expr.allReferences as) used es
        (Arguments used as ∧ as.length ≤ maxArguments)
  arguments {count : Nat} {eof : Token} {ts : List Token} : 16 * ts.length + 10 ≤ n →
    Reads P (arguments n .unlimited count) eof ts fun used as es _ =>
      Found (Expr.AllWellFormed P as) (Expr.allReferences as) used es
        (as ≠ [] ∧ Arguments used as ∧ count + as.length ≤ maxArguments)
  primary {eof : Token} {ts : List Token} : 16 * ts.length + 1 ≤ n →
    Reads P (primary n .unlimited) eof ts fun used e es _ =>
      used ≠ [] ∧ Found (e.WellFormed P) e.references used es (Primary used e)

variable {P : Token → Prop} {n : Nat}

/-- An operand that is a variable or a property has no operators. -/
theorem call_of_operand : ∀ {o : Option Level} {ts : List Token} {e : Expr}, Operand o ts e →
    ∀ {value f : Expr}, e.assigned? value = some f → Call ts e
  | _, _, _, .tighter h, _, _, hf => call_of_operand h hf
  | _, _, _, @Operand.binary l _ _ _ _ _ _ _ _, _, _, hf => by
    cases l <;> simp [Level.join, Expr.assigned?] at hf
  | _, _, _, .unary _ _, _, _, hf => by simp [Expr.assigned?] at hf
  | _, _, _, .call h, _, _, _ => h

/-- A target is a variable or a property, so that the text in front of the equals sign ends in the
name that is assigned to. -/
theorem assignment_of_target {o : Option Level} {ts us : List Token} {target value e : Expr}
    {equal : Token} (ht : Operand o ts target) (he : equal.kind = .equal) (hv : Assignment us value)
    (h : target.assigned? value = some e) : Assignment (ts ++ equal :: us) e := by
  cases call_of_operand ht h with
  | primary hp =>
    cases hp with
    | «variable» hk =>
      obtain rfl : _ = e := by simpa [Expr.assigned?] using h
      exact .variable hk he hv
    | _ => simp [Expr.assigned?] at h
  | apply => simp [Expr.assigned?] at h
  | get hc hd hk =>
    obtain rfl : _ = e := by simpa [Expr.assigned?] using h
    simpa using Assignment.property hc hd hk he hv

theorem wellFormed_assigned {target value e : Expr} (h : target.assigned? value = some e)
    (ht : target.WellFormed P) (hv : value.WellFormed P) : e.WellFormed P := by
  cases target with
  | var name =>
    obtain rfl : _ = e := by simpa [Expr.assigned?] using h
    exact ⟨ht, hv⟩
  | get object name =>
    obtain rfl : _ = e := by simpa [Expr.assigned?] using h
    exact ⟨ht.1, ht.2, hv⟩
  | _ => simp [Expr.assigned?] at h

theorem references_assigned {target value e : Expr} (h : target.assigned? value = some e) :
    e.references.map Prod.snd =
      value.references.map Prod.snd ++ target.references.map Prod.snd := by
  cases target with
  | var name =>
    obtain rfl : _ = e := by simpa [Expr.assigned?] using h
    exact List.map_append
  | get object name =>
    obtain rfl : _ = e := by simpa [Expr.assigned?] using h
    exact List.map_append
  | _ => simp [Expr.assigned?] at h

theorem length_lt_of_used {ts used rest : List Token} (h : ts = used ++ rest) (hu : used ≠ []) :
    rest.length < ts.length := by
  have := List.length_pos_iff.2 hu
  rw [h, List.length_append]
  omega

theorem length_le_of_used {ts used rest : List Token} (h : ts = used ++ rest) :
    rest.length ≤ ts.length := by
  rw [h, List.length_append]
  omega

theorem ExprRules.assignment_succ (h : ExprRules P n) {eof : Token} {ts : List Token}
    (hn : 16 * ts.length + 9 ≤ n + 1) :
    Reads P (Grammar.assignment (n + 1) .unlimited) eof ts fun used e es _ =>
      used ≠ [] ∧ Found (e.WellFormed P) e.references used es (Assignment used e) := by
  rw [Grammar.assignment, nest_unlimited]
  refine (h.operand (by simp [operandStrength, Level.strength]; omega)).bind ?_
  rintro us target es rest hts ⟨hus, hshape, hrefs, hderived⟩
  have hlen := length_lt_of_used hts hus
  refine .accept (by decide) ?_ ?_
  · rintro equal rest' rfl hequal hP
    simp only [List.length_cons] at hlen
    refine (h.assignment (by omega)).bind ?_
    rintro vs value es' rest'' - ⟨-, hshape', hrefs', hderived'⟩
    cases ha : target.assigned? value with
    | some e =>
      refine .pure ⟨by simp [hus], wellFormed_assigned ha hshape hshape', ?_, ?_⟩
      · rw [references_assigned ha]
        have := hrefs.append (hrefs'.cons_right equal)
        simpa using (List.perm_append_comm.subperm.trans this)
      · intro hes
        simp only [List.append_nil, List.append_eq_nil_iff] at hes
        simpa using assignment_of_target (hderived hes.1) hequal (hderived' hes.2) ha
    | none =>
      refine Reads.bind (.note ⟨rfl, rfl⟩)
        (Q := fun used _ es _ => used = [] ∧ es = [StaticError.atToken equal .invalidTarget]) ?_
      rintro _ - _ rest₃ - ⟨rfl, rfl⟩
      refine .pure ⟨by simp [hus], hshape, ?_, by simp⟩
      exact hrefs.trans (List.sublist_append_left _ _).subperm
  · intro _
    refine .pure ⟨by simpa using hus, hshape, by simpa using hrefs, ?_⟩
    intro hes
    simpa using Assignment.value (hderived (by simpa using hes))

theorem ExprRules.operand_succ (h : ExprRules P n) {o : Option Level} {eof : Token}
    {ts : List Token} (hn : 16 * ts.length + 9 ≤ n + 1 + operandStrength o) :
    Reads P (Grammar.operand (n + 1) .unlimited o) eof ts fun used e es _ =>
      used ≠ [] ∧ Found (e.WellFormed P) e.references used es (Operand o used e) := by
  cases o with
  | some l =>
    have hl := l.strength_le
    simp only [operandStrength] at hn
    rw [Grammar.operand, nest_unlimited]
    refine (h.operand (by rw [operandStrength_tighter]; omega)).bind ?_
    rintro us left es rest hts ⟨hus, hshape, hrefs, hderived⟩
    have hlen := length_lt_of_used hts hus
    refine (h.chain (by omega) hshape).imp ?_
    rintro vs e es' rest' ⟨hshape', hrefs', hderived'⟩
    refine ⟨by simp [hus], hshape', hrefs'.trans (hrefs.append (.refl _)), ?_⟩
    intro hes
    simp only [List.append_eq_nil_iff] at hes
    exact hderived' hes.2 us (.tighter (hderived hes.1))
  | none =>
    simp only [operandStrength] at hn
    rw [Grammar.operand, nest_unlimited]
    refine .takeIf rfl ?_ ?_
    · rintro op rest rfl hop hP
      simp only [List.length_cons] at hn
      refine (h.operand (by simp only [operandStrength]; omega)).bind ?_
      rintro us e es rest' - ⟨hus, hshape, hrefs, hderived⟩
      refine .pure
        ⟨by simp, ⟨hP, hop, hshape⟩, by simpa [Expr.references] using hrefs.cons_right op, ?_⟩
      intro hes
      simpa using Operand.unary hop (hderived (by simpa using hes))
    · intro _
      refine (h.primary (by omega)).bind ?_
      rintro us e es rest hts ⟨hus, hshape, hrefs, hderived⟩
      have hlen := length_lt_of_used hts hus
      refine (h.suffixes (by omega) hshape).imp ?_
      rintro vs e' es' rest' ⟨hshape', hrefs', hderived'⟩
      refine ⟨by simp [hus], hshape', hrefs'.trans (hrefs.append (.refl _)), ?_⟩
      intro hes
      simp only [List.append_eq_nil_iff] at hes
      exact .call (hderived' hes.2 us (.primary (hderived hes.1)))

theorem ExprRules.chain_succ (h : ExprRules P n) {l : Level} {left : Expr} {eof : Token}
    {ts : List Token} (hn : 16 * ts.length + 1 ≤ n + 1) (hleft : left.WellFormed P) :
    Reads P (Grammar.chain (n + 1) .unlimited l left) eof ts fun used e es _ =>
      Found (e.WellFormed P) e.references (left.references.map Prod.snd ++ used) es
        (∀ ls, Operand (some l) ls left → Operand (some l) (ls ++ used) e) := by
  rw [Grammar.chain]
  refine .takeIf l.has_eof ?_ ?_
  · rintro op rest rfl hop hP
    simp only [List.length_cons] at hn
    refine (h.operand (by rw [operandStrength_tighter]; omega)).bind ?_
    rintro us right es rest' hts ⟨hus, hshape, hrefs, hderived⟩
    have hlen := length_lt_of_used hts hus
    refine (h.chain (by omega) (Level.wellFormed_join hleft hP hop hshape)).imp ?_
    rintro vs e es' rest'' ⟨hshape', hrefs', hderived'⟩
    refine ⟨hshape', ?_, ?_⟩
    · rw [Level.references_join, List.map_append, List.append_assoc] at hrefs'
      exact hrefs'.trans ((List.Subperm.refl _).append ((hrefs.append (.refl _)).cons_right op))
    · intro hes ls hls
      simp only [List.append_eq_nil_iff] at hes
      simpa using hderived' hes.2 _ (.binary hls hop (hderived hes.1))
  · intro _
    exact .pure ⟨hleft, by rw [List.append_nil], fun _ ls hls => by simpa using hls⟩

theorem ExprRules.suffixes_succ (h : ExprRules P n) {left : Expr} {eof : Token}
    {ts : List Token} (hn : 16 * ts.length + 1 ≤ n + 1) (hleft : left.WellFormed P) :
    Reads P (Grammar.suffixes (n + 1) .unlimited left) eof ts fun used e es _ =>
      Found (e.WellFormed P) e.references (left.references.map Prod.snd ++ used) es
        (∀ ls, Call ls left → Call (ls ++ used) e) := by
  rw [Grammar.suffixes]
  apply Reads.peekKind
  cases ts with
  | nil => exact .pure ⟨hleft, by rw [List.append_nil], fun _ ls hls => by simpa using hls⟩
  | cons t ts =>
    simp only [List.length_cons] at hn
    rw [headKind_cons]
    split
    · rename_i hk
      refine .skip fun hP => (h.argumentList (by omega)).bind ?_
      rintro us as es rest hts ⟨hshape, hrefs, hderived⟩
      have hlen := length_le_of_used hts
      refine .expect (by decide) ?_
      rintro right rest' rfl hright hPr
      simp only [List.length_cons] at hlen
      have hcall : (Expr.call left right as).WellFormed P := ⟨hleft, ⟨hPr, hright⟩, hshape⟩
      refine (h.suffixes (by omega) hcall).imp ?_
      rintro vs e es' rest'' ⟨hshape', hrefs', hderived'⟩
      refine ⟨hshape', ?_, ?_⟩
      · rw [Expr.references, List.map_append, List.append_assoc] at hrefs'
        refine hrefs'.trans ((List.Subperm.refl _).append (.cons_right t ?_))
        exact hrefs.append ((List.Subperm.refl vs).cons_right right)
      · intro hes ls hls
        simp only [List.append_eq_nil_iff] at hes
        obtain ⟨has, hcount⟩ := hderived hes.1
        simpa using hderived' hes.2 _ (.apply hls hk has hcount hright)
    · rename_i hk
      refine .skip fun hP => .expect (by decide) ?_
      rintro name rest rfl hname hPn
      simp only [List.length_cons] at hn
      have hget : (Expr.get left name).WellFormed P := ⟨hleft, hPn, hname⟩
      refine (h.suffixes (by omega) hget).imp ?_
      rintro vs e es rest' ⟨hshape', hrefs', hderived'⟩
      refine ⟨hshape', ?_, ?_⟩
      · rw [Expr.references] at hrefs'
        refine hrefs'.trans ((List.Subperm.refl _).append (.cons_right t ?_))
        exact (List.Subperm.refl vs).cons_right name
      · intro hes ls hls
        simpa using hderived' hes _ (.get hls hk hname)
    · exact .pure ⟨hleft, by rw [List.append_nil], fun _ ls hls => by simpa using hls⟩

theorem ExprRules.argumentList_succ (h : ExprRules P n) {eof : Token} {ts : List Token}
    (hn : 16 * ts.length + 11 ≤ n + 1) :
    Reads P (Grammar.argumentList (n + 1) .unlimited) eof ts fun used as es _ =>
      Found (Expr.AllWellFormed P as) (Expr.allReferences as) used es
        (Arguments used as ∧ as.length ≤ maxArguments) := by
  rw [Grammar.argumentList]
  apply Reads.peekKind
  split
  · exact .pure ⟨trivial, by simp [Expr.allReferences], fun _ => ⟨.none, by simp⟩⟩
  · refine (h.arguments (by omega)).imp ?_
    rintro us as es rest ⟨hshape, hrefs, hderived⟩
    refine ⟨hshape, hrefs, fun hes => ?_⟩
    obtain ⟨-, has, hcount⟩ := hderived hes
    exact ⟨has, by omega⟩

theorem ExprRules.arguments_succ (h : ExprRules P n) {count : Nat} {eof : Token}
    {ts : List Token} (hn : 16 * ts.length + 10 ≤ n + 1) :
    Reads P (Grammar.arguments (n + 1) .unlimited count) eof ts fun used as es _ =>
      Found (Expr.AllWellFormed P as) (Expr.allReferences as) used es
        (as ≠ [] ∧ Arguments used as ∧ count + as.length ≤ maxArguments) := by
  rw [Grammar.arguments]
  -- Without a complaint there is room for the first argument, and the others count from there.
  suffices hlist : Reads P _ eof ts fun used as es _ =>
      Found (Expr.AllWellFormed P as) (Expr.allReferences as) used es
        (as ≠ [] ∧ Arguments used as ∧ (as.length = 1 ∨ count + as.length ≤ maxArguments)) from by
    refine .noteIf (hlist.imp ?_)
    rintro us as es rest ⟨hshape, hrefs, hderived⟩
    refine ⟨fun hcount => ⟨hshape, hrefs, fun hes => ?_⟩, fun _ e => ⟨hshape, hrefs, by simp⟩⟩
    obtain ⟨hne, has, hone⟩ := hderived hes
    exact ⟨hne, has, by omega⟩
  refine (h.assignment (by omega)).bind ?_
  rintro us e es rest hts ⟨hus, hshape, hrefs, hderived⟩
  have hlen := length_lt_of_used hts hus
  refine .accept (by decide) ?_ ?_
  · rintro comma rest' rfl hcomma hP
    simp only [List.length_cons] at hlen
    refine (h.arguments (by omega)).bind ?_
    rintro vs as es' rest'' - ⟨hshape', hrefs', hderived'⟩
    refine .pure ⟨⟨hshape, hshape'⟩, ?_, ?_⟩
    · simpa [Expr.allReferences] using hrefs.append (hrefs'.cons_right comma)
    · intro hes
      simp only [List.append_nil, List.append_eq_nil_iff] at hes
      obtain ⟨hne, has, hcount⟩ := hderived' hes.2
      obtain ⟨f, fs, rfl⟩ := List.exists_cons_of_ne_nil hne
      refine ⟨by simp, by simpa using Arguments.more (hderived hes.1) hcomma has, .inr ?_⟩
      simp only [List.length_cons] at hcount ⊢
      omega
  · intro _
    refine .pure ⟨⟨hshape, trivial⟩, by simpa [Expr.allReferences] using hrefs, ?_⟩
    intro hes
    exact ⟨by simp, by simpa using Arguments.one (hderived (by simpa using hes)), .inl rfl⟩

theorem ExprRules.primary_succ (h : ExprRules P n) {eof : Token} {ts : List Token}
    (hn : 16 * ts.length + 1 ≤ n + 1) :
    Reads P (Grammar.primary (n + 1) .unlimited) eof ts fun used e es _ =>
      used ≠ [] ∧ Found (e.WellFormed P) e.references used es (Primary used e) := by
  rw [Grammar.primary, nest_unlimited]
  apply Reads.peek
  apply Reads.peekKind
  cases ts with
  | nil => exact .reject
  | cons t ts =>
    simp only [List.length_cons] at hn
    rw [headKind_cons, List.head?_cons, Option.getD_some]
    split
    · rename_i hk
      exact .skip fun _ =>
        .pure ⟨by simp, .inr (.inl ⟨_, rfl⟩), by simp [Expr.references], fun _ => .false hk⟩
    · rename_i hk
      exact .skip fun _ =>
        .pure ⟨by simp, .inr (.inl ⟨_, rfl⟩), by simp [Expr.references], fun _ => .true hk⟩
    · rename_i hk
      exact .skip fun _ => .pure ⟨by simp, .inl rfl, by simp [Expr.references], fun _ => .nil hk⟩
    · rename_i hk
      refine .skip fun hP => .pure ⟨by simp, .inr (.inr ⟨t, .inl ⟨hP, hk⟩, rfl⟩), ?_, ?_⟩
      · simp [Expr.references]
      · exact fun _ => .constant (.inl hk)
    · rename_i hk
      refine .skip fun hP => .pure ⟨by simp, .inr (.inr ⟨t, .inr ⟨hP, hk⟩, rfl⟩), ?_, ?_⟩
      · simp [Expr.references]
      · exact fun _ => .constant (.inr hk)
    · rename_i hk
      refine .skip fun hP => .expect (by decide) ?_
      rintro dot rest rfl hdot -
      refine .expect (by decide) ?_
      rintro method rest' rfl hmethod hPm
      exact .pure ⟨by simp, ⟨⟨hP, hk⟩, hPm, hmethod⟩, by simp [Expr.references],
        fun _ => .super hk hdot hmethod⟩
    · rename_i hk
      exact .skip fun hP => .pure ⟨by simp, ⟨hP, hk⟩, by simp [Expr.references], fun _ => .this hk⟩
    · rename_i hk
      exact .skip fun hP =>
        .pure ⟨by simp, ⟨hP, hk⟩, by simp [Expr.references], fun _ => .variable hk⟩
    · rename_i hk
      refine .skip fun _ => (h.assignment (by omega)).bind ?_
      rintro us e es rest - ⟨-, hshape, hrefs, hderived⟩
      refine .expect (by decide) ?_
      rintro right rest' rfl hright -
      refine .pure ⟨by simp, hshape, ?_, ?_⟩
      · exact (hrefs.trans (List.sublist_append_left _ _).subperm).cons_right t
      · intro hes
        simpa using Primary.group hk (hderived (by simpa using hes)) hright
    · exact .reject

/-- The rules of expressions, by induction on the number of steps. -/
theorem exprRules (P : Token → Prop) (n : Nat) : ExprRules P n := by
  induction n with
  | zero =>
    constructor
    · intro _ _ h; omega
    · intro o _ _ h
      have : operandStrength o ≤ 7 := by
        cases o with
        | none => exact Nat.le_refl 7
        | some l => exact Nat.le_succ_of_le l.strength_le
      omega
    all_goals intros; omega
  | succ n ih =>
    exact ⟨ih.assignment_succ, ih.operand_succ, ih.chain_succ, ih.suffixes_succ,
      ih.argumentList_succ, ih.arguments_succ, ih.primary_succ⟩

end Grammar

end Lox
