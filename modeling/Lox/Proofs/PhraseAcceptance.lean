import Lox.Proofs.Phrases

/-!
# Derived expressions are read

The converse of `exprRules`: a rule reads the tokens of a derivation, returns its tree and records
no error, if what follows cannot belong to the same phrase. For infix operators this is a question
of `Kind.strength`: an operand ends in front of an operator that binds less tightly. The left
recursion of operands and calls is read by a loop, so `ChainRead` and `CallRead` say how far the
loop has come and not where it ends. `assignment_read` is the outcome for a whole expression.
-/

namespace Lox

/-- How tightly an operator binds to the operand in front of it. -/
def Kind.strength : Kind → Nat
  | .orKw => 1
  | .andKw => 2
  | .bangEqual | .equalEqual => 3
  | .greater | .greaterEqual | .less | .lessEqual => 4
  | .minus | .plus => 5
  | .slash | .star => 6
  | .leftParen | .dot => 7
  | _ => 0

theorem Level.has_iff (l : Level) (k : Kind) : l.has k ↔ k.strength = l.strength := by
  cases l <;> cases k <;> simp [Level.has, Kind.strength, Level.strength]

def Kind.startsPrimary : Kind → Bool
  | .falseKw | .trueKw | .nilKw | .number | .string | .superKw | .thisKw | .identifier
    | .leftParen => true
  | _ => false

def Kind.startsExpression (k : Kind) : Bool := k.startsPrimary || k.isPrefixOperator

namespace Rule

variable {ts : List Token}

theorem ne_nil_of_headKind {p : Kind → Bool} (h : p (headKind ts)) (heof : p .eof = false) :
    ts ≠ [] := by
  rintro rfl
  simp [heof] at h

theorem headKind_append (h : ts ≠ []) (us : List Token) : headKind (ts ++ us) = headKind ts := by
  cases ts with
  | nil => exact absurd rfl h
  | cons t ts => rfl

end Rule

namespace Derives

open Rule

theorem Primary.starts {ts : List Token} {e : Expr} (h : Primary ts e) :
    (headKind ts).startsPrimary := by
  cases h with
  | constant hk => rcases hk with hk | hk <;> simp [Kind.startsPrimary, hk]
  | _ => simp [Kind.startsPrimary, *]

theorem Call.starts : ∀ {ts : List Token} {e : Expr}, Call ts e → (headKind ts).startsPrimary
  | _, _, .primary h => h.starts
  | _, _, .apply h _ _ _ _ => by
    rw [headKind_append (ne_nil_of_headKind h.starts rfl)]
    exact h.starts
  | _, _, .get h _ _ => by
    rw [headKind_append (ne_nil_of_headKind h.starts rfl)]
    exact h.starts

theorem Call.ne_nil {ts : List Token} {e : Expr} (h : Call ts e) : ts ≠ [] :=
  ne_nil_of_headKind h.starts rfl

theorem Operand.starts : ∀ {o : Option Level} {ts : List Token} {e : Expr}, Operand o ts e →
    (headKind ts).startsExpression
  | _, _, _, .tighter h => h.starts
  | _, _, _, .binary h _ _ => by
    rw [headKind_append (ne_nil_of_headKind h.starts rfl)]
    exact h.starts
  | _, _, _, .unary hop _ => by simp [Kind.startsExpression, hop]
  | _, _, _, .call h => by simp [Kind.startsExpression, h.starts]

theorem Operand.ne_nil {o : Option Level} {ts : List Token} {e : Expr} (h : Operand o ts e) :
    ts ≠ [] := ne_nil_of_headKind h.starts rfl

theorem Assignment.starts {ts : List Token} {e : Expr} (h : Assignment ts e) :
    (headKind ts).startsExpression := by
  cases h with
  | value h => exact h.starts
  | «variable» hk => simp [Kind.startsExpression, Kind.startsPrimary, hk]
  | property h =>
    rw [headKind_append (ne_nil_of_headKind h.starts rfl)]
    simp [Kind.startsExpression, h.starts]

theorem Assignment.ne_nil {ts : List Token} {e : Expr} (h : Assignment ts e) : ts ≠ [] :=
  ne_nil_of_headKind h.starts rfl

theorem Arguments.starts {ts : List Token} {es : List Expr} (h : Arguments ts es) (hne : es ≠ []) :
    (headKind ts).startsExpression := by
  cases h with
  | none => exact absurd rfl hne
  | one h => exact h.starts
  | more h _ _ =>
    rw [headKind_append h.ne_nil]
    exact h.starts

end Derives

namespace Grammar

open Rule Derives

/-! ## Expressions -/

def PrimaryRead (used : List Token) (e : Expr) : Prop :=
  ∀ (n : Nat) (eof : Token) (rest : List Token), 16 * used.length ≤ n + 8 →
    primary n .unlimited eof (used ++ rest) = ⟨.done e, [], rest⟩

/-- The loop over calls and properties has read `used`. -/
def CallRead (used : List Token) (e : Expr) : Prop :=
  ∀ (n : Nat) (eof : Token) (rest : List Token), 16 * used.length ≤ n + 7 →
    ∃ m, n ≤ m + used.length ∧
      operand n .unlimited none eof (used ++ rest) = suffixes m .unlimited e eof rest

/-- The loop over the operators of a level has read `used`. -/
def ChainRead (l : Level) (used : List Token) (e : Expr) : Prop :=
  ∀ (n : Nat) (eof : Token) (rest : List Token), 16 * used.length ≤ n + l.strength →
    (headKind rest).strength ≤ l.strength →
    ∃ m, n ≤ m + used.length ∧
      operand n .unlimited (some l) eof (used ++ rest) = chain m .unlimited l e eof rest

def OperandRead (o : Option Level) (used : List Token) (e : Expr) : Prop :=
  ∀ (n : Nat) (eof : Token) (rest : List Token), 16 * used.length ≤ n + operandStrength o →
    (headKind rest).strength < operandStrength o →
    operand n .unlimited o eof (used ++ rest) = ⟨.done e, [], rest⟩

def AssignmentRead (used : List Token) (e : Expr) : Prop :=
  ∀ (n : Nat) (eof : Token) (rest : List Token), 16 * used.length ≤ n →
    (headKind rest).strength = 0 → headKind rest ≠ .equal →
    assignment n .unlimited eof (used ++ rest) = ⟨.done e, [], rest⟩

def ArgumentsRead (used : List Token) (es : List Expr) : Prop :=
  ∀ (n count : Nat) (eof : Token) (rest : List Token), 16 * used.length + 1 ≤ n → es ≠ [] →
    count + es.length ≤ maxArguments → headKind rest = .rightParen →
    arguments n .unlimited count eof (used ++ rest) = ⟨.done es, [], rest⟩

variable {used : List Token} {e : Expr}

theorem CallRead.primary (h : PrimaryRead used e) (hs : (headKind used).startsPrimary) :
    CallRead used e := by
  intro n eof rest hn
  have hne := ne_nil_of_headKind hs rfl
  have hlen := List.length_pos_iff.2 hne
  have hop : (headKind (used ++ rest)).isPrefixOperator = false := by
    rw [headKind_append hne]
    revert hs
    cases headKind used <;> simp [Kind.startsPrimary, Kind.isPrefixOperator]
  cases n with
  | zero => omega
  | succ n =>
    refine ⟨n, by omega, ?_⟩
    rw [operand, nest_unlimited, bind_clean (takeIf_of_not_mem hop)]
    exact bind_clean (h _ _ _ (by omega)) _

theorem CallRead.get {dot name : Token} (h : CallRead used e) (hd : dot.kind = .dot)
    (hk : name.kind = .identifier) : CallRead (used ++ [dot, name]) (.get e name) := by
  intro n eof rest hn
  simp only [List.length_append, List.length_cons, List.length_nil] at hn ⊢
  obtain ⟨m, hm, heq⟩ := h n eof (dot :: name :: rest) (by omega)
  cases m with
  | zero => omega
  | succ m =>
    refine ⟨m, by omega, ?_⟩
    rw [List.append_assoc, List.cons_append, List.cons_append, List.nil_append, heq, suffixes,
      peekKind_bind, headKind_cons, hd]
    exact bind_clean (expect_of_kind _ hk _ _) _

theorem argumentList_read {as rest : List Token} {es : List Expr} (h : ArgumentsRead as es)
    (has : Arguments as es) (hmax : es.length ≤ maxArguments) (hrest : headKind rest = .rightParen)
    {n : Nat} (hn : 16 * as.length + 2 ≤ n) (eof : Token) :
    argumentList n .unlimited eof (as ++ rest) = ⟨.done es, [], rest⟩ := by
  cases n with
  | zero => omega
  | succ n =>
    rw [argumentList, peekKind_bind]
    by_cases hne : es = []
    · subst hne
      cases has
      rw [List.nil_append, if_pos hrest, pure_apply]
    · have hs := has.starts hne
      have hkind : headKind (as ++ rest) ≠ .rightParen := by
        rw [headKind_append (ne_nil_of_headKind hs rfl)]
        intro hk
        rw [hk] at hs
        exact absurd hs (by decide)
      rw [if_neg hkind]
      exact h _ _ _ _ (by omega) hne (by omega) hrest

theorem CallRead.apply {left right : Token} {as : List Token} {es : List Expr} (h : CallRead used e)
    (hl : left.kind = .leftParen) (hargs : ArgumentsRead as es) (has : Arguments as es)
    (hmax : es.length ≤ maxArguments) (hr : right.kind = .rightParen) :
    CallRead (used ++ left :: (as ++ [right])) (.call e right es) := by
  intro n eof rest hn
  simp only [List.length_append, List.length_cons, List.length_nil] at hn ⊢
  obtain ⟨m, hm, heq⟩ := h n eof (left :: (as ++ right :: rest)) (by omega)
  cases m with
  | zero => omega
  | succ m =>
    refine ⟨m, by omega, ?_⟩
    have hlist : used ++ left :: (as ++ [right]) ++ rest =
        used ++ left :: (as ++ right :: rest) := by
      simp
    have hread := argumentList_read hargs has hmax (show headKind (right :: rest) = _ from hr)
      (show 16 * as.length + 2 ≤ m by omega) eof
    rw [hlist, heq, suffixes, peekKind_bind, headKind_cons, hl]
    dsimp only
    rw [skip_bind, bind_clean hread]
    exact bind_clean (expect_of_kind _ hr _ _) _

/-- The loop over calls and properties stops where no other one follows. -/
theorem OperandRead.call (h : CallRead used e) (hne : used ≠ []) : OperandRead none used e := by
  intro n eof rest hn hrest
  have hlen := List.length_pos_iff.2 hne
  simp only [operandStrength] at hn hrest
  obtain ⟨m, hm, heq⟩ := h n eof rest (by omega)
  cases m with
  | zero => omega
  | succ m =>
    rw [heq, suffixes, peekKind_bind]
    revert hrest
    cases headKind rest <;> simp [Kind.strength]

theorem OperandRead.unary {op : Token} (h : OperandRead none used e)
    (hop : op.kind.isPrefixOperator) : OperandRead none (op :: used) (.unary op e) := by
  intro n eof rest hn hrest
  simp only [operandStrength, List.length_cons] at hn
  cases n with
  | zero => omega
  | succ n =>
    rw [operand, nest_unlimited, List.cons_append, bind_clean (takeIf_of_mem hop eof _)]
    exact bind_clean (h _ _ _ (by simp only [operandStrength]; omega) hrest) _

theorem ChainRead.tighter {l : Level} (h : OperandRead l.tighter used e) (hne : used ≠ []) :
    ChainRead l used e := by
  intro n eof rest hn hrest
  have hlen := List.length_pos_iff.2 hne
  have hl := l.strength_le
  cases n with
  | zero => omega
  | succ n =>
    refine ⟨n, by omega, ?_⟩
    rw [operand, nest_unlimited]
    exact bind_clean (h _ _ _ (by rw [operandStrength_tighter]; omega)
      (by rw [operandStrength_tighter]; omega)) _

theorem ChainRead.binary {l : Level} {op : Token} {rs : List Token} {f : Expr}
    (h : ChainRead l used e) (hop : l.has op.kind) (hf : OperandRead l.tighter rs f) :
    ChainRead l (used ++ op :: rs) (l.join e op f) := by
  intro n eof rest hn hrest
  have hl := l.strength_le
  simp only [List.length_append, List.length_cons] at hn ⊢
  obtain ⟨m, hm, heq⟩ := h n eof (op :: (rs ++ rest)) (by omega)
    (Nat.le_of_eq ((l.has_iff op.kind).1 hop))
  cases m with
  | zero => omega
  | succ m =>
    refine ⟨m, by omega, ?_⟩
    rw [List.append_assoc, List.cons_append, heq, chain, bind_clean (takeIf_of_mem hop eof _)]
    exact bind_clean (hf _ _ _ (by rw [operandStrength_tighter]; omega)
      (by rw [operandStrength_tighter]; omega)) _

/-- The loop over the operators of a level stops where no other one follows. -/
theorem OperandRead.chain {l : Level} (h : ChainRead l used e) (hne : used ≠ []) :
    OperandRead (some l) used e := by
  intro n eof rest hn hrest
  have hlen := List.length_pos_iff.2 hne
  have hl := l.strength_le
  simp only [operandStrength] at hn hrest
  obtain ⟨m, hm, heq⟩ := h n eof rest hn (by omega)
  cases m with
  | zero => omega
  | succ m =>
    have hnot : l.has (headKind rest) = false := by
      rw [Bool.eq_false_iff, ne_eq, l.has_iff]
      omega
    rw [heq, Grammar.chain, bind_clean (takeIf_of_not_mem hnot)]
    rfl

/-- What is read without infix operators is read at every level. -/
theorem OperandRead.loosen (h : OperandRead none used e) (hne : used ≠ []) :
    ∀ l : Level, OperandRead (some l) used e := by
  have hstep : ∀ {l : Level}, OperandRead l.tighter used e → OperandRead (some l) used e :=
    fun h => .chain (.tighter h hne) hne
  have factor : OperandRead (some .factor) used e := hstep h
  have term : OperandRead (some .term) used e := hstep factor
  have comparison : OperandRead (some .comparison) used e := hstep term
  have equality : OperandRead (some .equality) used e := hstep comparison
  have conjunction : OperandRead (some .conjunction) used e := hstep equality
  intro l
  cases l with
  | disjunction => exact hstep conjunction
  | _ => assumption

theorem AssignmentRead.value (h : OperandRead (some .disjunction) used e) (hne : used ≠ []) :
    AssignmentRead used e := by
  intro n eof rest hn hrest hnot
  have hlen := List.length_pos_iff.2 hne
  cases n with
  | zero => omega
  | succ n =>
    have hread := h n eof rest (by simp only [operandStrength, Level.strength]; omega)
      (by simp [hrest, operandStrength, Level.strength])
    rw [assignment, nest_unlimited, bind_clean hread, bind_clean (accept_of_not_kind hnot)]
    rfl

/-- The target is read as an operand before the equals sign shows what it is. -/
theorem AssignmentRead.assign {equal : Token} {ts : List Token} {value f : Expr}
    (htarget : OperandRead (some .disjunction) used e) (hne : used ≠ [])
    (hequal : equal.kind = .equal)
    (hvalue : AssignmentRead ts value) (hf : e.assigned? value = some f) :
    AssignmentRead (used ++ equal :: ts) f := by
  intro n eof rest hn hrest hnot
  have hlen := List.length_pos_iff.2 hne
  simp only [List.length_append, List.length_cons] at hn
  cases n with
  | zero => omega
  | succ n =>
    have htarget := htarget n eof (equal :: (ts ++ rest))
      (by simp only [operandStrength, Level.strength]; omega)
      (by simp [hequal, operandStrength, Level.strength, Kind.strength])
    rw [assignment, nest_unlimited, List.append_assoc, List.cons_append, bind_clean htarget,
      bind_clean (accept_of_kind hequal eof _)]
    dsimp only
    rw [bind_clean (hvalue n eof rest (by omega) hrest hnot), hf]
    rfl

theorem arguments_of_lt {n count : Nat} (h : count < maxArguments) :
    arguments (n + 1) .unlimited count = (do
    let e ← assignment n .unlimited
    match ← accept .comma with
    | none => pure [e]
    | some _ =>
      let es ← arguments n .unlimited (count + 1)
      pure (e :: es)) := by
  rw [arguments]
  exact if_neg (Nat.not_le.2 h)

theorem ArgumentsRead.one (h : AssignmentRead used e) : ArgumentsRead used [e] := by
  intro n count eof rest hn _ hcount hrest
  cases n with
  | zero => omega
  | succ n =>
    have hread := h n eof rest (by omega) (by rw [hrest]; rfl) (by rw [hrest]; decide)
    rw [arguments_of_lt hcount, bind_clean hread, bind_clean (accept_of_not_kind (by simp [hrest]))]
    rfl

theorem ArgumentsRead.more {comma : Token} {us : List Token} {f : Expr} {es : List Expr}
    (h : AssignmentRead used e) (hcomma : comma.kind = .comma) (hes : ArgumentsRead us (f :: es)) :
    ArgumentsRead (used ++ comma :: us) (e :: f :: es) := by
  intro n count eof rest hn _ hcount hrest
  simp only [List.length_append, List.length_cons] at hn hcount
  cases n with
  | zero => omega
  | succ n =>
    have hread := h n eof (comma :: (us ++ rest)) (by omega) (by simp [hcomma, Kind.strength])
      (by simp [hcomma])
    have hmore := hes n (count + 1) eof rest (by omega) (by simp)
      (by simp only [List.length_cons]; omega) hrest
    rw [arguments_of_lt (by omega), List.append_assoc, List.cons_append, bind_clean hread,
      bind_clean (accept_of_kind hcomma eof _)]
    exact bind_clean hmore _

theorem PrimaryRead.group {left right : Token} (hl : left.kind = .leftParen)
    (h : AssignmentRead used e) (hr : right.kind = .rightParen) :
    PrimaryRead (left :: (used ++ [right])) (.grouping e) := by
  intro n eof rest hn
  simp only [List.length_append, List.length_cons, List.length_nil] at hn
  cases n with
  | zero => omega
  | succ n =>
    have hread := h n eof (right :: rest) (by omega) (by simp [hr, Kind.strength]) (by simp [hr])
    rw [primary, nest_unlimited, peek_bind, peekKind_bind, List.cons_append, headKind_cons, hl,
      List.append_assoc]
    dsimp only
    rw [skip_bind, List.singleton_append, bind_clean hread]
    exact bind_clean (expect_of_kind _ hr _ _) _

theorem PrimaryRead.super {keyword dot method : Token} (hk : keyword.kind = .superKw)
    (hd : dot.kind = .dot) (hm : method.kind = .identifier) :
    PrimaryRead [keyword, dot, method] (.super keyword method) := by
  intro n eof rest hn
  simp only [List.length_cons, List.length_nil] at hn
  cases n with
  | zero => omega
  | succ n =>
    rw [primary, nest_unlimited, peek_bind, peekKind_bind, List.cons_append, headKind_cons, hk]
    dsimp only
    rw [skip_bind, List.cons_append, bind_clean (expect_of_kind _ hd _ _)]
    exact bind_clean (expect_of_kind _ hm _ _) _

/-- A primary expression of one token. -/
theorem PrimaryRead.single {t : Token} (h : Primary [t] e) : PrimaryRead [t] e := by
  intro n eof rest hn
  simp only [List.length_cons, List.length_nil] at hn
  cases n with
  | zero => omega
  | succ n =>
    rw [primary, nest_unlimited, peek_bind, peekKind_bind, List.cons_append, headKind_cons]
    generalize hts : [t] = ts at h
    cases h with
    | constant hk =>
      obtain rfl : t = _ := by simpa using hts
      rcases hk with hk | hk <;> rw [hk] <;> rfl
    | group => simp at hts
    | super => simp at hts
    | false hk | true hk | nil hk | this hk | «variable» hk =>
      obtain rfl : t = _ := by simpa using hts
      rw [hk]
      rfl

/-- How far an operand is read whatever follows: to the end of a loop, if there is one. -/
def Progress : Option Level → List Token → Expr → Prop
  | some l => ChainRead l
  | none => OperandRead none

theorem Progress.read {o : Option Level} (h : Progress o used e) (hne : used ≠ []) :
    OperandRead o used e := by
  cases o with
  | some l => exact .chain h hne
  | none => exact h

mutual

theorem assignment_read : ∀ {ts : List Token} {e : Expr}, Assignment ts e → AssignmentRead ts e
  | _, _, .value h => .value ((operand_progress h).read h.ne_nil) h.ne_nil
  | _, _, .variable hk hequal h =>
    have hcall : CallRead _ _ := .primary (.single (.variable hk)) (Primary.variable hk).starts
    .assign ((OperandRead.call hcall (by simp)).loosen (by simp) _) (by simp) hequal
      (assignment_read h) rfl
  | _, _, @Assignment.property dot name _ os ts o e hc hd hk hequal h => by
    have hcall := OperandRead.call ((call_read hc).get hd hk) (by simp)
    have hset :=
      AssignmentRead.assign (hcall.loosen (by simp) _) (by simp) hequal (assignment_read h)
        (show (Expr.get o name).assigned? e = some (.set o name e) from rfl)
    simpa using hset

theorem operand_progress : ∀ {o : Option Level} {ts : List Token} {e : Expr}, Operand o ts e →
    Progress o ts e
  | _, _, _, .tighter h => ChainRead.tighter ((operand_progress h).read h.ne_nil) h.ne_nil
  | _, _, _, .binary h hop h' =>
    ChainRead.binary (operand_progress h) hop ((operand_progress h').read h'.ne_nil)
  | _, _, _, .unary hop h => OperandRead.unary (operand_progress h) hop
  | _, _, _, .call h => OperandRead.call (call_read h) h.ne_nil

theorem call_read : ∀ {ts : List Token} {e : Expr}, Call ts e → CallRead ts e
  | _, _, .primary h => .primary (primary_read h) h.starts
  | _, _, .apply h hl has hmax hr => (call_read h).apply hl (arguments_read has) has hmax hr
  | _, _, .get h hd hk => (call_read h).get hd hk

theorem arguments_read : ∀ {ts : List Token} {es : List Expr}, Arguments ts es → ArgumentsRead ts es
  | _, _, .none => fun _ _ _ _ _ hne => absurd rfl hne
  | _, _, .one h => .one (assignment_read h)
  | _, _, .more h hcomma hs => .more (assignment_read h) hcomma (arguments_read hs)

theorem primary_read : ∀ {ts : List Token} {e : Expr}, Primary ts e → PrimaryRead ts e
  | _, _, .group hl h hr => .group hl (assignment_read h) hr
  | _, _, .super hk hd hm => .super hk hd hm
  | _, _, .false hk => .single (.false hk)
  | _, _, .true hk => .single (.true hk)
  | _, _, .nil hk => .single (.nil hk)
  | _, _, .constant hk => .single (.constant hk)
  | _, _, .this hk => .single (.this hk)
  | _, _, .variable hk => .single (.variable hk)

end

end Grammar

end Lox
