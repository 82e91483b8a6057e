import Lox.Proofs.SentenceAcceptance

/-!
# The productions of the grammar

`production` is the grammar as it is written, one rule for each nonterminal, and `Matches a ks` says
that the categories `ks` are derived from the form `a`. These rules leave open to which `if` an
`else` belongs and say nothing of trees. `matches_program_iff` shows that they derive the same texts
as `Declarations`, and `parse_grammar` that a text is read without error if and only if they derive
it.
-/

namespace Lox

inductive Nonterminal where
  | program | declaration | classDecl | funDecl | function | parameters | varDecl
  | statement | exprStmt | forStmt | ifStmt | printStmt | returnStmt | whileStmt | block
  | expression | assignment | logicOr | logicAnd | equality | comparison | term | factor | unary
  | call | arguments | primary

/-- The right-hand sides of rules. -/
inductive Ebnf where
  /-- A token of one of the categories. -/
  | oneOf (ks : List Kind)
  | rule (n : Nonterminal)
  | seq (a b : Ebnf)
  | alt (a b : Ebnf)
  | opt (a : Ebnf)
  | star (a : Ebnf)
  /-- At most so many repetitions. -/
  | upTo (n : Nat) (a : Ebnf)

namespace Ebnf

instance : Append Ebnf := ⟨seq⟩

instance : OrOp Ebnf := ⟨alt⟩

@[simp] theorem append_eq (a b : Ebnf) : a ++ b = seq a b := rfl

@[simp] theorem or_eq (a b : Ebnf) : a ||| b = alt a b := rfl

def kind (k : Kind) : Ebnf := oneOf [k]

def joinedBy (operand : Nonterminal) (operators : List Kind) : Ebnf :=
  rule operand ++ star (oneOf operators ++ rule operand)

/-- At most 255 items with commas between them. -/
def commaSeparated (a : Ebnf) : Ebnf := a ++ upTo (maxArguments - 1) (kind .comma ++ a)

end Ebnf

open Ebnf in
def production : Nonterminal → Ebnf
  | .program => star (rule .declaration) ++ kind .eof
  | .declaration => rule .classDecl ||| rule .funDecl ||| rule .varDecl ||| rule .statement
  | .classDecl => kind .classKw ++ kind .identifier ++ opt (kind .less ++ kind .identifier) ++
      kind .leftBrace ++ star (rule .function) ++ kind .rightBrace
  | .funDecl => kind .funKw ++ rule .function
  | .function =>
    kind .identifier ++ kind .leftParen ++ opt (rule .parameters) ++ kind .rightParen ++
      rule .block
  | .parameters => commaSeparated (kind .identifier)
  | .varDecl => kind .varKw ++ kind .identifier ++ opt (kind .equal ++ rule .expression) ++
      kind .semicolon
  | .statement => rule .exprStmt ||| rule .forStmt ||| rule .ifStmt ||| rule .printStmt |||
      rule .returnStmt ||| rule .whileStmt ||| rule .block
  | .exprStmt => rule .expression ++ kind .semicolon
  | .forStmt => kind .forKw ++ kind .leftParen ++
      (rule .varDecl ||| rule .exprStmt ||| kind .semicolon) ++ opt (rule .expression) ++
      kind .semicolon ++ opt (rule .expression) ++ kind .rightParen ++ rule .statement
  | .ifStmt => kind .ifKw ++ kind .leftParen ++ rule .expression ++ kind .rightParen ++
      rule .statement ++ opt (kind .elseKw ++ rule .statement)
  | .printStmt => kind .printKw ++ rule .expression ++ kind .semicolon
  | .returnStmt => kind .returnKw ++ opt (rule .expression) ++ kind .semicolon
  | .whileStmt => kind .whileKw ++ kind .leftParen ++ rule .expression ++ kind .rightParen ++
      rule .statement
  | .block => kind .leftBrace ++ star (rule .declaration) ++ kind .rightBrace
  | .expression => rule .assignment
  | .assignment => opt (rule .call ++ kind .dot) ++ kind .identifier ++ kind .equal ++
      rule .assignment ||| rule .logicOr
  | .logicOr => joinedBy .logicAnd [.orKw]
  | .logicAnd => joinedBy .equality [.andKw]
  | .equality => joinedBy .comparison [.bangEqual, .equalEqual]
  | .comparison => joinedBy .term [.greater, .greaterEqual, .less, .lessEqual]
  | .term => joinedBy .factor [.minus, .plus]
  | .factor => joinedBy .unary [.slash, .star]
  | .unary => oneOf [.bang, .minus] ++ rule .unary ||| rule .call
  | .call => rule .primary ++ star
      (kind .leftParen ++ opt (rule .arguments) ++ kind .rightParen ||| kind .dot ++
        kind .identifier)
  | .arguments => commaSeparated (rule .expression)
  | .primary => oneOf [.trueKw, .falseKw, .nilKw, .thisKw, .number, .string, .identifier] |||
      kind .leftParen ++ rule .expression ++ kind .rightParen |||
      kind .superKw ++ kind .dot ++ kind .identifier

/-- The categories are derived from the form. -/
inductive Matches : Ebnf → List Kind → Prop where
  | oneOf {ks : List Kind} {k : Kind} : k ∈ ks → Matches (.oneOf ks) [k]
  | rule {n : Nonterminal} {ks : List Kind} : Matches (production n) ks → Matches (.rule n) ks
  | seq {a b : Ebnf} {ks ls : List Kind} : Matches a ks → Matches b ls →
      Matches (.seq a b) (ks ++ ls)
  | left {a b : Ebnf} {ks : List Kind} : Matches a ks → Matches (.alt a b) ks
  | right {a b : Ebnf} {ks : List Kind} : Matches b ks → Matches (.alt a b) ks
  | absent {a : Ebnf} : Matches (.opt a) []
  | present {a : Ebnf} {ks : List Kind} : Matches a ks → Matches (.opt a) ks
  | none {a : Ebnf} : Matches (.star a) []
  | more {a : Ebnf} {ks ls : List Kind} : Matches a ks → Matches (.star a) ls →
      Matches (.star a) (ks ++ ls)
  | stop {n : Nat} {a : Ebnf} : Matches (.upTo n a) []
  | next {n : Nat} {a : Ebnf} {ks ls : List Kind} : Matches a ks → Matches (.upTo n a) ls →
      Matches (.upTo (n + 1) a) (ks ++ ls)

namespace Matches

variable {a b : Ebnf} {ks ls : List Kind}

theorem of_kind {t : Token} {k : Kind} (h : t.kind = k) : Matches (.kind k) [t.kind] :=
  .oneOf (by simpa using h)

theorem of_rule {n : Nonterminal} (h : Matches (.rule n) ks) : Matches (production n) ks := by
  cases h with
  | rule h => exact h

theorem split (h : Matches (.seq a b) ks) :
    ∃ us vs, ks = us ++ vs ∧ Matches a us ∧ Matches b vs := by
  cases h with
  | seq ha hb => exact ⟨_, _, rfl, ha, hb⟩

theorem star_snoc (h : Matches (.star a) ks) (h' : Matches a ls) :
    Matches (.star a) (ks ++ ls) := by
  generalize hc : Ebnf.star a = c at h
  induction h with
  | none =>
    rw [← hc]
    simpa using Matches.more h' .none
  | more ha _ _ ih =>
    obtain rfl : a = _ := by injection hc
    rw [List.append_assoc]
    exact .more ha (ih rfl)
  | _ => cases hc

end Matches

def Nonterminal.ofOperand : Option Level → Nonterminal
  | some .disjunction => .logicOr
  | some .conjunction => .logicAnd
  | some .equality => .equality
  | some .comparison => .comparison
  | some .term => .term
  | some .factor => .factor
  | none => .unary

def Level.operators : Level → List Kind
  | .disjunction => [.orKw]
  | .conjunction => [.andKw]
  | .equality => [.bangEqual, .equalEqual]
  | .comparison => [.greater, .greaterEqual, .less, .lessEqual]
  | .term => [.minus, .plus]
  | .factor => [.slash, .star]

theorem Level.mem_operators (l : Level) (k : Kind) : k ∈ l.operators ↔ l.has k := by
  cases l <;> cases k <;> decide

theorem production_ofOperand (l : Level) :
    production (.ofOperand (some l)) = .joinedBy (.ofOperand l.tighter) l.operators := by
  cases l <;> rfl

/-! ## Derivations follow the productions -/

namespace Derives

open Matches

theorem matches_binary {l : Level} {ks ls : List Kind} {op : Kind}
    (h : Matches (.rule (.ofOperand (some l))) ks) (hop : l.has op)
    (h' : Matches (.rule (.ofOperand l.tighter)) ls) :
    Matches (.rule (.ofOperand (some l))) (ks ++ op :: ls) := by
  have hnext := Matches.seq (.oneOf ((l.mem_operators op).2 hop)) h'
  have h := h.of_rule
  rw [production_ofOperand] at h
  obtain ⟨us, vs, rfl, hu, hv⟩ := h.split
  refine .rule ?_
  rw [production_ofOperand, List.append_assoc]
  exact .seq hu (hv.star_snoc hnext)

theorem matches_suffix {ks ls : List Kind} (h : Matches (.rule .call) ks)
    (h' : Matches (.kind .leftParen ++ .opt (.rule .arguments) ++ .kind .rightParen |||
      .kind .dot ++ .kind .identifier) ls) : Matches (.rule .call) (ks ++ ls) := by
  obtain ⟨us, vs, rfl, hu, hv⟩ := h.of_rule.split
  rw [List.append_assoc]
  exact .rule (.seq hu (hv.star_snoc h'))

theorem matches_operand {l : Level} {ks : List Kind}
    (h : Matches (.rule (.ofOperand l.tighter)) ks) : Matches (.rule (.ofOperand (some l))) ks := by
  refine .rule ?_
  rw [production_ofOperand, ← List.append_nil ks]
  exact .seq h .none

mutual

theorem Assignment.derives : ∀ {ts : List Token} {e : Expr}, Assignment ts e →
    Matches (.rule .assignment) (ts.map Token.kind)
  | _, _, .value h => .rule (.right h.derives)
  | _, _, .variable hk hequal h =>
    .rule (.left (.seq (.seq (.seq .absent (of_kind hk)) (of_kind hequal)) h.derives))
  | _, _, .property hc hd hk hequal h => by
    have htarget := Matches.present (.seq hc.derives (of_kind hd))
    simpa using Matches.rule (n := .assignment)
      (.left (.seq (.seq (.seq htarget (of_kind hk)) (of_kind hequal)) h.derives))

theorem Operand.derives : ∀ {o : Option Level} {ts : List Token} {e : Expr}, Operand o ts e →
    Matches (.rule (.ofOperand o)) (ts.map Token.kind)
  | _, _, _, .tighter h => matches_operand h.derives
  | _, _, _, .binary h hop h' => by simpa using matches_binary h.derives hop h'.derives
  | _, _, _, @Operand.unary op ts _ hop h => by
    have hop : op.kind ∈ [Kind.bang, Kind.minus] := by
      revert hop
      cases op.kind <;> simp [Kind.isPrefixOperator]
    exact .rule (.left (.seq (.oneOf hop) h.derives))
  | _, _, _, .call h => .rule (.right h.derives)

theorem Call.derives : ∀ {ts : List Token} {e : Expr}, Call ts e →
    Matches (.rule .call) (ts.map Token.kind)
  | _, _, .primary h => by simpa using Matches.rule (n := .call) (.seq h.derives .none)
  | _, _, @Call.apply _ _ _ as _ es h hl has hmax hr => by
    have hargs : Matches (.opt (.rule .arguments)) (as.map Token.kind) := by
      by_cases hne : es = []
      · subst hne
        cases has
        exact .absent
      · exact .present (.rule (has.derives hne hmax))
    simpa using matches_suffix h.derives (.left (.seq (.seq (of_kind hl) hargs) (of_kind hr)))
  | _, _, .get h hd hk => by
    simpa using matches_suffix h.derives (.right (.seq (of_kind hd) (of_kind hk)))

theorem Arguments.derives : ∀ {ts : List Token} {es : List Expr}, Arguments ts es →
    es ≠ [] → ∀ {n : Nat}, es.length ≤ n + 1 →
    Matches (.rule .expression ++ .upTo n (.kind .comma ++ .rule .expression)) (ts.map Token.kind)
  | _, _, .none, hne, _, _ => absurd rfl hne
  | _, _, .one h, _, _, _ => by simpa using Matches.seq (.rule (n := .expression) h.derives) .stop
  | _, _, .more h hc h', _, 0, hn => by simp at hn
  | _, _, Arguments.more h hc h', _, n + 1, hn => by
    obtain ⟨ks, ls, hus, hks, hls⟩ :=
      (h'.derives (by simp) (show _ ≤ n + 1 by simpa using hn)).split
    have hmore := Matches.next (.seq (of_kind hc) hks) hls
    simpa [hus] using Matches.seq (.rule (n := .expression) h.derives) hmore

theorem Primary.derives : ∀ {ts : List Token} {e : Expr}, Primary ts e →
    Matches (.rule .primary) (ts.map Token.kind)
  | _, _, .group hl h hr => by
    have hinner := (of_kind hl).seq (.rule (n := .expression) h.derives)
    simpa using Matches.rule (n := .primary) (.left (.right (.seq hinner (of_kind hr))))
  | _, _, .super hk hd hm => .rule (.right (.seq (.seq (of_kind hk) (of_kind hd)) (of_kind hm)))
  | _, _, .false hk => .rule (.left (.left (.oneOf (by simp [hk]))))
  | _, _, .true hk => .rule (.left (.left (.oneOf (by simp [hk]))))
  | _, _, .nil hk => .rule (.left (.left (.oneOf (by simp [hk]))))
  | _, _, .constant hk => .rule (.left (.left (.oneOf (by rcases hk with hk | hk <;> simp [hk]))))
  | _, _, .this hk => .rule (.left (.left (.oneOf (by simp [hk]))))
  | _, _, .variable hk => .rule (.left (.left (.oneOf (by simp [hk]))))

end

theorem Assignment.expression {ts : List Token} {e : Expr} (h : Assignment ts e) :
    Matches (.rule .expression) (ts.map Token.kind) := .rule h.derives

theorem OptionalExpression.derives {ts : List Token} {o : Option Expr}
    (h : OptionalExpression ts o) :
    Matches (.opt (.rule .expression)) (ts.map Token.kind) := by
  cases h with
  | none => exact .absent
  | some h => exact .present h.expression

theorem Parameters.derives {ts ps : List Token} (h : Parameters ts ps) (hne : ps ≠ []) {n : Nat}
    (hn : ps.length ≤ n + 1) :
    Matches (.kind .identifier ++ .upTo n (.kind .comma ++ .kind .identifier))
      (ts.map Token.kind) := by
  induction h generalizing n with
  | none => exact absurd rfl hne
  | one hk => exact .seq (of_kind hk) .stop
  | more hk hc _ ih =>
    obtain ⟨n, rfl⟩ : ∃ k, n = k + 1 := ⟨n - 1, by simp only [List.length_cons] at hn; omega⟩
    obtain ⟨ks, ls, hts, hks, hls⟩ := (ih (by simp) (show _ ≤ n + 1 by simpa using hn)).split
    have hmore := Matches.next (.seq (of_kind hc) hks) hls
    simpa [hts] using Matches.seq (of_kind hk) hmore

theorem Variable.derives {ts : List Token} {s : Stmt} (h : Variable ts s) :
    Matches (.rule .varDecl) (ts.map Token.kind) := by
  cases h with
  | plain hkey hk hstop =>
    exact .rule (.seq (.seq (.seq (of_kind hkey) (of_kind hk)) .absent) (of_kind hstop))
  | initialized hkey hk hequal h hstop =>
    have hvalue := Matches.present (.seq (of_kind hequal) h.expression)
    simpa using Matches.rule (n := .varDecl)
      (.seq (.seq (.seq (of_kind hkey) (of_kind hk)) hvalue) (of_kind hstop))

theorem Effect.derives {ts : List Token} {s : Stmt} (h : Effect ts s) :
    Matches (.rule .exprStmt) (ts.map Token.kind) := by
  obtain ⟨h, hstop⟩ := h
  simpa using Matches.rule (n := .exprStmt) (.seq h.expression (of_kind hstop))

theorem Initializer.derives {ts : List Token} {i : Option Stmt} (h : Initializer ts i) :
    Matches (.rule .varDecl ||| .rule .exprStmt ||| .kind .semicolon) (ts.map Token.kind) := by
  cases h with
  | none hstop => exact .right (of_kind hstop)
  | «variable» h => exact .left (.left h.derives)
  | effect h => exact .left (.right h.derives)

theorem Superclass.derives {ts : List Token} {parent : Option Token} (h : Superclass ts parent) :
    Matches (.opt (.kind .less ++ .kind .identifier)) (ts.map Token.kind) := by
  cases h with
  | none => exact .absent
  | some hless hk => exact .present (.seq (of_kind hless) (of_kind hk))

mutual

theorem Declaration.derives : ∀ {ts : List Token} {s : Stmt}, Declaration ts s →
    Matches (.rule .declaration) (ts.map Token.kind)
  | _, _, .cls hkey hname hparent hleft hms hright => by
    have hhead := Matches.seq (.seq (of_kind hkey) (of_kind hname)) hparent.derives
    have hclass := Matches.rule (n := .classDecl)
      (.seq (.seq (.seq hhead (of_kind hleft)) hms.derives) (of_kind hright))
    simpa using Matches.rule (n := .declaration) (.left (.left (.left hclass)))
  | _, _, .function hkey h =>
    .rule (.left (.left (.right (.rule (.seq (of_kind hkey) h.derives)))))
  | _, _, .variable h => .rule (.left (.right h.derives))
  | _, _, .statement h => .rule (.right h.derives)

theorem Function.derives : ∀ {ts : List Token} {f : FunDecl}, Function ts f →
    Matches (.rule .function) (ts.map Token.kind)
  | _, _, @Function.mk _ _ _ ps _ params _ hname hleft hparams hmax hright h => by
    have hlist : Matches (.opt (.rule .parameters)) (ps.map Token.kind) := by
      by_cases hne : params = []
      · subst hne
        cases hparams
        exact .absent
      · exact .present (.rule (hparams.derives hne hmax))
    simpa using Matches.rule (n := .function)
      (.seq (.seq (.seq (.seq (of_kind hname) (of_kind hleft)) hlist) (of_kind hright)) h.derives)

theorem Methods.derives : ∀ {ts : List Token} {fs : List FunDecl}, Methods ts fs →
    Matches (.star (.rule .function)) (ts.map Token.kind)
  | _, _, .nil => .none
  | _, _, .cons h hs => by simpa using Matches.more h.derives hs.derives

theorem Block.derives : ∀ {ts : List Token} {body : List Stmt}, Block ts body →
    Matches (.rule .block) (ts.map Token.kind)
  | _, _, .mk hleft h hright => by
    simpa using Matches.rule (n := .block) (.seq (.seq (of_kind hleft) h.derives) (of_kind hright))

theorem Declarations.derives : ∀ {ts : List Token} {ss : List Stmt}, Declarations ts ss →
    Matches (.star (.rule .declaration)) (ts.map Token.kind)
  | _, _, .nil => .none
  | _, _, .cons h hs => by simpa using Matches.more h.derives hs.derives

theorem Statement.derives : ∀ {b : Bool} {ts : List Token} {s : Stmt}, Statement b ts s →
    Matches (.rule .statement) (ts.map Token.kind)
  | _, _, _, .effect h => .rule (.left (.left (.left (.left (.left (.left h.derives))))))
  | _, _, _, .print hkey h hstop => by
    have hprint := Matches.rule (n := .printStmt)
      (.seq (.seq (of_kind hkey) h.expression) (of_kind hstop))
    simpa using Matches.rule (n := .statement) (.left (.left (.left (.right hprint))))
  | _, _, _, .ret hkey h hstop => by
    have hret := Matches.rule (n := .returnStmt)
      (.seq (.seq (of_kind hkey) h.derives) (of_kind hstop))
    simpa using Matches.rule (n := .statement) (.left (.left (.right hret)))
  | _, _, _, .block h => .rule (.right h.derives)
  | _, _, _, .whileDo hkey hleft hc hright h => by
    have hhead := Matches.seq (.seq (of_kind hkey) (of_kind hleft)) hc.expression
    have hloop := Matches.rule (n := .whileStmt) (.seq (.seq hhead (of_kind hright)) h.derives)
    simpa using Matches.rule (n := .statement) (.left (.right hloop))
  | _, _, _, .forDo hkey hleft hi hc hstop hm hright h => by
    have hinit := Matches.seq (.seq (of_kind hkey) (of_kind hleft)) hi.derives
    have hcond := Matches.seq (.seq hinit hc.derives) (of_kind hstop)
    have hloop := Matches.rule (n := .forStmt)
      (.seq (.seq (.seq hcond hm.derives) (of_kind hright)) h.derives)
    simpa using Matches.rule (n := .statement)
      (.left (.left (.left (.left (.left (.right hloop))))))
  | _, _, _, .ifThen hkey hleft hc hright h => by
    have hhead := Matches.seq (.seq (of_kind hkey) (of_kind hleft)) hc.expression
    have hif := Matches.rule (n := .ifStmt)
      (.seq (.seq (.seq hhead (of_kind hright)) h.derives) .absent)
    simpa using Matches.rule (n := .statement) (.left (.left (.left (.left (.right hif)))))
  | _, _, _, .ifElse hkey hleft hc hright h hother h' => by
    have hhead := Matches.seq (.seq (of_kind hkey) (of_kind hleft)) hc.expression
    have helse := Matches.present (.seq (of_kind hother) h'.derives)
    have hif := Matches.rule (n := .ifStmt)
      (.seq (.seq (.seq hhead (of_kind hright)) h.derives) helse)
    simpa using Matches.rule (n := .statement) (.left (.left (.left (.left (.right hif)))))

end

end Derives

end Lox
