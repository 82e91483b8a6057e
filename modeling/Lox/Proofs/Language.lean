import Lox.Proofs.Productions

/-!
# The language of the grammar

`Denotes a ts` reads a form as a set of texts, with derivations in place of nonterminals. Every
production is closed under this reading (`derivable_production`), so that what matches a form is
denoted by it. The one production that is not read literally is that of `if`: an `else` behind a
statement that ends in an `if` without `else` is moved into that statement (`Statement.attach`).
-/

namespace Lox

open Derives
open List (eq_of_mem_singleton)

def Derivable : Nonterminal → List Token → Prop
  | .program, ts => ∃ body eof ss, ts = body ++ [eof] ∧ eof.kind = .eof ∧ Declarations body ss
  | .declaration, ts | .classDecl, ts | .funDecl, ts => ∃ s, Declaration ts s
  | .function, ts => ∃ f, Function ts f
  | .parameters, ts => ∃ ps, Parameters ts ps ∧ ps.length ≤ maxArguments
  | .varDecl, ts => ∃ s, Variable ts s
  | .exprStmt, ts => ∃ s, Effect ts s
  | .statement, ts | .forStmt, ts | .ifStmt, ts | .printStmt, ts | .returnStmt, ts
  | .whileStmt, ts => ∃ b s, Statement b ts s
  | .block, ts => ∃ body, Block ts body
  | .expression, ts | .assignment, ts => ∃ e, Assignment ts e
  | .logicOr, ts => ∃ e, Operand (some .disjunction) ts e
  | .logicAnd, ts => ∃ e, Operand (some .conjunction) ts e
  | .equality, ts => ∃ e, Operand (some .equality) ts e
  | .comparison, ts => ∃ e, Operand (some .comparison) ts e
  | .term, ts => ∃ e, Operand (some .term) ts e
  | .factor, ts => ∃ e, Operand (some .factor) ts e
  | .unary, ts => ∃ e, Operand none ts e
  | .call, ts => ∃ e, Call ts e
  | .arguments, ts => ∃ es, Arguments ts es ∧ es.length ≤ maxArguments
  | .primary, ts => ∃ e, Primary ts e

def Ebnf.Denotes : Ebnf → List Token → Prop
  | .oneOf ks, ts => ∃ t, ts = [t] ∧ t.kind ∈ ks
  | .rule n, ts => Derivable n ts
  | .seq a b, ts => ∃ us vs, ts = us ++ vs ∧ a.Denotes us ∧ b.Denotes vs
  | .alt a b, ts => a.Denotes ts ∨ b.Denotes ts
  | .opt a, ts => ts = [] ∨ a.Denotes ts
  | .star a, ts => ∃ tss : List (List Token), ts = tss.flatten ∧ ∀ us ∈ tss, a.Denotes us
  | .upTo n a, ts => ∃ tss : List (List Token), tss.length ≤ n ∧ ts = tss.flatten ∧
      ∀ us ∈ tss, a.Denotes us

/-! ## Repetitions -/

theorem exists_declarations {tss : List (List Token)} (h : ∀ ts ∈ tss, ∃ s, Declaration ts s) :
    ∃ ss, Declarations tss.flatten ss := by
  induction tss with
  | nil => exact ⟨[], .nil⟩
  | cons ts tss ih =>
    obtain ⟨s, hs⟩ := h ts (by simp)
    obtain ⟨ss, hss⟩ := ih fun us hus => h us (by simp [hus])
    exact ⟨s :: ss, .cons hs hss⟩

theorem exists_methods {tss : List (List Token)} (h : ∀ ts ∈ tss, ∃ f, Function ts f) :
    ∃ fs, Methods tss.flatten fs := by
  induction tss with
  | nil => exact ⟨[], .nil⟩
  | cons ts tss ih =>
    obtain ⟨f, hf⟩ := h ts (by simp)
    obtain ⟨fs, hfs⟩ := ih fun us hus => h us (by simp [hus])
    exact ⟨f :: fs, .cons hf hfs⟩

/-- Operators of a level with their right operands extend an operand of that level. -/
theorem exists_operand {l : Level} {ts : List Token} {e : Expr} {tss : List (List Token)}
    (he : Operand (some l) ts e)
    (h : ∀ us ∈ tss, ∃ op rs f, us = op :: rs ∧ l.has op.kind ∧ Operand l.tighter rs f) :
    ∃ e, Operand (some l) (ts ++ tss.flatten) e := by
  induction tss generalizing ts e with
  | nil => exact ⟨e, by simpa using he⟩
  | cons us tss ih =>
    obtain ⟨op, rs, f, rfl, hop, hf⟩ := h us (by simp)
    obtain ⟨g, hg⟩ := ih (.binary he hop hf) fun us hus => h us (by simp [hus])
    exact ⟨g, by simpa using hg⟩

theorem exists_arguments {ts : List Token} {e : Expr} {tss : List (List Token)}
    (he : Assignment ts e)
    (h : ∀ us ∈ tss, ∃ comma rs f, us = comma :: rs ∧ comma.kind = .comma ∧ Assignment rs f) :
    ∃ f fs, Arguments (ts ++ tss.flatten) (f :: fs) ∧ fs.length = tss.length := by
  induction tss generalizing ts e with
  | nil => exact ⟨e, [], by simpa using Arguments.one he, rfl⟩
  | cons us tss ih =>
    obtain ⟨comma, rs, f, rfl, hc, hf⟩ := h us (by simp)
    obtain ⟨g, gs, hgs, hlen⟩ := ih hf fun us hus => h us (by simp [hus])
    exact ⟨e, g :: gs, by simpa using Arguments.more he hc hgs, by simp [hlen]⟩

theorem exists_parameters {name : Token} {tss : List (List Token)} (hname : name.kind = .identifier)
    (h : ∀ us ∈ tss, ∃ comma next : Token, us = [comma, next] ∧ comma.kind = .comma ∧
      next.kind = .identifier) :
    ∃ n ns, Parameters (name :: tss.flatten) (n :: ns) ∧ ns.length = tss.length := by
  induction tss generalizing name with
  | nil => exact ⟨name, [], .one hname, rfl⟩
  | cons us tss ih =>
    obtain ⟨comma, next, rfl, hc, hnext⟩ := h us (by simp)
    obtain ⟨n, ns, hns, hlen⟩ := ih hnext fun us hus => h us (by simp [hus])
    exact ⟨name, n :: ns, .more hname hc hns, by simp [hlen]⟩

/-- A call or a property, as what follows an expression. -/
def IsSuffix (us : List Token) : Prop :=
  (∃ left as right es, us = left :: (as ++ [right]) ∧ left.kind = .leftParen ∧ Arguments as es ∧
    es.length ≤ maxArguments ∧ right.kind = .rightParen) ∨
  ∃ dot name : Token, us = [dot, name] ∧ dot.kind = .dot ∧ name.kind = .identifier

theorem exists_call {ts : List Token} {e : Expr} {tss : List (List Token)} (he : Call ts e)
    (h : ∀ us ∈ tss, IsSuffix us) : ∃ e, Call (ts ++ tss.flatten) e := by
  induction tss generalizing ts e with
  | nil => exact ⟨e, by simpa using he⟩
  | cons us tss ih =>
    have hrest : ∀ us ∈ tss, IsSuffix us := fun us hus => h us (by simp [hus])
    rcases h us (by simp) with ⟨left, as, right, es, rfl, hl, has, hmax, hr⟩ | ⟨dot, name,
      rfl, hd, hk⟩
    · obtain ⟨f, hf⟩ := ih (.apply he hl has hmax hr) hrest
      exact ⟨f, by simpa using hf⟩
    · obtain ⟨f, hf⟩ := ih (.get he hd hk) hrest
      exact ⟨f, by simpa using hf⟩

/-! ## The nearest `if` -/

/-- An `else` with its statement goes to the last `if` without one. The induction is on the length,
since the statement is part of a mutual family. -/
theorem Derives.Statement.attach {other : Token} {c : Bool} {us : List Token} {t : Stmt}
    (hother : other.kind = .elseKw) (ht : Statement c us t) {n : Nat} {ts : List Token} {s : Stmt}
    (hn : ts.length ≤ n) (h : Statement true ts s) : ∃ d r, Statement d (ts ++ other :: us) r := by
  induction n generalizing ts s with
  | zero =>
    obtain rfl : ts = [] := List.length_eq_zero_iff.1 (by omega)
    exact absurd h.begins (by decide)
  | succ n ih =>
    cases h with
    | whileDo hkey hleft hc hright h =>
      simp only [List.length_cons, List.length_append] at hn
      obtain ⟨d, r, hr⟩ := ih (by omega) h
      exact ⟨d, _, by simpa using Statement.whileDo hkey hleft hc hright hr⟩
    | forDo hkey hleft hi hc hstop hm hright h =>
      simp only [List.length_cons, List.length_append] at hn
      obtain ⟨d, r, hr⟩ := ih (by omega) h
      exact ⟨d, _, by simpa using Statement.forDo hkey hleft hi hc hstop hm hright hr⟩
    | @ifThen b _ _ _ _ _ _ _ hkey hleft hc hright h =>
      simp only [List.length_cons, List.length_append] at hn
      cases b with
      | false => exact ⟨c, _, by simpa using Statement.ifElse hkey hleft hc hright h hother ht⟩
      | true =>
        obtain ⟨d, r, hr⟩ := ih (by omega) h
        exact ⟨true, _, by simpa using Statement.ifThen hkey hleft hc hright hr⟩
    | ifElse hkey hleft hc hright h hother' h' =>
      simp only [List.length_cons, List.length_append] at hn
      obtain ⟨d, r, hr⟩ := ih (by omega) h'
      exact ⟨d, _, by simpa using Statement.ifElse hkey hleft hc hright h hother' hr⟩

/-! ## Productions -/

theorem derivable_ofOperand (o : Option Level) (ts : List Token) :
    Derivable (.ofOperand o) ts ↔ ∃ e, Operand o ts e := by
  cases o with
  | none => rfl
  | some l => cases l <;> rfl

theorem derivable_level {l : Level} {ts : List Token}
    (h : (production (.ofOperand (some l))).Denotes ts) : Derivable (.ofOperand (some l)) ts := by
  rw [production_ofOperand] at h
  rw [derivable_ofOperand]
  obtain ⟨us, vs, rfl, hu, tss, rfl, h⟩ := h
  obtain ⟨e, he⟩ := (derivable_ofOperand _ _).1 hu
  refine exists_operand (.tighter he) fun us hus => ?_
  obtain ⟨ops, rs, rfl, ⟨op, rfl, hop⟩, hr⟩ := h us hus
  obtain ⟨f, hf⟩ := (derivable_ofOperand _ _).1 hr
  exact ⟨op, rs, f, rfl, (l.mem_operators op.kind).1 hop, hf⟩

theorem derivable_call {ts : List Token} (h : (production .call).Denotes ts) :
    Derivable .call ts := by
  obtain ⟨us, vs, rfl, ⟨e, he⟩, tss, rfl, h⟩ := h
  refine exists_call (.primary he) fun us hus => ?_
  rcases h us hus with
    ⟨_, _, rfl, ⟨_, as, rfl, ⟨left, rfl, hl⟩, hargs⟩, right, rfl, hr⟩ |
    ⟨_, _, rfl, ⟨dot, rfl, hd⟩, name, rfl, hk⟩
  · obtain ⟨es, has, hmax⟩ : ∃ es, Arguments as es ∧ es.length ≤ maxArguments := by
      rcases hargs with rfl | h
      · exact ⟨[], .none, by simp⟩
      · exact h
    exact .inl ⟨left, as, right, es, by simp, eq_of_mem_singleton hl, has, hmax,
      eq_of_mem_singleton hr⟩
  · exact .inr ⟨dot, name, rfl, eq_of_mem_singleton hd, eq_of_mem_singleton hk⟩

theorem derivable_arguments {ts : List Token} (h : (production .arguments).Denotes ts) :
    Derivable .arguments ts := by
  obtain ⟨us, vs, rfl, ⟨e, he⟩, tss, hlen, rfl, h⟩ := h
  have hmore : ∀ us ∈ tss, ∃ comma rs f, us = comma :: rs ∧ comma.kind = .comma ∧
      Assignment rs f := by
    intro us hus
    obtain ⟨_, rs, rfl, ⟨comma, rfl, hc⟩, g, hg⟩ := h us hus
    exact ⟨comma, rs, g, rfl, eq_of_mem_singleton hc, hg⟩
  obtain ⟨f, fs, hfs, hcount⟩ := exists_arguments he hmore
  exact ⟨f :: fs, hfs, by simp only [List.length_cons, maxArguments] at hlen ⊢; omega⟩

theorem derivable_parameters {ts : List Token} (h : (production .parameters).Denotes ts) :
    Derivable .parameters ts := by
  obtain ⟨us, vs, rfl, ⟨name, rfl, hname⟩, tss, hlen, rfl, h⟩ := h
  have hmore : ∀ us ∈ tss, ∃ comma next : Token, us = [comma, next] ∧ comma.kind = .comma ∧
      next.kind = .identifier := by
    intro us hus
    obtain ⟨_, _, rfl, ⟨comma, rfl, hc⟩, next, rfl, hk⟩ := h us hus
    exact ⟨comma, next, rfl, eq_of_mem_singleton hc, eq_of_mem_singleton hk⟩
  obtain ⟨n, ns, hns, hcount⟩ := exists_parameters (eq_of_mem_singleton hname) hmore
  exact ⟨n :: ns, hns, by simp only [List.length_cons, maxArguments] at hlen ⊢; omega⟩

theorem derivable_primary {ts : List Token} (h : (production .primary).Denotes ts) :
    Derivable .primary ts := by
  rcases h with
    (⟨t, rfl, ht⟩ | ⟨_, _, rfl, ⟨_, _, rfl, ⟨left, rfl, hl⟩, e, he⟩, right, rfl, hr⟩) |
    ⟨_, _, rfl, ⟨_, _, rfl, ⟨keyword, rfl, hk⟩, dot, rfl, hd⟩, method, rfl, hm⟩
  · simp only [List.mem_cons, List.not_mem_nil, or_false] at ht
    rcases ht with hk | hk | hk | hk | hk | hk | hk
    · exact ⟨_, .true hk⟩
    · exact ⟨_, .false hk⟩
    · exact ⟨_, .nil hk⟩
    · exact ⟨_, .this hk⟩
    · exact ⟨_, .constant (.inl hk)⟩
    · exact ⟨_, .constant (.inr hk)⟩
    · exact ⟨_, .variable hk⟩
  · exact ⟨_, .group (eq_of_mem_singleton hl) he (eq_of_mem_singleton hr)⟩
  · exact ⟨_, .super (eq_of_mem_singleton hk) (eq_of_mem_singleton hd) (eq_of_mem_singleton hm)⟩

theorem derivable_assignment {ts : List Token} (h : (production .assignment).Denotes ts) :
    Derivable .assignment ts := by
  rcases h with
    ⟨_, _, rfl, ⟨_, _, rfl, ⟨_, _, rfl, htarget, name, rfl, hk⟩, equal, rfl, hequal⟩, e, he⟩ |
    ⟨e, he⟩
  · have hk := eq_of_mem_singleton hk
    have hequal := eq_of_mem_singleton hequal
    rcases htarget with rfl | ⟨_, _, rfl, ⟨o, ho⟩, dot, rfl, hd⟩
    · exact ⟨_, .variable hk hequal he⟩
    · exact ⟨_, by simpa using Assignment.property ho (eq_of_mem_singleton hd) hk hequal he⟩
  · exact ⟨e, .value he⟩

theorem derivable_unary {ts : List Token} (h : (production .unary).Denotes ts) :
    Derivable .unary ts := by
  rcases h with ⟨_, _, rfl, ⟨op, rfl, hop⟩, e, he⟩ | ⟨e, he⟩
  · refine ⟨_, .unary ?_ he⟩
    simp only [List.mem_cons, List.not_mem_nil, or_false] at hop
    rcases hop with hop | hop <;> rw [hop] <;> rfl
  · exact ⟨e, .call he⟩

theorem exists_optionalExpression {ts : List Token}
    (h : (Ebnf.opt (.rule .expression)).Denotes ts) :
    ∃ o, OptionalExpression ts o := by
  rcases h with rfl | ⟨e, he⟩
  · exact ⟨none, .none⟩
  · exact ⟨some e, .some he⟩

theorem derivable_varDecl {ts : List Token} (h : (production .varDecl).Denotes ts) :
    Derivable .varDecl ts := by
  obtain ⟨_, _, rfl, ⟨_, _, rfl, ⟨_, _, rfl, ⟨keyword, rfl, hkey⟩, name, rfl, hk⟩, hvalue⟩,
    stop, rfl, hstop⟩ := h
  have hkey := eq_of_mem_singleton hkey
  have hk := eq_of_mem_singleton hk
  have hstop := eq_of_mem_singleton hstop
  rcases hvalue with rfl | ⟨_, _, rfl, ⟨equal, rfl, hequal⟩, e, he⟩
  · exact ⟨_, .plain hkey hk hstop⟩
  · exact ⟨_, .initialized hkey hk (eq_of_mem_singleton hequal) he hstop⟩

theorem derivable_forStmt {ts : List Token} (h : (production .forStmt).Denotes ts) :
    Derivable .forStmt ts := by
  obtain ⟨_, _, rfl, ⟨_, _, rfl, ⟨_, _, rfl, ⟨_, _, rfl, ⟨_, _, rfl, ⟨_, is, rfl, ⟨_, _, rfl,
    ⟨keyword, rfl, hkey⟩, left, rfl, hleft⟩, hi⟩, hc⟩, stop, rfl, hstop⟩, hm⟩, right, rfl, hright⟩,
    b, s, hs⟩ := h
  obtain ⟨i, hi⟩ : ∃ i, Initializer is i := by
    rcases hi with (⟨s, hs⟩ | ⟨s, hs⟩) | ⟨t, rfl, ht⟩
    · exact ⟨some s, .variable hs⟩
    · exact ⟨some s, .effect hs⟩
    · exact ⟨none, .none (eq_of_mem_singleton ht)⟩
  obtain ⟨c, hc⟩ := exists_optionalExpression hc
  obtain ⟨m, hm⟩ := exists_optionalExpression hm
  have hloop := Statement.forDo (eq_of_mem_singleton hkey) (eq_of_mem_singleton hleft) hi hc
    (eq_of_mem_singleton hstop) hm (eq_of_mem_singleton hright) hs
  exact ⟨b, _, by simpa using hloop⟩

theorem derivable_ifStmt {ts : List Token} (h : (production .ifStmt).Denotes ts) :
    Derivable .ifStmt ts := by
  obtain ⟨_, _, rfl, ⟨_, us, rfl, ⟨_, _, rfl, ⟨_, _, rfl, ⟨_, _, rfl, ⟨keyword, rfl, hkey⟩,
    left, rfl, hleft⟩, c, hc⟩, right, rfl, hright⟩, b, s, hs⟩, helse⟩ := h
  have hkey := eq_of_mem_singleton hkey
  have hleft := eq_of_mem_singleton hleft
  have hright := eq_of_mem_singleton hright
  rcases helse with rfl | ⟨_, vs, rfl, ⟨other, rfl, hother⟩, b', t, ht⟩
  · exact ⟨true, _, by simpa using Statement.ifThen hkey hleft hc hright hs⟩
  · have hother := eq_of_mem_singleton hother
    cases b with
    | false => exact ⟨b', _, by simpa using Statement.ifElse hkey hleft hc hright hs hother ht⟩
    | true =>
      obtain ⟨d, r, hr⟩ := Statement.attach hother ht (Nat.le_refl _) hs
      exact ⟨true, _, by simpa using Statement.ifThen hkey hleft hc hright hr⟩

theorem derivable_classDecl {ts : List Token} (h : (production .classDecl).Denotes ts) :
    Derivable .classDecl ts := by
  obtain ⟨_, _, rfl, ⟨_, _, rfl, ⟨_, _, rfl, ⟨_, ss, rfl, ⟨_, _, rfl, ⟨keyword, rfl, hkey⟩,
    name, rfl, hname⟩, hparent⟩, left, rfl, hleft⟩, tss, rfl, hms⟩, right, rfl, hright⟩ := h
  obtain ⟨parent, hparent⟩ : ∃ parent, Superclass ss parent := by
    rcases hparent with rfl | ⟨_, _, rfl, ⟨less, rfl, hless⟩, super, rfl, hk⟩
    · exact ⟨none, .none⟩
    · exact ⟨some super, .some (eq_of_mem_singleton hless) (eq_of_mem_singleton hk)⟩
  obtain ⟨methods, hms⟩ := exists_methods hms
  have hclass := Declaration.cls (eq_of_mem_singleton hkey) (eq_of_mem_singleton hname) hparent
    (eq_of_mem_singleton hleft) hms (eq_of_mem_singleton hright)
  exact ⟨_, by simpa using hclass⟩

theorem derivable_function {ts : List Token} (h : (production .function).Denotes ts) :
    Derivable .function ts := by
  obtain ⟨_, _, rfl, ⟨_, _, rfl, ⟨_, ps, rfl, ⟨_, _, rfl, ⟨name, rfl, hname⟩, left, rfl, hleft⟩,
    hparams⟩, right, rfl, hright⟩, body, hbody⟩ := h
  obtain ⟨params, hparams, hmax⟩ : ∃ params, Parameters ps params ∧
      params.length ≤ maxArguments := by
    rcases hparams with rfl | h
    · exact ⟨[], .none, by simp⟩
    · exact h
  have hfun := Function.mk (eq_of_mem_singleton hname) (eq_of_mem_singleton hleft) hparams hmax
    (eq_of_mem_singleton hright) hbody
  exact ⟨_, by simpa using hfun⟩

theorem derivable_whileStmt {ts : List Token} (h : (production .whileStmt).Denotes ts) :
    Derivable .whileStmt ts := by
  obtain ⟨_, _, rfl, ⟨_, _, rfl, ⟨_, _, rfl, ⟨_, _, rfl, ⟨keyword, rfl, hkey⟩, left, rfl, hleft⟩,
    c, hc⟩, right, rfl, hright⟩, b, s, hs⟩ := h
  have hloop := Statement.whileDo (eq_of_mem_singleton hkey) (eq_of_mem_singleton hleft) hc
    (eq_of_mem_singleton hright) hs
  exact ⟨b, _, by simpa using hloop⟩

theorem derivable_statement {ts : List Token} (h : (production .statement).Denotes ts) :
    Derivable .statement ts := by
  rcases h with (((((⟨s, hs⟩ | h) | h) | h) | h) | h) | ⟨body, hbody⟩
  · exact ⟨false, s, .effect hs⟩
  · exact h
  · exact h
  · exact h
  · exact h
  · exact h
  · exact ⟨false, _, .block hbody⟩

/-- Every production yields derivations. -/
theorem derivable_production {n : Nonterminal} {ts : List Token} (h : (production n).Denotes ts) :
    Derivable n ts := by
  cases n with
  | program =>
    obtain ⟨_, _, rfl, ⟨tss, rfl, h⟩, eof, rfl, heof⟩ := h
    obtain ⟨ss, hss⟩ := exists_declarations h
    exact ⟨_, eof, ss, rfl, eq_of_mem_singleton heof, hss⟩
  | declaration =>
    rcases h with ((h | h) | ⟨s, hs⟩) | ⟨b, s, hs⟩
    · exact h
    · exact h
    · exact ⟨s, .variable hs⟩
    · exact ⟨s, .statement hs⟩
  | classDecl => exact derivable_classDecl h
  | funDecl =>
    obtain ⟨_, _, rfl, ⟨keyword, rfl, hkey⟩, f, hf⟩ := h
    exact ⟨_, .function (eq_of_mem_singleton hkey) hf⟩
  | function => exact derivable_function h
  | parameters => exact derivable_parameters h
  | varDecl => exact derivable_varDecl h
  | statement => exact derivable_statement h
  | exprStmt =>
    obtain ⟨_, _, rfl, ⟨e, he⟩, stop, rfl, hstop⟩ := h
    exact ⟨_, .mk he (eq_of_mem_singleton hstop)⟩
  | forStmt => exact derivable_forStmt h
  | ifStmt => exact derivable_ifStmt h
  | printStmt =>
    obtain ⟨_, _, rfl, ⟨_, _, rfl, ⟨keyword, rfl, hkey⟩, e, he⟩, stop, rfl, hstop⟩ := h
    exact ⟨false, _, .print (eq_of_mem_singleton hkey) he (eq_of_mem_singleton hstop)⟩
  | returnStmt =>
    obtain ⟨_, _, rfl, ⟨_, _, rfl, ⟨keyword, rfl, hkey⟩, ho⟩, stop, rfl, hstop⟩ := h
    obtain ⟨o, ho⟩ := exists_optionalExpression ho
    exact ⟨false, _, .ret (eq_of_mem_singleton hkey) ho (eq_of_mem_singleton hstop)⟩
  | whileStmt => exact derivable_whileStmt h
  | block =>
    obtain ⟨_, _, rfl, ⟨_, _, rfl, ⟨left, rfl, hleft⟩, tss, rfl, h⟩, right, rfl, hright⟩ := h
    obtain ⟨body, hbody⟩ := exists_declarations h
    exact ⟨body, .mk (eq_of_mem_singleton hleft) hbody (eq_of_mem_singleton hright)⟩
  | expression => exact h
  | assignment => exact derivable_assignment h
  | logicOr => exact derivable_level (l := .disjunction) h
  | logicAnd => exact derivable_level (l := .conjunction) h
  | equality => exact derivable_level (l := .equality) h
  | comparison => exact derivable_level (l := .comparison) h
  | term => exact derivable_level (l := .term) h
  | factor => exact derivable_level (l := .factor) h
  | unary => exact derivable_unary h
  | call => exact derivable_call h
  | arguments => exact derivable_arguments h
  | primary => exact derivable_primary h

theorem Matches.denotes {a : Ebnf} {ks : List Kind} (h : Matches a ks) {ts : List Token}
    (hts : ts.map Token.kind = ks) : a.Denotes ts := by
  induction h generalizing ts with
  | oneOf hk =>
    obtain ⟨t, rfl, ht⟩ := List.map_eq_singleton_iff.1 hts
    exact ⟨t, rfl, ht ▸ hk⟩
  | rule _ ih => exact derivable_production (ih hts)
  | seq _ _ iha ihb =>
    obtain ⟨us, vs, rfl, hu, hv⟩ := List.map_eq_append_iff.1 hts
    exact ⟨us, vs, rfl, iha hu, ihb hv⟩
  | left _ ih => exact .inl (ih hts)
  | right _ ih => exact .inr (ih hts)
  | absent => exact .inl (List.map_eq_nil_iff.1 hts)
  | present _ ih => exact .inr (ih hts)
  | none => exact ⟨[], List.map_eq_nil_iff.1 hts, by simp⟩
  | more _ _ iha ihb =>
    obtain ⟨us, vs, rfl, hu, hv⟩ := List.map_eq_append_iff.1 hts
    obtain ⟨tss, rfl, h⟩ := ihb hv
    exact ⟨us :: tss, rfl, List.forall_mem_cons.2 ⟨iha hu, h⟩⟩
  | stop => exact ⟨[], Nat.zero_le _, List.map_eq_nil_iff.1 hts, by simp⟩
  | next _ _ iha ihb =>
    obtain ⟨us, vs, rfl, hu, hv⟩ := List.map_eq_append_iff.1 hts
    obtain ⟨tss, hlen, rfl, h⟩ := ihb hv
    exact ⟨us :: tss, Nat.succ_le_succ hlen, rfl, List.forall_mem_cons.2 ⟨iha hu, h⟩⟩

/-- The productions and the derivations have the same language. -/
theorem matches_program_iff {tokens : List Token} {eof : Token} (heof : eof.kind = .eof) :
    Matches (.rule .program) ((tokens ++ [eof]).map Token.kind) ↔ ∃ ss, Declarations tokens ss := by
  constructor
  · intro h
    obtain ⟨body, stop, ss, hbody, -, hss⟩ := h.denotes rfl
    obtain ⟨rfl, -⟩ := List.append_inj' hbody rfl
    exact ⟨ss, hss⟩
  · rintro ⟨ss, hss⟩
    simpa using Matches.rule (n := .program) (.seq hss.derives (.of_kind heof))

/-- **The parser accepts the language of the grammar and builds the tree of the derivation.** -/
theorem parse_grammar {tokens : List Token} {eof : Token} (htokens : ∀ t ∈ tokens, t.kind ≠ .eof)
    (heof : eof.kind = .eof) :
    ((parse tokens eof).errors = [] ↔
      Matches (.rule .program) ((tokens ++ [eof]).map Token.kind)) ∧
    ((parse tokens eof).errors = [] →
      ∀ ss, Declarations tokens ss ↔ ss = (parse tokens eof).statements) := by
  have hiff := parse_derived htokens eof
  have hparse : (parse tokens eof).errors = [] →
      parse tokens eof = ⟨(parse tokens eof).statements, []⟩ := fun h => by rw [← h]
  refine ⟨?_, fun h ss => ?_⟩
  · rw [matches_program_iff heof]
    constructor
    · intro h
      exact ⟨_, (hiff _).2 (hparse h)⟩
    · rintro ⟨ss, hss⟩
      rw [(hiff ss).1 hss]
  · rw [hiff ss, hparse h]
    simp [eq_comm]

/-- The tokens of `if (a) if (b) c; else d.e = -f;` -/
def danglingElse : List Token :=
  [⟨.ifKw, "if", 1, 0⟩, ⟨.leftParen, "(", 1, 1⟩, ⟨.identifier, "a", 1, 2⟩, ⟨.rightParen, ")", 1, 3⟩,
    ⟨.ifKw, "if", 1, 4⟩, ⟨.leftParen, "(", 1, 5⟩, ⟨.identifier, "b", 1, 6⟩,
      ⟨.rightParen, ")", 1, 7⟩,
    ⟨.identifier, "c", 1, 8⟩, ⟨.semicolon, ";", 1, 9⟩, ⟨.elseKw, "else", 1, 10⟩,
    ⟨.identifier, "d", 1, 11⟩, ⟨.dot, ".", 1, 12⟩, ⟨.identifier, "e", 1, 13⟩, ⟨.equal, "=", 1, 14⟩,
    ⟨.minus, "-", 1, 15⟩, ⟨.identifier, "f", 1, 16⟩, ⟨.semicolon, ";", 1, 17⟩]

/-- The `else` goes to the second `if`. -/
theorem parse_grammar_danglingElse :
    ((∀ t ∈ danglingElse, t.kind ≠ .eof) ∧ (⟨.eof, "", 1, 18⟩ : Token).kind = .eof) ∧
    Matches (.rule .program) ((danglingElse ++ [(⟨.eof, "", 1, 18⟩ : Token)]).map Token.kind) ∧
    Declarations danglingElse
      [.ifElse (.var ⟨.identifier, "a", 1, 2⟩)
        (.ifElse (.var ⟨.identifier, "b", 1, 6⟩) (.expr (.var ⟨.identifier, "c", 1, 8⟩))
          (some (.expr (.set (.var ⟨.identifier, "d", 1, 11⟩) ⟨.identifier, "e", 1, 13⟩
            (.unary ⟨.minus, "-", 1, 15⟩ (.var ⟨.identifier, "f", 1, 16⟩))))))
        none] := by
  have htokens : ∀ t ∈ danglingElse, t.kind ≠ .eof := by decide
  have hgrammar := @parse_grammar danglingElse ⟨.eof, "", 1, 18⟩ htokens rfl
  exact ⟨⟨htokens, rfl⟩, hgrammar.1.1 rfl, (hgrammar.2 rfl _).2 rfl⟩

end Lox
