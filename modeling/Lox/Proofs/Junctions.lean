import Lox.Proofs.Locality

/-!
# Reading on behind a text

A text that is read without errors is read in the same way if more declarations follow, and needs no
more depth for that (`parseWithin_append`). A rule that leaves tokens does not look at what comes
behind them (`Rule.Local`). One that takes all tokens of a text might, but only to see whether there
is an `else` (`Rule.Detached`): all other statements end with a token that has to be there
(`Rule.Closed`).
-/

namespace Lox

namespace Rule

variable {α β : Type}

/-- What is read without errors is read in the same way in front of tokens that do not begin with
`else`. -/
structure Detached (r : Rule α) : Prop where
  append : ∀ {eof : Token} {ts : List Token} {a : α} {rest : List Token},
    r eof ts = ⟨.done a, [], rest⟩ → ∀ (eof' : Token) (us : List Token), headKind us ≠ .elseKw →
      r eof' (ts ++ us) = ⟨.done a, [], rest ++ us⟩

/-- A rule that also has to take a token. -/
structure Closed (r : Rule α) : Prop extends Detached r where
  takes : ∀ eof a rest, r eof [] ≠ ⟨.done a, [], rest⟩

/-- Rules one after another are without errors if both are. -/
theorem of_bind_clean {r : Rule α} {f : α → Rule β} {eof : Token} {ts : List Token} {b : β}
    {rest : List Token} (h : (r >>= f) eof ts = ⟨.done b, [], rest⟩) :
    ∃ a mid, r eof ts = ⟨.done a, [], mid⟩ ∧ f a eof mid = ⟨.done b, [], rest⟩ := by
  rw [bind_eq, Rule.bind] at h
  generalize r eof ts = x at h
  obtain ⟨v, es, mid⟩ := x
  cases v with
  | done a =>
    dsimp only at h
    injection h with hv he hrest
    obtain ⟨rfl, hes⟩ := List.append_eq_nil_iff.1 he
    refine ⟨a, mid, rfl, ?_⟩
    rw [← hv, ← hes, ← hrest]
  | rejected => cases h
  | exhausted => cases h

theorem of_nest_done {d : Depth} {r : Depth → Rule α} {eof : Token} {ts : List Token} {a : α}
    {es : List StaticError} {rest : List Token} (h : nest d r eof ts = ⟨.done a, es, rest⟩) :
    ∃ e, r e eof ts = ⟨.done a, es, rest⟩ := by
  cases d with
  | unlimited => exact ⟨_, h⟩
  | levels k =>
    cases k with
    | zero => cases h
    | succ k => exact ⟨_, h⟩

namespace Detached

theorem pure (a : α) : Detached (Pure.pure a) where
  append h _ _ _ := by
    rw [pure_apply] at h ⊢
    cases h
    rfl

theorem acceptElse : Detached (accept .elseKw) where
  append {eof ts a rest} h eof' us hus := by
    cases ts with
    | nil =>
      rw [accept_of_not_kind (by simp)] at h
      cases h
      exact accept_of_not_kind hus
    | cons t ts =>
      rw [accept, takeIf] at h
      rw [List.cons_append, accept, takeIf]
      split at h
      case isTrue ht =>
        cases h
        rw [if_pos ht]
      case isFalse ht =>
        cases h
        rw [if_neg ht]
        rfl

theorem bind {r : Rule α} {f : α → Rule β} (hr : Detached r) (hf : ∀ a, Detached (f a)) :
    Detached (r >>= f) where
  append h eof' us hus := by
    obtain ⟨a, mid, hfirst, hsecond⟩ := of_bind_clean h
    rw [bind_clean (hr.append hfirst eof' us hus)]
    exact (hf a).append hsecond eof' us hus

end Detached

namespace Closed

theorem exhausted : Closed (exhausted : Rule α) where
  append h := by cases h
  takes _ _ _ h := by cases h

theorem expect_eq_clean {kind : Kind} (hkind : kind ≠ .eof) {c : Complaint} {eof t : Token}
    {ts rest : List Token} (h : Rule.expect kind c eof ts = ⟨.done t, [], rest⟩) :
    ts = t :: rest ∧ t.kind = kind := by
  by_cases hts : headKind ts = kind
  · cases ts with
    | nil => exact absurd hts.symm hkind
    | cons u us =>
      rw [expect_of_kind _ hts] at h
      cases h
      exact ⟨rfl, hts⟩
  · rw [Rule.expect, bind_clean (accept_of_not_kind hts)] at h
    cases h

theorem expect {kind : Kind} (hkind : kind ≠ .eof) (c : Complaint) : Closed (expect kind c) where
  append h eof' us _ := by
    obtain ⟨rfl, ht⟩ := expect_eq_clean hkind h
    exact expect_of_kind _ ht _ _
  takes eof a rest h := by
    obtain ⟨hts, -⟩ := expect_eq_clean hkind h
    cases hts

/-- Where a closed rule follows, the first rule cannot have come to the end. -/
theorem after {r : Rule α} {f : α → Rule β} (hr : Local r) (hf : ∀ a, Closed (f a)) :
    Closed (r >>= f) where
  append {eof ts b rest} h eof' us hus := by
    obtain ⟨a, mid, hfirst, hsecond⟩ := of_bind_clean h
    have hmid : mid ≠ [] := by
      rintro rfl
      exact (hf a).takes eof b rest hsecond
    have happend := hr.append eof eof' ts us
    rw [hfirst] at happend
    rw [bind_clean (happend hmid)]
    exact (hf a).append hsecond eof' us hus
  takes eof b rest h := by
    obtain ⟨a, mid, hfirst, hsecond⟩ := of_bind_clean h
    have hmid := hr.suffix eof []
    rw [hfirst, List.suffix_nil] at hmid
    subst hmid
    exact (hf a).takes eof b rest hsecond

theorem bind {r : Rule α} {f : α → Rule β} (hr : Closed r) (hf : ∀ a, Detached (f a)) :
    Closed (r >>= f) where
  toDetached := hr.toDetached.bind hf
  takes eof b rest h := by
    obtain ⟨a, mid, hfirst, -⟩ := of_bind_clean h
    exact hr.takes eof a mid hfirst

theorem map {r : Rule α} (g : α → β) (hr : Closed r) : Closed (g <$> r) :=
  hr.bind fun a => .pure (g a)

/-- A phrase that ends with a token of the given category. -/
theorem ending {r : Rule α} (hr : Local r) {kind : Kind} (hkind : kind ≠ .eof) (c : Complaint)
    (g : α → β) :
    Closed (do let a ← r; let _ ← Rule.expect kind c; Pure.pure (g a)) :=
  .after hr fun a => (expect hkind c).bind fun _ => .pure (g a)

theorem nest {d : Depth} {r : Depth → Rule α} (hr : ∀ e, Closed (r e)) : Closed (nest d r) := by
  cases d with
  | unlimited => exact hr _
  | levels k =>
    cases k with
    | zero => exact .exhausted
    | succ k => exact hr _

/-- Recovery leaves an error behind. -/
theorem recover_eq_clean {r : Rule α} (hl : Local r) {eof : Token} {ts : List Token} {o : Option α}
    {rest : List Token} (h : Rule.recover r eof ts = ⟨.done o, [], rest⟩) :
    ∃ a, o = some a ∧ r eof ts = ⟨.done a, [], rest⟩ := by
  have hcomplains := hl.complains eof ts
  rw [Rule.recover] at h
  generalize r eof ts = x at h hcomplains ⊢
  obtain ⟨v, es, mid⟩ := x
  cases v with
  | done a =>
    cases h
    exact ⟨a, rfl, rfl⟩
  | rejected =>
    injection h with _ he _
    subst he
    obtain ⟨c, hc⟩ := hcomplains rfl
    exact absurd hc List.not_mem_nil
  | exhausted => cases h

theorem recover {r : Rule α} (hl : Local r) (hr : Closed r) : Closed (recover r) where
  append h eof' us hus := by
    obtain ⟨a, rfl, hclean⟩ := recover_eq_clean hl h
    rw [Rule.recover, hr.append hclean eof' us hus]
  takes eof o rest h := by
    obtain ⟨a, -, hclean⟩ := recover_eq_clean hl h
    exact hr.takes eof a rest hclean

end Closed
end Rule

/-! ## The rules of the grammar -/

namespace Grammar

open Rule

section

variable (n : Nat) (d : Depth)

theorem local_expression : Local (expression n d) :=
  related_expression Local.compatible le_rfl (Depth.le_refl d)

theorem local_stmts : StmtsRelated (fun _ r _ => Local r) n n d d :=
  .of_le Local.compatible le_rfl (Depth.le_refl d)

theorem closed_expressionStatement : Closed (expressionStatement n d) :=
  .ending (local_expression n d) (by decide) _ _

theorem closed_printStatement : Closed (printStatement n d) :=
  .ending (local_expression n d) (by decide) _ _

theorem closed_returnStatement (keyword : Token) : Closed (returnStatement n d keyword) :=
  .ending (related_expressionUnless Local.compatible le_rfl (Depth.le_refl d) _) (by decide) _ _

theorem closed_varDeclaration : Closed (varDeclaration n d) := by
  unfold varDeclaration
  refine .after (Local.compatible.expect _ _) fun name => .after (Local.takeIf _) fun equal => ?_
  cases equal with
  | some _ =>
    exact .ending ((local_expression n d).bind fun e => Local.pure (some e)) (by decide) _ _
  | none => exact .ending (Local.pure none) (by decide) _ _

theorem closed_block : Closed (block n d) := by
  cases n with
  | zero => exact .exhausted
  | succ n =>
    rw [block]
    exact .nest fun e => .ending ((local_stmts n e).declarations true) (by decide) _ id

theorem closed_function (callee : Callee) : Closed (function n d callee) := by
  cases n with
  | zero => exact .exhausted
  | succ n =>
    rw [function]
    exact .nest fun e =>
      .after (Local.compatible.expect _ _) fun name => .after (Local.compatible.expect _ _) fun _ =>
      .after (related_parameterList Local.compatible le_rfl) fun params =>
      .after (Local.compatible.expect _ _) fun _ => .after (Local.compatible.expect _ _) fun _ =>
      (closed_block n e).bind fun body => .pure _

theorem closed_classDeclaration : Closed (classDeclaration n d) := by
  cases n with
  | zero => exact .exhausted
  | succ n =>
    rw [classDeclaration]
    exact .nest fun e =>
      .after (Local.compatible.expect _ _) fun name =>
          .after (related_superclass Local.compatible) fun parent =>
      .after (Local.compatible.expect _ _) fun _ =>
        .ending (local_stmts n e).methodList (by decide) _ _

end

theorem closed_forStatement {n : Nat} (h : ∀ d, Closed (statement n d)) (d : Depth) :
    Closed (forStatement (n + 1) d) := by
  rw [forStatement]
  exact .nest fun e =>
    .after (Local.compatible.expect _ _) fun _ =>
    .after (related_forInitializer Local.compatible le_rfl (Depth.le_refl e)) fun initializer =>
    .after (related_expressionUnless Local.compatible le_rfl (Depth.le_refl e) _) fun condition =>
    .after (Local.compatible.expect _ _) fun _ =>
    .after (related_expressionUnless Local.compatible le_rfl (Depth.le_refl e) _) fun increment =>
    .after (Local.compatible.expect _ _) fun _ => (h e).bind fun body => .pure _

theorem closed_whileStatement {n : Nat} (h : ∀ d, Closed (statement n d)) (d : Depth) :
    Closed (whileStatement (n + 1) d) := by
  rw [whileStatement]
  exact .nest fun e =>
    .after (Local.compatible.expect _ _) fun _ => .after (local_expression n e) fun condition =>
    .after (Local.compatible.expect _ _) fun _ => (h e).bind fun body => .pure _

/-- What follows the first branch is looked at, but only an `else` makes a difference. -/
theorem closed_ifStatement {n : Nat} (h : ∀ d, Closed (statement n d)) (d : Depth) :
    Closed (ifStatement (n + 1) d) := by
  rw [ifStatement]
  refine .nest fun e =>
    .after (Local.compatible.expect _ _) fun _ => .after (local_expression n e) fun condition =>
    .after (Local.compatible.expect _ _) fun _ => (h e).bind fun thenBranch =>
    Detached.acceptElse.bind fun other => ?_
  cases other with
  | some _ => exact ((h e).bind fun elseBranch => .pure _).toDetached
  | none => exact .pure _

/-- The statements that end with a statement are closed since that one is. -/
theorem closed_statement (n : Nat) : ∀ d, Closed (statement n d) ∧ Closed (forStatement n d) ∧
    Closed (ifStatement n d) ∧ Closed (whileStatement n d) := by
  induction n with
  | zero => exact fun _ => ⟨.exhausted, .exhausted, .exhausted, .exhausted⟩
  | succ n ih =>
    have hstatement : ∀ d, Closed (statement n d) := fun d => (ih d).1
    refine fun d => ⟨?_, closed_forStatement hstatement d, closed_ifStatement hstatement d,
      closed_whileStatement hstatement d⟩
    rw [statement]
    refine .nest fun e => .after Local.peek fun t => .after Local.peekKind fun kind => ?_
    split
    · exact .after Local.skip fun _ => (ih e).2.1
    · exact .after Local.skip fun _ => (ih e).2.2.1
    · exact .after Local.skip fun _ => closed_printStatement n e
    · exact .after Local.skip fun _ => closed_returnStatement n e t
    · exact .after Local.skip fun _ => (ih e).2.2.2
    · exact .after Local.skip fun _ => (closed_block n e).map _
    · exact closed_expressionStatement n e

theorem closed_attempt (n : Nat) (d : Depth) : Closed (attempt n d) := by
  unfold attempt
  refine .after Local.peekKind fun kind => ?_
  split
  · exact .after Local.skip fun _ => closed_classDeclaration n d
  · exact .after Local.skip fun _ => (closed_function n d _).map _
  · exact .after Local.skip fun _ => closed_varDeclaration n d
  · exact (closed_statement n d).1

theorem closed_declaration (n : Nat) (d : Depth) : Closed (declaration n d) := by
  cases n with
  | zero => exact .exhausted
  | succ n =>
    rw [declaration_eq]
    exact .nest fun e => .recover (attempt_local n e) (closed_attempt n e)

theorem declaration_used {n : Nat} {d : Depth} {eof : Token} {ts rest : List Token}
    {o : Option Stmt} (hne : ts ≠ []) (h : declaration n d eof ts = ⟨.done o, [], rest⟩) :
    rest.length < ts.length := by
  cases n with
  | zero => cases h
  | succ n =>
    rw [declaration_eq] at h
    obtain ⟨e, h⟩ := of_nest_done h
    obtain ⟨s, -, hattempt⟩ := Closed.recover_eq_clean (attempt_local n e) h
    exact attempt_used hne hattempt

/-- Declarations in front of others are read as they are without them. -/
theorem declarations_append {n n' m : Nat} {d : Depth} {eof eof' : Token} {ts us : List Token}
    {ss rs : List Stmt} (h : declarations n d false eof ts = ⟨.done ss, [], []⟩)
    (h' : declarations n' d false eof' us = ⟨.done rs, [], []⟩) (hus : headKind us ≠ .elseKw)
    (hm : n ≤ m)
    (hm' : ts.length + n' ≤ m) :
    declarations m d false eof' (ts ++ us) = ⟨.done (ss ++ rs), [], []⟩ := by
  -- Each declaration takes a step and a token.
  induction n generalizing ts ss m with
  | zero => cases h
  | succ n ih =>
    rw [declarations, peekKind_bind] at h
    split at h
    case isTrue hstop =>
      cases h
      exact declarations_more (by simpa using hm') (Depth.le_refl d) h'
    case isFalse hgo =>
      obtain ⟨first, mid, hfirst, hothers⟩ := of_bind_clean h
      obtain ⟨others, rest, hothers, hend⟩ := of_bind_clean hothers
      cases hend
      have hne : ts ≠ [] := by
        rintro rfl
        exact hgo rfl
      have hused := declaration_used hne hfirst
      obtain ⟨m, rfl⟩ : ∃ k, m = k + 1 := ⟨m - 1, by omega⟩
      have hrelated :=
        StmtsRelated.of_le Extends.compatible (Nat.le_of_succ_le_succ hm) (Depth.le_refl d)
      have hfirst := hrelated.declaration.done ((closed_declaration n d).append hfirst eof' us hus)
      have hothers := ih hothers (Nat.le_of_succ_le_succ hm) (by omega)
      rw [declarations, peekKind_bind, headKind_append hne, if_neg hgo, bind_clean hfirst,
        bind_clean hothers, pure_apply, List.append_assoc]

end Grammar

open Grammar Rule

/-- A text and another one behind it are read within a depth that is enough for both. -/
theorem parseWithin_append {k : Nat} {ts us : List Token} {eof eof' : Token} {ss rs : List Stmt}
    (hts : ∀ t ∈ ts, t.kind ≠ .eof) (hus : ∀ t ∈ us, t.kind ≠ .eof)
    (h : parseWithin k ts eof = .ok ⟨ss, []⟩) (h' : parseWithin k us eof' = .ok ⟨rs, []⟩) :
    parseWithin k (ts ++ us) eof' = .ok ⟨ss ++ rs, []⟩ := by
  have hboth : ∀ t ∈ ts ++ us, t.kind ≠ .eof :=
    fun t ht => (List.mem_append.1 ht).elim (hts t) (hus t)
  have helse : headKind us ≠ .elseKw := by
    rcases ((parse_derived hus eof' rs).2 (parseWithin_ok h').symm).begins with rfl | hbegins
    · exact fun hk => by cases hk
    · intro hk
      rw [hk] at hbegins
      cases hbegins
  obtain ⟨hread, -⟩ := readAll_of_parseWithin h
  obtain ⟨hread', -⟩ := readAll_of_parseWithin h'
  rw [readAll_eq, textOf_of_text hts] at hread
  rw [readAll_eq, textOf_of_text hus, stopOf_of_text hus] at hread'
  refine parseWithin_ok_iff.2 ⟨[], ?_⟩
  rw [readAll_eq, textOf_of_text hboth, stopOf_of_text hboth]
  have hsteps : stepsFor (ts ++ us) = 16 * (ts.length + us.length + 1) := by
    rw [stepsFor, List.length_append]
  refine declarations_append hread hread' helse ?_ ?_
  · rw [hsteps, stepsFor]
    omega
  · rw [hsteps, stepsFor]
    omega

end Lox
