import Lox.Proofs.Composition
import Lox.Proofs.SentenceAcceptance

/-!
# What a rule depends on

A rule that is not exhausted does the same with more steps and more depth (`Extends`). A rule goes
forward only; as long as it does not come to the end of its tokens, it does the same whatever
follows them; and if it is rejected, it has complained about the token in front of it (`Local`).
Both hold of all rules of the grammar. `declarations_eq_parse` says that the steps of `parse` are of
no account, and `parseWithin_ok` that a text which is read to some depth is read as it is without a
limit.
-/

namespace Lox

/-- The same reading in front of further tokens. -/
def Reading.append {α : Type} (x : Reading α) (us : List Token) : Reading α :=
  ⟨x.verdict, x.errors, x.rest ++ us⟩

namespace Rule

variable {α β : Type}

/-! ## Steps and depth -/

/-- The second rule does what the first one does, unless the first one is exhausted. -/
def Extends (r r' : Rule α) : Prop :=
  ∀ (eof : Token) (ts : List Token), (r eof ts).verdict = .exhausted ∨ r eof ts = r' eof ts

theorem bind_exhausted {r : Rule α} {eof : Token} {ts : List Token}
    (h : (r eof ts).verdict = .exhausted) (f : α → Rule β) :
    ((r >>= f) eof ts).verdict = .exhausted := by
  rw [bind_eq, Rule.bind]
  generalize r eof ts = x at h ⊢
  obtain ⟨v, es, rest⟩ := x
  obtain rfl : v = .exhausted := h
  rfl

theorem recover_exhausted {r : Rule α} {eof : Token} {ts : List Token}
    (h : (r eof ts).verdict = .exhausted) :
    (recover r eof ts).verdict = .exhausted := by
  rw [recover]
  generalize r eof ts = x at h ⊢
  obtain ⟨v, es, rest⟩ := x
  obtain rfl : v = .exhausted := h
  rfl

namespace Extends

theorem refl (r : Rule α) : Extends r r := fun _ _ => .inr rfl

theorem bind {r r' : Rule α} {f g : α → Rule β} (hr : Extends r r')
    (hf : ∀ a, Extends (f a) (g a)) :
    Extends (r >>= f) (r' >>= g) := by
  intro eof ts
  rcases hr eof ts with hx | heq
  · exact .inl (bind_exhausted hx f)
  · rw [bind_eq, bind_eq, Rule.bind, Rule.bind, heq]
    obtain ⟨v, es, rest⟩ := r' eof ts
    cases v with
    | done a =>
      rcases hf a eof rest with hx | heq
      · exact .inl hx
      · refine .inr ?_
        dsimp only
        rw [heq]
    | rejected => exact .inr rfl
    | exhausted => exact .inr rfl

theorem recover {r r' : Rule α} (hr : Extends r r') : Extends (recover r) (recover r') := by
  intro eof ts
  rcases hr eof ts with hx | heq
  · exact .inl (recover_exhausted hx)
  · exact .inr (by rw [Rule.recover, Rule.recover, heq])

theorem done {r r' : Rule α} (h : Extends r r') {eof : Token} {ts rest : List Token} {a : α}
    {es : List StaticError} (hr : r eof ts = ⟨.done a, es, rest⟩) :
    r' eof ts = ⟨.done a, es, rest⟩ := by
  rcases h eof ts with hx | heq
  · rw [hr] at hx
    cases hx
  · rw [← heq, hr]

theorem compatible : Compatible fun _ r r' => Extends r r' where
  pure _ := refl _
  exhausted _ := fun _ _ => .inl rfl
  peek := refl _
  peekKind h := (refl Rule.peekKind).bind h
  skip := refl _
  takeIf _ := refl _
  note _ _ := refl _
  reject _ := refl _
  recover h := h.recover
  bind hr hf := hr.bind hf
  weaken h := h

end Extends

/-! ## Tokens -/

/-- What can be seen of a rule from the tokens that it leaves. -/
structure Local (r : Rule α) : Prop where
  suffix : ∀ eof ts, (r eof ts).rest <:+ ts
  append : ∀ eof eof' ts us, (r eof ts).rest ≠ [] → r eof' (ts ++ us) = (r eof ts).append us
  complains : ∀ eof ts, (r eof ts).verdict = .rejected →
    ∃ c, StaticError.atToken ((r eof ts).rest.head?.getD eof) c ∈ (r eof ts).errors

namespace Local

theorem ne_nil_of_suffix {ts us : List Token} (h : ts <:+ us) (hts : ts ≠ []) : us ≠ [] := by
  rintro rfl
  exact hts (List.suffix_nil.1 h)

/-- A rule that leaves its tokens alone. -/
theorem of_unmoved {r : Rule α} (hrest : ∀ eof ts, (r eof ts).rest = ts)
    (happend : ∀ eof eof' ts us, ts ≠ [] → r eof' (ts ++ us) = (r eof ts).append us)
    (hdone : ∀ eof ts, (r eof ts).verdict ≠ .rejected) : Local r where
  suffix eof ts := ⟨[], hrest eof ts⟩
  append eof eof' ts us h := happend eof eof' ts us (by rwa [hrest] at h)
  complains eof ts h := absurd h (hdone eof ts)

theorem pure (a : α) : Local (Pure.pure a) :=
  of_unmoved (fun _ _ => rfl) (fun _ _ _ _ _ => rfl) (fun _ _ h => by cases h)

theorem exhausted : Local (exhausted : Rule α) :=
  of_unmoved (fun _ _ => rfl) (fun _ _ _ _ _ => rfl) (fun _ _ h => by cases h)

theorem note (t : Token) (c : Complaint) : Local (note t c) :=
  of_unmoved (fun _ _ => rfl) (fun _ _ _ _ _ => rfl) (fun _ _ h => by cases h)

theorem peek : Local peek := by
  refine of_unmoved (fun _ _ => rfl) (fun eof eof' ts us hts => ?_) (fun _ _ h => by cases h)
  cases ts with
  | nil => exact absurd rfl hts
  | cons t ts => rfl

theorem peekKind : Local peekKind := by
  refine of_unmoved (fun _ _ => rfl) (fun eof eof' ts us hts => ?_) (fun _ _ h => by cases h)
  cases ts with
  | nil => exact absurd rfl hts
  | cons t ts => rfl

theorem reject (c : Complaint) : Local (reject c : Rule α) where
  suffix _ _ := List.suffix_rfl
  append eof eof' ts us h := by
    cases ts with
    | nil => exact absurd rfl h
    | cons t ts => rfl
  complains _ _ _ := ⟨c, List.mem_singleton.2 rfl⟩

theorem skip : Local skip where
  suffix _ ts := List.tail_suffix ts
  append eof eof' ts us h := by
    cases ts with
    | nil => exact absurd rfl h
    | cons t ts => rfl
  complains _ _ h := by cases h

theorem takeIf (test : Kind → Bool) : Local (takeIf test) := by
  have hcases : ∀ eof ts, Rule.takeIf test eof ts = ⟨.done none, [], ts⟩ ∨
      ∃ t rest, ts = t :: rest ∧ Rule.takeIf test eof ts = ⟨.done (some t), [], rest⟩ := by
    intro eof ts
    cases ts with
    | nil => exact .inl rfl
    | cons t rest =>
      by_cases ht : test t.kind
      · exact .inr ⟨t, rest, rfl, takeIf_of_mem ht eof rest⟩
      · exact .inl (takeIf_of_not_mem (by simpa using ht))
  constructor
  · intro eof ts
    rcases hcases eof ts with h | ⟨t, rest, rfl, h⟩
    · exact ⟨[], congrArg Reading.rest h⟩
    · exact ⟨[t], congrArg (t :: Reading.rest ·) h⟩
  · intro eof eof' ts us h
    cases ts with
    | nil => exact absurd rfl h
    | cons t ts =>
      rw [List.cons_append, Rule.takeIf, Rule.takeIf]
      split <;> rfl
  · intro eof ts h
    rcases hcases eof ts with h' | ⟨t, rest, rfl, h'⟩ <;> rw [h'] at h <;> cases h

theorem bind {r : Rule α} {f : α → Rule β} (hr : Local r) (hf : ∀ a, Local (f a)) :
    Local (r >>= f) where
  suffix eof ts := by
    have hfirst := hr.suffix eof ts
    rw [bind_eq, Rule.bind]
    generalize r eof ts = x at hfirst ⊢
    obtain ⟨v, es, rest⟩ := x
    cases v with
    | done a => exact ((hf a).suffix eof rest).trans hfirst
    | rejected => exact hfirst
    | exhausted => exact hfirst
  append eof eof' ts us := by
    have hfirst := hr.append eof eof' ts us
    rw [bind_eq, bind_eq, Rule.bind, Rule.bind]
    generalize r eof ts = x at hfirst ⊢
    obtain ⟨v, es, rest⟩ := x
    intro hne
    cases v with
    | done a =>
      have hrest := ne_nil_of_suffix ((hf a).suffix eof rest) hne
      rw [hfirst hrest]
      dsimp only [Reading.append]
      rw [(hf a).append eof eof' rest us hne]
      rfl
    | rejected =>
      rw [hfirst hne]
      rfl
    | exhausted =>
      rw [hfirst hne]
      rfl
  complains eof ts := by
    have hfirst := hr.complains eof ts
    rw [bind_eq, Rule.bind]
    generalize r eof ts = x at hfirst ⊢
    obtain ⟨v, es, rest⟩ := x
    intro h
    cases v with
    | done a =>
      obtain ⟨c, hc⟩ := (hf a).complains eof rest h
      exact ⟨c, List.mem_append_right es hc⟩
    | rejected => exact hfirst rfl
    | exhausted => cases h

theorem skipToBoundary_append (last : Token) {ts : List Token} (us : List Token)
    (h : skipToBoundary last ts ≠ []) :
    skipToBoundary last (ts ++ us) = skipToBoundary last ts ++ us := by
  induction ts generalizing last with
  | nil => exact absurd rfl h
  | cons t ts ih =>
    rw [skipToBoundary] at h
    rw [List.cons_append, skipToBoundary, skipToBoundary]
    split
    · rfl
    · rename_i hgo
      rw [if_neg hgo] at h
      exact ih t h

theorem recover {r : Rule α} (hr : Local r) : Local (recover r) where
  suffix eof ts := by
    have hfirst := hr.suffix eof ts
    rw [Rule.recover]
    generalize r eof ts = x at hfirst ⊢
    obtain ⟨v, es, rest⟩ := x
    cases v with
    | done a => exact hfirst
    | rejected =>
      obtain ⟨used, hused, -⟩ := synchronize_used rest
      exact List.IsSuffix.trans ⟨used, hused.symm⟩ hfirst
    | exhausted => exact hfirst
  append eof eof' ts us := by
    have hfirst := hr.append eof eof' ts us
    rw [Rule.recover, Rule.recover]
    generalize r eof ts = x at hfirst ⊢
    obtain ⟨v, es, rest⟩ := x
    intro hne
    cases v with
    | done a =>
      rw [hfirst hne]
      rfl
    | rejected =>
      cases rest with
      | nil => exact absurd rfl hne
      | cons t rest =>
        rw [hfirst (List.cons_ne_nil t rest)]
        exact congrArg (Reading.mk _ es) (skipToBoundary_append t us hne)
    | exhausted =>
      rw [hfirst hne]
      rfl
  complains eof ts := by
    rw [Rule.recover]
    obtain ⟨v, es, rest⟩ := r eof ts
    intro h
    cases v <;> cases h

theorem compatible : Compatible fun _ r _ => Local r where
  pure := Local.pure
  exhausted _ := Local.exhausted
  peek := Local.peek
  peekKind h := Local.peekKind.bind h
  skip := Local.skip
  takeIf := Local.takeIf
  note := Local.note
  reject := Local.reject
  recover h := h.recover
  bind hr hf := hr.bind hf
  weaken h := h

end Local
end Rule

/-! ## Whole texts -/

namespace Grammar

open Rule

theorem recover_not_rejected {α : Type} (r : Rule α) (eof : Token) (ts : List Token) :
    (recover r eof ts).verdict ≠ .rejected := by
  rw [recover]
  split <;> exact fun h => by cases h

theorem bind_not_rejected {α β : Type} {r : Rule α} {f : α → Rule β} {eof : Token} {ts : List Token}
    (hr : (r eof ts).verdict ≠ .rejected) (hf : ∀ a rest, (f a eof rest).verdict ≠ .rejected) :
    ((r >>= f) eof ts).verdict ≠ .rejected := by
  rw [bind_eq, Rule.bind]
  generalize r eof ts = x at hr ⊢
  obtain ⟨v, es, rest⟩ := x
  cases v with
  | done a => exact hf a rest
  | rejected => exact absurd rfl hr
  | exhausted => exact fun h => by cases h

theorem nest_not_rejected {α : Type} {d : Depth} {r : Depth → Rule α} {eof : Token}
    {ts : List Token} (h : ∀ e, (r e eof ts).verdict ≠ .rejected) :
    (nest d r eof ts).verdict ≠ .rejected := by
  cases d with
  | unlimited => exact h _
  | levels k =>
    cases k with
    | zero => exact fun h => by cases h
    | succ k => exact h _

/-- A declaration recovers, so that a list of declarations is never rejected. -/
theorem declarations_not_rejected (n : Nat) (d : Depth) (inBlock : Bool) (eof : Token)
    (ts : List Token) : (declarations n d inBlock eof ts).verdict ≠ .rejected := by
  induction n generalizing ts with
  | zero => exact fun h => by cases h
  | succ n ih =>
    rw [declarations, peekKind_bind]
    split
    · exact fun h => by cases h
    · have hfirst : (declaration n d eof ts).verdict ≠ .rejected := by
        cases n with
        | zero => exact fun h => by cases h
        | succ n =>
          rw [declaration_eq]
          exact nest_not_rejected fun e => recover_not_rejected (attempt n e) eof ts
      exact bind_not_rejected hfirst fun first rest =>
        bind_not_rejected (ih rest) fun others _ h => by cases h

/-- With enough steps and no limit to its depth, a declaration is attempted with the same result. -/
theorem attempt_settles (eof : Token) (ts : List Token) : ∃ x :
    Reading Stmt, x.verdict ≠ .exhausted ∧ ∀ n, 16 * ts.length + 10 ≤ n →
    attempt n .unlimited eof ts = x := by
  have hverdict : (attempt (16 * ts.length + 10) .unlimited eof ts).verdict ≠ .exhausted := by
    have hread := @(stmtRules (fun _ => True) (16 * ts.length + 11)).declaration eof ts le_rfl
      fun _ _ => trivial
    rw [declaration_eq, nest_unlimited] at hread
    intro hx
    have hx := recover_exhausted hx
    generalize recover (attempt (16 * ts.length + 10) .unlimited) eof ts = x at hread hx
    obtain ⟨v, es, rest⟩ := x
    obtain rfl : v = .exhausted := hx
    exact hread
  refine ⟨_, hverdict, fun n hn => ?_⟩
  rcases related_attempt Extends.compatible hn (Depth.le_refl _) eof ts with hx | heq
  · exact absurd hx hverdict
  · exact heq.symm

theorem attempt_local (n : Nat) (d : Depth) : Local (attempt n d) :=
  related_attempt Local.compatible (le_refl n) (Depth.le_refl d)

/-- A declaration that is found has a token. -/
theorem attempt_used {n : Nat} {d : Depth} {eof : Token} {ts rest : List Token} {s : Stmt}
    {es : List StaticError} (hne : ts ≠ []) (h : attempt n d eof ts = ⟨.done s, es, rest⟩) :
    rest.length < ts.length := by
  have hdeep := (related_attempt Extends.compatible (Nat.le_max_left n (16 * ts.length + 10))
    (Depth.le_unlimited d)).done h
  have hread :=
    @(stmtRules (fun _ => True) (max n (16 * ts.length + 10) + 1)).declaration eof ts (by omega)
    fun _ _ => trivial
  rw [declaration_eq, nest_unlimited, recover, hdeep] at hread
  obtain ⟨used, rfl, hused, -⟩ := hread
  have hpos := List.length_pos_iff.2 (hused hne)
  rw [List.length_append]
  omega

/-- With enough steps and no limit to the depth, all tokens are read. -/
theorem declarations_done {n : Nat} {eof : Token} {ts : List Token} (hn : 16 * ts.length + 12 ≤ n)
    (hts : ∀ t ∈ ts, t.kind ≠ .eof) :
    ∃ ss es, declarations n .unlimited false eof ts = ⟨.done ss, es, []⟩ := by
  have hread := @(stmtRules (fun _ => True) n).declarations false eof ts hn fun _ _ => trivial
  have hverdict := declarations_not_rejected n .unlimited false eof ts
  generalize declarations n .unlimited false eof ts = x at hread hverdict ⊢
  obtain ⟨v, es, rest⟩ := x
  cases v with
  | exhausted => exact hread.elim
  | rejected => exact absurd rfl hverdict
  | done ss =>
    obtain ⟨used, hused, -, hend⟩ := hread
    -- Reading stops at the end of the text only.
    cases rest with
    | nil => exact ⟨ss, es, rfl⟩
    | cons t rest => exact absurd (hend rfl) (hts t (by simp [hused]))

/-- More steps and more depth make no difference to what was read. -/
theorem declarations_more {n m : Nat} {d d' : Depth} (hn : n ≤ m) (hd : d ≤ d') {inBlock : Bool}
    {eof : Token} {ts rest : List Token} {ss : List Stmt} {es : List StaticError}
    (h : declarations n d inBlock eof ts = ⟨.done ss, es, rest⟩) :
    declarations m d' inBlock eof ts = ⟨.done ss, es, rest⟩ :=
  ((StmtsRelated.of_le Extends.compatible hn hd).declarations inBlock).done h

end Grammar

open Grammar Rule

/-- The tokens in front of the first end of text. -/
def textOf (tokens : List Token) : List Token := tokens.takeWhile (·.kind ≠ .eof)

/-- The first end of text, which is `eof` if there is none among the tokens. -/
def stopOf (tokens : List Token) (eof : Token) : Token :=
  (tokens.dropWhile (·.kind ≠ .eof)).headD eof

theorem kind_of_mem_textOf {tokens : List Token} {t : Token} (h : t ∈ textOf tokens) :
    t.kind ≠ .eof := by
  simpa using List.all_eq_true.1 List.all_takeWhile t h

theorem textOf_of_text {tokens : List Token} (h : ∀ t ∈ tokens, t.kind ≠ .eof) :
    textOf tokens = tokens :=
  List.takeWhile_eq_self_iff.2 fun t ht => by simpa using h t ht

theorem stopOf_of_text {tokens : List Token} (h : ∀ t ∈ tokens, t.kind ≠ .eof) (eof : Token) :
    stopOf tokens eof = eof := by
  have hdrop : tokens.dropWhile (·.kind ≠ .eof) = [] :=
    List.dropWhile_eq_nil_iff.2 fun t ht => by simpa using h t ht
  rw [stopOf, hdrop]
  rfl

theorem readAll_eq (d : Depth) (tokens : List Token) (eof : Token) : readAll d tokens eof =
    declarations (stepsFor (textOf tokens)) d false (stopOf tokens eof) (textOf tokens) := rfl

theorem le_stepsFor (ts : List Token) : 16 * ts.length + 12 ≤ stepsFor ts := by
  rw [stepsFor]
  omega

theorem readAll_unlimited (tokens : List Token) (eof : Token) : readAll .unlimited tokens eof =
    ⟨.done (parse tokens eof).statements, (parse tokens eof).errors, []⟩ := by
  obtain ⟨ss, es, hread⟩ := @declarations_done _ (stopOf tokens eof) _ (le_stepsFor (textOf tokens))
    fun _ => kind_of_mem_textOf
  rw [← readAll_eq] at hread
  rw [parse, hread]

/-- What is read does not depend on the steps, if there are enough of them, and nothing is left. -/
theorem declarations_eq_parse (tokens : List Token) (eof : Token) {n : Nat}
    (hn : 16 * (textOf tokens).length + 12 ≤ n) :
    declarations n .unlimited false (stopOf tokens eof) (textOf tokens) =
      ⟨.done (parse tokens eof).statements, (parse tokens eof).errors, []⟩ := by
  have hparse := readAll_unlimited tokens eof
  rw [readAll_eq] at hparse
  obtain ⟨ss, es, hread⟩ :=
    @declarations_done _ (stopOf tokens eof) _ hn fun _ => kind_of_mem_textOf
  -- One of the two numbers is the larger one, and neither is exhausted.
  rcases Nat.le_total n (stepsFor (textOf tokens)) with hle | hle
  · have hmore := declarations_more hle (Depth.le_refl _) hread
    rw [hread, ← hmore, hparse]
  · exact declarations_more hle (Depth.le_refl _) hparse

/-! ## Limited depth -/

section

variable {tokens : List Token} {eof : Token} {k k' : Nat} {p : Parsed}

theorem readAll_more {d d' : Depth} (hd : d ≤ d') {ss : List Stmt} {es : List StaticError}
    {rest : List Token} (h : readAll d tokens eof = ⟨.done ss, es, rest⟩) :
    readAll d' tokens eof = ⟨.done ss, es, rest⟩ :=
  declarations_more le_rfl hd h

theorem parseWithin_ok_iff : parseWithin k tokens eof = .ok p ↔
    ∃ rest, readAll (.levels k) tokens eof = ⟨.done p.statements, p.errors, rest⟩ := by
  rw [parseWithin]
  obtain ⟨v, es, rest⟩ := readAll (.levels k) tokens eof
  cases v with
  | done ss =>
    constructor
    · intro h
      injection h with h
      subst h
      exact ⟨rest, rfl⟩
    · rintro ⟨_, h⟩
      injection h with hv he
      injection hv with hs
      rw [hs, he]
  | rejected => exact ⟨fun h => (by cases h), fun ⟨_, h⟩ => (by cases h)⟩
  | exhausted => exact ⟨fun h => (by cases h), fun ⟨_, h⟩ => (by cases h)⟩

/-- Nothing is left of a text that is read to some depth. -/
theorem readAll_of_parseWithin (h : parseWithin k tokens eof = .ok p) :
    readAll (.levels k) tokens eof = ⟨.done p.statements, p.errors, []⟩ ∧ p = parse tokens eof := by
  obtain ⟨rest, hread⟩ := parseWithin_ok_iff.1 h
  have hmore := readAll_more (Depth.le_unlimited _) hread
  rw [readAll_unlimited] at hmore
  injection hmore with hv he hrest
  injection hv with hs
  rw [← hrest] at hread
  exact ⟨hread, congrArg₂ Parsed.mk hs.symm he.symm⟩

/-- What is read to some depth is what there is to read. -/
theorem parseWithin_ok (h : parseWithin k tokens eof = .ok p) : p = parse tokens eof :=
  (readAll_of_parseWithin h).2

/-- A text that is read to some depth is read to any greater one. -/
theorem parseWithin_of_le (hk : k ≤ k') (h : parseWithin k tokens eof = .ok p) :
    parseWithin k' tokens eof = .ok p := by
  obtain ⟨rest, hread⟩ := parseWithin_ok_iff.1 h
  exact parseWithin_ok_iff.2 ⟨rest, readAll_more (Depth.levels_le_levels hk) hread⟩

end

end Lox
