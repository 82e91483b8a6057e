import Lox.Scan
import Lox.Proofs.Locality

/-!
# Recovery

`Yields eof ts ss es` says what the declarations of a text are, without a number of steps. A text is
read one declaration after another (`Yields.cons`), so that complete statements in front of a text
change nothing about it: `parse_append`. A bad statement that ends with a semicolon costs nothing
but itself: `parse_recovers`. Where its error is raised does not matter; recovery skips to the
semicolon, and what was read up to the error did not depend on what comes behind.
-/

namespace Lox

namespace Grammar

open Rule Derives

/-! ## Declarations without a number of steps -/

/-- With enough steps, the declarations of `ts` are the statements `ss`, with the errors `es`. -/
def Yields (eof : Token) (ts : List Token) (ss : List Stmt) (es : List StaticError) : Prop :=
  ∃ m, ∀ n, m ≤ n → declarations n .unlimited false eof ts = ⟨.done ss, es, []⟩

/-- With enough steps, the first declaration of `ts` is `o`, with the errors `es`, and leaves
`rest`. -/
def Begins (eof : Token) (ts : List Token) (o : Option Stmt) (es : List StaticError)
    (rest : List Token) : Prop :=
  ∃ m, ∀ n, m ≤ n → declaration n .unlimited eof ts = ⟨.done o, es, rest⟩

variable {eof : Token} {ts : List Token} {ss : List Stmt} {es : List StaticError}

theorem headKind_of_text (hts : ∀ t ∈ ts, t.kind ≠ .eof) (hne : ts ≠ []) : headKind ts ≠ .eof := by
  cases ts with
  | nil => exact absurd rfl hne
  | cons t ts => exact hts t List.mem_cons_self

/-- A text that begins like a declaration does not begin with a category that no declaration begins
with. -/
theorem headKind_append_ne {k : Kind} (h : (headKind ts).beginsDeclaration)
    (hk : k.beginsDeclaration = false) (us : List Token) : headKind (ts ++ us) ≠ k := by
  rw [headKind_append (ne_nil_of_headKind h rfl)]
  rintro rfl
  rw [hk] at h
  cases h

theorem Yields.unique {ss' : List Stmt} {es' : List StaticError} (h : Yields eof ts ss es)
    (h' : Yields eof ts ss' es') : ss = ss' ∧ es = es' := by
  obtain ⟨m, hm⟩ := h
  obtain ⟨m', hm'⟩ := h'
  have heq := (hm (max m m') (Nat.le_max_left m m')).symm.trans (hm' _ (Nat.le_max_right m m'))
  injection heq with hv he _
  injection hv with hs
  exact ⟨hs, he⟩

theorem Yields.nil (eof : Token) : Yields eof [] [] [] := by
  refine ⟨1, fun n hn => ?_⟩
  obtain ⟨n, rfl⟩ : ∃ k, n = k + 1 := ⟨n - 1, by omega⟩
  rw [declarations]
  rfl

/-- One declaration and then the others. -/
theorem Yields.cons {o : Option Stmt} {rest : List Token} {es' : List StaticError}
    (hts : headKind ts ≠ .eof) (h : Begins eof ts o es rest) (hrest : Yields eof rest ss es') :
    Yields eof ts (o.toList ++ ss) (es ++ es') := by
  obtain ⟨m, hm⟩ := h
  obtain ⟨m', hm'⟩ := hrest
  refine ⟨max m m' + 1, fun n hn => ?_⟩
  obtain ⟨n, rfl⟩ : ∃ k, n = k + 1 := ⟨n - 1, by omega⟩
  have hgo : ¬ (headKind ts = .eof || (false && headKind ts = .rightBrace)) = true := by simp [hts]
  rw [declarations, peekKind_bind, if_neg hgo, bind_done (hm n (by omega)),
    bind_done (hm' n (by omega)), pure_apply, List.append_nil]

/-- Complete statements in front of a text that does not begin with `else`. -/
theorem Yields.after {before : List Token} {bs : List Stmt} (hbefore : Declarations before bs)
    (helse : headKind ts ≠ .elseKw) (h : Yields eof ts ss es) :
    Yields eof (before ++ ts) (bs ++ ss) es :=
  match hbefore with
  | .nil => h
  | @Declarations.cons us vs s rs hfirst hothers => by
    have hrest : Yields eof (vs ++ ts) (rs ++ ss) es := Yields.after hothers helse h
    have helse' : headKind (vs ++ ts) ≠ .elseKw := by
      rcases hothers.begins with rfl | hbegins
      · exact helse
      · exact headKind_append_ne hbegins rfl ts
    have hbegin : Begins eof (us ++ (vs ++ ts)) (some s) [] (vs ++ ts) :=
      ⟨16 * us.length + 1, fun n hn => declaration_read hfirst n eof _ hn helse'⟩
    rw [List.append_assoc]
    exact Yields.cons (headKind_append_ne hfirst.begins rfl _) hbegin hrest

theorem yields_parse (hts : ∀ t ∈ ts, t.kind ≠ .eof) (eof : Token) :
    Yields eof ts (parse ts eof).statements (parse ts eof).errors := by
  refine ⟨16 * ts.length + 12, fun n hn => ?_⟩
  have hparse := declarations_eq_parse ts eof (n := n) (by rwa [textOf_of_text hts])
  rwa [textOf_of_text hts, stopOf_of_text hts] at hparse

theorem Yields.parse_eq (h : Yields eof ts ss es) (hts : ∀ t ∈ ts, t.kind ≠ .eof) :
    parse ts eof = ⟨ss, es⟩ := by
  obtain ⟨hs, he⟩ := (yields_parse hts eof).unique h
  rw [← hs, ← he]

/-! ## Skipping to a semicolon -/

theorem skipToBoundary_of_semicolon {semicolon : Token} (hsemi : semicolon.kind = .semicolon)
    (us : List Token) :
    skipToBoundary semicolon us = us := by
  cases us with
  | nil => rfl
  | cons u us => rw [skipToBoundary, if_pos (by simp [hsemi])]

theorem skipToBoundary_semicolon {last semicolon : Token} (hsemi : semicolon.kind = .semicolon)
    {ts : List Token} (hlast : last.kind ≠ .semicolon) (hts : ∀ t ∈ ts, t.kind ≠ .semicolon ∧
    t.kind.startsStatement = false) (us : List Token) :
      skipToBoundary last (ts ++ semicolon :: us) = us := by
  induction ts generalizing last with
  | nil =>
    have hgo : ¬ (last.kind = .semicolon || semicolon.kind.startsStatement) = true := by
      simp [hlast, hsemi, Kind.startsStatement]
    rw [List.nil_append, skipToBoundary, if_neg hgo, skipToBoundary_of_semicolon hsemi]
  | cons t ts ih =>
    obtain ⟨ht, hstart⟩ := hts t List.mem_cons_self
    have hgo : ¬ (last.kind = .semicolon || t.kind.startsStatement) = true := by
      simp [hlast, hstart]
    rw [List.cons_append, skipToBoundary, if_neg hgo]
    exact ih ht fun u hu => hts u (List.mem_cons_of_mem t hu)

/-- Wherever recovery begins in a bad statement, it goes on behind the semicolon. -/
theorem synchronize_semicolon {bad rest : List Token} {semicolon : Token}
    (hsemi : semicolon.kind = .semicolon) (hbad : ∀ t ∈ bad, t.kind ≠ .semicolon)
    (hstarts : ∀ t ∈ bad.tail, t.kind.startsStatement = false) (hrest : rest <:+ bad ++ [semicolon])
    (hne : rest ≠ []) (us : List Token) : synchronize (rest ++ us) = us := by
  -- The semicolon is the last token of what is left.
  obtain ⟨ts, rfl, hts⟩ : ∃ ts, rest = ts ++ [semicolon] ∧ ts <:+ bad := by
    rcases List.suffix_concat_iff.1 hrest with rfl | ⟨ts, rfl, hts⟩
    · exact absurd rfl hne
    · exact ⟨ts, rfl, hts⟩
  rw [List.append_assoc, List.singleton_append]
  cases ts with
  | nil => exact skipToBoundary_of_semicolon hsemi us
  | cons t ts =>
    have htail : ∀ u ∈ ts, u ∈ bad.tail := by
      obtain ⟨front, rfl⟩ := hts
      intro u hu
      cases front with
      | nil => exact hu
      | cons f front => exact List.mem_append_right front (List.mem_cons_of_mem t hu)
    exact skipToBoundary_semicolon hsemi (hbad t (hts.subset List.mem_cons_self))
      (fun u hu => ⟨hbad u (hts.subset (List.mem_cons_of_mem t hu)), hstarts u (htail u hu)⟩) us

/-! ## One bad statement -/

theorem Begins.of_done {m : Nat} {s : Stmt} {rest : List Token}
    (h : ∀ n, m ≤ n → attempt n .unlimited eof ts = ⟨.done s, es, rest⟩) :
    Begins eof ts (some s) es rest := by
  refine ⟨m + 1, fun n hn => ?_⟩
  obtain ⟨n, rfl⟩ : ∃ k, n = k + 1 := ⟨n - 1, by omega⟩
  rw [declaration_eq, nest_unlimited, recover, h n (by omega)]

theorem Begins.of_rejected {m : Nat} {rest : List Token}
    (h : ∀ n, m ≤ n → attempt n .unlimited eof ts = ⟨.rejected, es, rest⟩) :
    Begins eof ts none es (synchronize rest) := by
  refine ⟨m + 1, fun n hn => ?_⟩
  obtain ⟨n, rfl⟩ : ∃ k, n = k + 1 := ⟨n - 1, by omega⟩
  rw [declaration_eq, nest_unlimited, recover, h n (by omega)]

/-- A text that yields nothing, and has no error at its end, is rejected in front of one of its
tokens. -/
theorem attempt_rejected (heof : eof.kind = .eof) (hts : ∀ t ∈ ts, t.kind ≠ .eof) (hne : ts ≠ [])
    (hnone : (parse ts eof).statements = [])
    (hend : ∀ e ∈ (parse ts eof).errors, e.place ≠ .atEnd) :
    ∃ es rest, (∀ n, 16 * ts.length + 10 ≤ n →
      attempt n .unlimited eof ts = ⟨.rejected, es, rest⟩) ∧
      rest ≠ [] := by
  have hhead := headKind_of_text hts hne
  have hparse := yields_parse hts eof
  obtain ⟨⟨v, es, rest⟩, hverdict, hx⟩ := attempt_settles eof ts
  have hlocal := attempt_local (16 * ts.length + 10) .unlimited
  have hsuffix := hlocal.suffix eof ts
  have hcomplains := hlocal.complains eof ts
  rw [hx _ le_rfl] at hsuffix hcomplains
  have hrest := yields_parse (fun t ht => hts t (hsuffix.subset ht)) eof
  cases v with
  | exhausted => exact absurd rfl hverdict
  | done s =>
    -- Then there would be a statement.
    have hboth := hparse.unique (Yields.cons hhead (.of_done hx) hrest)
    rw [hboth.1] at hnone
    cases hnone
  | rejected =>
    refine ⟨es, rest, hx, ?_⟩
    -- Otherwise the error was raised at the end of the text.
    rintro rfl
    obtain ⟨c, hc⟩ := hcomplains rfl
    have hboth := hparse.unique (Yields.cons hhead (.of_rejected hx) hrest)
    exact hend _ (hboth.2 ▸ List.mem_append_left _ hc) (if_pos heof)

/-- A bad statement that ends with a semicolon is passed over as a whole, whatever follows, with the
errors that it has alone. -/
theorem begins_bad {bad : List Token} {semicolon eof' : Token} (hsemi : semicolon.kind = .semicolon)
    (heof : eof'.kind = .eof) (hbad : ∀ t ∈ bad, t.kind ≠ .semicolon ∧ t.kind ≠ .eof)
    (hstarts : ∀ t ∈ bad.tail, t.kind.startsStatement = false)
    (hnone : (parse (bad ++ [semicolon]) eof').statements = [])
    (hend : ∀ e ∈ (parse (bad ++ [semicolon]) eof').errors, e.place ≠ .atEnd) (eof : Token)
    (us : List Token) :
    Begins eof (bad ++ semicolon :: us) none (parse (bad ++ [semicolon]) eof').errors us := by
  have htext : ∀ t ∈ bad ++ [semicolon], t.kind ≠ .eof := by
    intro t ht
    rcases List.mem_append.1 ht with ht | ht
    · exact (hbad t ht).2
    · rw [List.mem_singleton.1 ht, hsemi]
      decide
  obtain ⟨es, rest, hx, hne⟩ := attempt_rejected heof htext (by simp) hnone hend
  have hskip (us : List Token) : synchronize (rest ++ us) = us := by
    have hsuffix :=
      (attempt_local (16 * (bad ++ [semicolon]).length + 10) .unlimited).suffix eof'
        (bad ++ [semicolon])
    rw [hx _ le_rfl] at hsuffix
    exact synchronize_semicolon hsemi (fun t ht => (hbad t ht).1) hstarts hsuffix hne us
  -- Alone it is followed by nothing, so that its errors are all there are.
  have herrors : (parse (bad ++ [semicolon]) eof').errors = es := by
    have hhead := headKind_of_text htext (by simp)
    have hstop := hskip []
    rw [List.append_nil] at hstop
    have hbegins := Begins.of_rejected hx
    rw [hstop] at hbegins
    have hboth := (yields_parse htext eof').unique (Yields.cons hhead hbegins (Yields.nil eof'))
    rw [hboth.2, List.append_nil]
  have hfar (n : Nat) (hn : 16 * (bad ++ [semicolon]).length + 10 ≤ n) :
      attempt n .unlimited eof (bad ++ semicolon :: us) = ⟨.rejected, es, rest ++ us⟩ := by
    have happend := (attempt_local n .unlimited).append eof' eof (bad ++ [semicolon]) us
    rw [hx n hn, List.append_assoc, List.singleton_append] at happend
    exact happend hne
  have hbegins := Begins.of_rejected hfar
  rwa [hskip us, ← herrors] at hbegins

theorem derived_of_clean {before : List Token} {eof : Token} (hbefore : ∀ t ∈ before, t.kind ≠ .eof)
    (hclean : (parse before eof).errors = []) :
    Declarations before (parse before eof).statements := by
  rw [parse_derived hbefore eof, ← hclean]

end Grammar

/-! ## Texts -/

open Grammar Rule

/-- **Complete statements in front of a text.** The statements of a text that is read without error
come in front of those of any text that follows and does not begin with `else`, and the errors are
those of the second text. -/
theorem parse_append {before after : List Token} {eof eof' : Token}
    (hbefore : ∀ t ∈ before, t.kind ≠ .eof) (hafter : ∀ t ∈ after, t.kind ≠ .eof)
    (hclean : (parse before eof').errors = []) (helse : headKind after ≠ .elseKw) :
    parse (before ++ after) eof =
      ⟨(parse before eof').statements ++ (parse after eof).statements,
        (parse after eof).errors⟩ := by
  have hyields := (yields_parse hafter eof).after (derived_of_clean hbefore hclean) helse
  refine hyields.parse_eq fun t ht => ?_
  rcases List.mem_append.1 ht with ht | ht
  · exact hbefore t ht
  · exact hafter t ht

/-- An `if` that could still have an `else` in front of a text with an error. -/
theorem parse_append_openIf :
    let before := (scan 0 "if (a) b;").tokens
    let after := (scan 6 "c + ; d;").tokens
    let eof : Token := ⟨.eof, "", 1, 11⟩
    ((∀ t ∈ before, t.kind ≠ .eof) ∧ (∀ t ∈ after, t.kind ≠ .eof) ∧ (parse before eof).errors = [] ∧
      headKind after ≠ .elseKw) ∧
    (parse (before ++ after) eof).statements =
      (parse before eof).statements ++ (parse after eof).statements ∧
    (parse (before ++ after) eof).errors = [⟨1, .at ";", .expression⟩] := by
  intro before after eof
  have hbefore : ∀ t ∈ before, t.kind ≠ .eof := by decide +kernel
  have hafter : ∀ t ∈ after, t.kind ≠ .eof := by decide +kernel
  have hclean : (parse before eof).errors = [] := by decide +kernel
  have helse : headKind after ≠ .elseKw := by decide +kernel
  have hparse := @parse_append before after eof eof hbefore hafter hclean helse
  exact ⟨⟨hbefore, hafter, hclean, helse⟩, by rw [hparse], by rw [hparse]; decide +kernel⟩

/-- **A bad statement costs itself only.** Between a text that is read without error and any other
text stands a statement that yields nothing. If it ends with its only semicolon, if nothing behind
its first token could begin a statement, and if its errors are not at the end of the text, then the
statements are those of the neighbours and its errors come before those of the second text. -/
theorem parse_recovers {before bad after : List Token} {semicolon eof eof' eof'' : Token}
    (hbefore : ∀ t ∈ before, t.kind ≠ .eof) (hafter : ∀ t ∈ after, t.kind ≠ .eof)
    (hclean : (parse before eof').errors = []) (hsemi : semicolon.kind = .semicolon)
    (heof : eof''.kind = .eof)
    (hbad : ∀ t ∈ bad, t.kind ≠ .semicolon ∧ t.kind ≠ .eof) (helse : headKind bad ≠ .elseKw)
    (hstarts : ∀ t ∈ bad.tail, t.kind.startsStatement = false)
    (hnone : (parse (bad ++ [semicolon]) eof'').statements = [])
    (hend : ∀ e ∈ (parse (bad ++ [semicolon]) eof'').errors, e.place ≠ .atEnd) :
    parse (before ++ (bad ++ semicolon :: after)) eof =
      ⟨(parse before eof').statements ++ (parse after eof).statements,
        (parse (bad ++ [semicolon]) eof'').errors ++ (parse after eof).errors⟩ := by
  have hkinds : headKind (bad ++ semicolon :: after) ≠ .eof ∧
      headKind (bad ++ semicolon :: after) ≠ .elseKw := by
    cases bad with
    | nil => simp [hsemi]
    | cons t bad => exact ⟨(hbad t List.mem_cons_self).2, helse⟩
  have hmiddle := Yields.cons hkinds.1 (begins_bad hsemi heof hbad hstarts hnone hend eof after)
    (yields_parse hafter eof)
  have hyields := hmiddle.after (derived_of_clean hbefore hclean) hkinds.2
  refine hyields.parse_eq fun t ht => ?_
  rcases List.mem_append.1 ht with ht | ht
  · exact hbefore t ht
  rcases List.mem_append.1 ht with ht | ht
  · exact (hbad t ht).2
  rcases List.mem_cons.1 ht with rfl | ht
  · rw [hsemi]
    decide
  · exact hafter t ht

/-- One error is noted on the way, the next one is raised; what follows begins with a token that
nothing begins with. -/
theorem parse_recovers_twice :
    let before := (scan 0 "var a;").tokens
    let bad := (scan 3 "1 = 2 3").tokens
    let semicolon : Token := ⟨.semicolon, ";", 1, 7⟩
    let after := (scan 8 "else print a;").tokens
    let eof : Token := ⟨.eof, "", 1, 12⟩
    (((∀ t ∈ before, t.kind ≠ .eof) ∧ (∀ t ∈ after, t.kind ≠ .eof) ∧
      (parse before eof).errors = [] ∧
        semicolon.kind = .semicolon ∧ eof.kind = .eof) ∧
      ((∀ t ∈ bad, t.kind ≠ .semicolon ∧ t.kind ≠ .eof) ∧ headKind bad ≠ .elseKw ∧
        (∀ t ∈ bad.tail, t.kind.startsStatement = false) ∧
          (parse (bad ++ [semicolon]) eof).statements = [] ∧
        ∀ e ∈ (parse (bad ++ [semicolon]) eof).errors, e.place ≠ .atEnd)) ∧
    (parse (before ++ (bad ++ semicolon :: after)) eof).statements =
      (parse before eof).statements ++ (parse after eof).statements ∧
    (parse (before ++ (bad ++ semicolon :: after)) eof).statements.length = 2 ∧
    (parse (before ++ (bad ++ semicolon :: after)) eof).errors =
      [⟨1, .at "=", .invalidTarget⟩, ⟨1, .at "3", .expressionEnd⟩,
          ⟨1, .at "else", .expression⟩] := by
  intro before bad semicolon after eof
  have hbefore : ∀ t ∈ before, t.kind ≠ .eof := by decide +kernel
  have hafter : ∀ t ∈ after, t.kind ≠ .eof := by decide +kernel
  have hclean : (parse before eof).errors = [] := by decide +kernel
  have hbad : ∀ t ∈ bad, t.kind ≠ .semicolon ∧ t.kind ≠ .eof := by decide +kernel
  have helse : headKind bad ≠ .elseKw := by decide +kernel
  have hstarts : ∀ t ∈ bad.tail, t.kind.startsStatement = false := by decide +kernel
  have hnone : (parse (bad ++ [semicolon]) eof).statements = [] :=
    List.isEmpty_iff.1 (by decide +kernel)
  have hend : ∀ e ∈ (parse (bad ++ [semicolon]) eof).errors, e.place ≠ .atEnd := by decide +kernel
  have hparse :=
    @parse_recovers before bad after semicolon eof eof eof hbefore hafter hclean rfl rfl hbad helse
      hstarts hnone hend
  refine ⟨⟨⟨hbefore, hafter, hclean, rfl, rfl⟩, hbad, helse, hstarts, hnone, hend⟩, by rw [hparse],
    ?_, ?_⟩
  · rw [hparse]
    decide +kernel
  · rw [hparse]
    decide +kernel

end Lox
