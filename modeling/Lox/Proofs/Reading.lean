import Lox.Grammar.Rule
import Mathlib.Data.List.Basic

/-!
# Reasoning about grammar rules

`Reads P r eof ts Q`: on tokens that satisfy `P`, the rule `r` is not exhausted; if it is rejected
it has recorded an error; and if it is done, `Q` holds of the tokens it used, its value, the errors
it recorded and the tokens that are left. `Reads.bind` composes such statements, and the other
lemmas of this module state one for each basic rule.
-/

namespace Lox.Rule

variable {α β : Type} {P : Token → Prop} {eof : Token} {ts : List Token}

/-- The category of the token in front, `eof` at the end. -/
def headKind (ts : List Token) : Kind := ts.head?.elim .eof Token.kind

@[simp] theorem headKind_nil : headKind [] = .eof := rfl

@[simp] theorem headKind_cons (t : Token) (ts : List Token) : headKind (t :: ts) = t.kind := rfl

def Reads (P : Token → Prop) (r : Rule α) (eof : Token) (ts : List Token)
    (Q : List Token → α → List StaticError → List Token → Prop) : Prop :=
  (∀ t ∈ ts, P t) →
    match r eof ts with
    | ⟨.done a, es, rest⟩ => ∃ used, ts = used ++ rest ∧ Q used a es rest
    | ⟨.rejected, es, rest⟩ => es ≠ [] ∧ ∃ used, ts = used ++ rest
    | ⟨.exhausted, _, _⟩ => False

/-! ## Computing with rules -/

theorem bind_eq (r : Rule α) (f : α → Rule β) (eof : Token) (ts : List Token) :
    (r >>= f) eof ts = Rule.bind r f eof ts := rfl

@[simp] theorem pure_apply (a : α) (eof : Token) (ts : List Token) :
    (pure a : Rule α) eof ts = ⟨.done a, [], ts⟩ := rfl

/-- A rule that is done hands over to the next one. -/
theorem bind_done {r : Rule α} {a : α} {es : List StaticError} {rest : List Token}
    (h : r eof ts = ⟨.done a, es, rest⟩) (f : α → Rule β) :
    (r >>= f) eof ts =
      ⟨(f a eof rest).verdict, es ++ (f a eof rest).errors, (f a eof rest).rest⟩ := by
  rw [bind_eq, Rule.bind, h]

theorem bind_clean {r : Rule α} {a : α} {rest : List Token} (h : r eof ts = ⟨.done a, [], rest⟩)
    (f : α → Rule β) : (r >>= f) eof ts = f a eof rest := by
  rw [bind_done h]
  rfl

theorem map_eq (g : α → β) (r : Rule α) : (g <$> r) = r >>= fun a => pure (g a) := rfl

@[simp] theorem pure_bind_apply (a : α) (f : α → Rule β) (eof : Token) (ts : List Token) :
    (pure a >>= f) eof ts = f a eof ts := rfl

@[simp] theorem peekKind_bind (f : Kind → Rule β) (eof : Token) (ts : List Token) :
    (peekKind >>= f) eof ts = f (headKind ts) eof ts := rfl

@[simp] theorem peek_bind (f : Token → Rule β) (eof : Token) (ts : List Token) :
    (peek >>= f) eof ts = f (ts.head?.getD eof) eof ts := rfl

@[simp] theorem skip_bind (f : Unit → Rule β) (eof t : Token) (ts : List Token) :
    (skip >>= f) eof (t :: ts) = f () eof ts := rfl

theorem takeIf_of_mem {test : Kind → Bool} {t : Token} (h : test t.kind) (eof : Token)
    (ts : List Token) : takeIf test eof (t :: ts) = ⟨.done (some t), [], ts⟩ := by
  simp [takeIf, h]

theorem takeIf_of_not_mem {test : Kind → Bool} (h : test (headKind ts) = false) :
    takeIf test eof ts = ⟨.done none, [], ts⟩ := by
  cases ts with
  | nil => rfl
  | cons t ts =>
    rw [headKind_cons] at h
    simp [takeIf, h]

theorem accept_of_kind {k : Kind} {t : Token} (h : t.kind = k) (eof : Token) (ts : List Token) :
    accept k eof (t :: ts) = ⟨.done (some t), [], ts⟩ := takeIf_of_mem (by simpa using h) eof ts

theorem accept_of_not_kind {k : Kind} (h : headKind ts ≠ k) :
    accept k eof ts = ⟨.done none, [], ts⟩ := takeIf_of_not_mem (by simpa using h)

theorem expect_of_kind {k : Kind} {t : Token} (c : Complaint) (h : t.kind = k) (eof : Token)
    (ts : List Token) : expect k c eof (t :: ts) = ⟨.done t, [], ts⟩ := by
  rw [expect, bind_clean (accept_of_kind h eof ts)]
  rfl

/-! ## Rules that are read -/

theorem Reads.imp {r : Rule α} {Q Q' : List Token → α → List StaticError → List Token → Prop}
    (h : Reads P r eof ts Q) (hQ : ∀ used a es rest, Q used a es rest → Q' used a es rest) :
    Reads P r eof ts Q' := by
  intro hP
  have := h hP
  revert this
  split
  · rintro ⟨used, hts, hq⟩
    exact ⟨used, hts, hQ _ _ _ _ hq⟩
  · exact id
  · exact id

/-- The tokens that the first rule leaves are read by the second. -/
theorem Reads.bind {r : Rule α} {f : α → Rule β}
    {Q : List Token → α → List StaticError → List Token → Prop}
    {R : List Token → β → List StaticError → List Token → Prop} (h : Reads P r eof ts Q)
    (hf : ∀ used a es rest, ts = used ++ rest → Q used a es rest →
      Reads P (f a) eof rest fun used' b es' rest' => R (used ++ used') b (es ++ es') rest') :
    Reads P (r >>= f) eof ts R := by
  intro hP
  have h := h hP
  rw [bind_eq, Rule.bind]
  cases hr : r eof ts with
  | mk v es rest =>
    rw [hr] at h
    cases v with
    | exhausted => exact h
    | rejected => exact h
    | done a =>
      obtain ⟨used, hts, hq⟩ := h
      have hrest : ∀ t ∈ rest, P t := fun t ht => hP t (by simp [hts, ht])
      have h2 := hf used a es rest hts hq hrest
      cases hr2 : f a eof rest with
      | mk v2 es2 rest2 =>
        rw [hr2] at h2
        simp only
        rw [hr2]
        cases v2 with
        | exhausted => exact h2
        | rejected =>
          obtain ⟨hne, used2, hu⟩ := h2
          exact ⟨by simp [hne], used ++ used2, by rw [hts, hu, List.append_assoc]⟩
        | done b =>
          obtain ⟨used2, hu, hr⟩ := h2
          exact ⟨used ++ used2, by rw [hts, hu, List.append_assoc], hr⟩

theorem Reads.pure {a : α} {Q : List Token → α → List StaticError → List Token → Prop}
    (h : Q [] a [] ts) : Reads P (Pure.pure a) eof ts Q := fun _ => ⟨[], rfl, h⟩

theorem Reads.pure_bind {a : α} {f : α → Rule β}
    {Q : List Token → β → List StaticError → List Token → Prop} (h : Reads P (f a) eof ts Q) :
    Reads P (Pure.pure a >>= f) eof ts Q := h

theorem Reads.map {r : Rule α} {g : α → β}
    {Q : List Token → β → List StaticError → List Token → Prop}
    (h : Reads P r eof ts fun used a es rest => Q used (g a) es rest) :
    Reads P (g <$> r) eof ts Q := by
  rw [map_eq]
  refine h.bind fun used a es rest _ hq => .pure ?_
  simpa using hq

theorem Reads.map_bind {γ : Type} {r : Rule α} {g : α → β} {f : β → Rule γ}
    {Q : List Token → α → List StaticError → List Token → Prop}
    {R : List Token → γ → List StaticError → List Token → Prop} (h : Reads P r eof ts Q)
    (hf : ∀ used a es rest, ts = used ++ rest → Q used a es rest →
      Reads P (f (g a)) eof rest fun used' b es' rest' => R (used ++ used') b (es ++ es') rest') :
    Reads P (g <$> r >>= f) eof ts R := by
  have hmap : Reads P (g <$> r) eof ts fun used b es rest => ∃ a, b = g a ∧ Q used a es rest :=
    .map (h.imp fun _ a _ _ hq => ⟨a, rfl, hq⟩)
  refine hmap.bind ?_
  rintro used _ es rest hts ⟨a, rfl, hq⟩
  exact hf used a es rest hts hq

theorem Reads.note {t : Token} {c : Complaint}
    {Q : List Token → Unit → List StaticError → List Token → Prop}
    (h : Q [] () [StaticError.atToken t c] ts) : Reads P (note t c) eof ts Q :=
    fun _ => ⟨[], rfl, h⟩

theorem Reads.reject {c : Complaint} {Q : List Token → α → List StaticError → List Token → Prop} :
    Reads P (reject c) eof ts Q := fun _ => ⟨by simp, [], rfl⟩

/-- The category in front is known after looking at it. -/
theorem Reads.peekKind {f : Kind → Rule β}
    {Q : List Token → β → List StaticError → List Token → Prop}
    (h : Reads P (f (headKind ts)) eof ts Q) : Reads P (peekKind >>= f) eof ts Q := h

theorem Reads.peek {f : Token → Rule β}
    {Q : List Token → β → List StaticError → List Token → Prop}
    (h : Reads P (f (ts.head?.getD eof)) eof ts Q) : Reads P (peek >>= f) eof ts Q := h

/-- A complaint that may come first does not change what is read. -/
theorem Reads.noteIf {c : Prop} [Decidable c] {complaint : Complaint} {f : Unit → Rule β}
    {Q : List Token → β → List StaticError → List Token → Prop}
    (h : Reads P (f ()) eof ts fun used b es rest =>
      (¬ c → Q used b es rest) ∧ (c → ∀ e, Q used b (e :: es) rest)) :
    Reads P (if c then Rule.peek >>= fun t => Rule.note t complaint >>= f else f ()) eof ts Q := by
  by_cases hc : c
  · rw [if_pos hc]
    apply Reads.peek
    refine Reads.bind (.note (Q := fun used _ es _ => used = [] ∧ ∃ e, es = [e]) ⟨rfl, _, rfl⟩) ?_
    rintro _ - _ rest hts ⟨rfl, e, rfl⟩
    obtain rfl : ts = rest := hts
    exact h.imp fun _ _ _ _ hq => hq.2 hc e
  · rw [if_neg hc]
    exact h.imp fun _ _ _ _ hq => hq.1 hc

/-- One token is used up. -/
theorem Reads.step {r : Rule β} {r' : Rule β} {t : Token}
    {Q : List Token → β → List StaticError → List Token → Prop} (hr : r' eof (t :: ts) = r eof ts)
    (h : P t → Reads P r eof ts fun used b es rest => Q (t :: used) b es rest) :
    Reads P r' eof (t :: ts) Q := by
  intro hP
  have h := h (hP t (by simp)) fun u hu => hP u (by simp [hu])
  rw [hr]
  revert h
  split
  · rintro ⟨used, hts, hq⟩
    exact ⟨t :: used, by rw [hts, List.cons_append], hq⟩
  · rintro ⟨hne, used, hts⟩
    exact ⟨hne, t :: used, by rw [hts, List.cons_append]⟩
  · exact id

theorem Reads.skip {f : Unit → Rule β} {t : Token}
    {Q : List Token → β → List StaticError → List Token → Prop}
    (h : P t → Reads P (f ()) eof ts fun used b es rest => Q (t :: used) b es rest) :
    Reads P (skip >>= f) eof (t :: ts) Q := .step rfl h

/-- Either the token in front passes the test and is used up, or nothing is. -/
theorem Reads.takeIf {test : Kind → Bool} (heof : test .eof = false) {f : Option Token → Rule β}
    {Q : List Token → β → List StaticError → List Token → Prop}
    (htake : ∀ t rest, ts = t :: rest → test t.kind → P t →
      Reads P (f (some t)) eof rest fun used b es rest => Q (t :: used) b es rest)
    (hleave : test (headKind ts) = false → Reads P (f none) eof ts Q) :
    Reads P (takeIf test >>= f) eof ts Q := by
  cases ts with
  | nil =>
    intro hP
    exact hleave heof hP
  | cons t ts =>
    by_cases h : test t.kind
    · exact .step (bind_clean (takeIf_of_mem h eof ts) f) (htake t ts rfl h)
    · have h' : test (headKind (t :: ts)) = false := by simpa using h
      intro hP
      rw [bind_clean (takeIf_of_not_mem h') f]
      exact hleave h' hP

theorem Reads.accept {k : Kind} (hk : k ≠ .eof) {f : Option Token → Rule β}
    {Q : List Token → β → List StaticError → List Token → Prop}
    (htake : ∀ t rest, ts = t :: rest → t.kind = k → P t →
      Reads P (f (some t)) eof rest fun used b es rest => Q (t :: used) b es rest)
    (hleave : headKind ts ≠ k → Reads P (f none) eof ts Q) :
    Reads P (accept k >>= f) eof ts Q := by
  refine .takeIf (by simpa using hk.symm)
    (fun t rest hts h => htake t rest hts (by simpa using h)) ?_
  intro h
  exact hleave (by simpa using h)

theorem Reads.expect {k : Kind} {c : Complaint} (hk : k ≠ .eof) {f : Token → Rule β}
    {Q : List Token → β → List StaticError → List Token → Prop}
    (htake : ∀ t rest, ts = t :: rest → t.kind = k → P t →
      Reads P (f t) eof rest fun used b es rest => Q (t :: used) b es rest) :
    Reads P (expect k c >>= f) eof ts Q := by
  by_cases h : headKind ts = k
  · cases ts with
    | nil => exact absurd h.symm hk
    | cons t ts => exact .step (bind_clean (expect_of_kind c h eof ts) f) (htake t ts rfl h)
  · intro hP
    have hexpect : Rule.expect k c eof ts = Rule.reject c eof ts := by
      rw [Rule.expect, bind_clean (accept_of_not_kind h)]
    rw [bind_eq, Rule.bind, hexpect]
    exact ⟨by simp, [], rfl⟩

end Lox.Rule
