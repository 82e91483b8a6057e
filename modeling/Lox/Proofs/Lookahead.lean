import Lox.Proofs.Lexemes

/-!
# Looking ahead

What is read at the front of a text depends on the characters behind it only in so far as a longer
piece would be there. `NoLonger rest rest'` says that `rest'` has nothing in front that would make a
piece longer and that `rest` has not. A token in front of `rest` is then read in front of `rest'`
too (`Piece.token_congr`).
-/

namespace Lox

def isSpacing (c : Char) : Bool := isBlank c || c == '\n'

theorem isSpacing_eq_false_of_isWordChar {c : Char} (h : isWordChar c) : isSpacing c = false := by
  obtain ⟨-, -, -, hblank, hline, -⟩ := plain_of_isWordChar h
  simp [isSpacing, hblank, hline]

/-- What `b` begins with, `a` begins with too. Spacing does not count, and letters stand for one
another. -/
def Covers (a b : List Char) : Prop :=
  ∀ c, b.head? = some c →
    isSpacing c ∨ a.head? = some c ∨ isLetter c ∧ ∃ d, a.head? = some d ∧ isLetter d

namespace Covers

variable {a b : List Char} {c : Char}

theorem head?_eq (h : Covers a b) (hb : b.head? = some c)
    (hc : isSpacing c = false ∧ isLetter c = false) :
    a.head? = some c := by
  rcases h c hb with hs | hsame | ⟨hletter, -⟩
  · rw [hc.1] at hs
    cases hs
  · exact hsame
  · rw [hc.2] at hletter
    cases hletter

theorem isWordChar (h : Covers a b) (hb : b.head? = some c) (hc : isWordChar c) :
    ∃ d, a.head? = some d ∧ Lox.isWordChar d := by
  rcases h c hb with hs | hsame | ⟨-, d, hd, hletter⟩
  · rw [isSpacing_eq_false_of_isWordChar hc] at hs
    cases hs
  · exact ⟨c, hsame, hc⟩
  · exact ⟨d, hd, by simp [Lox.isWordChar, hletter]⟩

end Covers

/-- What would make a piece longer in front of `b` is there in front of `a`: the next character, and
the one behind a point. -/
structure NoLonger (a b : List Char) : Prop where
  front : Covers a b
  point : ∀ r r', a = '.' :: r → b = '.' :: r' → Covers r r'

/-- Nothing becomes longer in front of spacing or at the end of a text. -/
theorem NoLonger.of_spacing {b : List Char} (h : ∀ c, b.head? = some c → isSpacing c)
    (a : List Char) :
    NoLonger a b where
  front c hc := .inl (h c hc)
  point := by
    rintro r r' - rfl
    exact absurd (h '.' rfl) (by decide)

/-- Digits neither keep tokens apart nor stand for one another. -/
theorem stands_of_isDigit {c : Char} (h : isDigit c) :
    isSpacing c = false ∧ isLetter c = false := by
  refine ⟨isSpacing_eq_false_of_isWordChar (by simp [isWordChar, h]), ?_⟩
  by_contra hl
  rw [isDigit_eq_false_of_isLetter (by simpa using hl)] at h
  cases h

/-! ## Longer beginnings -/

/-- What nothing in front of it makes longer is a longest beginning. -/
theorem longest_append {P : List Char → Prop} {w rest : List Char} (hw : P w)
    (hnone : ∀ c u, P (w ++ c :: u) → ¬ c :: u <+: rest) : Longest P w (w ++ rest) where
  holds := hw
  begins := List.prefix_append w rest
  length_le := by
    intro v hv hpre
    by_contra hlt
    obtain ⟨u, rfl⟩ := List.prefix_of_prefix_length_le (List.prefix_append w rest) hpre (by omega)
    cases u with
    | nil => simp at hlt
    | cons c u => exact hnone c u hv ((List.prefix_append_right_inj w).1 hpre)

/-- A longest beginning stays one in front of another text, if it could be longer there only where
it could be longer before. -/
theorem Longest.congr {P : List Char → Prop} {w rest rest' : List Char}
    (h : Longest P w (w ++ rest)) (hlonger : ∀ c u, P (w ++ c :: u) → c :: u <+: rest' →
    ∃ d v, P (w ++ d :: v) ∧ d :: v <+: rest) :
    Longest P w (w ++ rest') := by
  refine longest_append h.holds fun c u hv hpre => ?_
  obtain ⟨d, v, hv, hrest⟩ := hlonger c u hv hpre
  have hle := h.length_le _ hv ((List.prefix_append_right_inj w).2 hrest)
  rw [List.length_append, List.length_cons] at hle
  omega

theorem IsOperator.ne_nil {w : List Char} (h : IsOperator w) : w ≠ [] := by
  obtain ⟨k, hk⟩ := h
  rintro rfl
  rcases length_operator hk with h | ⟨c, h⟩ <;> simp at h

/-- An operator can only be made longer by an equals sign. -/
theorem IsOperator.eq_of_append {w u : List Char} {c : Char} (hw : IsOperator w)
    (h : IsOperator (w ++ c :: u)) : c = '=' ∧ u = [] := by
  obtain ⟨k, hk⟩ := h
  obtain ⟨d, ds, rfl⟩ := List.exists_cons_of_ne_nil hw.ne_nil
  rcases length_operator hk with h | ⟨e, h⟩
  · simp at h
  · cases ds with
    | nil =>
      simp at h
      exact h.2
    | cons f ds => simp at h

/-- A numeral can only be made longer by a digit or by a point and a digit. -/
theorem IsNumeral.cases_append {w u : List Char} {c : Char} (h : IsNumeral (w ++ c :: u)) :
    isDigit c ∨ c = '.' ∧ (∀ d ∈ w, isDigit d) ∧ ∃ d v, u = d :: v ∧ isDigit d := by
  rcases h with ⟨-, h⟩ | ⟨ds, fs, ⟨-, hds⟩, ⟨hne, hfs⟩, h⟩
  · exact .inl (h c (by simp))
  · obtain ⟨f, fs, rfl⟩ := List.exists_cons_of_ne_nil hne
    have hpoint : w = ds → c :: u = '.' :: f :: fs →
        c = '.' ∧ (∀ d ∈ w, isDigit d) ∧ ∃ d v, u = d :: v ∧ isDigit d := by
      rintro rfl h
      cases h
      exact ⟨rfl, hds, f, _, rfl, hfs f (by simp)⟩
    rcases List.append_eq_append_iff.1 h with ⟨a, ha, hu⟩ | ⟨a, ha, hu⟩
    · cases a with
      | nil => exact .inr (hpoint (by simpa using ha.symm) (by simpa using hu))
      | cons d a =>
        obtain ⟨rfl, -⟩ : c = d ∧ _ := by simpa using hu
        exact .inl (hds c (by simp [ha]))
    · cases a with
      | nil => exact .inr (hpoint (by simpa using ha) (by simpa using hu.symm))
      | cons d a =>
        obtain ⟨-, hfs'⟩ : '.' = d ∧ f :: fs = a ++ c :: u := by simpa using hu
        exact .inl (hfs c (by simp [hfs']))

theorem isDigits_append {ds es : List Char} (hne : ds ++ es ≠ []) (hds : ∀ c ∈ ds, isDigit c)
    (hes : ∀ c ∈ es, isDigit c) : IsDigits (ds ++ es) :=
  ⟨hne, fun c hc => (List.mem_append.1 hc).elim (hds c) (hes c)⟩

theorem IsNumeral.append_digit {w : List Char} {c : Char} (h : IsNumeral w) (hc : isDigit c) :
    IsNumeral (w ++ [c]) := by
  have hmore : ∀ ds, IsDigits ds → IsDigits (ds ++ [c]) := fun ds hds =>
    isDigits_append (by simp) hds.2 (by simpa using hc)
  rcases h with h | ⟨ds, fs, hds, hfs, rfl⟩
  · exact .inl (hmore w h)
  · exact .inr ⟨ds, fs ++ [c], hds, hmore fs hfs, by simp⟩

theorem IsWord.isWordChar_of_append {w u : List Char} {c : Char} (hw : IsWord w)
    (h : IsWord (w ++ c :: u)) :
    isWordChar c := by
  obtain ⟨d, ds, rfl, -, -⟩ := hw
  obtain ⟨e, es, he, -, hes⟩ := h
  obtain ⟨-, rfl⟩ : d = e ∧ ds ++ c :: u = es := by simpa using he
  exact hes c (by simp)

theorem IsWord.append {w : List Char} {c : Char} (hw : IsWord w) (hc : isWordChar c) :
    IsWord (w ++ [c]) := by
  obtain ⟨d, ds, rfl, hd, hds⟩ := hw
  refine ⟨d, ds ++ [c], rfl, hd, fun e he => ?_⟩
  rcases List.mem_append.1 he with he | he
  · exact hds e he
  · cases List.mem_singleton.1 he
    exact hc

/-- No word goes on behind a word. -/
theorem Longest.not_isWordChar {w rest : List Char} (h : Longest IsWord w (w ++ rest)) {c : Char}
    (hc : rest.head? = some c) : ¬ isWordChar c := by
  intro hword
  obtain ⟨r, rfl⟩ := List.head?_eq_some_iff.1 hc
  have hle := h.length_le _ (h.holds.append hword) ⟨r, by simp⟩
  rw [List.length_append, List.length_singleton] at hle
  omega

theorem longest_isWord {w rest : List Char} (hw : IsWord w)
    (hrest : ∀ c, rest.head? = some c → ¬ isWordChar c) :
    Longest IsWord w (w ++ rest) := by
  refine longest_append hw fun c u hlong hpre => ?_
  obtain ⟨r, rfl⟩ := hpre
  exact hrest c rfl (hw.isWordChar_of_append hlong)

/-! ## Pieces -/

section

variable {w rest rest' : List Char}

theorem Longest.operator_congr (h : Longest IsOperator w (w ++ rest))
    (hview : NoLonger rest rest') :
    Longest IsOperator w (w ++ rest') := by
  refine h.congr fun c u hop hpre => ?_
  obtain ⟨rfl, rfl⟩ := h.holds.eq_of_append hop
  obtain ⟨r', rfl⟩ := hpre
  obtain ⟨r, rfl⟩ := List.head?_eq_some_iff.1 (hview.front.head?_eq rfl (by decide))
  exact ⟨'=', [], hop, ⟨r, rfl⟩⟩

theorem Longest.numeral_congr (h : Longest IsNumeral w (w ++ rest)) (hview : NoLonger rest rest') :
    Longest IsNumeral w (w ++ rest') := by
  refine h.congr fun c u hnum hpre => ?_
  obtain ⟨r', rfl⟩ := hpre
  rcases hnum.cases_append with hc | ⟨rfl, hw, d, v, rfl, hd⟩
  · obtain ⟨r, rfl⟩ := List.head?_eq_some_iff.1 (hview.front.head?_eq rfl (stands_of_isDigit hc))
    exact ⟨c, [], h.holds.append_digit hc, ⟨r, rfl⟩⟩
  · obtain ⟨r, rfl⟩ := List.head?_eq_some_iff.1 (hview.front.head?_eq rfl (by decide))
    obtain ⟨r, rfl⟩ :=
      List.head?_eq_some_iff.1 ((hview.point _ _ rfl rfl).head?_eq rfl (stands_of_isDigit hd))
    refine ⟨'.', [d], .inr ⟨w, [d], ⟨?_, hw⟩, ⟨by simp, by simpa using hd⟩, rfl⟩, ⟨r, rfl⟩⟩
    rintro rfl
    rcases h.holds with ⟨hne, -⟩ | ⟨ds, fs, -, -, hne⟩
    · exact hne rfl
    · simp at hne

theorem Longest.word_congr (h : Longest IsWord w (w ++ rest)) (hview : NoLonger rest rest')
    {v : List Char} (hv : IsWord v) : Longest IsWord v (v ++ rest') := by
  refine longest_isWord hv fun c hc hword => ?_
  obtain ⟨d, hd, hword'⟩ := hview.front.isWordChar hc hword
  exact h.not_isWordChar hd hword'

theorem not_slashes_congr (hw : IsOperator w) (hview : NoLonger rest rest')
    (h : ¬ ['/', '/'] <+: w ++ rest) :
    ¬ ['/', '/'] <+: w ++ rest' := by
  rintro ⟨r', hr'⟩
  obtain ⟨k, hk⟩ := hw
  rcases length_operator hk with hone | ⟨c, rfl⟩
  · obtain ⟨c, rfl⟩ := List.length_eq_one_iff.1 hone
    obtain ⟨rfl, rfl⟩ : '/' = c ∧ '/' :: r' = rest' := by simpa using hr'
    obtain ⟨r, rfl⟩ := List.head?_eq_some_iff.1 (hview.front.head?_eq rfl (by decide))
    exact h ⟨r, rfl⟩
  · simp at hr'

/-- A token stays what it is in front of a text that makes nothing longer. -/
theorem Piece.token_congr {k : Kind} (h : Piece (w ++ rest) (.token k w))
    (hview : NoLonger rest rest') :
    Piece (w ++ rest') (.token k w) := by
  generalize hcs : w ++ rest = cs at h
  cases h with
  | operator hw hk hslash =>
    subst hcs
    exact .operator (hw.operator_congr hview) hk (not_slashes_congr hw.holds hview hslash)
  | number hw =>
    subst hcs
    exact .number (hw.numeral_congr hview)
  | word hw hk =>
    subst hcs
    exact .word (hw.word_congr hview hw.holds) hk
  | string htext => simpa using Piece.string htext

end

end Lox
