import Lox.Proofs.Lookahead
import Mathlib.Data.List.Forall2

/-!
# Respelling

`respell` replaces the identifiers at some sites of a text by another one and leaves all other
characters alone. The new text is cut at the same places (`segments_respellFrom`): what is read at
the front of a text depends on the characters behind it only in so far as a longer piece would be
there (`Piece.congr`). So the new text has the same tokens on the same lines, but for the
identifiers that were replaced (`scan_respell`).
-/

namespace Lox

/-! ## Looking ahead -/

/-- Two texts begin with the same character, or both with a letter. -/
def SameFront (a b : List Char) : Prop :=
  a.head? = b.head? ∨ ∃ c d, a.head? = some c ∧ b.head? = some d ∧ isLetter c ∧ isLetter d

namespace SameFront

variable {a b : List Char} {c : Char}

theorem symm (h : SameFront a b) : SameFront b a := by
  rcases h with h | ⟨c, d, hc, hd, hc', hd'⟩
  · exact .inl h.symm
  · exact .inr ⟨d, c, hd, hc, hd', hc'⟩

theorem head?_eq (h : SameFront a b) (hb : b.head? = some c) (hc : isLetter c = false) :
    a.head? = some c := by
  rcases h with h | ⟨_, d, -, hd, -, hletter⟩
  · rw [h, hb]
  · rw [hb] at hd
    cases hd
    rw [hc] at hletter
    cases hletter

theorem covers (h : SameFront a b) : Covers a b := by
  intro c hb
  rcases h with h | ⟨d, e, hd, he, hletter, hletter'⟩
  · exact .inr (.inl (h.trans hb))
  · rw [hb] at he
    cases he
    exact .inr (.inr ⟨hletter', d, hd, hletter⟩)

theorem eq_nil (h : SameFront [] b) : b = [] := by
  rcases h with h | ⟨_, _, hc, -⟩
  · exact List.head?_eq_none_iff.1 h.symm
  · cases hc

end SameFront

/-- What is seen when a piece ends: the next character, and the one behind a point. -/
structure SameView (a b : List Char) : Prop where
  front : SameFront a b
  point : ∀ r r', a = '.' :: r → b = '.' :: r' → SameFront r r'

theorem SameView.noLonger {a b : List Char} (h : SameView a b) : NoLonger a b :=
  ⟨h.front.covers, fun r r' ha hb => (h.point r r' ha hb).covers⟩

section

variable {w rest rest' : List Char}

/-- A piece stays what it is in front of a text that looks the same. -/
theorem Piece.congr {s : Segment} (h : Piece (s.chars ++ rest) s) (hview : SameView rest rest') :
    Piece (s.chars ++ rest') s := by
  cases s with
  | token k w => exact h.token_congr hview.noLonger
  | comment text =>
    generalize hcs : (Segment.comment text).chars ++ rest = cs at h
    cases h with
    | comment htext hrest =>
      obtain rfl : rest = _ := by simpa [Segment.chars] using hcs
      refine .comment htext fun c hc => ?_
      cases hr : rest.head? with
      | none =>
        cases List.head?_eq_none_iff.1 hr
        rw [hview.front.eq_nil] at hc
        cases hc
      | some d =>
        cases hrest d hr
        rw [hview.front.symm.head?_eq hr (by decide)] at hc
        cases hc
        rfl
  | unterminated text =>
    generalize hcs : (Segment.unterminated text).chars ++ rest = cs at h
    cases h with
    | unterminated htext =>
      obtain rfl : rest = [] := by simpa [Segment.chars] using hcs
      rw [hview.front.eq_nil]
      simpa [Segment.chars] using Piece.unterminated htext
  | blank c =>
    cases h with
    | blank hc => exact .blank hc
  | newline => exact .newline
  | unexpected c => cases h

theorem Begins.congr {s : Segment} (h : Begins (s.chars ++ rest) s) (hview : SameView rest rest') :
    Begins (s.chars ++ rest') s := by
  generalize hcs : s.chars ++ rest = cs at h
  cases h with
  | piece h =>
    subst hcs
    exact .piece (h.congr hview)
  | unexpected hnone => exact .unexpected hnone

/-- In place of an identifier there may be another one. -/
theorem Begins.identifier_congr (h : Begins (w ++ rest) (.token .identifier w))
    (hview : SameView rest rest') {v : List Char} (hv : IsWord v)
    (hkind : Kind.ofWord (String.ofList v) = .identifier) :
    Begins (v ++ rest') (.token .identifier v) := by
  generalize hcs : w ++ rest = cs at h
  generalize hs : Segment.token .identifier w = s at h
  rcases h with h | _
  · cases h with
    | word hw _ =>
      obtain ⟨-, rfl⟩ := Segment.token.inj hs
      subst hcs
      exact .piece (.word (hw.word_congr hview.noLonger hv) (isKindOfWord_iff.2 hkind.symm))
    | operator _ hop _ =>
      obtain ⟨rfl, -⟩ := Segment.token.inj hs
      simp [operators] at hop
    | _ => cases hs
  · cases hs

end

/-! ## Replacing identifiers -/

/-- The segments with the tokens at some sites replaced by a word. The first token has the site
`site`. -/
def respellFrom (sites : List Nat) (word : List Char) : Nat → List Segment → List Segment
  | _, [] => []
  | site, .token kind lexeme :: rest =>
    .token kind (if site ∈ sites then word else lexeme) :: respellFrom sites word (site + 1) rest
  | site, s :: rest => s :: respellFrom sites word site rest

def respell (sites : List Nat) (word source : String) : String :=
  String.ofList
    ((respellFrom sites word.toList 0 (segments source.toList)).map Segment.chars).flatten

/-- The token with its lexeme replaced, if its site is one of those. -/
def Token.respelled (sites : List Nat) (word : String) (t : Token) : Token :=
  if t.site ∈ sites then { t with lexeme := word } else t

theorem Token.site_respelled (sites : List Nat) (word : String) (t : Token) :
    (t.respelled sites word).site = t.site := by
  rw [respelled]
  split <;> rfl

theorem Token.line_respelled (sites : List Nat) (word : String) (t : Token) :
    (t.respelled sites word).line = t.line := by
  rw [respelled]
  split <;> rfl

theorem Token.kind_respelled (sites : List Nat) (word : String) (t : Token) :
    (t.respelled sites word).kind = t.kind := by
  rw [respelled]
  split <;> rfl

/-- A segment and what stands in its place. -/
inductive Segment.Respelled (word : List Char) : Segment → Segment → Prop where
  | same (s : Segment) : Respelled word s s
  | identifier {w : List Char} : IsWord w →
      Respelled word (.token .identifier w) (.token .identifier word)

theorem Begins.chars_ne_nil {s : Segment} {rest : List Char} (h : Begins (s.chars ++ rest) s) :
    s.chars ≠ [] := by
  generalize s.chars ++ rest = cs at h
  cases cs with
  | nil => exact absurd h (not_begins_nil s)
  | cons c cs =>
    rw [← Segment.first_of_begins h]
    exact Segment.chars_first_ne_nil c cs

theorem Begins.isWord {cs w : List Char} (h : Begins cs (.token .identifier w)) : IsWord w := by
  generalize hs : Segment.token .identifier w = s at h
  rcases h with h | _
  · cases h with
    | word hw _ =>
      obtain ⟨-, rfl⟩ := Segment.token.inj hs
      exact hw.holds
    | operator _ hop _ =>
      obtain ⟨rfl, -⟩ := Segment.token.inj hs
      simp [operators] at hop
    | _ => cases hs
  · cases hs

section

variable {cs word : List Char} {ss ss' : List Segment}

theorem Segmented.sameFront (hword : IsWord word) (h : Segmented cs ss)
    (hss : List.Forall₂ (Segment.Respelled word) ss ss') :
    SameFront cs (ss'.map Segment.chars).flatten := by
  cases h with
  | nil =>
    cases hss
    exact .inl rfl
  | @cons s rest ss hbegins _ =>
    cases hss with
    | cons hs _ => cases hs with
      | same _ =>
        obtain ⟨c, cs, hcs⟩ := List.exists_cons_of_ne_nil hbegins.chars_ne_nil
        exact .inl (by simp [hcs])
      | identifier hw =>
        obtain ⟨c, cs, rfl, hc, -⟩ := hw
        obtain ⟨d, ds, rfl, hd, -⟩ := hword
        exact .inr ⟨c, d, rfl, rfl, hc, hd⟩

theorem Segmented.sameView (hword : IsWord word) (h : Segmented cs ss)
    (hss : List.Forall₂ (Segment.Respelled word) ss ss') :
    SameView cs (ss'.map Segment.chars).flatten where
  front := h.sameFront hword hss
  point := by
    rintro r r' rfl hr'
    obtain rfl := segmented_iff.1 h
    rw [segments_cons] at hss
    cases hss with
    | cons hs hrest =>
      -- A point is a segment of its own.
      cases hs
      obtain rfl : _ = r' := (List.cons.inj hr').2
      exact (segmented_segments r).sameFront hword hrest

/-- The text made of the new segments is cut where the old one was. -/
theorem Segmented.respelled (hword : IsWord word)
    (hkind : Kind.ofWord (String.ofList word) = .identifier) (h : Segmented cs ss)
    (hss : List.Forall₂ (Segment.Respelled word) ss ss') :
    Segmented (ss'.map Segment.chars).flatten ss' := by
  induction h generalizing ss' with
  | nil =>
    cases hss
    exact .nil
  | cons hbegins hrest ih =>
    cases hss with
    | cons hs hss =>
      have hview := hrest.sameView hword hss
      cases hs with
      | same s => exact .cons (hbegins.congr hview) (ih hss)
      | identifier hw => exact .cons (hbegins.identifier_congr hview hword hkind) (ih hss)

theorem Segmented.respellFrom {sites : List Nat} (h : Segmented cs ss) (line site : Nat)
    (hsites : ∀ t ∈ Scan.tokensOf line site ss, t.site ∈ sites → t.kind = .identifier) :
    List.Forall₂ (Segment.Respelled word) ss (respellFrom sites word site ss) := by
  induction h generalizing line site with
  | nil => exact .nil
  | @cons s rest ss hbegins _ ih =>
    cases s with
    | token k w =>
      refine .cons ?_ (ih _ _ fun t ht => hsites t (List.mem_cons_of_mem _ ht))
      split
      · obtain rfl : k = .identifier := hsites _ List.mem_cons_self ‹_›
        exact .identifier hbegins.isWord
      · exact .same _
    | _ => exact .cons (.same _) (ih _ _ hsites)

end

/-! ## Tokens -/

/-- Words hold no line ends, and none is looked for in them. -/
theorem Segment.Respelled.lineAfter_eq {word : List Char} {s s' : Segment}
    (h : Segment.Respelled word s s') (line : Nat) : s.lineAfter line = s'.lineAfter line := by
  cases h <;> rfl

section

variable {sites : List Nat} {word : List Char} {ss : List Segment}

theorem Scan.tokensOf_respellFrom {site : Nat} (line : Nat)
    (h : List.Forall₂ (Segment.Respelled word) ss (respellFrom sites word site ss)) :
    tokensOf line site (respellFrom sites word site ss) =
      (tokensOf line site ss).map (Token.respelled sites (String.ofList word)) := by
  induction ss generalizing line site with
  | nil => rfl
  | cons s ss ih =>
    cases s with
    | token k w =>
      cases h with
      | cons hs h =>
        rw [respellFrom, tokensOf, tokensOf, ← hs.lineAfter_eq, List.map_cons, ih _ h]
        congr 1
        rw [Token.respelled]
        split <;> rfl
    | _ => cases h with
      | cons hs h => exact ih _ h

theorem Scan.errorsOf_respellFrom {site : Nat} (line : Nat)
    (h : List.Forall₂ (Segment.Respelled word) ss (respellFrom sites word site ss)) :
    errorsOf line (respellFrom sites word site ss) = errorsOf line ss := by
  induction ss generalizing line site with
  | nil => rfl
  | cons s ss ih =>
    cases s with
    | token k w => cases h with
      | cons hs h =>
        show errorsOf ((Segment.token _ _).lineAfter line) _ =
          errorsOf ((Segment.token k w).lineAfter line) ss
        rw [← hs.lineAfter_eq]
        exact ih _ h
    | unexpected | unterminated => cases h with
      | cons hs h => exact congrArg (List.cons _) (ih _ h)
    | _ => cases h with
      | cons hs h => exact ih _ h

theorem Scan.lineAtEnd_respelled {ss' : List Segment}
    (h : List.Forall₂ (Segment.Respelled word) ss ss') (line : Nat) :
    lineAtEnd line ss' = lineAtEnd line ss := by
  induction h generalizing line with
  | nil => rfl
  | cons hs _ ih => rw [lineAtEnd, lineAtEnd, hs.lineAfter_eq, ih]

end

/-- The new text has the same tokens on the same lines, but for those that were replaced. -/
theorem scan_respell {sites : List Nat} {word source : String} (hword : IsWord word.toList)
    (hkind : Kind.ofWord word = .identifier)
    (hsites : ∀ t ∈ (scan 0 source).tokens, t.site ∈ sites → t.kind = .identifier) :
    scan 0 (respell sites word source) =
      { scan 0 source with tokens := (scan 0 source).tokens.map (Token.respelled sites word) } := by
  have hcut := segmented_segments source.toList
  have hss : List.Forall₂ (Segment.Respelled word.toList) _ _ := hcut.respellFrom 1 0 hsites
  have hcut' := hcut.respelled hword (by rwa [String.ofList_toList]) hss
  have htokens := Scan.tokensOf_respellFrom 1 hss
  rw [String.ofList_toList] at htokens
  rw [scan, respell, String.toList_ofList, Scan.ofChars, ← segmented_iff.1 hcut', htokens,
    Scan.errorsOf_respellFrom 1 hss, Scan.lineAtEnd_respelled hss, List.length_map]
  rfl

end Lox
