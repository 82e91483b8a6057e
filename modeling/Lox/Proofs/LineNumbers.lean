import Lox.Proofs.Lines

/-!
# Line numbers

A token is on the line on which it ends, and an error on the line of its character, or of the end of
the text for an open string. `Segment.At` tells where in the text a segment stands. What the line
counter shows there are the line ends up to that place (`Segment.At.lineAtEnd`), so the lines of
tokens and errors are those of their places (`getElem?_tokensOf`, `getElem?_errorsOf`) and never go
down (`scan_lines`).
-/

namespace Lox

namespace Segment

def joined (ss : List Segment) : List Char := (ss.map chars).flatten

/-- Of the segments of which `sort?` tells something, `s` is the one at `i`, and `front` is the text
in front of it. -/
def At {β : Type} (sort? : Segment → Option β) (ss : List Segment) (i : Nat) (front : List Char)
    (s : Segment) :
    Prop :=
  ∃ before after, ss = before ++ s :: after ∧ (before.filterMap sort?).length = i ∧
    joined before = front

theorem exists_at {β : Type} {sort? : Segment → Option β} {ss : List Segment} {i : Nat} {b : β}
    (h : (ss.filterMap sort?)[i]? = some b) : ∃ front s, At sort? ss i front s ∧
    sort? s = some b := by
  induction ss generalizing i with
  | nil => cases h
  | cons s ss ih =>
    cases hs : sort? s with
    | none =>
      rw [List.filterMap_cons_none hs] at h
      obtain ⟨front, s', ⟨before, after, hss, hi, -⟩, hb⟩ := ih h
      exact ⟨_, s',
        ⟨s :: before, after, by rw [hss, List.cons_append], by rwa [List.filterMap_cons_none hs],
        rfl⟩, hb⟩
    | some b' =>
      rw [List.filterMap_cons_some hs] at h
      cases i with
      | zero =>
        obtain rfl : b' = b := by simpa using h
        exact ⟨[], s, ⟨[], ss, rfl, rfl, rfl⟩, hs⟩
      | succ i =>
        obtain ⟨front, s', ⟨before, after, hss, hi, -⟩, hb⟩ := ih h
        refine ⟨_, s', ⟨s :: before, after, by rw [hss, List.cons_append], ?_, rfl⟩, hb⟩
        rw [List.filterMap_cons_some hs, List.length_cons, hi]

end Segment

open Segment

/-- The counter in front of a segment, and behind it. -/
theorem Segment.At.lineAtEnd {β : Type} {sort? : Segment → Option β} {cs : List Char} {i : Nat}
    {front : List Char} {s : Segment} (h : At sort? (segments cs) i front s) (line : Nat) :
    ∃ before after, segments cs = before ++ s :: after ∧ (before.filterMap sort?).length = i ∧
      Scan.lineAtEnd line before = line + newlines front ∧
      s.lineAfter (line + newlines front) = line + newlines (front ++ s.chars) := by
  obtain ⟨before, after, hss, hi, rfl⟩ := h
  have hbegins : ∀ s' ∈ before ++ s :: after, ∃ r, Begins r s' := by
    rw [← hss]
    exact fun s' hs' => (segmented_segments cs).begins hs'
  obtain ⟨r, hs⟩ := hbegins s (by simp)
  refine ⟨before, after, hss, hi, ?_, ?_⟩
  · exact Scan.lineAtEnd_eq (fun s' hs' => hbegins s' (by simp [hs'])) line
  · rw [hs.lineAfter_eq, newlines_append, Nat.add_assoc]

namespace Scan

/-! ## Lines and places -/

theorem getElem?_tokensOf {line site i : Nat} {cs front w : List Char} {k : Kind}
    (h : At Segment.token? (segments cs) i front (.token k w)) :
    (tokensOf line site (segments cs))[i]? =
      some ⟨k, String.ofList w, line + newlines (front ++ w), site + i⟩ := by
  obtain ⟨before, after, hss, hi, hfront, hbehind⟩ := h.lineAtEnd line
  have hlength : (tokensOf line site before).length = i := by
    rw [← hi, ← map_tokensOf line site, List.length_map]
  rw [hss, tokensOf_append, hlength, List.getElem?_append_right (Nat.le_of_eq hlength), hlength,
    Nat.sub_self, tokensOf, hfront, hbehind]
  rfl

theorem getElem?_errorsOf {line i : Nat} {cs front : List Char} {s : Segment} {c : Complaint}
    (h : At Segment.complaint? (segments cs) i front s) (hs : s.complaint? = some c) :
    (errorsOf line (segments cs))[i]? =
      some ⟨line + newlines (front ++ s.chars), .unstated, c⟩ := by
  obtain ⟨before, after, hss, hi, hfront, hbehind⟩ := h.lineAtEnd line
  have hlength : (errorsOf line before).length = i := by
    rw [← hi, ← map_errorsOf line, List.length_map]
  rw [hss, errorsOf_append, List.getElem?_append_right (Nat.le_of_eq hlength), hlength,
    Nat.sub_self, hfront, ← hbehind]
  cases s with
  | unexpected | unterminated =>
    cases hs
    rfl
  | _ => cases hs

/-- Every token has its place. -/
theorem exists_at_of_getElem?_tokensOf {line site i : Nat} {ss : List Segment} {t : Token}
    (h : (tokensOf line site ss)[i]? = some t) :
    ∃ front k w, At Segment.token? ss i front (.token k w) := by
  have hmap : (ss.filterMap Segment.token?)[i]? = some (t.kind, t.lexeme) := by
    rw [← map_tokensOf line site, List.getElem?_map, h]
    rfl
  obtain ⟨front, s, hat, hs⟩ := exists_at hmap
  cases s with
  | token k w => exact ⟨front, k, w, hat⟩
  | _ => cases hs

/-- Every error has its place. -/
theorem exists_at_of_getElem?_errorsOf {line i : Nat} {ss : List Segment} {e : StaticError}
    (h : (errorsOf line ss)[i]? = some e) :
    ∃ front s, At Segment.complaint? ss i front s ∧ s.complaint? = some e.complaint := by
  have hmap : (ss.filterMap Segment.complaint?)[i]? = some e.complaint := by
    rw [← map_errorsOf line, List.getElem?_map, h]
    rfl
  exact exists_at hmap

/-! ## The order of lines -/

/-- What the counter shows behind each of the segments. -/
def linesAfter : Nat → List Segment → List Nat
  | _, [] => []
  | line, s :: ss => s.lineAfter line :: linesAfter (s.lineAfter line) ss

theorem le_lineAfter (line : Nat) (s : Segment) : line ≤ s.lineAfter line := by
  cases s with
  | newline => exact Nat.le_succ line
  | token k w =>
    rw [Segment.lineAfter]
    split
    · rw [lineThrough_eq]
      exact Nat.le_add_right line _
    · exact Nat.le_refl line
  | unterminated text =>
    rw [Segment.lineAfter, lineThrough_eq]
    exact Nat.le_add_right line _
  | _ => exact Nat.le_refl line

theorem le_lineAtEnd (line : Nat) (ss : List Segment) : line ≤ lineAtEnd line ss := by
  induction ss generalizing line with
  | nil => exact Nat.le_refl line
  | cons s ss ih => exact (le_lineAfter line s).trans (ih _)

theorem le_of_mem_linesAfter {line n : Nat} {ss : List Segment} (h : n ∈ linesAfter line ss) :
    line ≤ n ∧ n ≤ lineAtEnd line ss := by
  induction ss generalizing line with
  | nil => cases h
  | cons s ss ih =>
    have hs := le_lineAfter line s
    rcases List.mem_cons.1 h with rfl | h
    · exact ⟨hs, le_lineAtEnd _ ss⟩
    · exact ⟨hs.trans (ih h).1, (ih h).2⟩

theorem pairwise_linesAfter (line : Nat) (ss : List Segment) :
    (linesAfter line ss).Pairwise (· ≤ ·) := by
  induction ss generalizing line with
  | nil => exact .nil
  | cons s ss ih => exact .cons (fun n hn => (le_of_mem_linesAfter hn).1) (ih _)

theorem lines_tokensOf (line site : Nat) (ss : List Segment) :
    ((tokensOf line site ss).map Token.line).Sublist (linesAfter line ss) := by
  induction ss generalizing line site with
  | nil => exact .slnil
  | cons s ss ih =>
    cases s with
    | token k w => exact (ih _ _).cons_cons _
    | _ => exact (ih _ _).cons _

theorem lines_errorsOf (line : Nat) (ss : List Segment) :
    ((errorsOf line ss).map StaticError.line).Sublist (linesAfter line ss) := by
  induction ss generalizing line with
  | nil => exact .slnil
  | cons s ss ih =>
    cases s with
    | unexpected | unterminated => exact (ih _).cons_cons _
    | _ => exact (ih _).cons _

end Scan

/-! ## Whole texts -/

section

variable {cs front : List Char} {i : Nat}

/-- An open string goes to the end of the text. -/
theorem Segment.At.unterminated {text : List Char}
    (h : At Segment.complaint? (segments cs) i front (.unterminated text)) :
    front ++ (Segment.unterminated text).chars = cs := by
  obtain ⟨before, after, hss, -, rfl⟩ := h
  obtain rfl := (segmented_segments cs).eq_nil_of_unterminated hss
  conv => rhs; rw [← segments_flatten cs, hss]
  simp [joined]

/-- An unexpected character is on the line of the text in front of it. -/
theorem Scan.line_unexpected {c : Char}
    (h : At Segment.complaint? (segments cs) i front (.unexpected c)) :
    (errorsOf 1 (segments cs))[i]? =
      some ⟨1 + newlines front, .unstated, .unexpectedCharacter⟩ := by
  obtain ⟨-, -, -, -, -, hbehind⟩ := h.lineAtEnd 1
  rw [getElem?_errorsOf h rfl, ← hbehind]
  rfl

/-- An open string is on the line of the end of the text. -/
theorem Scan.line_unterminated {text : List Char}
    (h : At Segment.complaint? (segments cs) i front (.unterminated text)) :
    (errorsOf 1 (segments cs))[i]? = some ⟨1 + newlines cs, .unstated, .unterminatedString⟩ := by
  rw [getElem?_errorsOf h rfl, h.unterminated]

end

/-- The tokens of a text with the lines of their places. -/
theorem Scan.getElem?_tokens_iff (site : Nat) (cs : List Char) (i : Nat) (t : Token) :
    (ofChars site cs).tokens[i]? = some t ↔
      ∃ front k w, At Segment.token? (segments cs) i front (.token k w) ∧
      t = ⟨k, String.ofList w, 1 + newlines (front ++ w), site + i⟩ := by
  constructor
  · intro h
    obtain ⟨front, k, w, hat⟩ := exists_at_of_getElem?_tokensOf h
    exact ⟨front, k, w, hat, Option.some.inj (h.symm.trans (getElem?_tokensOf hat))⟩
  · rintro ⟨front, k, w, hat, rfl⟩
    exact getElem?_tokensOf hat

/-- The errors of a text with the lines of their places. -/
theorem Scan.getElem?_errors_iff (site : Nat) (cs : List Char) (i : Nat) (e : StaticError) :
    (ofChars site cs).errors[i]? = some e ↔ ∃ front,
      (∃ c, At Segment.complaint? (segments cs) i front (.unexpected c) ∧
        e = ⟨1 + newlines front, .unstated, .unexpectedCharacter⟩) ∨
      (∃ text, At Segment.complaint? (segments cs) i front (.unterminated text) ∧
        e = ⟨1 + newlines cs, .unstated, .unterminatedString⟩) := by
  constructor
  · intro h
    obtain ⟨front, s, hat, hs⟩ := exists_at_of_getElem?_errorsOf h
    cases s with
    | unexpected c =>
      exact ⟨front, .inl ⟨c, hat, Option.some.inj (h.symm.trans (line_unexpected hat))⟩⟩
    | unterminated text =>
      exact ⟨front, .inr ⟨text, hat, Option.some.inj (h.symm.trans (line_unterminated hat))⟩⟩
    | _ => cases hs
  · rintro ⟨front, ⟨c, hat, rfl⟩ | ⟨text, hat, rfl⟩⟩
    · exact line_unexpected hat
    · exact line_unterminated hat

theorem Scan.pairwise_lines_all (site : Nat) (cs : List Char) :
    ((ofChars site cs).all.map Token.line).Pairwise (· ≤ ·) := by
  have hsub := lines_tokensOf 1 site (segments cs)
  rw [all, List.map_append, List.pairwise_append]
  refine ⟨(pairwise_linesAfter 1 _).sublist hsub, List.pairwise_singleton _ _,
    fun n hn last hlast => ?_⟩
  obtain rfl := List.mem_singleton.1 hlast
  exact (le_of_mem_linesAfter (hsub.mem hn)).2

/-- **Line numbers are exact.** A text is cut into segments in one way only. The tokens are its
token segments in order, each on the line that the text up to its last character has reached; the
end of the text is on the line that the whole text has reached. The errors are the unexpected
characters in order, each on the line that the text in front of it has reached, and perhaps an open
string, on the line of the end of the text. So neither the lines of the tokens nor those of the
errors ever go down. -/
theorem scan_lines (site : Nat) (source : String) :
    ∃ ss, (∀ ss', Segmented source.toList ss' ↔ ss' = ss) ∧ joined ss = source.toList ∧
      (∀ i t, (scan site source).tokens[i]? = some t ↔
        ∃ front k w, At Segment.token? ss i front (.token k w) ∧
          t = ⟨k, String.ofList w, 1 + newlines (front ++ w), site + i⟩) ∧
      (scan site source).eof.line = 1 + newlines source.toList ∧
      (∀ i e, (scan site source).errors[i]? = some e ↔ ∃ front,
        (∃ c, At Segment.complaint? ss i front (.unexpected c) ∧
          e = ⟨1 + newlines front, .unstated, .unexpectedCharacter⟩) ∨
        (∃ text, At Segment.complaint? ss i front (.unterminated text) ∧
          e = ⟨(scan site source).eof.line, .unstated, .unterminatedString⟩)) ∧
      ((scan site source).all.map Token.line).Pairwise (· ≤ ·) ∧
      ((scan site source).errors.map StaticError.line).Pairwise (· ≤ ·) := by
  have heof : (scan site source).eof.line = 1 + newlines source.toList :=
    Scan.lineAtEnd_segments 1 _
  rw [heof]
  exact ⟨segments source.toList, fun _ => segmented_iff, segments_flatten _,
    Scan.getElem?_tokens_iff site _, rfl, Scan.getElem?_errors_iff site _,
    Scan.pairwise_lines_all site _,
    (Scan.pairwise_linesAfter 1 _).sublist (Scan.lines_errorsOf 1 _)⟩

/-- Line ends count behind a comment and inside of strings, closed or not. -/
example :
    (scan 0 "a // b\n\"c\nd\" @\n\"e\n").all.map (fun t => (t.lexeme, t.line)) =
      [("a", 1), ("\"c\nd\"", 3), ("", 5)] ∧
    (scan 0 "a // b\n\"c\nd\" @\n\"e\n").errors.map (fun e => (e.line, e.message)) =
      [(3, "Unexpected character."), (5, "Unterminated string.")] := by decide +kernel

end Lox
