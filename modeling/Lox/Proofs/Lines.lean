import Lox.Proofs.Lookahead

/-!
# Line by line

The scan raises its line counter at newlines and inside of strings only. These are all line ends
that there are, for none is in any other segment (`Begins.lineAfter_eq`): so the counter always
shows one more than the line ends passed (`Scan.lineAtEnd_segments`).

A line end cuts no segment but an open string (`segments_append_newline`). A text whose strings are
all closed can therefore be scanned up to a line end and from there on: the tokens and the errors
behind the line end are those of the rest alone, further down by the lines in front
(`scan_append_newline`).
-/

namespace Lox

/-! ## The line counter -/

def newlines (cs : List Char) : Nat := cs.count '\n'

theorem newlines_append (cs ds : List Char) : newlines (cs ++ ds) = newlines cs + newlines ds :=
  List.count_append

theorem newlines_eq_zero {cs : List Char} (h : '\n' ∉ cs) : newlines cs = 0 :=
  List.count_eq_zero.2 h

/-- Inside of a string every line end is counted. -/
theorem lineThrough_eq (line : Nat) (cs : List Char) :
    lineThrough line cs = line + newlines cs := by
  induction cs generalizing line with
  | nil => rfl
  | cons c cs ih =>
    rw [lineThrough, ih]
    by_cases hc : c = '\n'
    · rw [if_pos hc, hc, newlines, newlines, List.count_cons_self, Nat.add_assoc, Nat.add_comm 1]
    · rw [if_neg hc, newlines, newlines, List.count_cons_of_ne hc]

theorem newlines_operator {w : List Char} {k : Kind} (h : (w, k) ∈ operators) :
    newlines w = 0 ∧ k ≠ .string := by
  have hall : ∀ p ∈ operators, newlines p.1 = 0 ∧ p.2 ≠ .string := by decide
  exact hall _ h

theorem ne_newline_of_isWordChar {c : Char} (h : isWordChar c) : c ≠ '\n' :=
  (plain_of_isWordChar h).2.2.2.2.1

theorem IsDigits.ne_newline {w : List Char} (h : IsDigits w) : '\n' ∉ w := by
  intro hmem
  exact ne_newline_of_isWordChar (by simp [isWordChar, h.2 _ hmem]) rfl

theorem IsNumeral.newlines_eq {w : List Char} (h : IsNumeral w) : newlines w = 0 := by
  rcases h with hw | ⟨ds, fs, hds, hfs, rfl⟩
  · exact newlines_eq_zero hw.ne_newline
  · refine newlines_eq_zero fun hmem => ?_
    rcases List.mem_append.1 hmem with hmem | hmem
    · exact hds.ne_newline hmem
    · rcases List.mem_cons.1 hmem with heq | hmem
      · cases heq
      · exact hfs.ne_newline hmem

theorem IsWord.newlines_eq {w : List Char} (h : IsWord w) : newlines w = 0 := by
  obtain ⟨c, cs, rfl, hc, hcs⟩ := h
  refine newlines_eq_zero fun hmem => ?_
  rcases List.mem_cons.1 hmem with rfl | hmem
  · exact ne_newline_of_isWordChar (by simp [isWordChar, hc]) rfl
  · exact ne_newline_of_isWordChar (hcs _ hmem) rfl

theorem IsKindOfWord.ne_string {w : String} {k : Kind} (h : IsKindOfWord w k) : k ≠ .string := by
  rcases h with hk | ⟨rfl, -⟩
  · have hall : ∀ p ∈ Kind.keywords, p.2 ≠ .string := by decide
    exact hall _ hk
  · decide

theorem Segment.lineAfter_token {k : Kind} {w : List Char} (hk : k ≠ .string) (hw : newlines w = 0)
    (line : Nat) : (token k w).lineAfter line = line + newlines (token k w).chars := by
  rw [lineAfter, if_neg hk, chars, hw, Nat.add_zero]

/-- What is counted at a piece are the line ends in it. -/
theorem Piece.lineAfter_eq {cs : List Char} {s : Segment} (h : Piece cs s) (line : Nat) :
    s.lineAfter line = line + newlines s.chars := by
  cases h with
  | blank hc => rcases hc with rfl | rfl | rfl <;> rfl
  | newline => rfl
  | comment htext =>
    have hzero : newlines ('/' :: '/' :: _) = 0 := newlines_eq_zero (by simpa using htext)
    rw [Segment.lineAfter, Segment.chars, hzero, Nat.add_zero]
  | operator hw hk =>
    exact Segment.lineAfter_token (newlines_operator hk).2 (newlines_operator hk).1 line
  | number hw => exact Segment.lineAfter_token (by decide) hw.holds.newlines_eq line
  | word hw hk => exact Segment.lineAfter_token hk.ne_string hw.holds.newlines_eq line
  | string htext =>
    rw [Segment.lineAfter, if_pos rfl, lineThrough_eq]
    rfl
  | @unterminated text htext =>
    have hquote : newlines ('"' :: text) = newlines text := List.count_cons_of_ne (by decide)
    rw [Segment.lineAfter, lineThrough_eq, Segment.chars, hquote]

/-- A line end alone is a piece, so that it is not unexpected. -/
theorem newlines_unexpected {c : Char} (h : ∀ r s, ¬ Piece (c :: r) s) : newlines [c] = 0 := by
  refine newlines_eq_zero fun hmem => ?_
  obtain rfl := List.mem_singleton.1 hmem
  exact h [] _ .newline

theorem Begins.lineAfter_eq {cs : List Char} {s : Segment} (h : Begins cs s) (line : Nat) :
    s.lineAfter line = line + newlines s.chars := by
  cases h with
  | piece h => exact h.lineAfter_eq line
  | unexpected hnone =>
    rw [Segment.lineAfter, Segment.chars, newlines_unexpected hnone, Nat.add_zero]

namespace Scan

/-- **The line counter.** At each place between two segments it shows how many line ends have been
passed. -/
theorem lineAtEnd_eq {ss : List Segment} (h : ∀ s ∈ ss, ∃ r, Begins r s) (line : Nat) :
    lineAtEnd line ss = line + newlines (ss.map Segment.chars).flatten := by
  induction ss generalizing line with
  | nil => rfl
  | cons s ss ih =>
    obtain ⟨r, hs⟩ := h s List.mem_cons_self
    rw [lineAtEnd, ih (fun s' hs' => h s' (List.mem_cons_of_mem _ hs')), hs.lineAfter_eq,
      List.map_cons, List.flatten_cons, newlines_append, Nat.add_assoc]

theorem lineAtEnd_segments (line : Nat) (cs : List Char) :
    lineAtEnd line (segments cs) = line + newlines cs := by
  rw [lineAtEnd_eq (fun s hs => (segmented_segments cs).begins hs), segments_flatten]

end Scan

/-! ## Segments -/

theorem Covers.append_newline (a r : List Char) : Covers a (a ++ '\n' :: r) := by
  intro c hc
  cases a with
  | nil =>
    cases hc
    exact .inl rfl
  | cons d a => exact .inr (.inl hc)

/-- A line end makes nothing longer. -/
theorem NoLonger.append_newline (a r : List Char) : NoLonger a (a ++ '\n' :: r) where
  front := .append_newline a r
  point := by
    rintro q q' rfl hq'
    obtain rfl : q ++ '\n' :: r = q' := (List.cons.inj hq').2
    exact .append_newline q r

theorem Begins.append_newline {s : Segment} {rest : List Char} (h : Begins (s.chars ++ rest) s)
    (hclosed : ∀ text, s ≠ .unterminated text) (r : List Char) :
    Begins (s.chars ++ (rest ++ '\n' :: r)) s := by
  generalize hcs : s.chars ++ rest = cs at h
  cases h with
  | unexpected hnone => exact .unexpected hnone
  | piece h =>
    cases s with
    | token k w =>
      subst hcs
      exact .piece (h.token_congr (.append_newline rest r))
    | comment text =>
      cases h with
      | comment htext hrest =>
        obtain rfl : rest = _ := by simpa [Segment.chars] using hcs
        refine .piece (.comment htext fun c hc => ?_)
        cases rest with
        | nil => simpa using hc.symm
        | cons d rest => exact hrest c hc
    | blank c =>
      cases h with
      | blank hc => exact .piece (.blank hc)
    | newline => exact .piece .newline
    | unexpected c => cases h
    | unterminated text => exact absurd rfl (hclosed text)

theorem Segmented.append_newline {cs r : List Char} {ss rs : List Segment} (h : Segmented cs ss)
    (hclosed : ∀ text, .unterminated text ∉ ss) (hr : Segmented r rs) :
    Segmented (cs ++ '\n' :: r) (ss ++ .newline :: rs) := by
  induction h with
  | nil => exact .cons (s := .newline) (.piece .newline) hr
  | @cons s rest ss hbegins _ ih =>
    have hs : ∀ text, s ≠ .unterminated text := fun text h => hclosed text (h ▸ List.mem_cons_self)
    rw [List.append_assoc]
    exact .cons (hbegins.append_newline hs r)
      (ih fun text ht => hclosed text (List.mem_cons_of_mem _ ht))

/-- A line end cuts a text between two segments, unless it is in an open string. -/
theorem segments_append_newline {cs : List Char}
    (h : ∀ text, Segment.unterminated text ∉ segments cs) (ds : List Char) :
    segments (cs ++ '\n' :: ds) = segments cs ++ .newline :: segments ds :=
  (segmented_iff.1 ((segmented_segments cs).append_newline h (segmented_segments ds))).symm

/-! ## Tokens -/

/-- The token a number of lines further down. -/
def Token.shift (j : Nat) (t : Token) : Token := { t with line := t.line + j }

theorem Token.shift_zero (t : Token) : t.shift 0 = t := rfl

theorem Token.shift_shift (i j : Nat) (t : Token) : (t.shift i).shift j = t.shift (j + i) := by
  rw [shift, shift, shift, Nat.add_assoc, Nat.add_comm j i]

def StaticError.shift (j : Nat) (e : StaticError) : StaticError := { e with line := e.line + j }

namespace Scan

theorem tokensOf_append (line k : Nat) (ss ts : List Segment) : tokensOf line k (ss ++ ts) =
    tokensOf line k ss ++ tokensOf (lineAtEnd line ss) (k + (tokensOf line k ss).length) ts := by
  induction ss generalizing line k with
  | nil => rfl
  | cons s ss ih =>
    cases s with
    | token kind lexeme =>
      rw [List.cons_append, tokensOf, tokensOf, ih, List.cons_append, List.length_cons,
        Nat.add_right_comm k 1, Nat.add_assoc k]
      rfl
    | _ => exact ih _ _

theorem errorsOf_append (line : Nat) (ss ts : List Segment) : errorsOf line (ss ++ ts) =
    errorsOf line ss ++ errorsOf (lineAtEnd line ss) ts := by
  induction ss generalizing line with
  | nil => rfl
  | cons s ss ih =>
    cases s with
    | unexpected c => exact congrArg (_ :: ·) (ih _)
    | unterminated text => exact congrArg (_ :: ·) (ih _)
    | _ => exact ih _

theorem lineAfter_shift (line j : Nat) (s : Segment) :
    s.lineAfter (line + j) = s.lineAfter line + j := by
  cases s with
  | newline => exact Nat.add_right_comm line j 1
  | token k w =>
    rw [Segment.lineAfter, Segment.lineAfter]
    split
    · rw [lineThrough_eq, lineThrough_eq, Nat.add_right_comm]
    · rfl
  | unterminated text =>
    rw [Segment.lineAfter, Segment.lineAfter, lineThrough_eq, lineThrough_eq, Nat.add_right_comm]
  | _ => rfl

theorem tokensOf_shift (line j k : Nat) (ss : List Segment) :
    tokensOf (line + j) k ss = (tokensOf line k ss).map (Token.shift j) := by
  induction ss generalizing line k with
  | nil => rfl
  | cons s ss ih =>
    cases s with
    | token kind lexeme =>
      simp only [tokensOf, List.map_cons, lineAfter_shift, ih]
      rfl
    | _ => simp only [tokensOf, lineAfter_shift, ih]

theorem errorsOf_shift (line j : Nat) (ss : List Segment) :
    errorsOf (line + j) ss = (errorsOf line ss).map (StaticError.shift j) := by
  induction ss generalizing line with
  | nil => rfl
  | cons s ss ih =>
    cases s with
    | unexpected | unterminated =>
      simp only [errorsOf, List.map_cons, lineAfter_shift, ih]
      rfl
    | _ => simp only [errorsOf, lineAfter_shift, ih]

theorem errorsOf_eq_nil_iff (line : Nat) (ss : List Segment) : errorsOf line ss = [] ↔
    ∀ s ∈ ss, (∀ c, s ≠ .unexpected c) ∧ ∀ text, s ≠ .unterminated text := by
  induction ss generalizing line with
  | nil => simp [errorsOf]
  | cons s ss ih => cases s <;> simp [errorsOf, ih]

end Scan

theorem Scan.tokensOf_newline (line k : Nat) (ss : List Segment) :
    tokensOf line k (.newline :: ss) = tokensOf (line + 1) k ss := rfl

theorem Scan.errorsOf_newline (line : Nat) (ss : List Segment) :
    errorsOf line (.newline :: ss) = errorsOf (line + 1) ss := rfl

/-- Scanning goes on behind a line end as at the start of a text. -/
theorem Scan.ofChars_append_newline {cs : List Char}
    (h : ∀ text, Segment.unterminated text ∉ segments cs) (k : Nat) (ds : List Char) :
    let first := ofChars k cs
    let second := ofChars (k + first.tokens.length) ds
    ofChars k (cs ++ '\n' :: ds) =
      { tokens := first.tokens ++ second.tokens.map (Token.shift (newlines cs + 1))
        eof := second.eof.shift (newlines cs + 1)
        errors := first.errors ++ second.errors.map (StaticError.shift (newlines cs + 1)) } := by
  have htokens : tokensOf 1 k (segments (cs ++ '\n' :: ds)) = tokensOf 1 k (segments cs) ++
      (tokensOf 1 (k + (tokensOf 1 k (segments cs)).length) (segments ds)).map
          (Token.shift (newlines cs + 1)) := by
    rw [segments_append_newline h, tokensOf_append, tokensOf_newline, lineAtEnd_segments,
      Nat.add_assoc 1, tokensOf_shift]
  have herrors : errorsOf 1 (segments (cs ++ '\n' :: ds)) = errorsOf 1 (segments cs) ++
      (errorsOf 1 (segments ds)).map (StaticError.shift (newlines cs + 1)) := by
    rw [segments_append_newline h, errorsOf_append, errorsOf_newline, lineAtEnd_segments,
      Nat.add_assoc 1, errorsOf_shift]
  have hend : lineAtEnd 1 (segments (cs ++ '\n' :: ds)) =
      lineAtEnd 1 (segments ds) + (newlines cs + 1) := by
    simp only [lineAtEnd_segments, newlines, List.count_append, List.count_cons_self]
    omega
  simp only [ofChars, htokens, herrors, hend, List.length_append, List.length_map, Token.shift,
    Nat.add_assoc]

/-- An open string is reported. -/
theorem Scan.exists_unterminated {cs text : List Char} (h : .unterminated text ∈ segments cs)
    (k : Nat) :
    ∃ e ∈ (ofChars k cs).errors, e.complaint = .unterminatedString := by
  have hmem : Complaint.unterminatedString ∈ (segments cs).filterMap Segment.complaint? :=
    List.mem_filterMap.2 ⟨_, h, rfl⟩
  rw [← map_errorsOf 1] at hmem
  obtain ⟨e, he, hcomplaint⟩ := List.mem_map.1 hmem
  exact ⟨e, he, hcomplaint⟩

/-- **Scanning goes line by line.** Behind a line end that is in no open string, a text is scanned
as if it started there. Its tokens with the end of the text, and its errors, follow those of the
text in front, and all that changes about them is that they are further down: by the line ends in
the text in front, and by the one between. -/
theorem scan_append_newline (site : Nat) (source source' : String)
    (h : ∀ e ∈ (scan site source).errors, e.complaint ≠ .unterminatedString) :
    let first := scan site source
    let second := scan (site + first.tokens.length) source'
    let down := newlines source.toList + 1
    (scan site (source ++ "\n" ++ source')).all =
      first.tokens ++ second.all.map (Token.shift down) ∧
      (scan site (source ++ "\n" ++ source')).errors =
        first.errors ++ second.errors.map (StaticError.shift down) := by
  have hclosed : ∀ text, Segment.unterminated text ∉ segments source.toList := by
    intro text ht
    obtain ⟨e, he, hcomplaint⟩ := Scan.exists_unterminated ht site
    exact h e he hcomplaint
  have hjoined : (source ++ "\n" ++ source').toList = source.toList ++ '\n' :: source'.toList := by
    simp [String.toList_append]
  have hscan := Scan.ofChars_append_newline hclosed site source'.toList
  intro first second down
  rw [scan, hjoined, hscan]
  exact ⟨by simp [Scan.all, first, second, down, scan], rfl⟩

/-- A text with an unexpected character, a comment, a string over two lines and a numeral without
fraction, and one that ends in an open string. -/
def halves : String × String := ("a@ // \"x\n\"b\nc\" 1.", "5 + \"d\n\"\"")

/-- The point stays apart from the digit on the next line. -/
theorem scan_append_newline_halves :
    (∀ e ∈ (scan 0 halves.1).errors, e.complaint ≠ .unterminatedString) ∧
      (scan 0 (halves.1 ++ "\n" ++ halves.2)).all.map (fun t => (t.lexeme, t.line)) =
        [("a", 1), ("\"b\nc\"", 3), ("1", 3), (".", 3), ("5", 4), ("+", 4), ("\"d\n\"", 5),
          ("", 5)] ∧
      (scan 0 (halves.1 ++ "\n" ++ halves.2)).errors =
        [⟨1, .unstated, .unexpectedCharacter⟩, ⟨5, .unstated, .unterminatedString⟩] := by
  have hclosed : ∀ e ∈ (scan 0 halves.1).errors, e.complaint ≠ .unterminatedString := by
    decide +kernel
  obtain ⟨hall, herrors⟩ := scan_append_newline 0 halves.1 halves.2 hclosed
  rw [hall, herrors]
  exact ⟨hclosed, by decide +kernel, by decide +kernel⟩

end Lox
