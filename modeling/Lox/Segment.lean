import Lox.Token

/-!
# Segments

Scanning cuts a text into segments without losing a character: blanks, newlines, comments, tokens,
single unexpected characters, and at most one string that the text ends in. `Segment.first` reads
the segment a text begins with, `segments` the whole list, and `segments_flatten` says that the
segments put together are the text. Tokens, errors and lines are read off this list.
-/

namespace Lox

def isDigit (c : Char) : Bool := '0' ≤ c && c ≤ '9'

/-- Letters are the unaccented ones and the underscore. -/
def isLetter (c : Char) : Bool := ('a' ≤ c && c ≤ 'z') || ('A' ≤ c && c ≤ 'Z') || c == '_'

def isWordChar (c : Char) : Bool := isLetter c || isDigit c

def isBlank (c : Char) : Bool := c == ' ' || c == '\r' || c == '\t'

/-- A piece of a text. -/
inductive Segment where
  | blank (c : Char)
  | newline
  /-- Two slashes and the rest of the line; `text` is what follows the slashes. -/
  | comment (text : List Char)
  | token (kind : Kind) (lexeme : List Char)
  | unexpected (c : Char)
  /-- An opening quote without a closing one; `text` is what follows it. -/
  | unterminated (text : List Char)
  deriving DecidableEq, Repr

namespace Segment

def chars : Segment → List Char
  | blank c => [c]
  | newline => ['\n']
  | comment text => '/' :: '/' :: text
  | token _ lexeme => lexeme
  | unexpected c => [c]
  | unterminated text => '"' :: text

/-- The digits of a numeral behind its first one: a point belongs to it only if a digit follows. -/
def numeralRest (cs : List Char) : List Char :=
  cs.takeWhile isDigit ++
    match cs.dropWhile isDigit with
    | '.' :: d :: r => if isDigit d then '.' :: d :: r.takeWhile isDigit else []
    | _ => []

/-- The string that begins with the quote in front of `cs`. -/
def quoted (cs : List Char) : Segment :=
  if (cs.takeWhile (· ≠ '"')).length < cs.length then
    token .string ('"' :: cs.takeWhile (· ≠ '"') ++ ['"'])
  else unterminated cs

/-- The segment that begins with the slash in front of `cs`. -/
def slash (cs : List Char) : Segment :=
  match cs with
  | '/' :: r => comment (r.takeWhile (· ≠ '\n'))
  | _ => token .slash ['/']

/-- The segment that the text `c :: cs` begins with. -/
def first (c : Char) (cs : List Char) : Segment :=
  match Kind.ofSymbol? c, Kind.ofPair? c with
  | some k, _ => token k [c]
  | none, some (alone, withEqual) =>
    if cs.head? = some '=' then token withEqual [c, '='] else token alone [c]
  | none, none =>
    if c = '/' then slash cs
    else if isBlank c then blank c
    else if c = '\n' then newline
    else if c = '"' then quoted cs
    else if isDigit c then token .number (c :: numeralRest cs)
    else if isLetter c then
      let word := c :: cs.takeWhile isWordChar
      token (Kind.ofWord (String.ofList word)) word
    else unexpected c

end Segment

/-- The segments of the text that is left when `skip` more characters are passed over. Those are the
rest of the segment read last, so every character is visited once. -/
def segmentsFrom : Nat → List Char → List Segment
  | _, [] => []
  | skip + 1, _ :: cs => segmentsFrom skip cs
  | 0, c :: cs =>
    let s := Segment.first c cs
    s :: segmentsFrom (s.chars.length - 1) cs

def segments (cs : List Char) : List Segment := segmentsFrom 0 cs

/-! ## Nothing is lost -/

namespace Segment

theorem isPrefix_numeralRest (cs : List Char) : numeralRest cs <+: cs := by
  have whole : cs.takeWhile isDigit ++ cs.dropWhile isDigit = cs := List.takeWhile_append_dropWhile
  unfold numeralRest
  split
  · rename_i d r h
    rw [h] at whole
    split
    · conv => rhs; rw [← whole]
      exact List.prefix_append_right_inj _ |>.2
        (List.prefix_cons_inj _ |>.2 (List.prefix_cons_inj _ |>.2 ( List.takeWhile_prefix _)))
    · simpa using List.takeWhile_prefix isDigit
  · simpa using List.takeWhile_prefix isDigit

theorem isPrefix_quoted (cs : List Char) : (quoted cs).chars <+: '"' :: cs := by
  have whole : cs.takeWhile (· ≠ '"') ++ cs.dropWhile (· ≠ '"') = cs :=
    List.takeWhile_append_dropWhile
  unfold quoted
  split
  · rename_i h
    cases hd : cs.dropWhile (· ≠ '"') with
    | nil =>
      rw [hd, List.append_nil] at whole
      rw [whole] at h
      omega
    | cons q r =>
      have hq : q = '"' := by
        have stop := List.head?_dropWhile_not (· ≠ '"') cs
        rw [hd] at stop
        simpa using stop
      rw [hd, hq] at whole
      refine ⟨r, ?_⟩
      simpa [chars] using whole
  · simp [chars]

theorem isPrefix_slash (cs : List Char) : (slash cs).chars <+: '/' :: cs := by
  unfold slash
  split
  · exact List.prefix_cons_inj _ |>.2 (List.prefix_cons_inj _ |>.2 ( List.takeWhile_prefix _))
  · exact ⟨_, rfl⟩

/-- The first segment of a text is the beginning of that text. -/
theorem isPrefix_first (c : Char) (cs : List Char) : (first c cs).chars <+: c :: cs := by
  unfold first
  split
  · simp [chars]
  · split
    · rename_i h
      obtain ⟨r, rfl⟩ := List.head?_eq_some_iff.1 h
      simp [chars]
    · simp [chars]
  · repeat' split
    · subst_vars; exact isPrefix_slash cs
    · simp [chars]
    · subst_vars; simp [chars]
    · subst_vars; exact isPrefix_quoted cs
    · exact List.prefix_cons_inj _ |>.2 (isPrefix_numeralRest cs)
    · exact List.prefix_cons_inj _ |>.2 ( List.takeWhile_prefix _)
    · simp [chars]

theorem chars_quoted_ne_nil (cs : List Char) : (quoted cs).chars ≠ [] := by
  unfold quoted; split <;> simp [chars]

theorem chars_slash_ne_nil (cs : List Char) : (slash cs).chars ≠ [] := by
  unfold slash; split <;> simp [chars]

theorem chars_first_ne_nil (c : Char) (cs : List Char) : (first c cs).chars ≠ [] := by
  unfold first
  split
  · simp [chars]
  · split <;> simp [chars]
  · repeat' split
    · exact chars_slash_ne_nil cs
    · simp [chars]
    · simp [chars]
    · exact chars_quoted_ne_nil cs
    · simp [chars]
    · simp [chars]
    · simp [chars]

end Segment

theorem segmentsFrom_eq_drop (n : Nat) (cs : List Char) :
    segmentsFrom n cs = segments (cs.drop n) := by
  induction cs generalizing n with
  | nil => cases n <;> rfl
  | cons c cs ih =>
    cases n with
    | zero => rfl
    | succ n => exact ih n

/-- Reading goes on where the first segment ends. -/
theorem segments_cons (c : Char) (cs : List Char) :
    segments (c :: cs) =
      Segment.first c cs :: segments ((c :: cs).drop (Segment.first c cs).chars.length) := by
  have pos : 0 < (Segment.first c cs).chars.length :=
    List.length_pos_iff.2 (Segment.chars_first_ne_nil c cs)
  rw [show (Segment.first c cs).chars.length = (Segment.first c cs).chars.length - 1 + 1 by omega]
  exact congrArg _ (segmentsFrom_eq_drop _ cs)

/-- The segments of a text, put together, are the text. -/
theorem segments_flatten (cs : List Char) : ((segments cs).map Segment.chars).flatten = cs := by
  induction h : cs.length using Nat.strongRecOn generalizing cs with
  | ind n ih =>
    cases cs with
    | nil => rfl
    | cons c cs =>
      obtain ⟨rest, whole⟩ := Segment.isPrefix_first c cs
      have pos : 0 < (Segment.first c cs).chars.length :=
        List.length_pos_iff.2 (Segment.chars_first_ne_nil c cs)
      have len := congrArg List.length whole
      rw [List.length_append, h] at len
      rw [segments_cons, ← whole, List.drop_left, List.map_cons, List.flatten_cons,
        ih rest.length (by omega) rest rfl]

end Lox
