import Lox.Proofs.Lookahead

/-!
# Spacing

The lexemes of a text can be written down again with anything between them that begins with a blank
or a line end and goes on with blanks, line ends and comments. `Spaced ws cs` says that `cs` is such
a text for the lexemes `ws`. A token is cut off by whatever keeps it apart from the next one, so the
new text is cut into the same tokens (`Spaced.segmented`), and nothing in it is an error
(`scan_spaced`).
-/

namespace Lox

/-! ## Separators -/

/-- Blanks, line ends, and comments with the line ends behind them. -/
inductive IsFilling : List Char → Prop where
  | nil : IsFilling []
  | spacing {c : Char} {cs : List Char} : isSpacing c → IsFilling cs → IsFilling (c :: cs)
  | comment {text cs : List Char} : '\n' ∉ text → IsFilling cs →
      IsFilling ('/' :: '/' :: (text ++ '\n' :: cs))

/-- What keeps two lexemes apart. -/
inductive IsSeparator : List Char → Prop where
  | mk {c : Char} {cs : List Char} : isSpacing c → IsFilling cs → IsSeparator (c :: cs)

/-- The lexemes with a separator between each two. -/
inductive Spaced : List String → List Char → Prop where
  | nil : Spaced [] []
  | one (w : String) : Spaced [w] w.toList
  | cons {w w' : String} {ws : List String} {sep cs : List Char} : IsSeparator sep →
      Spaced (w' :: ws) cs → Spaced (w :: w' :: ws) (w.toList ++ (sep ++ cs))

/-- Segments that are neither tokens nor errors. -/
def Segment.IsIdle (s : Segment) : Prop := s.token? = none ∧ s.complaint? = none

theorem Segmented.spacing {c : Char} (hc : isSpacing c) {cs : List Char} {ss : List Segment}
    (h : Segmented cs ss) :
    ∃ s, s.IsIdle ∧ Segmented (c :: cs) (s :: ss) := by
  simp only [isSpacing, isBlank, Bool.or_eq_true, beq_iff_eq] at hc
  rcases hc with hc | rfl
  · have hblank : c = ' ' ∨ c = '\t' ∨ c = '\r' := by grind
    exact ⟨.blank c, ⟨rfl, rfl⟩, .cons (s := .blank c) (.piece (.blank hblank)) h⟩
  · exact ⟨.newline, ⟨rfl, rfl⟩, .cons (s := .newline) (.piece .newline) h⟩

/-- In front of a text, filling is cut into segments of its own. -/
theorem IsFilling.segmented {gap : List Char} (hgap : IsFilling gap) {cs : List Char}
    {ss : List Segment} (h : Segmented cs ss) : ∃ idle, (∀ s ∈ idle, s.IsIdle) ∧
    Segmented (gap ++ cs) (idle ++ ss) := by
  induction hgap with
  | nil => exact ⟨[], by simp, h⟩
  | spacing hc _ ih =>
    obtain ⟨idle, hidle, hcut⟩ := ih
    obtain ⟨s, hs, hcut⟩ := hcut.spacing hc
    exact ⟨s :: idle, List.forall_mem_cons.2 ⟨hs, hidle⟩, hcut⟩
  | @comment text gap htext _ ih =>
    obtain ⟨idle, hidle, hcut⟩ := ih
    obtain ⟨s, hs, hcut⟩ := hcut.spacing (c := '\n') rfl
    refine ⟨.comment text :: s :: idle,
      List.forall_mem_cons.2 ⟨⟨rfl, rfl⟩, List.forall_mem_cons.2 ⟨hs, hidle⟩⟩, ?_⟩
    have hbegins : Begins ((Segment.comment text).chars ++ '\n' :: (gap ++ cs)) (.comment text) :=
      .piece (.comment htext (by simp))
    simpa [Segment.chars] using Segmented.cons hbegins hcut

theorem IsSeparator.segmented {sep : List Char} (hsep : IsSeparator sep) {cs : List Char}
    {ss : List Segment} (h : Segmented cs ss) : ∃ idle, (∀ s ∈ idle, s.IsIdle) ∧
    Segmented (sep ++ cs) (idle ++ ss) := by
  obtain ⟨hc, hgap⟩ := hsep
  exact (IsFilling.spacing hc hgap).segmented h

theorem IsSeparator.spacing {sep : List Char} (hsep : IsSeparator sep) (cs : List Char) :
    ∀ c, (sep ++ cs).head? = some c → isSpacing c := by
  obtain ⟨hc, -⟩ := hsep
  rintro _ ⟨⟩
  exact hc

/-! ## Tokens -/

/-- The token is what is read of its lexeme, in front of some text. -/
def Token.IsRead (t : Token) : Prop :=
  ∃ rest, Piece (t.lexeme.toList ++ rest) (.token t.kind t.lexeme.toList)

theorem Begins.isPrefix {cs : List Char} {s : Segment} (h : Begins cs s) : s.chars <+: cs := by
  cases cs with
  | nil => exact absurd h (not_begins_nil s)
  | cons c cs =>
    rw [← Segment.first_of_begins h]
    exact Segment.isPrefix_first c cs

theorem Scan.isRead {site : Nat} {source : String} {t : Token}
    (ht : t ∈ (scan site source).tokens) : t.IsRead := by
  obtain ⟨cs, w, hpiece, hw⟩ := piece_of_mem_tokens ht
  obtain ⟨rest, rfl⟩ := (Begins.piece hpiece).isPrefix
  refine ⟨rest, ?_⟩
  rw [hw, String.toList_ofList]
  exact hpiece

/-- A token that is kept apart from what follows is read there too. -/
theorem Token.IsRead.begins {t : Token} (ht : t.IsRead) {rest : List Char}
    (hrest : ∀ c, rest.head? = some c → isSpacing c) :
    Begins (t.lexeme.toList ++ rest) (.token t.kind t.lexeme.toList) := by
  obtain ⟨rest', hpiece⟩ := ht
  exact .piece (hpiece.token_congr (.of_spacing hrest rest'))

/-- A text made of lexemes and separators is cut into the lexemes and what does not count. -/
theorem Spaced.segmented {ts : List Token} (hts : ∀ t ∈ ts, t.IsRead) {cs : List Char}
    (h : Spaced (ts.map Token.lexeme) cs) : ∃ ss, Segmented cs ss ∧
      ss.filterMap Segment.token? = ts.map (fun t => (t.kind, t.lexeme)) ∧
        ss.filterMap Segment.complaint? = [] := by
  induction ts generalizing cs with
  | nil =>
    cases h
    exact ⟨[], .nil, rfl, rfl⟩
  | cons t ts ih =>
    obtain ⟨ht, hts⟩ := List.forall_mem_cons.1 hts
    cases ts with
    | nil =>
      cases h
      have hbegins : Begins (t.lexeme.toList ++ []) (.token t.kind t.lexeme.toList) :=
        ht.begins (by simp)
      have hcut := Segmented.cons (s := .token t.kind t.lexeme.toList) hbegins .nil
      exact ⟨_, by simpa [Segment.chars] using hcut, by simp [Segment.token?], rfl⟩
    | cons t' ts =>
      cases h with
      | cons hsep h =>
        obtain ⟨ss, hcut, htokens, herrors⟩ := ih hts h
        obtain ⟨idle, hidle, hcut⟩ := hsep.segmented hcut
        have hquiet : idle.filterMap Segment.token? = [] ∧ idle.filterMap Segment.complaint? = [] :=
          ⟨List.filterMap_eq_nil_iff.2 fun s hs => (hidle s hs).1,
            List.filterMap_eq_nil_iff.2 fun s hs => (hidle s hs).2⟩
        refine ⟨_, .cons (s := .token t.kind t.lexeme.toList) (ht.begins (hsep.spacing _)) hcut,
          ?_, ?_⟩
        · simp [Segment.token?, hquiet.1, htokens]
        · simp [List.filterMap_cons, Segment.complaint?, hquiet.2, herrors]

/-- What a token says: its category, its lexeme and its constant. -/
def Token.reading (t : Token) : Kind × String × Option Literal := (t.kind, t.lexeme, t.literal?)

theorem Token.map_reading {ts us : List Token}
    (h : ts.map (fun t => (t.kind, t.lexeme)) = us.map (fun t => (t.kind, t.lexeme))) :
    ts.map reading = us.map reading := by
  have hfactor : reading = (fun p : Kind × String => reading ⟨p.1, p.2, 0, 0⟩) ∘
      fun t => (t.kind, t.lexeme) :=
    rfl
  rw [hfactor, ← List.map_map, h, List.map_map]

/-- **Spacing does not count.** The lexemes of any text, errors or not, can be written down again
with any separators between them. The new text is scanned without error, and its tokens say the same
in the same order. -/
theorem scan_spaced (site site' : Nat) (source text : String)
    (h : Spaced ((scan site source).tokens.map Token.lexeme) text.toList) :
    (scan site' text).errors = [] ∧
      (scan site' text).all.map Token.reading = (scan site source).all.map Token.reading := by
  obtain ⟨ss, hcut, htokens, herrors⟩ := h.segmented fun t => Scan.isRead
  obtain rfl := segmented_iff.1 hcut
  constructor
  · rw [← Scan.map_errorsOf 1] at herrors
    exact List.map_eq_nil_iff.1 herrors
  · rw [← Scan.map_tokensOf 1 site'] at htokens
    rw [Scan.all, Scan.all, List.map_append, List.map_append]
    exact congrArg (· ++ _) (Token.map_reading htokens)

/-- A text without need for spacing, with two errors in it, and its lexemes kept apart. -/
def crowded : String × String :=
  ("x1!==@1.5.m/ /\"a\n//b\"or\"", "x1 !=\t= //=\n1.5\r.\nm / // /\n/ \"a\n//b\"\n or")

/-- The comments between the slashes and behind the equals sign do not count, and those in the
string are text. -/
theorem scan_spaced_crowded :
    Spaced ((scan 0 crowded.1).tokens.map Token.lexeme) crowded.2.toList ∧
      (scan 0 crowded.1).errors.length = 2 ∧ (scan 3 crowded.2).errors = [] ∧
      (scan 3 crowded.2).all.map Token.reading = (scan 0 crowded.1).all.map Token.reading := by
  have hwords : (scan 0 crowded.1).tokens.map Token.lexeme =
      ["x1", "!=", "=", "1.5", ".", "m", "/", "/", "\"a\n//b\"", "or"] := by decide +kernel
  have htext : crowded.2.toList = "x1".toList ++ ([' '] ++ ("!=".toList ++ (['\t'] ++ ("=".toList ++
      ([' ', '/', '/', '=', '\n'] ++
        ("1.5".toList ++ (['\r'] ++ (".".toList ++ (['\n'] ++ ("m".toList ++ ([' '] ++
      ("/".toList ++
        ([' ', '/', '/', ' ', '/', '\n'] ++ ("/".toList ++ ([' '] ++ ("\"a\n//b\"".toList ++
      (['\n', ' '] ++ "or".toList))))))))))))))))) := by decide +kernel
  have hspaced : Spaced ((scan 0 crowded.1).tokens.map Token.lexeme) crowded.2.toList := by
    rw [hwords, htext]
    have hblank : ∀ c, isSpacing c → IsSeparator [c] := fun c hc => .mk hc .nil
    exact .cons (hblank ' ' rfl) <| .cons (hblank '\t' rfl) <|
      .cons (.mk rfl (.comment (by decide : '\n' ∉ ['=']) .nil)) <| .cons (hblank '\r' rfl) <|
      .cons (hblank '\n' rfl) <| .cons (hblank ' ' rfl) <|
      .cons (.mk rfl (.comment (by decide : '\n' ∉ [' ', '/']) .nil)) <| .cons (hblank ' ' rfl) <|
      .cons (.mk rfl (.spacing rfl .nil)) (.one _)
  obtain ⟨herrors, hall⟩ := scan_spaced 0 3 crowded.1 crowded.2 hspaced
  exact ⟨hspaced, by decide +kernel, herrors, hall⟩

end Lox
