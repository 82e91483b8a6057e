import Lox.Proofs.Junctions
import Lox.Proofs.Lines
import Lox.Proofs.TwinRuns

/-!
# Joined texts

Texts without static errors can be joined to a script, with a line end between each two. A line end
cuts no segment but an open string, so the tokens of the script are those of the texts one after
another, further down (`Scan.tokens_join`). No statement reaches across from one text into the next,
since each text is a list of whole declarations, and outside of any block resolution has nothing to
remember (`resolve_append`). `Pasted` pairs the tokens of the texts with those of the script; the
programs of the texts and their parts of the script are twins by it (`twin_parsePasted`), and
`script_clean` says what the script is read and resolved to. A depth that is enough for the texts is
enough for the script (`fits_script`).
-/

namespace Lox

/-! ## Tokens -/

/-- The tokens of a text are followed by those of the text behind the line end. -/
theorem Scan.tokens_join {source source' joined : String}
    (hjoined : joined.toList = source.toList ++ '\n' :: source'.toList) (k : Nat)
    (h : (scan k source).errors = []) :
    (scan k joined).tokens = (scan k source).tokens ++
        (scan (k + (scan k source).tokens.length) source').tokens.map
          (Token.shift (newlines source.toList + 1)) ∧
      ((scan k joined).errors = [] ↔ (scan k source').errors = []) := by
  have hclosed : ∀ text, Segment.unterminated text ∉ segments source.toList :=
    fun text ht => ((errorsOf_eq_nil_iff 1 _).1 h _ ht).2 text rfl
  have hscan := ofChars_append_newline hclosed k source'.toList
  rw [← hjoined] at hscan
  refine ⟨congrArg Scan.tokens hscan, ?_⟩
  rw [show (scan k joined).errors = _ from congrArg Scan.errors hscan]
  simp only [show (ofChars k source.toList).errors = [] from h, List.nil_append,
    List.map_eq_nil_iff]
  rfl

/-! ## Programs -/

theorem Derives.Declarations.append {ts us : List Token} {ss rs : List Stmt}
    (h : Declarations ts ss) (h' : Declarations us rs) : Declarations (ts ++ us) (ss ++ rs) := by
  induction ss generalizing ts with
  | nil =>
    cases h
    exact h'
  | cons s ss ih =>
    cases h with
    | cons hs hss =>
      rw [List.append_assoc]
      exact .cons hs (ih hss)

/-- Outside of any block no scope is left behind. -/
theorem Stmt.fst_resolve_nil (ctx : Context) : ∀ s : Stmt, (s.resolve ctx []).1 = []
  | .expr _ => rfl
  | .print _ => rfl
  | .varDecl .. => rfl
  | .block _ => rfl
  | .ifElse _ s none => fst_resolve_nil ctx s
  | .ifElse _ s (some s') => by
    show (s'.resolve ctx (s.resolve ctx []).1).1 = []
    rw [fst_resolve_nil ctx s]
    exact fst_resolve_nil ctx s'
  | .whileDo _ s => fst_resolve_nil ctx s
  | .funDecl _ => rfl
  | .ret .. => rfl
  | .classDecl .. => rfl

/-- What is found in a program does not depend on the programs in front of it. -/
theorem resolve_append (ss rs : List Stmt) : resolve (ss ++ rs) = resolve ss ++ resolve rs := by
  induction ss with
  | nil => rfl
  | cons s ss ih =>
    unfold resolve at ih ⊢
    rw [List.cons_append, Stmt.resolveAll, Stmt.resolveAll]
    dsimp only
    rw [Stmt.fst_resolve_nil, ih, Findings.append_assoc]

/-! ## Scripts -/

def tokenCount : List String → Nat
  | [] => 0
  | s :: texts => (scan 0 s).tokens.length + tokenCount texts

/-- The number of lines that texts take up in a script. -/
def lineCount : List String → Nat
  | [] => 0
  | s :: texts => (newlines s.toList + 1) + lineCount texts

theorem Scan.length_tokens (k : Nat) (source : String) :
    (scan k source).tokens.length = (scan 0 source).tokens.length :=
      (twin_copy k 0 source).tokens.length_eq

theorem tokenCount_append (texts texts' : List String) :
    tokenCount (texts ++ texts') = tokenCount texts + tokenCount texts' := by
  induction texts with
  | nil => rw [List.nil_append, tokenCount, Nat.zero_add]
  | cons s texts ih => rw [List.cons_append, tokenCount, tokenCount, ih, Nat.add_assoc]

theorem tokenCount_concat (texts : List String) (k : Nat) (s : String) :
    tokenCount (texts ++ [s]) = tokenCount texts + (scan k s).tokens.length := by
  rw [tokenCount_append, tokenCount, tokenCount, Nat.add_zero, Scan.length_tokens k]

theorem lineCount_concat (texts : List String) (s : String) :
    lineCount (texts ++ [s]) = lineCount texts + (newlines s.toList + 1) := by
  induction texts with
  | nil => exact Nat.add_comm _ _
  | cons s' texts ih =>
    rw [List.cons_append, lineCount, lineCount, ih]
    omega

/-- A token of one of the texts and the token of the script that it became. -/
def Pasted (texts : List String) : Pairing := fun t t' =>
  ∃ before source after, texts = before ++ source :: after ∧
    t ∈ (scan (tokenCount before) source).tokens ∧ t' = t.shift (lineCount before)

namespace Pasted

variable {texts : List String} {t t' : Token}

theorem site_eq (h : Pasted texts t t') : t.site = t'.site := by
  obtain ⟨before, source, after, -, -, rfl⟩ := h
  rfl

theorem site_lt (h : Pasted texts t t') : t.site < tokenCount texts := by
  obtain ⟨before, source, after, rfl, ht, -⟩ := h
  have hsite := Scan.site_of_mem ht
  rw [List.append_cons, tokenCount_append, tokenCount_concat _ (tokenCount before)]
  omega

theorem spelled (texts : List String) : Pairing.Spelled (Pasted texts) := by
  constructor <;> rintro t t' ⟨before, source, after, -, -, rfl⟩ <;> rfl

theorem append (h : Pasted texts t t') (texts' : List String) : Pasted (texts ++ texts') t t' := by
  obtain ⟨before, source, after, rfl, ht, rfl⟩ := h
  exact ⟨before, source, after ++ texts', by simp, ht, rfl⟩

end Pasted

/-- The tokens of a text where it stands in a script, behind the texts `before`. -/
def pastedTokens (before : List String) (source : String) : List Token :=
  (scan (tokenCount before) source).tokens.map (Token.shift (lineCount before))

theorem twins_pastedTokens (before : List String) (source : String) :
    List.Forall₂ (Pasted (before ++ [source])) (scan (tokenCount before) source).tokens
      (pastedTokens before source) :=
  List.forall₂_map_right_iff.2 (List.forall₂_same.2 fun _ ht => ⟨before, source, [], rfl, ht, rfl⟩)

/-- The tokens of a text as they are read from a script. -/
def parsePasted (before : List String) (source : String) : Parsed :=
  parse (pastedTokens before source) (scan (tokenCount before) source).eof

/-- A text and its part of a script. -/
theorem twin_parsePasted (before : List String) (source : String) :
    (parseOf (tokenCount before) source).Twin (Pasted (before ++ [source])) (fun _ _ => True)
      (parsePasted before source) :=
  twin_parse (Pasted.spelled _).read (fun _ _ => trivial) (fun _ => trivial)
    (twins_pastedTokens before source)

theorem twin_resolvePasted (before : List String) (source : String) :
    (resolve (statementsOf (tokenCount before) source)).Twin (Pasted (before ++ [source]))
      (fun _ _ => True) (resolve (parsePasted before source).statements) :=
  twin_resolve (Pasted.spelled _) (fun _ _ => trivial) (twin_parsePasted before source).statements

def scriptTokens (before : List String) : List String → List Token
  | [] => []
  | s :: rest => pastedTokens before s ++ scriptTokens (before ++ [s]) rest

def scriptProgram (before : List String) : List String → List Stmt
  | [] => []
  | s :: rest => (parsePasted before s).statements ++ scriptProgram (before ++ [s]) rest

/-- What is found in texts that are run one after another, behind the texts `before`. -/
def foundBehind (before : List String) : List String → List Resolution
  | [] => []
  | s :: rest =>
    (resolve (statementsOf (tokenCount before) s)).resolutions ++ foundBehind (before ++ [s]) rest

theorem site_of_mem_foundBehind {before rest : List String} {r : Resolution}
    (h : r ∈ foundBehind before rest) : tokenCount before ≤ r.token.site := by
  induction rest generalizing before with
  | nil => exact absurd h List.not_mem_nil
  | cons s rest ih =>
    rcases List.mem_append.1 h with h | h
    · exact (site_of_mem_resolve h).1
    · have hsite := ih h
      rw [tokenCount_concat before 0] at hsite
      omega

/-- The tokens of the texts are those of the script. -/
theorem Scan.tokens_script (before : List String) (first : String) (rest : List String)
    (h : ∀ s ∈ first :: rest, ∀ k, (scan k s).errors = []) :
    (scan (tokenCount before) ("\n".intercalate (first :: rest))).tokens.map
      (Token.shift (lineCount before)) =
        scriptTokens before (first :: rest) ∧
      ∀ k, (scan k ("\n".intercalate (first :: rest))).errors = [] := by
  induction rest generalizing before first with
  | nil =>
    rw [String.intercalate_singleton]
    exact ⟨(List.append_nil _).symm, h first List.mem_cons_self⟩
  | cons s rest ih =>
    obtain ⟨hfirst, hrest⟩ := List.forall_mem_cons.1 h
    obtain ⟨htokens, herrors⟩ := ih (before ++ [first]) s hrest
    have hjoined : ("\n".intercalate (first :: s :: rest)).toList =
        first.toList ++ '\n' :: ("\n".intercalate (s :: rest)).toList := by
      simp [String.intercalate_cons_cons]
    refine ⟨?_, fun k => (tokens_join hjoined k (hfirst k)).2.2 (herrors k)⟩
    rw [(tokens_join hjoined _ (hfirst _)).1, List.map_append, List.map_map, scriptTokens,
      ← htokens, tokenCount_concat _ (tokenCount before), lineCount_concat]
    refine congrArg (pastedTokens before first ++ List.map · _) ?_
    exact funext fun t => t.shift_shift _ _

theorem kind_of_mem_pastedTokens {before : List String} {source : String} {t : Token}
    (h : t ∈ pastedTokens before source) : t.kind ≠ .eof := by
  obtain ⟨u, hu, rfl⟩ := List.mem_map.1 h
  exact (Scan.kind_ne_eof hu : u.kind ≠ .eof)

theorem kind_of_mem_scriptTokens {before rest : List String} {t : Token}
    (h : t ∈ scriptTokens before rest) :
    t.kind ≠ .eof := by
  induction rest generalizing before with
  | nil => exact absurd h List.not_mem_nil
  | cons s rest ih =>
    rcases List.mem_append.1 h with h | h
    · exact kind_of_mem_pastedTokens h
    · exact ih h

theorem errors_parsePasted (before : List String) {s : String} (hclean : staticErrors s = []) :
    (parsePasted before s).errors = [] :=
  (eq_nil_iff_of_forall₂ (twin_parsePasted before s).errors).1
    ((staticErrors_eq_nil_iff (tokenCount before) s).1 hclean).1.2

theorem declarations_script (before rest : List String) (h : ∀ s ∈ rest, staticErrors s = []) :
    Derives.Declarations (scriptTokens before rest) (scriptProgram before rest) := by
  induction rest generalizing before with
  | nil => exact .nil
  | cons s rest ih =>
    obtain ⟨hs, hrest⟩ := List.forall_mem_cons.1 h
    refine Derives.Declarations.append ?_ (ih (before ++ [s]) hrest)
    refine (parse_derived (fun _ => kind_of_mem_pastedTokens)
      (scan (tokenCount before) s).eof _).2 ?_
    show parsePasted before s = _
    rw [← errors_parsePasted before hs]

/-- The script is resolved as the texts are. -/
theorem resolve_script (before rest : List String) (h : ∀ s ∈ rest, staticErrors s = []) :
    List.Forall₂ (fun r r' => r.token.site = r'.token.site ∧ r.distance = r'.distance)
      (foundBehind before rest)
        (resolve (scriptProgram before rest)).resolutions ∧
      (resolve (scriptProgram before rest)).errors = [] := by
  induction rest generalizing before with
  | nil => exact ⟨.nil, rfl⟩
  | cons s rest ih =>
    obtain ⟨hs, hrest⟩ := List.forall_mem_cons.1 h
    obtain ⟨hfound, herrors⟩ := ih (before ++ [s]) hrest
    have htwin := twin_resolvePasted before s
    have hclean := ((staticErrors_eq_nil_iff (tokenCount before) s).1 hs).2
    rw [scriptProgram, resolve_append, Findings.resolutions_append, Findings.errors_append,
      (eq_nil_iff_of_forall₂ htwin.errors).1 hclean, herrors]
    refine ⟨List.rel_append (htwin.resolutions.imp fun r r' hr => ?_) hfound, rfl⟩
    exact ⟨hr.token.site_eq, hr.distance⟩

theorem Scan.tokens_of_script (first : String) (rest : List String)
    (h : ∀ s ∈ first :: rest, staticErrors s = []) :
    (scan 0 ("\n".intercalate (first :: rest))).tokens = scriptTokens [] (first :: rest) ∧
      (scan 0 ("\n".intercalate (first :: rest))).errors = [] := by
  have hscan : ∀ s ∈ first :: rest, ∀ k, (scan k s).errors = [] :=
    fun s hs k => ((staticErrors_eq_nil_iff k s).1 (h s hs)).1.1
  obtain ⟨hshifted, herrors⟩ := Scan.tokens_script [] first rest hscan
  have hshift : Token.shift (lineCount []) = id := funext Token.shift_zero
  rw [hshift, List.map_id] at hshifted
  exact ⟨hshifted, herrors 0⟩

/-- A script of texts without static errors has none either. -/
theorem script_clean (first : String) (rest : List String)
    (h : ∀ s ∈ first :: rest, staticErrors s = []) :
    (scan 0 ("\n".intercalate (first :: rest))).errors = [] ∧
      parseOf 0 ("\n".intercalate (first :: rest)) = ⟨scriptProgram [] (first :: rest), []⟩ := by
  obtain ⟨htokens, herrors⟩ := Scan.tokens_of_script first rest h
  refine ⟨herrors, (parse_derived ?_ _ _).1 ?_⟩ <;> rw [htokens]
  · exact fun _ => kind_of_mem_scriptTokens
  · exact declarations_script [] (first :: rest) h

theorem staticErrors_script (first : String) (rest : List String)
    (h : ∀ s ∈ first :: rest, staticErrors s = []) :
    staticErrors ("\n".intercalate (first :: rest)) = [] := by
  obtain ⟨hscan, hparse⟩ := script_clean first rest h
  have hprogram : statementsOf 0 ("\n".intercalate (first :: rest)) =
      scriptProgram [] (first :: rest) :=
    congrArg Parsed.statements hparse
  rw [staticErrors_eq_nil_iff 0, hprogram, hparse]
  exact ⟨⟨hscan, rfl⟩, (resolve_script [] (first :: rest) h).2⟩

/-! ## Depth -/

section

variable {depth : Nat}

/-- The part of a text in a script is read to the depth to which the text is read. -/
theorem parseWithin_pasted (before : List String) {s : String} (hclean : staticErrors s = [])
    (hfits : fits depth s = true) :
    parseWithin depth (pastedTokens before s) (scan (tokenCount before) s).eof =
      .ok ⟨(parsePasted before s).statements, []⟩ := by
  obtain ⟨hwell, -, -⟩ := accepted_of_fits hclean hfits (tokenCount before)
  have htwin : TwinExcept _ _ (parseWithin depth _ (scan (tokenCount before) s).eof)
      (parseWithin depth (pastedTokens before s) (scan (tokenCount before) s).eof) :=
    twin_parseWithin (Pasted.spelled _).read (E := fun _ _ => True) (fun _ _ => trivial) depth
      (fun _ => trivial) (twins_pastedTokens before s)
  rw [hwell.read] at htwin
  cases hread : parseWithin depth (pastedTokens before s) (scan (tokenCount before) s).eof with
  | error errors =>
    rw [hread] at htwin
    cases htwin
  | ok p =>
    obtain rfl : p = parsePasted before s := parseWithin_ok hread
    rw [← errors_parsePasted before hclean]

theorem parseWithin_script (before : List String) {rest : List String}
    (h : ∀ s ∈ rest, staticErrors s = [] ∧ fits depth s = true) (eof : Token) :
    parseWithin depth (scriptTokens before rest) eof = .ok ⟨scriptProgram before rest, []⟩ := by
  induction rest generalizing before with
  | nil => rfl
  | cons s rest ih =>
    obtain ⟨⟨hclean, hfits⟩, hrest⟩ := List.forall_mem_cons.1 h
    exact parseWithin_append (fun _ => kind_of_mem_pastedTokens) (fun _ => kind_of_mem_scriptTokens)
      (parseWithin_pasted before hclean hfits) (ih (before ++ [s]) hrest)

theorem heightAll_script (before : List String) {rest : List String}
    (h : ∀ s ∈ rest, staticErrors s = [] ∧ fits depth s = true) :
    Stmt.heightAll (scriptProgram before rest) ≤ depth := by
  induction rest generalizing before with
  | nil => exact Nat.zero_le _
  | cons s rest ih =>
    obtain ⟨⟨hclean, hfits⟩, hrest⟩ := List.forall_mem_cons.1 h
    obtain ⟨-, hdepth, -⟩ := accepted_of_fits hclean hfits (tokenCount before)
    rw [Stmt.twins_height_eq (twin_parsePasted before s).statements] at hdepth
    rw [scriptProgram, Stmt.heightAll_append]
    exact Nat.max_le.2 ⟨hdepth, ih (before ++ [s]) hrest⟩

/-- A depth that is enough for texts is enough for their script. -/
theorem fits_script (first : String) (rest : List String)
    (h : ∀ s ∈ first :: rest, staticErrors s = [] ∧ fits depth s = true) :
    fits depth ("\n".intercalate (first :: rest)) = true := by
  have hclean : ∀ s ∈ first :: rest, staticErrors s = [] := fun s hs => (h s hs).1
  obtain ⟨htokens, -⟩ := Scan.tokens_of_script first rest hclean
  rw [fits_iff_of_clean (staticErrors_script first rest hclean), htokens, parseWithin_script [] h,
    show statementsOf 0 _ = _ from congrArg Parsed.statements (script_clean first rest hclean).2]
  exact ⟨rfl, heightAll_script [] h⟩

end

end Lox
