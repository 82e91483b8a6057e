import Lox.Proofs.Lockstep
import Lox.Proofs.Restoring
import Lox.Proofs.SentenceAcceptance

/-!
# Loops with clauses

A `for` loop has the tree of a `while` loop that could be written by hand (`statement_forText`,
`statement_whileText`). What the two do is said here without `while` and without blocks: `ForRun`
goes from the initializer, in a scope of its own, through the rounds of the loop, and keeps an eye
on the scopes. The scope of the initializer is active at every test, and it is the next one around
that of every body and increment, with all its names, so that the rounds share the loop variable.
-/

namespace Lox

open Derives

/-! ## Two ways to write a loop -/

/-- A part of a text: given tokens, or any token of a category. -/
inductive Part where
  | tokens (ts : List Token)
  | any (k : Kind)

/-- The tokens are made up of the parts. -/
def Fits : List Part → List Token → Prop
  | [], us => us = []
  | .tokens ts :: parts, us => ∃ vs, us = ts ++ vs ∧ Fits parts vs
  | .any k :: parts, us => ∃ t vs, us = t :: vs ∧ t.kind = k ∧ Fits parts vs

/-- `for ( I C ; N ) S` -/
def forText (is cs ns ss : List Token) : List Part :=
  [.any .forKw, .any .leftParen, .tokens is, .tokens cs, .any .semicolon, .tokens ns,
    .any .rightParen, .tokens ss]

/-- `C`, or `true` in its place. -/
def conditionText (cs : List Token) : List Part :=
  if cs.isEmpty then [.any .trueKw] else [.tokens cs]

/-- `{ S N ; }`, or just `S`. -/
def roundText (ns ss : List Token) : List Part :=
  if ns.isEmpty then [.tokens ss]
  else [.any .leftBrace, .tokens ss, .tokens ns, .any .semicolon, .any .rightBrace]

/-- `while ( C ) S` with the condition and the round of a `for` loop. -/
def loopText (cs ns ss : List Token) : List Part :=
  .any .whileKw :: .any .leftParen :: (conditionText cs ++ .any .rightParen :: roundText ns ss)

/-- `{ I while ( C ) S }`, without the block if `I` is a semicolon alone. -/
def whileText (is cs ns ss : List Token) : List Part :=
  if is.map Token.kind = [.semicolon] then loopText cs ns ss
  else .any .leftBrace :: .tokens is :: (loopText cs ns ss ++ [.any .rightBrace])

theorem fits_append {ps qs : List Part} {us : List Token} (h : Fits (ps ++ qs) us) :
    ∃ vs ws, us = vs ++ ws ∧ Fits ps vs ∧ Fits qs ws := by
  induction ps generalizing us with
  | nil => exact ⟨[], us, rfl, rfl, h⟩
  | cons p ps ih =>
    cases p with
    | tokens ts =>
      obtain ⟨us, rfl, h⟩ := h
      obtain ⟨vs, ws, rfl, hps, hqs⟩ := ih h
      exact ⟨ts ++ vs, ws, (List.append_assoc _ _ _).symm, ⟨vs, rfl, hps⟩, hqs⟩
    | any k =>
      obtain ⟨t, us, rfl, hk, h⟩ := h
      obtain ⟨vs, ws, rfl, hps, hqs⟩ := ih h
      exact ⟨t :: vs, ws, rfl, ⟨t, vs, rfl, hk, hps⟩, hqs⟩

/-- A round of a loop as one statement: the body, and the increment in a block with it. -/
def Stmt.round (increment : Option Expr) (body : Stmt) : Stmt :=
  increment.elim body fun e => .block [body, .expr e]

def Expr.orTrue (condition : Option Expr) : Expr := condition.getD (.literal (.bool true))

theorem Stmt.forLoop_none (c n : Option Expr) (s : Stmt) :
    forLoop none c n s = .whileDo (Expr.orTrue c) (round n s) := by
  cases n <;> rfl

theorem Stmt.forLoop_some (i : Stmt) (c n : Option Expr) (s : Stmt) :
    forLoop (some i) c n s = .block [i, forLoop none c n s] := rfl

section

variable {is cs ns ss us : List Token} {i : Option Stmt} {c n : Option Expr} {b : Bool} {s : Stmt}

theorem Derives.OptionalExpression.condition (hc : OptionalExpression cs c)
    (h : Fits (conditionText cs) us) :
    Assignment us (Expr.orTrue c) := by
  cases hc with
  | none =>
    obtain ⟨t, _, rfl, hk, rfl⟩ := h
    exact .operand (.call (.primary (.true hk)))
  | some hc =>
    rw [conditionText, if_neg (by simpa using hc.ne_nil)] at h
    obtain ⟨_, rfl, rfl⟩ := h
    rwa [List.append_nil]

theorem Derives.Statement.round (hs : Statement b ss s) (hn : OptionalExpression ns n)
    (h : Fits (roundText ns ss) us) :
    ∃ b', Statement b' us (.round n s) := by
  cases hn with
  | none =>
    obtain ⟨_, rfl, rfl⟩ := h
    exact ⟨b, by rwa [List.append_nil]⟩
  | some hn =>
    rw [roundText, if_neg (by simpa using hn.ne_nil)] at h
    obtain ⟨left, _, rfl, hleft, _, rfl, _, rfl, stop, _, rfl, hstop, right, _, rfl, hright, rfl⟩ :=
      h
    have hbody :=
      Declarations.cons (.statement hs) (.cons (.statement (.effect (.mk hn hstop))) .nil)
    exact ⟨false, by simpa [Stmt.round] using Statement.block (.mk hleft hbody hright)⟩

theorem Derives.Initializer.lone_iff (hi : Initializer is i) :
    is.map Token.kind = [.semicolon] ↔ i = Option.none := by
  cases hi with
  | none hstop => simp [hstop]
  | «variable» hi => cases hi <;> simp
  | effect hi =>
    cases hi with
    | mk he hstop =>
      obtain ⟨t, ts, rfl⟩ := List.exists_cons_of_ne_nil he.ne_nil
      simp

theorem statement_while (hc : OptionalExpression cs c) (hn : OptionalExpression ns n)
    (hs : Statement b ss s) (h : Fits (loopText cs ns ss) us) :
    ∃ b', Statement b' us (.forLoop none c n s) := by
  obtain ⟨key, _, rfl, hkey, left, _, rfl, hleft, h⟩ := h
  obtain ⟨ds, _, rfl, hds, right, rs, rfl, hright, hrs⟩ := fits_append h
  obtain ⟨b', hround⟩ := hs.round hn hrs
  rw [Stmt.forLoop_none]
  exact ⟨b', .whileDo hkey hleft (hc.condition hds) hright hround⟩

/-- What a `for` loop is made of is derived as a `while` loop too. -/
theorem statement_whileText (hi : Initializer is i) (hc : OptionalExpression cs c)
    (hn : OptionalExpression ns n) (hs : Statement b ss s) (h : Fits (whileText is cs ns ss) us) :
    ∃ b', Statement b' us (.forLoop i c n s) := by
  have hlone := hi.lone_iff
  have hdeclaration : ∀ st, i = some st → Declaration is st := by
    rintro st rfl
    cases hi with
    | «variable» hi => exact .variable hi
    | effect hi => exact .statement (.effect hi)
  cases i with
  | none =>
    rw [whileText, if_pos (hlone.2 rfl)] at h
    exact statement_while hc hn hs h
  | some st =>
    rw [whileText, if_neg (by simp [hlone])] at h
    obtain ⟨left, _, rfl, hleft, _, rfl, h⟩ := h
    obtain ⟨ls, _, rfl, hls, right, _, rfl, hright, rfl⟩ := fits_append h
    obtain ⟨b', hwhile⟩ := statement_while hc hn hs hls
    have hbody := Declarations.cons (hdeclaration st rfl) (.cons (.statement hwhile) .nil)
    exact ⟨false, by simpa [Stmt.forLoop_some] using Statement.block (.mk hleft hbody hright)⟩

theorem statement_forText (hi : Initializer is i) (hc : OptionalExpression cs c)
    (hn : OptionalExpression ns n) (hs : Statement b ss s) (h : Fits (forText is cs ns ss) us) :
    Statement b us (.forLoop i c n s) := by
  obtain ⟨key, _, rfl, hkey, left, _, rfl, hleft, _, rfl, _, rfl, stop, _, rfl, hstop, _, rfl,
    right, _, rfl, hright, _, rfl, rfl⟩ := h
  rw [List.append_nil]
  exact .forDo hkey hleft hi hc hstop hn hright hs

/-- A statement alone is read as a program. -/
theorem parse_statement (h : Statement b us s) (hus : ∀ t ∈ us, t.kind ≠ .eof) (eof : Token) :
    parse us eof = ⟨[s], []⟩ := by
  have hdeclarations := Declarations.cons (.statement h) .nil
  rw [List.append_nil] at hdeclarations
  exact (parse_derived hus eof [s]).1 hdeclarations

end

/-! ## Rounds -/

/-- How a statement ends, and with which machine. -/
abbrev Finish := EStateM.Result Exit Machine Unit

/-- The machine in a new scope inside the active one. -/
def Machine.entered (m : Machine) : Machine :=
  { m with scopes := m.scopes.add (some m.current) .empty, current := m.scopes.next }

def Machine.backIn (m : Machine) (i : ScopeId) : Machine := { m with current := i }

def Finish.backIn (i : ScopeId) : Finish → Finish
  | .ok a m => .ok a (m.backIn i)
  | .error why m => .error why (m.backIn i)

/-- So many scopes out from the active one there is the scope that was active at the start, and it
has the names that it had then. -/
structure Machine.Shares (start : Machine) (d : Nat) (m : Machine) : Prop where
  ancestor : m.scopes.ancestor? m.current d = some start.current
  names : ∀ x, (start.scopes.local? start.current x).isSome →
    (m.scopes.local? start.current x).isSome

section

variable (bound : Nat) (start : Machine)

/-- One round of a loop, behind its test. -/
inductive Round (s : Stmt) : Nat → Option Expr → Machine → Finish → Prop where
  /-- Without increment it is the body. -/
  | bare {depth : Nat} {m : Machine} : start.Shares 0 m →
      Round s depth none m (exec bound depth s m)
  /-- A body that returns or fails ends the round, and the increment is skipped. -/
  | cut {depth : Nat} {e : Expr} {m m' : Machine} {why : Exit} : start.Shares 1 m.entered →
      exec bound depth s m.entered = .error why m' →
      Round s (depth + 1) (some e) m (.error why (m'.backIn m.current))
  /-- The increment is evaluated behind the body, in the scope of the body. -/
  | full {depth : Nat} {e : Expr} {m m' : Machine} : start.Shares 1 m.entered →
      exec bound depth s m.entered = .ok () m' → start.Shares 1 m' →
      Round s (depth + 1) (some e) m (Finish.backIn m.current (exec bound depth (.expr e) m'))
  | tooDeep {e : Expr} {m : Machine} : Round s 0 (some e) m (.error .overflow m)

/-- The rounds of a loop, at most so many. -/
inductive Rounds (c : Expr) (n : Option Expr) (s : Stmt) (depth : Nat) :
    Nat → Machine → Finish → Prop where
  | failed {k : Nat} {m m' : Machine} {why : Exit} : start.Shares 0 m →
      eval bound depth c m = .error why m' → Rounds c n s depth (k + 1) m (.error why m')
  | done {k : Nat} {m m' : Machine} {v : Value} : start.Shares 0 m →
      eval bound depth c m = .ok v m' → v.truthy = false → Rounds c n s depth (k + 1) m (.ok () m')
  | cut {k : Nat} {m m' m'' : Machine} {v : Value} {why : Exit} : start.Shares 0 m →
      eval bound depth c m = .ok v m' → v.truthy = true →
        Round bound start s depth n m' (.error why m'') →
      Rounds c n s depth (k + 1) m (.error why m'')
  | next {k : Nat} {m m' m'' : Machine} {v : Value} {r : Finish} : start.Shares 0 m →
      eval bound depth c m = .ok v m' → v.truthy = true →
        Round bound start s depth n m' (.ok () m'') →
      Rounds c n s depth k m'' r → Rounds c n s depth (k + 1) m r
  | unfinished {m : Machine} : Rounds c n s depth 0 m (.error .unfinished m)

end

/-- A loop with its initializer, which is executed once, in a scope of its own. -/
inductive ForRun (bound : Nat) (c : Expr) (n : Option Expr) (s : Stmt) :
    Nat → Option Stmt → Machine → Finish → Prop where
  /-- Without initializer there is no such scope. -/
  | bare {depth : Nat} {m : Machine} {r : Finish} : Rounds bound m c n s depth bound m r →
      ForRun bound c n s (depth + 1) none m r
  | failed {depth : Nat} {i : Stmt} {m m' : Machine} {why : Exit} :
      exec bound depth i m.entered = .error why m' →
      ForRun bound c n s (depth + 1) (some i) m (.error why (m'.backIn m.current))
  /-- The rounds start from the machine that the initializer leaves. A variable that it declares is
  in its scope. -/
  | full {depth : Nat} {i : Stmt} {m m' : Machine} {r : Finish} :
      exec bound (depth + 1) i m.entered = .ok () m' → m'.current = m.entered.current →
      m'.scopes.parent? m'.current = some m.current →
      (∀ x e, i = .varDecl x e → (m'.scopes.local? m'.current x.lexeme).isSome) →
      Rounds bound m' c n s depth bound m' r →
        ForRun bound c n s (depth + 2) (some i) m (r.backIn m.current)
  | tooDeep {i : Option Stmt} {m : Machine} : ForRun bound c n s 0 i m (.error .overflow m)

/-! ## Scopes -/

theorem Machine.parent?_entered (m : Machine) :
    m.entered.scopes.parent? m.entered.current = some m.current := by
  show (m.scopes.add (some m.current) .empty).parent? m.scopes.next = _
  rw [Scopes.parent?_add, if_pos rfl]

namespace Machine.Shares

variable {start m m' : Machine} {d : Nat}

theorem refl (m : Machine) : m.Shares 0 m := ⟨rfl, fun _ => id⟩

theorem keeps (h : start.Shares d m) (hm : m.Keeps m') : start.Shares d m' where
  ancestor := by
    rw [hm.current]
    exact hm.scopes.ancestor? h.ancestor
  names x hx := hm.scopes.bound _ x (h.names x hx)

theorem entered (h : start.Shares 0 m) : start.Shares 1 m.entered where
  ancestor := by
    have hcurrent : m.current = start.current := Option.some.inj h.ancestor
    exact Option.bind_eq_some_iff.2 ⟨_, m.parent?_entered, congrArg some hcurrent⟩
  names x hx := (Scopes.Extends.add _ _ _).bound _ x (h.names x hx)

end Machine.Shares

/-! ## Runs -/

theorem Exec.within_eq (i : ScopeId) (x : Exec Unit) (m : Machine) :
    Exec.within i x m = Finish.backIn m.current (x (m.backIn i)) := by
  unfold Exec.within Machine.backIn
  dsimp only
  cases x { m with current := i } <;> rfl

section

variable {bound depth : Nat} {start m m' : Machine} {why : Exit}

theorem exec_block (bound depth : Nat) (body : List Stmt) (m : Machine) :
    exec bound (depth + 1) (.block body) m =
      Finish.backIn m.current (execAll bound depth body m.entered) := by
  rw [exec]
  exact Exec.within_eq m.scopes.next (execAll bound depth body) _

theorem execAll_pair {s t : Stmt} (h : exec bound depth s m = .ok () m') :
    execAll bound depth [s, t] m = exec bound depth t m' := by
  show EStateM.bind (exec bound depth s) (fun _ => EStateM.bind (exec bound depth t) fun _ =>
    pure ()) m = _
  rw [EStateM.bind, h]
  show EStateM.bind (exec bound depth t) (fun _ => pure ()) m' = _
  rw [EStateM.bind]
  cases exec bound depth t m' <;> rfl

theorem execAll_of_error {s : Stmt} {ss : List Stmt} (h : exec bound depth s m = .error why m') :
    execAll bound depth (s :: ss) m = .error why m' := Exec.bind_of_error h

/-- The step of a loop: a round of it is the body, and the increment in a scope with the body. -/
theorem Round.of_exec (h : start.Shares 0 m) (n : Option Expr) (s : Stmt) :
    Round bound start s depth n m (exec bound depth (.round n s) m) := by
  cases n with
  | none => exact .bare h
  | some e =>
    cases depth with
    | zero => exact .tooDeep
    | succ depth =>
      rw [Stmt.round, Option.elim_some, exec_block]
      cases hs : exec bound depth s m.entered with
      | error why m' =>
        rw [execAll_of_error hs]
        exact .cut h.entered hs
      | ok _ m' =>
        rw [execAll_pair hs]
        exact .full h.entered hs
          (h.entered.keeps (((Restoring.of_depth bound depth).exec s).of_ok hs))

/-- A loop goes in rounds. -/
theorem Rounds.of_loop (h : start.Shares 0 m) (c : Expr) (n : Option Expr) (s : Stmt) (k : Nat) :
    Rounds bound start c n s depth k m
      (Exec.loop k (Value.truthy <$> eval bound depth c) (exec bound depth (.round n s)) m) := by
  have hrestores := Restoring.of_depth bound depth
  induction k generalizing m with
  | zero => exact .unfinished
  | succ k ih =>
    rw [Exec.loop, bind_map_left]
    cases hc : eval bound depth c m with
    | error why m' =>
      rw [Exec.bind_of_error hc]
      exact .failed h hc
    | ok v m' =>
      rw [Exec.bind_of_ok hc]
      cases hv : v.truthy with
      | false => exact .done h hc hv
      | true =>
        have htested := h.keeps ((hrestores.eval c).of_ok hc)
        have hround : Round bound start s depth n m' (exec bound depth (.round n s) m') :=
          .of_exec htested n s
        rw [if_pos rfl]
        cases hs : exec bound depth (.round n s) m' with
        | error why m'' =>
          rw [Exec.bind_of_error hs]
          exact .cut h hc hv (hs ▸ hround)
        | ok _ m'' =>
          rw [Exec.bind_of_ok hs]
          exact .next h hc hv (hs ▸ hround) (ih (htested.keeps ((hrestores.exec _).of_ok hs)))

/-- A declared variable is in the scope that is active. -/
theorem isSome_of_exec_varDecl {x : Token} {e : Option Expr} (hm : m.current < m.scopes.next)
    (h : exec bound depth (.varDecl x e) m = .ok () m') :
    (m'.scopes.local? m'.current x.lexeme).isSome := by
  have hdefine : ∀ v m₁, m.Keeps m₁ → Exec.define x.lexeme v m₁ = .ok () m' →
      (m'.scopes.local? m'.current x.lexeme).isSome := by
    rintro v m₁ hkeeps ⟨⟩
    have hlt : m₁.current < m₁.scopes.next :=
      hkeeps.current ▸ Nat.lt_of_lt_of_le hm hkeeps.scopes.next
    exact Option.isSome_iff_exists.2 ⟨v, Scopes.local?_define_self hlt⟩
  cases depth with
  | zero => cases h
  | succ depth =>
    cases e with
    | none => exact hdefine .nil m (.refl m) h
    | some e =>
      rw [exec] at h
      cases he : eval bound depth e m with
      | error why m₁ =>
        rw [Exec.bind_of_error he] at h
        cases h
      | ok v m₁ =>
        rw [Exec.bind_of_ok he] at h
        exact hdefine v m₁ (((Restoring.of_depth bound depth).eval e).of_ok he) h

/-- A `for` loop goes in rounds, behind its initializer. -/
theorem ForRun.of_exec (bound depth : Nat) (i : Option Stmt) (c n : Option Expr) (s : Stmt)
    (m : Machine) :
    ForRun bound (.orTrue c) n s depth i m (exec bound depth (.forLoop i c n s) m) := by
  have hloop : ∀ depth m,
      Rounds bound m (.orTrue c) n s depth bound m
          (exec bound (depth + 1) (.forLoop none c n s) m) := by
    intro depth m
    rw [Stmt.forLoop_none, exec]
    exact .of_loop (.refl m) _ n s bound
  cases depth with
  | zero => exact .tooDeep
  | succ depth =>
    cases i with
    | none => exact .bare (hloop depth m)
    | some i =>
      rw [Stmt.forLoop_some, exec_block]
      cases hi : exec bound depth i m.entered with
      | error why m' =>
        rw [execAll_of_error hi]
        exact .failed hi
      | ok _ m' =>
        rw [execAll_pair hi]
        cases depth with
        | zero => cases hi
        | succ depth =>
          have hkeeps := ((Restoring.of_depth bound (depth + 1)).exec i).of_ok hi
          have hnew := Scopes.lt_next_of_parent? m.parent?_entered
          have hparent := (hkeeps.scopes.parent _ hnew).trans m.parent?_entered
          refine .full hi hkeeps.current (by rw [hkeeps.current, hparent]) ?_ (hloop depth m')
          rintro x e rfl
          exact isSome_of_exec_varDecl hnew hi

end

/-- **A `for` loop is a `while` loop.** With an initializer, an optional condition, an optional
increment and a body, the `for` loop and the `while` loop written by hand are read without error, as
one statement, and that is the same tree. Executing it on any machine goes in rounds behind the
initializer, which share its scope. -/
theorem for_eq_while {is cs ns ss tokens tokens' : List Token} {i : Option Stmt} {c n : Option Expr}
    {b : Bool} {s : Stmt}
    (hi : Initializer is i) (hc : OptionalExpression cs c) (hn : OptionalExpression ns n)
    (hs : Statement b ss s)
    (hfor : Fits (forText is cs ns ss) tokens) (htokens : ∀ t ∈ tokens, t.kind ≠ .eof)
    (hwhile : Fits (whileText is cs ns ss) tokens') (htokens' : ∀ t ∈ tokens', t.kind ≠ .eof)
    (eof eof' : Token) :
    parse tokens eof = ⟨[.forLoop i c n s], []⟩ ∧ parse tokens' eof' = ⟨[.forLoop i c n s], []⟩ ∧
      ∀ bound depth m,
        ForRun bound (.orTrue c) n s depth i m (exec bound depth (.forLoop i c n s) m) := by
  obtain ⟨b', hloop⟩ := statement_whileText hi hc hn hs hwhile
  exact ⟨parse_statement (statement_forText hi hc hn hs hfor) htokens eof,
    parse_statement hloop htokens' eof',
    fun bound depth m => .of_exec bound depth i c n s m⟩

/-! The loop `for (var x;; x = nil) if (x) return;`, which has no condition. -/

namespace OpenLoop

def init : List Token := [⟨.varKw, "var", 1, 2⟩, ⟨.identifier, "x", 1, 3⟩, ⟨.semicolon, ";", 1, 4⟩]

def step : List Token := [⟨.identifier, "x", 1, 6⟩, ⟨.equal, "=", 1, 7⟩, ⟨.nilKw, "nil", 1, 8⟩]

def body : List Token :=
  [⟨.ifKw, "if", 1, 10⟩, ⟨.leftParen, "(", 1, 11⟩, ⟨.identifier, "x", 1, 12⟩,
    ⟨.rightParen, ")", 1, 13⟩, ⟨.returnKw, "return", 1, 14⟩, ⟨.semicolon, ";", 1, 15⟩]

def forTokens : List Token :=
  ⟨.forKw, "for", 1, 0⟩ :: ⟨.leftParen, "(", 1, 1⟩ :: (init ++ ⟨.semicolon, ";", 1, 5⟩ :: (step ++
    ⟨.rightParen, ")", 1, 9⟩ :: body))

def whileTokens : List Token :=
  ⟨.leftBrace, "\x7b", 1, 16⟩ :: (init ++ ⟨.whileKw, "while", 1, 17⟩ :: ⟨.leftParen, "(", 1, 18⟩ ::
    ⟨.trueKw, "true", 1, 19⟩ :: ⟨.rightParen, ")", 1, 20⟩ :: ⟨.leftBrace, "\x7b", 1, 21⟩ ::
      (body ++ (step ++
    [⟨.semicolon, ";", 1, 22⟩, ⟨.rightBrace, "\x7d", 1, 23⟩, ⟨.rightBrace, "\x7d", 1, 24⟩])))

/-- The body is an `if` without `else`, and the increment stays behind it. -/
theorem for_eq_while_without_condition :
    (Fits (forText init [] step body) forTokens ∧ (∀ t ∈ forTokens, t.kind ≠ .eof) ∧
      Fits (whileText init [] step body) whileTokens ∧ ∀ t ∈ whileTokens, t.kind ≠ .eof) ∧
    ∃ i n s, (Initializer init (some i) ∧ OptionalExpression [] none ∧
      OptionalExpression step (some n) ∧ Statement true body s) ∧
      parse forTokens ⟨.eof, "", 1, 25⟩ = ⟨[.forLoop (some i) none (some n) s], []⟩ ∧
      parse whileTokens ⟨.eof, "", 1, 25⟩ = ⟨[.forLoop (some i) none (some n) s], []⟩ ∧
      ∀ bound depth m, ForRun bound (.orTrue none) (some n) s depth (some i) m
        (exec bound depth (.forLoop (some i) none (some n) s) m) := by
  have hfor : Fits (forText init [] step body) forTokens :=
    ⟨_, _, rfl, rfl, _, _, rfl, rfl, _, rfl, _, rfl, _, _, rfl, rfl, _, rfl, _, _, rfl, rfl,
      _, rfl, rfl⟩
  have hwhile : Fits (whileText init [] step body) whileTokens :=
    ⟨_, _, rfl, rfl, _, rfl, _, _, rfl, rfl, _, _, rfl, rfl, _, _, rfl, rfl, _, _, rfl, rfl, _, _,
      rfl, rfl, _, rfl, _,
      rfl, _, _, rfl, rfl, _, _, rfl, rfl, _, _, rfl, rfl, rfl⟩
  have htokens : (∀ t ∈ forTokens, t.kind ≠ .eof) ∧ ∀ t ∈ whileTokens, t.kind ≠ .eof := by decide
  have hi : Initializer init _ := .variable (.plain rfl rfl rfl)
  have hn : OptionalExpression step _ :=
    .some (.variable rfl rfl (.operand (.call (.primary (.nil rfl)))))
  have hs : Statement true body _ :=
    .ifThen rfl rfl (.operand (.call (.primary (.variable rfl)))) rfl (.ret rfl .none rfl)
  obtain ⟨hparse, hparse', hrun⟩ :=
    for_eq_while hi .none hn hs hfor htokens.1 hwhile htokens.2 ⟨.eof, "", 1, 25⟩ ⟨.eof, "", 1, 25⟩
  exact ⟨⟨hfor, htokens.1, hwhile, htokens.2⟩, _, _, _, ⟨hi, .none, hn, hs⟩, hparse, hparse', hrun⟩

end OpenLoop

end Lox
