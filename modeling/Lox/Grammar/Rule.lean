import Lox.Report

/-!
# Grammar rules

A `Rule` reads the tokens in front of it. It returns what it found, the errors it recorded and the
tokens it left; it may also be *rejected*, after recording why, and then the enclosing declaration
recovers. What a rule does depends on the tokens alone, not on errors recorded before. The rules of
the grammar are nested in each other to a given `Depth`; one that runs out of it is *exhausted*.
-/

namespace Lox

/-- What became of a rule. -/
inductive Verdict (α : Type) where
  | done (value : α)
  | rejected
  | exhausted

/-- The result of a rule with the errors recorded and the tokens left. -/
structure Reading (α : Type) where
  verdict : Verdict α
  errors : List StaticError
  rest : List Token

/-- How deep rules may nest in each other. -/
inductive Depth where
  | unlimited
  | levels (k : Nat)
  deriving DecidableEq, Repr

/-- A rule reads a list of tokens that is followed by the given end of the text. -/
def Rule (α : Type) : Type := (eof : Token) → List Token → Reading α

namespace Rule

/-- Errors of the first rule come before those of the second. -/
@[inline]
protected def bind {α β : Type} (r : Rule α) (f : α → Rule β) : Rule β := fun eof ts =>
  match r eof ts with
  | ⟨.done a, es, ts⟩ =>
    match f a eof ts with
    | ⟨v, es', ts⟩ => ⟨v, es ++ es', ts⟩
  | ⟨.rejected, es, ts⟩ => ⟨.rejected, es, ts⟩
  | ⟨.exhausted, es, ts⟩ => ⟨.exhausted, es, ts⟩

instance : Monad Rule where
  pure a := fun _ ts => ⟨.done a, [], ts⟩
  bind := Rule.bind

def exhausted {α : Type} : Rule α := fun _ ts => ⟨.exhausted, [], ts⟩

/-- A rule that is nested in another one takes one of its levels. -/
def nest {α : Type} (d : Depth) (r : Depth → Rule α) : Rule α :=
  match d with
  | .unlimited => r .unlimited
  | .levels 0 => exhausted
  | .levels (k + 1) => r (.levels k)

@[simp] theorem nest_unlimited {α : Type} (r : Depth → Rule α) : nest .unlimited r = r .unlimited :=
  rfl

/-- The category of the next token, `eof` at the end. -/
def peekKind : Rule Kind := fun _ ts => ⟨.done (ts.head?.elim .eof Token.kind), [], ts⟩

/-- The next token, which stays. -/
def peek : Rule Token := fun eof ts => ⟨.done (ts.head?.getD eof), [], ts⟩

def skip : Rule Unit := fun _ ts => ⟨.done (), [], ts.tail⟩

def takeIf (test : Kind → Bool) : Rule (Option Token) := fun _ ts =>
  match ts with
  | t :: rest => if test t.kind then ⟨.done (some t), [], rest⟩ else ⟨.done none, [], t :: rest⟩
  | [] => ⟨.done none, [], []⟩

def accept (kind : Kind) : Rule (Option Token) := takeIf (· == kind)

/-- Records an error and goes on. -/
def note (t : Token) (c : Complaint) : Rule Unit := fun _ ts =>
  ⟨.done (), [StaticError.atToken t c], ts⟩

/-- Records an error at the next token and gives up. -/
def reject {α : Type} (c : Complaint) : Rule α := fun eof ts =>
  ⟨.rejected, [StaticError.atToken (ts.head?.getD eof) c], ts⟩

/-- Takes a token of the given category, or is rejected. -/
def expect (kind : Kind) (c : Complaint) : Rule Token := do
  match ← accept kind with
  | some t => pure t
  | none => reject c

/-- The tokens left after skipping to a place where a statement can begin: behind a semicolon or in
front of a keyword that starts a statement. `last` is the token passed over most recently. -/
def skipToBoundary (last : Token) : List Token → List Token
  | [] => []
  | t :: rest =>
    if last.kind = .semicolon || t.kind.startsStatement then t :: rest else skipToBoundary t rest

/-- Recovery passes over the token in front before it looks for a boundary. -/
def synchronize : List Token → List Token
  | [] => []
  | t :: rest => skipToBoundary t rest

/-- A rejected rule yields nothing, and reading goes on at the next boundary. -/
def recover {α : Type} (r : Rule α) : Rule (Option α) := fun eof ts =>
  match r eof ts with
  | ⟨.done a, es, ts⟩ => ⟨.done (some a), es, ts⟩
  | ⟨.rejected, es, ts⟩ => ⟨.done none, es, synchronize ts⟩
  | ⟨.exhausted, es, ts⟩ => ⟨.exhausted, es, ts⟩

end Rule
end Lox
