import Lox.Proofs.Locality

/-!
# Reading by positions

A reader that goes through a list of tokens by numbers can go wrong where a rule cannot: it can look
behind the end of the list, or in front of its beginning, or stand still. A `Cursor` is such a
reader. It fails when there is no token at the place where it looks, and it keeps a record of what
it did where. A `Plan` is the text of a rule; it can be read as a rule and carried out by a cursor,
and both do the same (`Plan.walk_goes`). All rules of the grammar have plans (`Plan.compatible`).
`parse_stays_inside` says of a cursor in a whole list how far it goes.
-/

namespace Lox

/-! ## Cursors -/

/-- What is done at a position. -/
inductive Event where
  /-- The token at the position is looked at. -/
  | look (p : Nat)
  /-- The token in front of the position is looked at. -/
  | back (p : Nat)
  /-- A declaration that began at `start` is over, found or not. -/
  | declaration (start stop : Nat)

namespace Event

def position : Event → Nat
  | look p => p
  | back p => p
  | declaration _ stop => stop

/-- Nothing is looked at behind the limit or in front of the first token, and a declaration has at
least one token. -/
def Inside (limit : Nat) : Event → Prop
  | look p => p ≤ limit
  | back p => 1 ≤ p ∧ p ≤ limit
  | declaration start stop => start < stop ∧ stop ≤ limit

end Event

/-- Where a cursor has come to, what it found and what it did on the way. -/
structure Arrival (α : Type) where
  value : α
  events : List Event
  position : Nat

/-- A cursor starts at a position in a list of tokens. It may fail. -/
def Cursor (α : Type) : Type := List Token → Nat → Option (Arrival α)

namespace Cursor

variable {α β : Type}

instance : Monad Cursor where
  pure a := fun _ p => some ⟨a, [], p⟩
  bind w f := fun tokens p =>
    (w tokens p).bind fun x => (f x.value tokens x.position).map fun y =>
      ⟨y.value, x.events ++ y.events, y.position⟩

def look : Cursor Token := fun tokens p => tokens[p]?.map fun t => ⟨t, [.look p], p⟩

def previous : Cursor Token := fun tokens p =>
  if p = 0 then none else tokens[p - 1]?.map fun t => ⟨t, [.back p], p⟩

def move : Cursor Unit := fun _ p => some ⟨(), [], p + 1⟩

def position : Cursor Nat := fun _ p => some ⟨p, [], p⟩

def atEnd : Cursor Bool := do
  let t ← look
  pure (t.kind == .eof)

/-- Goes on, but not past an end of text, and returns the token that was passed last. -/
def advance : Cursor Token := do
  if ← atEnd then previous else
    move
    previous

def takeIf (test : Kind → Bool) : Cursor (Option Token) := do
  if ← atEnd then pure none else
    let t ← look
    if test t.kind then some <$> advance else pure none

/-- Goes on to a boundary. It fails if it does not find one within the given number of rounds. -/
def seekBoundary : Nat → Cursor Unit
  | 0 => fun _ _ => none
  | n + 1 => do
    if ← atEnd then pure () else
      let last ← previous
      if last.kind = .semicolon then pure () else
        let t ← look
        if t.kind.startsStatement then pure () else
          let _ ← advance
          seekBoundary n

/-- Recovery. Its loop has as many rounds as there are tokens. -/
def synchronize : Cursor Unit :=
  fun tokens p => (do let _ ← advance; seekBoundary tokens.length : Cursor Unit) tokens p

def ended (start : Nat) : Cursor Unit := fun _ p => some ⟨(), [.declaration start p], p⟩

end Cursor

/-! ## Plans -/

/-- The text of a rule. The flag says that it is only used with a token in front. -/
inductive Plan : Bool → Type → Type 1 where
  | pure {α : Type} (a : α) : Plan false α
  | exhausted {α : Type} : Plan false α
  | peek : Plan false Token
  | peekKind {α : Type} (f : ∀ k : Kind, Plan (k != .eof) α) : Plan false α
  | skip : Plan true Unit
  | takeIf (test : Kind → Bool) : Plan false (Option Token)
  | note (t : Token) (c : Complaint) : Plan false Unit
  | reject {α : Type} (c : Complaint) : Plan false α
  | recover {α : Type} (plan : Plan false α) : Plan true (Option α)
  | bind {α β : Type} {front : Bool} (plan : Plan front α) (f : α → Plan false β) : Plan front β
  | weaken {α : Type} (plan : Plan false α) : Plan true α

namespace Plan

def rule : {front : Bool} → {α : Type} → Plan front α → Rule α
  | _, _, .pure a => Pure.pure a
  | _, _, .exhausted => Rule.exhausted
  | _, _, .peek => Rule.peek
  | _, _, .peekKind f => Rule.peekKind >>= fun k => (f k).rule
  | _, _, .skip => Rule.skip
  | _, _, .takeIf test => Rule.takeIf test
  | _, _, .note t c => Rule.note t c
  | _, _, .reject c => Rule.reject c
  | _, _, .recover plan => Rule.recover plan.rule
  | _, _, .bind plan f => plan.rule >>= fun a => (f a).rule
  | _, _, .weaken plan => plan.rule

/-- A plan as it is carried out by a cursor. -/
def walk : {front : Bool} → {α : Type} → Plan front α → Cursor (Verdict α × List StaticError)
  | _, _, .pure a => Pure.pure (.done a, [])
  | _, _, .exhausted => Pure.pure (.exhausted, [])
  | _, _, .peek => do
    let t ← Cursor.look
    Pure.pure (.done t, [])
  | _, _, .peekKind f => do
    let t ← Cursor.look
    (f t.kind).walk
  | _, _, .skip => do
    let _ ← Cursor.advance
    Pure.pure (.done (), [])
  | _, _, .takeIf test => do
    let o ← Cursor.takeIf test
    Pure.pure (.done o, [])
  | _, _, .note t c => Pure.pure (.done (), [StaticError.atToken t c])
  | _, _, .reject c => do
    let t ← Cursor.look
    Pure.pure (.rejected, [StaticError.atToken t c])
  | _, _, .recover plan => do
    let start ← Cursor.position
    match ← plan.walk with
    | (.done a, es) => do
      Cursor.ended start
      Pure.pure (.done (some a), es)
    | (.rejected, es) => do
      Cursor.synchronize
      Cursor.ended start
      Pure.pure (.done none, es)
    | (.exhausted, es) => Pure.pure (.exhausted, es)
  | _, _, .bind plan f => do
    match ← plan.walk with
    | (.done a, es) => do
      let (v, es') ← (f a).walk
      Pure.pure (v, es ++ es')
    | (.rejected, es) => Pure.pure (.rejected, es)
    | (.exhausted, es) => Pure.pure (.exhausted, es)
  | _, _, .weaken plan => plan.walk

/-- What recovers in the plan has used a token if it was done. -/
def Productive : {front : Bool} → {α : Type} → Plan front α → Prop
  | _, _, .peekKind f => ∀ k, (f k).Productive
  | _, _, .recover plan => plan.Productive ∧ ∀ eof ts a es rest, ts ≠ [] →
      plan.rule eof ts = ⟨.done a, es, rest⟩ → rest.length < ts.length
  | _, _, .bind plan f => plan.Productive ∧ ∀ a, (f a).Productive
  | _, _, .weaken plan => plan.Productive
  | _, _, _ => True

structure Describes {front : Bool} {α : Type} (plan : Plan front α) (r : Rule α) : Prop where
  rule_eq : plan.rule = r
  productive : plan.Productive

/-- All rules of the grammar have plans. -/
theorem compatible : Rule.Compatible fun front r _ => ∃ plan : Plan front _, plan.Describes r where
  pure a := ⟨.pure a, rfl, trivial⟩
  exhausted _ := ⟨.exhausted, rfl, trivial⟩
  peek := ⟨.peek, rfl, trivial⟩
  peekKind h := by
    choose plans hplans using h
    refine ⟨.peekKind plans, ?_, fun k => (hplans k).productive⟩
    rw [Plan.rule]
    exact congrArg _ (funext fun k => (hplans k).rule_eq)
  skip := ⟨.skip, rfl, trivial⟩
  takeIf test := ⟨.takeIf test, rfl, trivial⟩
  note t c := ⟨.note t c, rfl, trivial⟩
  reject c := ⟨.reject c, rfl, trivial⟩
  recover h := by
    obtain ⟨plan, hrule, hproductive⟩ := h
    refine ⟨.recover plan, by rw [Plan.rule, hrule], hproductive,
      fun eof ts a es rest hne hdone => ?_⟩
    rw [hrule] at hdone
    exact Grammar.attempt_used hne hdone
  bind h hf := by
    obtain ⟨plan, hrule, hproductive⟩ := h
    choose plans hplans using hf
    refine ⟨.bind plan plans, ?_, hproductive, fun a => (hplans a).productive⟩
    rw [Plan.rule, hrule]
    exact congrArg _ (funext fun a => (hplans a).rule_eq)
  weaken h := by
    obtain ⟨plan, hrule, hproductive⟩ := h
    exact ⟨.weaken plan, hrule, hproductive⟩

end Plan

/-! ## Trails -/

/-- The events on the way from `p` to `q`, up to the limit: the position never decreases. -/
structure Trail (limit p : Nat) (events : List Event) (q : Nat) : Prop where
  forward : p ≤ q
  bounded : q ≤ limit
  ordered : events.Pairwise fun e e' => e.position ≤ e'.position
  between : ∀ e ∈ events, p ≤ e.position ∧ e.position ≤ q
  inside : ∀ e ∈ events, e.Inside limit

namespace Trail

variable {limit p q r : Nat} {events events' : List Event}

theorem nil (hpq : p ≤ q) (hq : q ≤ limit) : Trail limit p [] q :=
  ⟨hpq, hq, .nil, fun _ h => absurd h List.not_mem_nil, fun _ h => absurd h List.not_mem_nil⟩

theorem single {e : Event} (hpq : p ≤ q) (hq : q ≤ limit) (he : e.position = q)
    (h : e.Inside limit) :
    Trail limit p [e] q := by
  refine ⟨hpq, hq, List.pairwise_singleton _ _, fun e' he' => ?_, fun e' he' => ?_⟩
  · rw [List.mem_singleton.1 he', he]
    exact ⟨hpq, le_rfl⟩
  · rwa [List.mem_singleton.1 he']

theorem append (h : Trail limit p events q) (h' : Trail limit q events' r) :
    Trail limit p (events ++ events') r where
  forward := h.forward.trans h'.forward
  bounded := h'.bounded
  ordered := List.pairwise_append.2 ⟨h.ordered, h'.ordered,
    fun e he e' he' => (h.between e he).2.trans (h'.between e' he').1⟩
  between e he := by
    rcases List.mem_append.1 he with he | he
    · exact ⟨(h.between e he).1, (h.between e he).2.trans h'.forward⟩
    · exact ⟨h.forward.trans (h'.between e he).1, (h'.between e he).2⟩
  inside e he := by
    rcases List.mem_append.1 he with he | he
    · exact h.inside e he
    · exact h'.inside e he

end Trail

/-- From `p` the cursor goes to `q` with the given result, and does not leave the tokens up to the
limit. -/
def Cursor.Goes {α : Type} (w : Cursor α) (list : List Token) (limit p : Nat) (a : α) (q : Nat) :
    Prop :=
  ∃ events, w list p = some ⟨a, events, q⟩ ∧ Trail limit p events q

namespace Cursor

variable {α β : Type} {list : List Token} {limit p q r : Nat}

theorem Goes.pure (a : α) (hp : p ≤ limit) : Goes (Pure.pure a) list limit p a p :=
  ⟨[], rfl, .nil le_rfl hp⟩

theorem Goes.bind {w : Cursor α} {f : α → Cursor β} {a : α} {b : β} (h : w.Goes list limit p a q)
    (h' : (f a).Goes list limit q b r) : (w >>= f).Goes list limit p b r := by
  obtain ⟨events, hw, htrail⟩ := h
  obtain ⟨events', hf, htrail'⟩ := h'
  refine ⟨events ++ events', ?_, htrail.append htrail'⟩
  show (w list p).bind _ = _
  rw [hw, Option.bind_some, hf, Option.map_some]

theorem Goes.forward {w : Cursor α} {a : α} (h : w.Goes list limit p a q) : p ≤ q := by
  obtain ⟨_, -, htrail⟩ := h
  exact htrail.forward

theorem Goes.bounded {w : Cursor α} {a : α} (h : w.Goes list limit p a q) : q ≤ limit := by
  obtain ⟨_, -, htrail⟩ := h
  exact htrail.bounded

theorem position_goes (hp : p ≤ limit) : position.Goes list limit p p p := ⟨[], rfl, .nil le_rfl hp⟩

theorem move_goes (hp : p < limit) : move.Goes list limit p () (p + 1) :=
  ⟨[], rfl, .nil (Nat.le_succ p) hp⟩

theorem ended_goes {start : Nat} (hstart : start < p) (hp : p ≤ limit) :
    (ended start).Goes list limit p () p :=
  ⟨_, rfl, .single le_rfl hp rfl ⟨hstart, hp⟩⟩

/-! ## Basic steps

The list is a text, an end of text, and anything behind it. The limit is the place of the end. -/

section

variable {body behind : List Token} {stop : Token}

theorem look_goes (hp : p ≤ body.length) :
    look.Goes (body ++ stop :: behind) body.length p ((body.drop p).head?.getD stop) p := by
  have hget : (body ++ stop :: behind)[p]? = some ((body.drop p).head?.getD stop) := by
    rcases Nat.lt_or_eq_of_le hp with hlt | rfl
    · rw [List.getElem?_append_left hlt, List.head?_drop, List.getElem?_eq_getElem hlt,
        Option.getD_some]
    · rw [List.getElem?_append_right le_rfl, Nat.sub_self, List.drop_length]
      rfl
  exact ⟨[.look p], by rw [look, hget, Option.map_some], .single le_rfl hp rfl hp⟩

theorem look_goes_token (hp : p < body.length) :
    look.Goes (body ++ stop :: behind) body.length p (body[p]) p := by
  have hlook := @look_goes p body behind stop hp.le
  rwa [List.head?_drop, List.getElem?_eq_getElem hp, Option.getD_some] at hlook

theorem previous_goes (hp : p < body.length) :
    previous.Goes (body ++ stop :: behind) body.length (p + 1) (body[p]) (p + 1) := by
  refine ⟨[.back (p + 1)], ?_, .single le_rfl hp rfl ⟨Nat.le_add_left 1 p, hp⟩⟩
  rw [previous, if_neg (Nat.succ_ne_zero p), Nat.add_sub_cancel, List.getElem?_append_left hp,
    List.getElem?_eq_getElem hp, Option.map_some]

variable (hbody : ∀ t ∈ body, t.kind ≠ .eof) (hstop : stop.kind = .eof)

include hbody in
theorem atEnd_goes_false (hp : p < body.length) :
    atEnd.Goes (body ++ stop :: behind) body.length p false p := by
  have hkind : (body[p].kind == .eof) = false := by simpa using hbody _ (List.getElem_mem hp)
  exact hkind ▸ (look_goes_token hp).bind (.pure _ hp.le)

include hstop in
theorem atEnd_goes_true (hp : p = body.length) :
    atEnd.Goes (body ++ stop :: behind) body.length p true p := by
  have hkind : (((body.drop p).head?.getD stop).kind == .eof) = true := by
    rw [hp, List.drop_length]
    simpa using hstop
  exact hkind ▸ (look_goes hp.le).bind (.pure _ hp.le)

include hbody in
theorem advance_goes (hp : p < body.length) :
    advance.Goes (body ++ stop :: behind) body.length p (body[p]) (p + 1) :=
  (atEnd_goes_false hbody hp).bind ((move_goes hp).bind (previous_goes hp))

include hstop in
/-- At the end nothing is passed. There is a token in front if the end is not the first token. -/
theorem advance_goes_end (hp : p + 1 = body.length) :
    advance.Goes (body ++ stop :: behind) body.length (p + 1) (body[p]) (p + 1) :=
  (atEnd_goes_true hstop hp).bind (previous_goes (by omega))

include hbody hstop in
theorem takeIf_goes (test : Kind → Bool) (hp : p ≤ body.length) :
    ∃ o q, (takeIf test).Goes (body ++ stop :: behind) body.length p o q ∧
      Rule.takeIf test stop (body.drop p) = ⟨.done o, [], body.drop q⟩ := by
  rcases Nat.lt_or_eq_of_le hp with hlt | rfl
  · rw [List.drop_eq_getElem_cons hlt, Rule.takeIf]
    by_cases htest : test body[p].kind = true
    · refine ⟨some body[p], p + 1,
        (atEnd_goes_false hbody hlt).bind ((look_goes_token hlt).bind ?_), if_pos htest⟩
      rw [if_pos htest]
      exact (advance_goes hbody hlt).bind (.pure _ hlt)
    · refine ⟨none, p, (atEnd_goes_false hbody hlt).bind ((look_goes_token hlt).bind ?_), ?_⟩
      · rw [if_neg htest]
        exact .pure none hp
      · rw [if_neg htest, List.drop_eq_getElem_cons hlt]
  · refine ⟨none, body.length, (atEnd_goes_true hstop rfl).bind (.pure none le_rfl), ?_⟩
    rw [List.drop_length]
    rfl

include hbody hstop in
/-- The loop of recovery has a round for each token that is left, and one for the end. -/
theorem seekBoundary_goes {n : Nat} (hp : p < body.length) (hn : body.length - p ≤ n) :
    ∃ q, (seekBoundary n).Goes (body ++ stop :: behind) body.length (p + 1) () q ∧
      Rule.skipToBoundary (body[p]) (body.drop (p + 1)) = body.drop q := by
  induction n generalizing p with
  | zero => omega
  | succ n ih =>
    rcases Nat.lt_or_eq_of_le (Nat.succ_le_of_lt hp) with hlt | heq
    · rw [List.drop_eq_getElem_cons hlt, Rule.skipToBoundary]
      by_cases hsemi : body[p].kind = .semicolon
      · refine ⟨p + 1, (atEnd_goes_false hbody hlt).bind ((previous_goes hp).bind ?_), ?_⟩
        · rw [if_pos hsemi]
          exact .pure () hlt.le
        · rw [if_pos (by simp [hsemi]), List.drop_eq_getElem_cons hlt]
      · by_cases hstart : body[p + 1].kind.startsStatement = true
        · refine ⟨p + 1, (atEnd_goes_false hbody hlt).bind ((previous_goes hp).bind ?_), ?_⟩
          · rw [if_neg hsemi]
            refine (look_goes_token hlt).bind ?_
            rw [if_pos hstart]
            exact .pure () hlt.le
          · rw [if_pos (by simp [hstart]), List.drop_eq_getElem_cons hlt]
        · obtain ⟨q, hgoes, hskip⟩ := ih hlt (by omega)
          refine ⟨q, (atEnd_goes_false hbody hlt).bind ((previous_goes hp).bind ?_), ?_⟩
          · rw [if_neg hsemi]
            refine (look_goes_token hlt).bind ?_
            rw [if_neg hstart]
            exact (advance_goes hbody hlt).bind hgoes
          · rw [if_neg (by simp [hsemi, hstart]), hskip]
    · refine ⟨p + 1, (atEnd_goes_true hstop heq).bind (.pure () heq.le), ?_⟩
      rw [List.drop_eq_nil_of_le heq.ge]
      rfl

include hbody hstop in
/-- Recovery from an error behind the first token, or in front of any token, goes on. -/
theorem synchronize_goes (hp : p ≤ body.length) (hpos : p < body.length ∨ 0 < p) :
    ∃ q, synchronize.Goes (body ++ stop :: behind) body.length p () q ∧ (p < body.length → p < q) ∧
      Rule.synchronize (body.drop p) = body.drop q := by
  rcases Nat.lt_or_eq_of_le hp with hlt | rfl
  · obtain ⟨q, hgoes, hskip⟩ := @seekBoundary_goes p body behind stop hbody hstop
      (body ++ stop :: behind).length hlt (by simp; omega)
    refine ⟨q, (advance_goes hbody hlt).bind hgoes, fun _ => hgoes.forward, ?_⟩
    rw [List.drop_eq_getElem_cons hlt]
    exact hskip
  · obtain ⟨k, hk⟩ : ∃ k, k + 1 = body.length := ⟨body.length - 1, by omega⟩
    have hend : (seekBoundary (body ++ stop :: behind).length).Goes (body ++ stop :: behind)
        body.length (k + 1) () (k + 1) := by
      rw [List.length_append, List.length_cons, ← Nat.add_assoc, seekBoundary]
      exact (atEnd_goes_true hstop hk).bind (.pure () hk.le)
    have hgoes : synchronize.Goes (body ++ stop :: behind) body.length (k + 1) () (k + 1) :=
      Goes.bind (f := fun _ => seekBoundary (body ++ stop :: behind).length)
        (advance_goes_end hstop hk) hend
    rw [hk] at hgoes
    refine ⟨body.length, hgoes, fun h => absurd h (lt_irrefl _), ?_⟩
    rw [List.drop_length]
    rfl

end

end Cursor

/-! ## Plans are carried out -/

section

variable {body behind : List Token} {stop : Token} (hbody : ∀ t ∈ body, t.kind ≠ .eof)
  (hstop : stop.kind = .eof)

include hbody hstop in
/-- A cursor that carries out a plan does what the plan does as a rule. -/
theorem Plan.walk_goes {front : Bool} {α : Type} {plan : Plan front α} (hplan : plan.Productive)
    {p : Nat} (hp : p ≤ body.length) (hfront : front = true → p < body.length) :
    ∃ v es q, plan.walk.Goes (body ++ stop :: behind) body.length p (v, es) q ∧
      plan.rule stop (body.drop p) = ⟨v, es, body.drop q⟩ := by
  induction plan generalizing p with
  | pure a => exact ⟨.done a, [], p, .pure _ hp, rfl⟩
  | exhausted => exact ⟨.exhausted, [], p, .pure _ hp, rfl⟩
  | peek => exact ⟨_, _, p, (Cursor.look_goes hp).bind (.pure _ hp), rfl⟩
  | peekKind f ih =>
    have hkind : ((body.drop p).head?.getD stop).kind = Rule.headKind (body.drop p) := by
      cases body.drop p with
      | nil => exact hstop
      | cons t ts => rfl
    have hnext : (Rule.headKind (body.drop p) != .eof) = true → p < body.length := by
      intro hne
      by_contra hge
      rw [List.drop_eq_nil_of_le (not_lt.1 hge)] at hne
      exact absurd hne (by decide)
    obtain ⟨v, es, q, hgoes, hrule⟩ := ih (Rule.headKind (body.drop p)) (hplan _) hp hnext
    refine ⟨v, es, q, (Cursor.look_goes hp).bind ?_, ?_⟩
    · rw [hkind]
      exact hgoes
    · rw [Plan.rule, Rule.peekKind_bind, hrule]
  | skip =>
    have hlt := hfront rfl
    refine ⟨_, _, p + 1, (Cursor.advance_goes hbody hlt).bind (.pure _ hlt), ?_⟩
    rw [Plan.rule, Rule.skip, List.tail_drop]
  | takeIf test =>
    obtain ⟨o, q, hgoes, hrule⟩ := Cursor.takeIf_goes hbody hstop test hp
    exact ⟨_, _, q, hgoes.bind (.pure _ hgoes.bounded), hrule⟩
  | note t c => exact ⟨_, _, p, .pure _ hp, rfl⟩
  | reject c => exact ⟨_, _, p, (Cursor.look_goes hp).bind (.pure _ hp), rfl⟩
  | weaken plan ih => exact ih hplan hp fun h => by cases h
  | bind plan f ih ihf =>
    obtain ⟨v, es, q, hgoes, hrule⟩ := ih hplan.1 hp hfront
    rw [Plan.walk, Plan.rule, Rule.bind_eq, Rule.bind, hrule]
    cases v with
    | done a =>
      obtain ⟨v, es', r, hgoes', hrule'⟩ := ihf a (hplan.2 a) hgoes.bounded fun h => by cases h
      refine ⟨v, es ++ es', r, hgoes.bind (hgoes'.bind (.pure _ hgoes'.bounded)), ?_⟩
      dsimp only
      rw [hrule']
    | rejected => exact ⟨_, _, q, hgoes.bind (.pure _ hgoes.bounded), rfl⟩
    | exhausted => exact ⟨_, _, q, hgoes.bind (.pure _ hgoes.bounded), rfl⟩
  | recover plan ih =>
    have hlt := hfront rfl
    obtain ⟨v, es, q, hgoes, hrule⟩ := ih hplan.1 hp fun h => by cases h
    have hstart := @Cursor.position_goes (body ++ stop :: behind) body.length p hp
    rw [Plan.walk, Plan.rule, Rule.recover, hrule]
    cases v with
    | done a =>
      have hused : p < q := by
        have hlen := hplan.2 stop _ a es _ (by simpa using hlt) hrule
        rw [List.length_drop, List.length_drop] at hlen
        omega
      exact ⟨_, _, q,
        hstart.bind (hgoes.bind
        ((Cursor.ended_goes hused hgoes.bounded).bind (.pure _ hgoes.bounded))),
        rfl⟩
    | rejected =>
      obtain ⟨r, hsync, hmore, hrest⟩ := Cursor.synchronize_goes hbody hstop hgoes.bounded
        (Nat.lt_or_ge q body.length |>.imp_right fun h => by omega)
      -- Recovery passes a token, unless the error was at the end, which is behind the first token.
      have hused : p < r := by
        have hforward := hgoes.forward
        have hforward' := hsync.forward
        rcases Nat.lt_or_ge q body.length with hq | hq
        · exact lt_of_le_of_lt hforward (hmore hq)
        · omega
      exact ⟨_, _, r,
        hstart.bind (hgoes.bind (hsync.bind ((Cursor.ended_goes hused hsync.bounded).bind
        (.pure _ hsync.bounded)))), congrArg (Reading.mk _ es) hrest⟩
    | exhausted => exact ⟨_, _, q, hstart.bind (hgoes.bind (.pure _ hgoes.bounded)), rfl⟩

end

/-! ## Whole lists -/

theorem exists_append_stopOf (tokens : List Token) (eof : Token) :
    ∃ behind, tokens ++ [eof] = textOf tokens ++ stopOf tokens eof :: behind := by
  have hsplit := List.takeWhile_append_dropWhile (p := (·.kind ≠ .eof)) (l := tokens)
  rw [textOf, stopOf]
  nth_rw 1 [← hsplit]
  cases tokens.dropWhile (·.kind ≠ .eof) with
  | nil => exact ⟨[], by simp⟩
  | cons t ts => exact ⟨ts ++ [eof], by simp⟩

theorem kind_stopOf (tokens : List Token) {eof : Token} (heof : eof.kind = .eof) :
    (stopOf tokens eof).kind = .eof := by
  rw [stopOf]
  have hhead := List.head?_dropWhile_not (fun t : Token => decide (t.kind ≠ .eof)) tokens
  cases hdrop : tokens.dropWhile (·.kind ≠ .eof) with
  | nil => exact heof
  | cons t ts =>
    rw [hdrop] at hhead
    simpa using hhead

open Grammar

/-- **Reading ends and stays inside.** The last token of the list is an end of text; the others are
any tokens. With enough steps, reading by positions does not fail. It finds what `parse` finds and
comes to the first end of text. On the way the position never decreases, no token behind that end is
looked at and none in front of the first token, and each declaration passes a token. -/
theorem parse_stays_inside (tokens : List Token) {eof : Token} (heof : eof.kind = .eof) :
    let list := tokens ++ [eof]
    let stop := (textOf tokens).length
    ((∀ t ∈ list.take stop, t.kind ≠ .eof) ∧ list[stop]?.map Token.kind = some .eof) ∧
    ∀ n, stepsFor (textOf tokens) ≤ n →
      (∃ plan : Plan false (List Stmt), plan.Describes (declarations n .unlimited false)) ∧
      ∀ plan : Plan false (List Stmt), plan.Describes (declarations n .unlimited false) →
        ∃ events, plan.walk list 0 =
            some ⟨(.done (parse tokens eof).statements, (parse tokens eof).errors), events, stop⟩ ∧
          Trail stop 0 events stop := by
  intro list stop
  obtain ⟨behind, hlist⟩ := exists_append_stopOf tokens eof
  have hbody : ∀ t ∈ textOf tokens, t.kind ≠ .eof := fun _ => kind_of_mem_textOf
  have hstop := kind_stopOf tokens heof
  refine ⟨⟨?_, ?_⟩, fun n hn => ⟨?_, fun plan hplan => ?_⟩⟩
  · have htake : (tokens ++ [eof]).take stop = textOf tokens := by rw [hlist, List.take_left]
    exact htake ▸ hbody
  · have hget : (tokens ++ [eof])[stop]? = some (stopOf tokens eof) := by
      rw [hlist, List.getElem?_append_right le_rfl, Nat.sub_self, List.getElem?_cons_zero]
    rw [hget, Option.map_some, hstop]
  · exact (StmtsRelated.of_le Plan.compatible (le_refl n) (Depth.le_refl _)).declarations false
  · obtain ⟨v, es, q, ⟨events, hwalk, htrail⟩, hrule⟩ :=
      @Plan.walk_goes _ behind _ hbody hstop _ _ plan hplan.productive 0 (Nat.zero_le _)
        fun h => by cases h
    rw [stepsFor] at hn
    rw [hplan.rule_eq, List.drop_zero, declarations_eq_parse tokens eof (by omega)] at hrule
    injection hrule with hv hes hq
    have hend : q = stop := le_antisymm htrail.bounded (List.drop_eq_nil_iff.1 hq.symm)
    rw [← hlist, ← hv, ← hes, hend] at hwalk
    rw [hend] at htrail
    exact ⟨events, hwalk, htrail⟩

/-- What stands behind the first end of text is not looked at. -/
theorem parse_stays_inside_twoEnds :
    let tokens : List Token :=
  [⟨.rightParen, ")", 1, 0⟩, ⟨.eof, "", 1, 1⟩, ⟨.printKw, "print", 1, 2⟩]
    let eof : Token := ⟨.eof, "", 1, 3⟩
    eof.kind = .eof ∧ stepsFor (textOf tokens) ≤ 32 ∧
    ∃ plan : Plan false (List Stmt), plan.Describes (declarations 32 .unlimited false) ∧
      ∃ events, plan.walk (tokens ++ [eof]) 0 =
        some ⟨(.done [], [⟨1, .at ")", .expression⟩]), events, 1⟩ ∧ Trail 1 0 events 1 := by
  intro tokens eof
  obtain ⟨⟨plan, hplan⟩, hwalk⟩ := (@parse_stays_inside tokens eof rfl).2 32 (by decide)
  exact ⟨rfl, by decide, plan, hplan, hwalk plan hplan⟩

end Lox
