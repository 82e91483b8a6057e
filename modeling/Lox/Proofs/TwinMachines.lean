import Lox.Proofs.Calls
import Lox.Proofs.Twins

/-!
# Twin machines

Machines on which twins are executed differ in the tokens of the declarations that their functions
hold, and in nothing else that a program could see: identities, numbers of scopes, names and
constants are the same. This is `Machine.Twin`. The tables of distances have the same entries at
paired tokens, and neither values nor scopes nor operators tell twins apart.
-/

namespace Lox

/-! ## Values -/

/-- The same names are bound, to related things. -/
def Bindings.Twin {α β : Type} (A : α → β → Prop) (b : Bindings α) (b' : Bindings β) : Prop :=
  ∀ x, Option.Rel A (b.get? x) (b'.get? x)

structure Closure.Twin (R : Pairing) (f g : Closure) : Prop where
  id : f.id = g.id
  decl : FunDecl.Twin R f.decl g.decl
  scope : f.scope = g.scope
  isInitializer : f.isInitializer = g.isInitializer

structure ClassLayer.Twin (R : Pairing) (a b : ClassLayer) : Prop where
  id : a.id = b.id
  name : a.name = b.name
  methods : a.methods.Twin (Closure.Twin R) b.methods

structure Class.Twin (R : Pairing) (c d : Class) : Prop where
  own : c.own.Twin R d.own
  inherited : List.Forall₂ (ClassLayer.Twin R) c.inherited d.inherited

structure Instance.Twin (R : Pairing) (i j : Instance) : Prop where
  id : i.id = j.id
  cls : i.cls.Twin R j.cls

inductive Value.Twin (R : Pairing) : Value → Value → Prop where
  | nil : Twin R .nil .nil
  | bool (b : Bool) : Twin R (.bool b) (.bool b)
  | number (x : Float) : Twin R (.number x) (.number x)
  | text (s : String) : Twin R (.text s) (.text s)
  | function {f g : Closure} : f.Twin R g → Twin R (.function f) (.function g)
  | cls {c d : Class} : c.Twin R d → Twin R (.cls c) (.cls d)
  | inst {i j : Instance} : i.Twin R j → Twin R (.inst i) (.inst j)
  | native (n : Native) : Twin R (.native n) (.native n)

structure RuntimeError.Twin (R : Pairing) (e e' : RuntimeError) : Prop where
  token : R e.token e'.token
  cause : e.cause = e'.cause

inductive Exit.Twin (R : Pairing) : Exit → Exit → Prop where
  | returned {v w : Value} : v.Twin R w → Twin R (.returned v) (.returned w)
  | failed {e e' : RuntimeError} : e.Twin R e' → Twin R (.failed e) (.failed e')
  | fault (f : Fault) : Twin R (.fault f) (.fault f)
  | overflow : Twin R .overflow .overflow
  | unfinished : Twin R .unfinished .unfinished

namespace Bindings.Twin

variable {α β : Type} {A : α → β → Prop} {b : Bindings α} {b' : Bindings β}

theorem empty : Bindings.Twin A .empty .empty := fun _ => .none

theorem set (h : b.Twin A b') (x : String) {v : α} {w : β} (hv : A v w) :
    (b.set x v).Twin A (b'.set x w) := by
  intro y
  rw [get?_set, get?_set]
  split
  · exact .some hv
  · exact h y

theorem setAll (h : b.Twin A b') (xs : List String) {vs : List α} {ws : List β}
    (hvs : List.Forall₂ A vs ws) :
    (b.setAll xs vs).Twin A (b'.setAll xs ws) := by
  induction xs generalizing b b' vs ws with
  | nil => exact h
  | cons x xs ih =>
    cases hvs with
    | nil => exact h
    | cons hv hvs => exact ih (h.set x hv) hvs

end Bindings.Twin

section

variable {R R' : Pairing}

/-! ### Growing pairings -/

theorem Closure.Twin.mono (hR : ∀ t t', R t t' → R' t t') {f g : Closure} (h : f.Twin R g) :
    f.Twin R' g :=
  { h with decl := Stmt.twinFunction_mono hR h.decl }

theorem ClassLayer.Twin.mono (hR : ∀ t t', R t t' → R' t t') {a b : ClassLayer} (h : a.Twin R b) :
    a.Twin R' b :=
  { h with methods := fun x => optionRel_mono (fun _ _ => Closure.Twin.mono hR) (h.methods x) }

theorem Class.Twin.mono (hR : ∀ t t', R t t' → R' t t') {c d : Class} (h : c.Twin R d) :
    c.Twin R' d :=
  ⟨h.own.mono hR, h.inherited.imp fun _ _ => ClassLayer.Twin.mono hR⟩

theorem Value.Twin.mono (hR : ∀ t t', R t t' → R' t t') {v w : Value} (h : v.Twin R w) :
    v.Twin R' w := by
  cases h with
  | nil => exact .nil
  | bool b => exact .bool b
  | number x => exact .number x
  | text s => exact .text s
  | function h => exact .function (h.mono hR)
  | cls h => exact .cls (h.mono hR)
  | inst h => exact .inst ⟨h.id, h.cls.mono hR⟩
  | native n => exact .native n

/-! ### What cannot tell values apart -/

theorem Literal.twin_toValue (l : Literal) : l.toValue.Twin R l.toValue := by
  cases l with
  | nil => exact .nil
  | bool b => exact .bool b
  | number x => exact .number x
  | text s => exact .text s

theorem Closure.Twin.name_eq (hR : R.Spelled) {f g : Closure} (h : f.Twin R g) : f.name = g.name :=
  hR.lexeme h.decl.name

theorem Callable.Twin.params {σ : Type} {S : σ → σ → Prop} {f g : Callable σ} (h : f.Twin R S g) :
    List.Forall₂ R f.params g.params := by
  cases h with
  | mk _ hps _ => exact hps

theorem Callable.Twin.body {σ : Type} {S : σ → σ → Prop} {f g : Callable σ} (h : f.Twin R S g) :
    List.Forall₂ S f.body g.body := by
  cases h with
  | mk _ _ hss => exact hss

theorem twins_lexemes (hR : R.Spelled) {ts ts' : List Token} (h : List.Forall₂ R ts ts') :
    ts.map Token.lexeme = ts'.map Token.lexeme := by
  induction h with
  | nil => rfl
  | cons h _ ih => rw [List.map_cons, List.map_cons, hR.lexeme h, ih]

theorem Closure.Twin.arity_eq {f g : Closure} (h : f.Twin R g) : f.arity = g.arity :=
  h.decl.params.length_eq

theorem Value.Twin.truthy_eq {v w : Value} (h : v.Twin R w) : v.truthy = w.truthy := by
  cases h <;> rfl

theorem Value.Twin.shown_eq (hR : R.Spelled) {v w : Value} (h : v.Twin R w) :
    v.shown = w.shown := by
  cases h with
  | function h => simp only [Value.shown, h.name_eq hR]
  | cls h => simp only [Value.shown, Class.name, h.own.name]
  | inst h => simp only [Value.shown, Class.name, h.cls.own.name]
  | _ => rfl

theorem Value.Twin.sameIdentity {v w : Value} (h : v.Twin R w) : v.SameIdentity w := by
  cases h with
  | function h => exact .function h.id
  | cls h => exact .cls h.own.id
  | inst h => exact .inst h.id
  | _ => exact .refl _

theorem Value.Twin.equal_eq {v w v' w' : Value} (h : v.Twin R w) (h' : v'.Twin R w') :
    v.equal v' = w.equal w' :=
  h.sameIdentity.equal_eq h'.sameIdentity

theorem Class.Twin.layers {c d : Class} (h : c.Twin R d) :
    List.Forall₂ (ClassLayer.Twin R) c.layers d.layers := .cons h.own h.inherited

theorem Class.Twin.method? {c d : Class} (h : c.Twin R d) (x : String) :
    Option.Rel (Closure.Twin R) (c.method? x) (d.method? x) :=
  Class.method?_rel (h.layers.imp fun _ _ hab => hab.methods x)

theorem Class.Twin.arity_eq {c d : Class} (h : c.Twin R d) : c.arity = d.arity :=
  Class.arity_eq_of_rel (fun _ _ hfg => hfg.arity_eq) (h.method? _)

end

/-! ## Scopes -/

inductive ExceptRel {ε ε' α β : Type} (E : ε → ε' → Prop) (A : α → β → Prop) :
    Except ε α → Except ε' β → Prop where
  | ok {a : α} {b : β} : A a b → ExceptRel E A (.ok a) (.ok b)
  | error {e : ε} {e' : ε'} : E e e' → ExceptRel E A (.error e) (.error e')

/-- The same scopes inside each other bind the same names, to twins. -/
structure Scopes.Twin (R : Pairing) (s s' : Scopes) : Prop where
  next : s.next = s'.next
  parent : ∀ i, s.parent? i = s'.parent? i
  bound : ∀ i x, Option.Rel (Value.Twin R) (s.local? i x) (s'.local? i x)

namespace Scopes.Twin

variable {R R' : Pairing} {s s' : Scopes}

theorem mono (hR : ∀ t t', R t t' → R' t t') (h : s.Twin R s') : s.Twin R' s' :=
  { h with bound := fun i x => optionRel_mono (fun _ _ => Value.Twin.mono hR) (h.bound i x) }

theorem add (h : s.Twin R s') (p : Option ScopeId) {b b' : Bindings Value}
    (hb : b.Twin (Value.Twin R) b') :
    (s.add p b).Twin R (s'.add p b') := by
  refine ⟨?_, fun i => ?_, fun i x => ?_⟩
  · rw [next_add, next_add, h.next]
  · rw [parent?_add, parent?_add, h.next, h.parent]
  · rw [local?_add, local?_add, h.next]
    split
    · exact hb x
    · exact h.bound i x

theorem define (h : s.Twin R s') (i : ScopeId) (x : String) {v w : Value} (hv : v.Twin R w) :
    (s.define i x v).Twin R (s'.define i x w) := by
  refine ⟨?_, fun j => ?_, fun j y => ?_⟩
  · rw [next_define, next_define, h.next]
  · rw [parent?_define, parent?_define, h.parent]
  · rw [local?_define, local?_define, ← h.next]
    split
    · exact .some hv
    · exact h.bound j y

theorem ancestor?_eq (h : s.Twin R s') (i : ScopeId) (d : Nat) :
    s.ancestor? i d = s'.ancestor? i d := by
  induction d generalizing i with
  | zero => rfl
  | succ d ih =>
    rw [Scopes.ancestor?, Scopes.ancestor?, ← h.parent]
    cases s.parent? i with
    | none => rfl
    | some p => exact ih p

theorem ancestor_eq (h : s.Twin R s') (i : ScopeId) (d : Nat) :
    s.ancestor i d = s'.ancestor i d := by
  rw [Scopes.ancestor, Scopes.ancestor, h.ancestor?_eq]

theorem outward_eq (h : s.Twin R s') (n : Nat) (i : ScopeId) : s.outward n i = s'.outward n i := by
  induction n generalizing i with
  | zero => rfl
  | succ n ih =>
    rw [Scopes.outward, Scopes.outward, ← h.parent]
    cases s.parent? i with
    | none => rfl
    | some p => simp only [Option.elim, ih]

theorem isSome_local?_eq (h : s.Twin R s') (i : ScopeId) (x : String) :
    (s.local? i x).isSome = (s'.local? i x).isSome := by
  have hbound := h.bound i x
  generalize s.local? i x = o at hbound ⊢
  generalize s'.local? i x = o' at hbound ⊢
  cases hbound <;> rfl

theorem binder?_eq (h : s.Twin R s') (i : ScopeId) (x : String) :
    s.binder? i x = s'.binder? i x := by
  simp only [Scopes.binder?, Scopes.path, h.outward_eq, h.isSome_local?_eq]

theorem getAt (h : s.Twin R s') (i : ScopeId) (d : Nat) (x : String) :
    ExceptRel Eq (Value.Twin R) (s.getAt i d x) (s'.getAt i d x) := by
  unfold Scopes.getAt
  rw [← h.ancestor_eq]
  cases s.ancestor i d with
  | error e => exact .error rfl
  | ok j =>
    have hbound := h.bound j x
    simp only [bind, Except.bind]
    generalize s.local? j x = o at hbound ⊢
    generalize s'.local? j x = o' at hbound ⊢
    cases hbound with
    | some hv => exact .ok hv
    | none => exact .error rfl

theorem lookup (hR : R.Spelled) (h : s.Twin R s') (i : ScopeId) {t t' : Token} (ht : R t t') :
    ExceptRel (RuntimeError.Twin R) (Value.Twin R) (s.lookup i t) (s'.lookup i t') := by
  have hundefined : (undefined t).Twin R (undefined t') :=
    ⟨ht, by rw [undefined, undefined, hR.lexeme ht]⟩
  rw [lookup_eq, lookup_eq, ← h.binder?_eq, ← hR.lexeme ht]
  cases s.binder? i t.lexeme with
  | none => exact .error hundefined
  | some j =>
    have hbound := h.bound j t.lexeme
    simp only [Option.bind]
    generalize s.local? j t.lexeme = o at hbound ⊢
    generalize s'.local? j t.lexeme = o' at hbound ⊢
    cases hbound with
    | some hv => exact .ok hv
    | none => exact .error hundefined

end Scopes.Twin

/-! ## Machines -/

structure FieldsTwin (R : Pairing) (a b : Array (Bindings Value)) : Prop where
  size : a.size = b.size
  fields : ∀ i, (a.getD i .empty).Twin (Value.Twin R) (b.getD i .empty)

namespace FieldsTwin

variable {R R' : Pairing} {a b : Array (Bindings Value)}

theorem mono (hR : ∀ t t', R t t' → R' t t') (h : FieldsTwin R a b) : FieldsTwin R' a b :=
  { h with fields := fun i x => optionRel_mono (fun _ _ => Value.Twin.mono hR) (h.fields i x) }

theorem push (h : FieldsTwin R a b) : FieldsTwin R (a.push .empty) (b.push .empty) := by
  refine ⟨?_, fun i => ?_⟩
  · rw [Array.size_push, Array.size_push, h.size]
  · rw [getD_push, getD_push]
    exact h.fields i

theorem set (h : FieldsTwin R a b) (i : Nat) (x : String) {v w : Value} (hv : v.Twin R w) :
    FieldsTwin R (a.modify i (·.set x v)) (b.modify i (·.set x w)) := by
  refine ⟨?_, fun j => ?_⟩
  · rw [Array.size_modify, Array.size_modify, h.size]
  · rw [getD_modify, getD_modify, ← h.size]
    split
    · exact (h.fields j).set x hv
    · exact h.fields j

end FieldsTwin

/-- What can be seen of a machine is the same but for tokens, and paired tokens refer to the same
distances. -/
structure Machine.Twin (R : Pairing) (m n : Machine) : Prop where
  scopes : m.scopes.Twin R n.scopes
  fields : FieldsTwin R m.fields n.fields
  nextId : m.nextId = n.nextId
  globals : m.globals = n.globals
  current : m.current = n.current
  printed : m.printed = n.printed
  clock : m.clock = n.clock
  distance : ∀ {t t'}, R t t' → m.distances.find? t.site = n.distances.find? t'.site

/-- More tokens can be paired when the tables agree on them too. -/
theorem Machine.Twin.grow {R R' : Pairing} {m n : Machine} (h : m.Twin R n)
    (hR : ∀ t t', R t t' → R' t t') {d d' : Distances} (hd : ∀ {t t'}, R' t t' →
    d.find? t.site = d'.find? t'.site) {k k' : Nat} {e e' : Option RuntimeError} :
    Machine.Twin R' { m with distances := d, nextSite := k, lastError := e }
      { n with distances := d', nextSite := k', lastError := e' } :=
  ⟨h.scopes.mono hR, h.fields.mono hR, h.nextId, h.globals, h.current, h.printed, h.clock, hd⟩

/-! ## Operators -/

namespace Operator

variable {R : Pairing}

theorem twin_fail {t t' : Token} (h : R t t') (cause : Cause) {A : Value → Value → Prop} :
    ExceptRel (Exit.Twin R) A (Operator.fail t cause) (Operator.fail t' cause) :=
      .error (.failed ⟨h, rfl⟩)

theorem twin_unary (hR : R.Spelled) {t t' : Token} (ht : R t t') {v w : Value} (hv : v.Twin R w) :
    ExceptRel (Exit.Twin R) (Value.Twin R) (unary t v) (unary t' w) := by
  have htruthy := hv.truthy_eq
  unfold unary
  rw [← hR.kind ht]
  cases t.kind with
  | bang => exact .ok (htruthy ▸ .bool _)
  | minus =>
    cases hv with
    | number x => exact .ok (.number _)
    | _ => exact twin_fail ht _
  | _ => exact .error (.fault _)

theorem twin_add {t t' : Token} (ht : R t t') {v w v' w' : Value} (hv : v.Twin R w)
    (hv' : v'.Twin R w') :
    ExceptRel (Exit.Twin R) (Value.Twin R) (add t v v') (add t' w w') := by
  cases hv with
  | number x => cases hv' with
    | number y => exact .ok (.number _)
    | _ => exact twin_fail ht _
  | text s => cases hv' with
    | text s' => exact .ok (.text _)
    | _ => exact twin_fail ht _
  | _ => exact twin_fail ht _

theorem twin_arithmetic (kind : Kind) (x y : Float) :
    Option.Rel (Value.Twin R) (arithmetic? kind x y) (arithmetic? kind x y) := by
  cases kind with
  | minus => exact .some (.number _)
  | star => exact .some (.number _)
  | slash => exact .some (.number _)
  | greater => exact .some (.bool _)
  | greaterEqual => exact .some (.bool _)
  | less => exact .some (.bool _)
  | lessEqual => exact .some (.bool _)
  | _ => exact .none

theorem twin_onNumbers (hR : R.Spelled) {t t' : Token} (ht : R t t') {v w v' w' : Value}
    (hv : v.Twin R w) (hv' : v'.Twin R w') :
    ExceptRel (Exit.Twin R) (Value.Twin R) (onNumbers t v v') (onNumbers t' w w') := by
  cases hv with
  | number x => cases hv' with
    | number y =>
      have hresult := twin_arithmetic (R := R) t.kind x y
      rw [onNumbers, onNumbers, ← hR.kind ht]
      cases harith : arithmetic? t.kind x y with
      | none => exact .error (.fault _)
      | some r =>
        rw [harith] at hresult
        cases hresult with
        | some hr => exact .ok hr
    | _ => exact twin_fail ht _
  | _ => exact twin_fail ht _

theorem twin_binary (hR : R.Spelled) {t t' : Token} (ht : R t t') {v w v' w' : Value}
    (hv : v.Twin R w) (hv' : v'.Twin R w') :
    ExceptRel (Exit.Twin R) (Value.Twin R) (binary t v v') (binary t' w w') := by
  have hkind := hR.kind ht
  by_cases hplus : t.kind = .plus
  · simp only [binary, ← hkind, hplus]
    exact twin_add ht hv hv'
  by_cases heq : t.kind = .equalEqual
  · simp only [binary, ← hkind, heq, hv.equal_eq hv']
    exact .ok (.bool _)
  by_cases hne : t.kind = .bangEqual
  · simp only [binary, ← hkind, hne, hv.equal_eq hv']
    exact .ok (.bool _)
  rw [binary_eq_onNumbers hplus heq hne,
    binary_eq_onNumbers (hkind ▸ hplus) (hkind ▸ heq) (hkind ▸ hne)]
  exact twin_onNumbers hR ht hv hv'

end Operator
end Lox
