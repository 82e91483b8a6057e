import Lox.Proofs.TwinMachines

/-!
# Renamings

Two programs may be the same but for the names of their local variables. A `Renaming` says how they
differ: each scope has a *style*, and the style says how the names of the scope are spelled in the
second program. Trees are related relative to the styles of the scopes around them (`Expr.Renamed`,
`Stmt.Renamed`), for a name is spelled in the style of the scope that it is found in. Values, scopes
and machines are related relative to the styles of all scopes made so far (`Machine.Renamed`), which
only become more.
-/

namespace Lox

/-- How two programs differ. Names of scopes are spelled by the style of the scope, and the tokens
at the same places are paired. Implicit names are spelled the same in every style. -/
structure Renaming (ι : Type) where
  /-- The style of scopes that keep their names. -/
  plain : ι
  spell : ι → String → String
  spell_plain : ∀ x, spell plain x = x
  injective : ∀ k, Function.Injective (spell k)
  spell_this : ∀ k, spell k "this" = "this"
  spell_super : ∀ k, spell k "super" = "super"
  pairs : Pairing
  kind : ∀ {t t'}, pairs t t' → t.kind = t'.kind
  /-- The distance of the reference at a site of the first program. -/
  table : Nat → Option Nat

namespace Renaming

variable {ι : Type} (ρ : Renaming ι)

/-- How a name is spelled that is found at a distance, `Δ` being the styles of the scopes around it
from the inside out. Globals keep their names. -/
def spelling (Δ : List ι) (d : Option Nat) (x : String) : String :=
  d.elim x fun d => ρ.spell (Δ.getD d ρ.plain) x

/-- Tokens that are spelled the same. -/
structure Keeps (t t' : Token) : Prop where
  paired : ρ.pairs t t'
  lexeme : t.lexeme = t'.lexeme

/-- Tokens that name a variable of a scope in the style `k`. -/
structure Spells (k : ι) (t t' : Token) : Prop where
  paired : ρ.pairs t t'
  lexeme : t'.lexeme = ρ.spell k t.lexeme

/-- Tokens that refer to the same variable. -/
structure Refers (Δ : List ι) (t t' : Token) : Prop where
  paired : ρ.pairs t t'
  lexeme : t'.lexeme = ρ.spelling Δ (ρ.table t.site) t.lexeme

/-- The styles around the methods of a class, without the scope of `this`. -/
def aroundMethods (Δ : List ι) (superclass : Option Token) : List ι :=
  superclass.elim Δ fun _ => ρ.plain :: Δ

end Renaming

/-! ## Trees -/

section

variable {ι : Type} (ρ : Renaming ι)

inductive Expr.Renamed (Δ : List ι) : Expr → Expr → Prop where
  | literal (v : Literal) : Renamed Δ (.literal v) (.literal v)
  | var {t t' : Token} : ρ.Refers Δ t t' → Renamed Δ (.var t) (.var t')
  | assign {t t' : Token} {e e' : Expr} : ρ.Refers Δ t t' → Renamed Δ e e' →
      Renamed Δ (.assign t e) (.assign t' e')
  | unary {t t' : Token} {e e' : Expr} : ρ.Keeps t t' → Renamed Δ e e' →
      Renamed Δ (.unary t e) (.unary t' e')
  | binary {t t' : Token} {e e' f f' : Expr} : Renamed Δ e e' → ρ.Keeps t t' → Renamed Δ f f' →
      Renamed Δ (.binary e t f) (.binary e' t' f')
  | logical {t t' : Token} {e e' f f' : Expr} : Renamed Δ e e' → ρ.Keeps t t' → Renamed Δ f f' →
      Renamed Δ (.logical e t f) (.logical e' t' f')
  | grouping {e e' : Expr} : Renamed Δ e e' → Renamed Δ (.grouping e) (.grouping e')
  | call {t t' : Token} {e e' : Expr} {es es' : List Expr} : Renamed Δ e e' → ρ.Keeps t t' →
      List.Forall₂ (Renamed Δ) es es' → Renamed Δ (.call e t es) (.call e' t' es')
  | get {t t' : Token} {e e' : Expr} : Renamed Δ e e' → ρ.Keeps t t' →
      Renamed Δ (.get e t) (.get e' t')
  | set {t t' : Token} {e e' f f' : Expr} : Renamed Δ e e' → ρ.Keeps t t' → Renamed Δ f f' →
      Renamed Δ (.set e t f) (.set e' t' f')
  | super {t t' u u' : Token} : ρ.Refers Δ t t' → ρ.Keeps u u' →
      Renamed Δ (.super t u) (.super t' u')
  | this {t t' : Token} : ρ.Refers Δ t t' → Renamed Δ (.this t) (.this t')

mutual

/-- A block and the body of a function are in a scope of their own, of any style. -/
inductive Stmt.Renamed : List ι → Stmt → Stmt → Prop where
  | expr {Δ : List ι} {e e' : Expr} : e.Renamed ρ Δ e' → Stmt.Renamed Δ (.expr e) (.expr e')
  | print {Δ : List ι} {e e' : Expr} : e.Renamed ρ Δ e' → Stmt.Renamed Δ (.print e) (.print e')
  | varDecl {Δ : List ι} {t t' : Token} {o o' : Option Expr} : ρ.Spells (Δ.headD ρ.plain) t t' →
      Option.Rel (Expr.Renamed ρ Δ) o o' → Stmt.Renamed Δ (.varDecl t o) (.varDecl t' o')
  | block {Δ : List ι} {ss ss' : List Stmt} (k : ι) : Stmt.AllRenamed (k :: Δ) ss ss' →
      Stmt.Renamed Δ (.block ss) (.block ss')
  | ifThen {Δ : List ι} {e e' : Expr} {s s' : Stmt} : e.Renamed ρ Δ e' → Stmt.Renamed Δ s s' →
      Stmt.Renamed Δ (.ifElse e s none) (.ifElse e' s' none)
  | ifElse {Δ : List ι} {e e' : Expr} {s s' t t' : Stmt} : e.Renamed ρ Δ e' → Stmt.Renamed Δ s s' →
      Stmt.Renamed Δ t t' → Stmt.Renamed Δ (.ifElse e s (some t)) (.ifElse e' s' (some t'))
  | whileDo {Δ : List ι} {e e' : Expr} {s s' : Stmt} : e.Renamed ρ Δ e' → Stmt.Renamed Δ s s' →
      Stmt.Renamed Δ (.whileDo e s) (.whileDo e' s')
  | funDecl {Δ : List ι} {f g : Callable Stmt} : ρ.Spells (Δ.headD ρ.plain) f.name g.name →
      Stmt.FunctionRenamed Δ f g → Stmt.Renamed Δ (.funDecl f) (.funDecl g)
  | ret {Δ : List ι} {t t' : Token} {o o' : Option Expr} : ρ.Keeps t t' →
      Option.Rel (Expr.Renamed ρ Δ) o o' → Stmt.Renamed Δ (.ret t o) (.ret t' o')
  | classDecl {Δ : List ι} {t t' : Token} {o o' : Option Token} {fs gs : List (Callable Stmt)} :
      ρ.Spells (Δ.headD ρ.plain) t t' → ρ.Keeps t t' → Option.Rel (ρ.Refers Δ) o o' →
      Stmt.MethodsRenamed (ρ.plain :: ρ.aroundMethods Δ o) fs gs →
      Stmt.Renamed Δ (.classDecl t o fs) (.classDecl t' o' gs)

inductive Stmt.AllRenamed : List ι → List Stmt → List Stmt → Prop where
  | nil {Δ : List ι} : Stmt.AllRenamed Δ [] []
  | cons {Δ : List ι} {s s' : Stmt} {ss ss' : List Stmt} : Stmt.Renamed Δ s s' →
      Stmt.AllRenamed Δ ss ss' → Stmt.AllRenamed Δ (s :: ss) (s' :: ss')

/-- The name of a function stays, for it is seen when the function is printed. -/
inductive Stmt.FunctionRenamed : List ι → Callable Stmt → Callable Stmt → Prop where
  | mk {Δ : List ι} {t t' : Token} {ps ps' : List Token} {ss ss' : List Stmt} (k : ι) :
      ρ.Keeps t t' → List.Forall₂ (ρ.Spells k) ps ps' → Stmt.AllRenamed (k :: Δ) ss ss' →
      Stmt.FunctionRenamed Δ ⟨t, ps, ss⟩ ⟨t', ps', ss'⟩

inductive Stmt.MethodsRenamed : List ι → List (Callable Stmt) → List (Callable Stmt) → Prop where
  | nil {Δ : List ι} : Stmt.MethodsRenamed Δ [] []
  | cons {Δ : List ι} {f g : Callable Stmt} {fs gs : List (Callable Stmt)} :
      Stmt.FunctionRenamed Δ f g → Stmt.MethodsRenamed Δ fs gs →
      Stmt.MethodsRenamed Δ (f :: fs) (g :: gs)

end

end

namespace Stmt.FunctionRenamed

variable {ι : Type} {ρ : Renaming ι} {Δ : List ι} {f g : Callable Stmt}

theorem name (h : Stmt.FunctionRenamed ρ Δ f g) : ρ.Keeps f.name g.name := by
  cases h
  assumption

theorem length_params (h : Stmt.FunctionRenamed ρ Δ f g) : f.params.length = g.params.length := by
  cases h with
  | mk _ _ hps _ => exact hps.length_eq

end Stmt.FunctionRenamed

/-! ## Styles of scopes -/

/-- The parent and the style of each scope, in the order in which the scopes were made. -/
abbrev Styles (ι : Type) := List (Option ScopeId × ι)

namespace Styles

variable {ι : Type}

def parent? (W : Styles ι) (i : ScopeId) : Option ScopeId := W[i]?.bind Prod.fst

def ancestor? (W : Styles ι) (i : ScopeId) : Nat → Option ScopeId
  | 0 => some i
  | d + 1 => (W.parent? i).bind fun p => ancestor? W p d

end Styles

/-- The scopes from `i` outwards have the styles `Δ`, and those behind are plain. New scopes make no
difference to that. -/
def Renaming.Along {ι : Type} (ρ : Renaming ι) (W : Styles ι) (Δ : List ι) (i : ScopeId) : Prop :=
  ∀ W', W <+: W' → ∀ d j e, Styles.ancestor? W' i d = some j → W'[j]? = some e →
    e.2 = Δ.getD d ρ.plain

namespace Renaming.Along

variable {ι : Type} {ρ : Renaming ι} {W W' : Styles ι} {Δ : List ι} {i : ScopeId}

theorem mono (h : ρ.Along W Δ i) (hW : W <+: W') : ρ.Along W' Δ i :=
  fun V hV => h V (hW.trans hV)

/-- A new scope inside. -/
theorem enter (h : ρ.Along W Δ i) (k : ι) : ρ.Along (W ++ [(some i, k)]) (k :: Δ) W.length := by
  intro V hV d j e hj he
  have hnew : V[W.length]? = some (some i, k) := by
    obtain ⟨rest, rfl⟩ := hV
    simp
  cases d with
  | zero =>
    cases hj
    rw [hnew] at he
    cases he
    rfl
  | succ d =>
    have hparent : Styles.parent? V W.length = some i := by rw [Styles.parent?, hnew]; rfl
    rw [Styles.ancestor?, hparent] at hj
    exact h V ((List.prefix_append W _).trans hV) d j e hj he

end Renaming.Along

/-! ## Values -/

section

variable {ι : Type} (ρ : Renaming ι)

/-- The scopes `E` will be made inside the scope of the function before it is called: that of `this`
for the method of a class. -/
structure Closure.Renamed (E : List ι) (W : Styles ι) (f g : Closure) : Prop where
  id : f.id = g.id
  scope : f.scope = g.scope
  isInitializer : f.isInitializer = g.isInitializer
  decl : ∃ Δ, ρ.Along W Δ f.scope ∧ Stmt.FunctionRenamed ρ (E ++ Δ) f.decl g.decl

structure ClassLayer.Renamed (W : Styles ι) (a b : ClassLayer) : Prop where
  id : a.id = b.id
  name : a.name = b.name
  methods : a.methods.Twin (Closure.Renamed ρ [ρ.plain] W) b.methods

structure Class.Renamed (W : Styles ι) (c d : Class) : Prop where
  own : c.own.Renamed ρ W d.own
  inherited : List.Forall₂ (ClassLayer.Renamed ρ W) c.inherited d.inherited

structure Instance.Renamed (W : Styles ι) (i j : Instance) : Prop where
  id : i.id = j.id
  cls : i.cls.Renamed ρ W j.cls

inductive Value.Renamed (W : Styles ι) : Value → Value → Prop where
  | nil : Renamed W .nil .nil
  | bool (b : Bool) : Renamed W (.bool b) (.bool b)
  | number (x : Float) : Renamed W (.number x) (.number x)
  | text (s : String) : Renamed W (.text s) (.text s)
  | function {f g : Closure} : f.Renamed ρ [] W g → Renamed W (.function f) (.function g)
  | cls {c d : Class} : c.Renamed ρ W d → Renamed W (.cls c) (.cls d)
  | inst {i j : Instance} : i.Renamed ρ W j → Renamed W (.inst i) (.inst j)
  | native (n : Native) : Renamed W (.native n) (.native n)

/-- A name that is not there is reported as it is spelled. -/
inductive Fault.Renamed : Fault → Fault → Prop where
  | same (f : Fault) : Renamed f f
  | unbound (k : ι) (x : String) : Renamed (.unboundName x) (.unboundName (ρ.spell k x))

inductive Exit.Renamed (W : Styles ι) : Exit → Exit → Prop where
  | returned {v w : Value} : v.Renamed ρ W w → Renamed W (.returned v) (.returned w)
  | failed {e e' : RuntimeError} : e.Twin ρ.pairs e' → Renamed W (.failed e) (.failed e')
  | fault {f g : Fault} : f.Renamed ρ g → Renamed W (.fault f) (.fault g)
  | overflow : Renamed W .overflow .overflow
  | unfinished : Renamed W .unfinished .unfinished

end

section

variable {ι : Type} {ρ : Renaming ι} {W W' : Styles ι}

/-! ### More scopes -/

theorem Closure.Renamed.mono (hW : W <+: W') {E : List ι} {f g : Closure} (h : f.Renamed ρ E W g) :
    f.Renamed ρ E W' g := by
  obtain ⟨Δ, halong, hdecl⟩ := h.decl
  exact { h with decl := ⟨Δ, halong.mono hW, hdecl⟩ }

theorem ClassLayer.Renamed.mono (hW : W <+: W') {a b : ClassLayer} (h : a.Renamed ρ W b) :
    a.Renamed ρ W' b :=
  { h with methods := fun x => optionRel_mono (fun _ _ => Closure.Renamed.mono hW) (h.methods x) }

theorem Class.Renamed.mono (hW : W <+: W') {c d : Class} (h : c.Renamed ρ W d) : c.Renamed ρ W' d :=
  ⟨h.own.mono hW, h.inherited.imp fun _ _ => ClassLayer.Renamed.mono hW⟩

theorem Instance.Renamed.mono (hW : W <+: W') {i j : Instance} (h : i.Renamed ρ W j) :
    i.Renamed ρ W' j :=
  ⟨h.id, h.cls.mono hW⟩

theorem Value.Renamed.mono (hW : W <+: W') {v w : Value} (h : v.Renamed ρ W w) :
    v.Renamed ρ W' w := by
  cases h with
  | nil => exact .nil
  | bool b => exact .bool b
  | number x => exact .number x
  | text s => exact .text s
  | function h => exact .function (h.mono hW)
  | cls h => exact .cls (h.mono hW)
  | inst h => exact .inst (h.mono hW)
  | native n => exact .native n

/-! ### What cannot tell values apart -/

theorem Literal.renamed_toValue (l : Literal) : l.toValue.Renamed ρ W l.toValue := by
  cases l with
  | nil => exact .nil
  | bool b => exact .bool b
  | number x => exact .number x
  | text s => exact .text s

theorem Closure.Renamed.name_eq {E : List ι} {f g : Closure} (h : f.Renamed ρ E W g) :
    f.name = g.name := by
  obtain ⟨_, -, hdecl⟩ := h.decl
  exact hdecl.name.lexeme

theorem Closure.Renamed.arity_eq {E : List ι} {f g : Closure} (h : f.Renamed ρ E W g) :
    f.arity = g.arity := by
  obtain ⟨_, -, hdecl⟩ := h.decl
  exact hdecl.length_params

theorem Value.Renamed.truthy_eq {v w : Value} (h : v.Renamed ρ W w) : v.truthy = w.truthy := by
  cases h <;> rfl

theorem Value.Renamed.shown_eq {v w : Value} (h : v.Renamed ρ W w) : v.shown = w.shown := by
  cases h with
  | function h => simp only [Value.shown, h.name_eq]
  | cls h => simp only [Value.shown, Class.name, h.own.name]
  | inst h => simp only [Value.shown, Class.name, h.cls.own.name]
  | _ => rfl

theorem Value.Renamed.sameIdentity {v w : Value} (h : v.Renamed ρ W w) : v.SameIdentity w := by
  cases h with
  | function h => exact .function h.id
  | cls h => exact .cls h.own.id
  | inst h => exact .inst h.id
  | _ => exact .refl _

theorem Value.Renamed.equal_eq {v w v' w' : Value} (h : v.Renamed ρ W w) (h' : v'.Renamed ρ W w') :
    v.equal v' = w.equal w' :=
  h.sameIdentity.equal_eq h'.sameIdentity

theorem Class.Renamed.layers {c d : Class} (h : c.Renamed ρ W d) :
    List.Forall₂ (ClassLayer.Renamed ρ W) c.layers d.layers := .cons h.own h.inherited

theorem Class.Renamed.method? {c d : Class} (h : c.Renamed ρ W d) (x : String) :
    Option.Rel (Closure.Renamed ρ [ρ.plain] W) (c.method? x) (d.method? x) :=
  Class.method?_rel (h.layers.imp fun _ _ hab => hab.methods x)

theorem Class.Renamed.arity_eq {c d : Class} (h : c.Renamed ρ W d) : c.arity = d.arity :=
  Class.arity_eq_of_rel (fun _ _ hfg => hfg.arity_eq) (h.method? _)

end

/-! ## Scopes -/

/-- The same scopes inside each other bind the same variables, each spelled in the style of its
scope. -/
structure Scopes.Renamed {ι : Type} (ρ : Renaming ι) (W : Styles ι) (s s' : Scopes) : Prop where
  next : s.next = W.length
  next' : s'.next = W.length
  parent : ∀ i, s.parent? i = Styles.parent? W i
  parent' : ∀ i, s'.parent? i = Styles.parent? W i
  bound : ∀ i e, W[i]? = some e → ∀ x,
    Option.Rel (Value.Renamed ρ W) (s.local? i x) (s'.local? i (ρ.spell e.2 x))

theorem Scopes.ancestor?_of_parent {s s' : Scopes} (h : ∀ i, s.parent? i = s'.parent? i)
    (i : ScopeId) (d : Nat) :
    s.ancestor? i d = s'.ancestor? i d := by
  induction d generalizing i with
  | zero => rfl
  | succ d ih =>
    rw [ancestor?, ancestor?, h]
    cases s'.parent? i with
    | none => rfl
    | some p => exact ih p

theorem Scopes.outward_of_parent {s s' : Scopes} (h : ∀ i, s.parent? i = s'.parent? i) (n : Nat)
    (i : ScopeId) :
    s.outward n i = s'.outward n i := by
  induction n generalizing i with
  | zero => rfl
  | succ n ih =>
    rw [outward, outward, h]
    cases s'.parent? i with
    | none => rfl
    | some p => simp only [Option.elim, ih]

theorem Scopes.exists_ancestor?_of_mem_outward {s : Scopes} {n : Nat} {i j : ScopeId}
    (h : j ∈ s.outward n i) :
    ∃ d, s.ancestor? i d = some j := by
  induction n generalizing i with
  | zero => cases h
  | succ n ih =>
    rw [outward] at h
    rcases List.mem_cons.1 h with rfl | h
    · exact ⟨0, rfl⟩
    · cases hp : s.parent? i with
      | none =>
        rw [hp] at h
        cases h
      | some p =>
        rw [hp] at h
        obtain ⟨d, hd⟩ := ih h
        exact ⟨d + 1, by rw [ancestor?, hp]; exact hd⟩

namespace Scopes.Renamed

variable {ι : Type} {ρ : Renaming ι} {W : Styles ι} {s s' : Scopes} {Δ : List ι} {i : ScopeId}

theorem add (h : s.Renamed ρ W s') (p : Option ScopeId) (k : ι) {b b' : Bindings Value}
    (hb : ∀ x, Option.Rel (Value.Renamed ρ W) (b.get? x) (b'.get? (ρ.spell k x))) :
    (s.add p b).Renamed ρ (W ++ [(p, k)]) (s'.add p b') := by
  have hW : W <+: W ++ [(p, k)] := List.prefix_append W _
  have hparent : ∀ j, Styles.parent? (W ++ [(p, k)]) j = if j = W.length then p
      else Styles.parent? W j := by
    intro j
    unfold Styles.parent?
    rw [List.getElem?_append]
    by_cases hj : j < W.length
    · rw [if_pos hj, if_neg (Nat.ne_of_lt hj)]
    · by_cases hj' : j = W.length
      · subst hj'
        simp
      · have hlt : W.length < j := Nat.lt_of_le_of_ne (Nat.le_of_not_lt hj) (Ne.symm hj')
        rw [if_neg hj, if_neg hj', List.getElem?_eq_none (Nat.le_of_lt hlt), List.getElem?_eq_none]
        simp only [List.length_cons, List.length_nil]
        omega
  refine ⟨?_, ?_, fun j => ?_, fun j => ?_, fun j e he x => ?_⟩
  · rw [next_add, h.next, List.length_append]
    rfl
  · rw [next_add, h.next', List.length_append]
    rfl
  · rw [parent?_add, h.next, hparent, h.parent]
  · rw [parent?_add, h.next', hparent, h.parent']
  · rw [local?_add, local?_add, h.next, h.next']
    by_cases hj : j = W.length
    · subst hj
      obtain rfl : (p, k) = e := by simpa using he
      rw [if_pos rfl, if_pos rfl]
      exact optionRel_mono (fun _ _ => Value.Renamed.mono hW) (hb x)
    · have hlt : j < W.length := by
        have hlen := (List.getElem?_eq_some_iff.1 he).1
        rw [List.length_append] at hlen
        exact Nat.lt_of_le_of_ne (Nat.le_of_lt_succ hlen) hj
      rw [List.getElem?_append_left hlt] at he
      rw [if_neg hj, if_neg hj]
      exact optionRel_mono (fun _ _ => Value.Renamed.mono hW) (h.bound j e he x)

theorem define (h : s.Renamed ρ W s') {x x' : String}
    (hx : ∀ e, W[i]? = some e → x' = ρ.spell e.2 x) {v w : Value} (hv : v.Renamed ρ W w) :
    (s.define i x v).Renamed ρ W (s'.define i x' w) := by
  refine ⟨?_, ?_, fun j => ?_, fun j => ?_, fun j e he y => ?_⟩
  · rw [next_define, h.next]
  · rw [next_define, h.next']
  · rw [parent?_define, h.parent]
  · rw [parent?_define, h.parent']
  · rw [local?_define, local?_define, h.next, h.next']
    by_cases hi : i = j
    · subst hi
      have hsame : x' = ρ.spell e.2 y ↔ x = y := by
        rw [hx e he]
        exact (ρ.injective e.2).eq_iff
      simp only [hsame]
      split
      · exact .some hv
      · exact h.bound i e he y
    · rw [if_neg (fun hc => hi hc.1), if_neg (fun hc => hi hc.1)]
      exact h.bound j e he y

theorem ancestor?_eq_styles (h : s.Renamed ρ W s') (i : ScopeId) (d : Nat) :
    s.ancestor? i d = Styles.ancestor? W i d := by
  induction d generalizing i with
  | zero => rfl
  | succ d ih =>
    rw [Scopes.ancestor?, Styles.ancestor?, h.parent]
    cases Styles.parent? W i with
    | none => rfl
    | some p => exact ih p

theorem ancestor?_eq (h : s.Renamed ρ W s') (i : ScopeId) (d : Nat) :
    s.ancestor? i d = s'.ancestor? i d :=
  Scopes.ancestor?_of_parent (fun j => (h.parent j).trans (h.parent' j).symm) i d

/-- The style of the scope at a distance. -/
theorem style (h : s.Renamed ρ W s') (halong : ρ.Along W Δ i) {d : Nat} {j : ScopeId}
    (hj : s.ancestor? i d = some j) {e : Option ScopeId × ι} (he : W[j]? = some e) :
    e.2 = Δ.getD d ρ.plain := by
  rw [h.ancestor?_eq_styles] at hj
  exact halong W (List.prefix_refl W) d j e hj he

/-- A variable at a distance. -/
theorem bound_at (h : s.Renamed ρ W s') (halong : ρ.Along W Δ i) {d : Nat} {j : ScopeId}
    (hj : s.ancestor? i d = some j) (x : String) :
    Option.Rel (Value.Renamed ρ W) (s.local? j x) (s'.local? j (ρ.spell (Δ.getD d ρ.plain) x)) := by
  cases he : W[j]? with
  | some e =>
    rw [← h.style halong hj he]
    exact h.bound j e he x
  | none =>
    have hj : W.length ≤ j := List.getElem?_eq_none_iff.1 he
    have houtside : ∀ {t : Scopes}, t.next = W.length → ∀ y, t.local? j y = none := by
      intro t ht y
      by_contra hne
      obtain ⟨v, hv⟩ := Option.ne_none_iff_exists'.1 hne
      exact absurd (lt_next_of_local? hv) (by rw [ht]; exact Nat.not_lt_of_le hj)
    rw [houtside h.next, houtside h.next']
    exact .none

theorem getAt (h : s.Renamed ρ W s') (halong : ρ.Along W Δ i) (d : Nat) (x : String) :
    ExceptRel (Fault.Renamed ρ) (Value.Renamed ρ W) (s.getAt i d x)
      (s'.getAt i d (ρ.spell (Δ.getD d ρ.plain) x)) := by
  unfold Scopes.getAt Scopes.ancestor
  rw [← h.ancestor?_eq]
  cases hj : s.ancestor? i d with
  | none => exact .error (.same _)
  | some j =>
    have hbound := h.bound_at halong hj x
    simp only [bind, Except.bind]
    generalize s.local? j x = o at hbound ⊢
    generalize s'.local? j (ρ.spell (Δ.getD d ρ.plain) x) = o' at hbound ⊢
    cases hbound with
    | some hv => exact .ok hv
    | none => exact .error (.unbound _ x)

/-- Among plain scopes a name is found in the same place. -/
theorem bound_of_mem_path (h : s.Renamed ρ W s') (hplain : ρ.Along W [] i) {j : ScopeId}
    (hj : j ∈ s.path i) (x : String) :
    Option.Rel (Value.Renamed ρ W) (s.local? j x) (s'.local? j x) := by
  obtain ⟨d, hd⟩ := Scopes.exists_ancestor?_of_mem_outward hj
  have hbound := h.bound_at hplain hd x
  rwa [List.getD_nil, ρ.spell_plain] at hbound

theorem binder?_eq (h : s.Renamed ρ W s') (hplain : ρ.Along W [] i) (x : String) :
    s.binder? i x = s'.binder? i x := by
  have hpath : s'.path i = s.path i :=
    Scopes.outward_of_parent (fun j => (h.parent' j).trans (h.parent j).symm) _ _
  unfold Scopes.binder?
  rw [hpath]
  have hsame : ∀ j ∈ s.path i, (s.local? j x).isSome = (s'.local? j x).isSome := by
    intro j hj
    have hbound := h.bound_of_mem_path hplain hj x
    generalize s.local? j x = o at hbound ⊢
    generalize s'.local? j x = o' at hbound ⊢
    cases hbound <;> rfl
  generalize s.path i = l at hsame ⊢
  induction l with
  | nil => rfl
  | cons j l ih =>
    rw [List.find?_cons, List.find?_cons, hsame j List.mem_cons_self,
      ih fun j' hj' => hsame j' (List.mem_cons_of_mem _ hj')]

theorem mem_path_of_binder? {x : String} {j : ScopeId} (h : s.binder? i x = some j) :
    j ∈ s.path i :=
  List.mem_of_find?_eq_some h

theorem lookup (h : s.Renamed ρ W s') (hplain : ρ.Along W [] i) {t t' : Token} (ht : ρ.Keeps t t') :
    ExceptRel (RuntimeError.Twin ρ.pairs) (Value.Renamed ρ W) (s.lookup i t) (s'.lookup i t') := by
  have hundefined : (undefined t).Twin ρ.pairs (undefined t') :=
    ⟨ht.paired, by rw [undefined, undefined, ht.lexeme]⟩
  rw [lookup_eq, lookup_eq, ← h.binder?_eq hplain, ← ht.lexeme]
  cases hj : s.binder? i t.lexeme with
  | none => exact .error hundefined
  | some j =>
    have hbound := h.bound_of_mem_path hplain (mem_path_of_binder? hj) t.lexeme
    simp only [Option.bind]
    generalize s.local? j t.lexeme = o at hbound ⊢
    generalize s'.local? j t.lexeme = o' at hbound ⊢
    cases hbound with
    | some hv => exact .ok hv
    | none => exact .error hundefined

end Scopes.Renamed

/-! ## Machines -/

/-- What can be seen of a machine is the same but for the names of scopes. -/
structure Machine.Renamed {ι : Type} (ρ : Renaming ι) (W : Styles ι) (m n : Machine) : Prop where
  scopes : m.scopes.Renamed ρ W n.scopes
  fieldCount : m.fields.size = n.fields.size
  fields : ∀ i, (m.fields.getD i .empty).Twin (Value.Renamed ρ W) (n.fields.getD i .empty)
  nextId : m.nextId = n.nextId
  globals : m.globals = n.globals
  outermost : ρ.Along W [] m.globals
  current : m.current = n.current
  printed : m.printed = n.printed
  clock : m.clock = n.clock
  table : ∀ s, m.distances.find? s = ρ.table s
  table' : ∀ {t t'}, ρ.pairs t t' → n.distances.find? t'.site = ρ.table t.site

namespace Machine.Renamed

variable {ι : Type} {ρ : Renaming ι} {W : Styles ι} {m n : Machine}

theorem add (h : m.Renamed ρ W n) (p : Option ScopeId) (k : ι) {b b' : Bindings Value}
    (hb : ∀ x, Option.Rel (Value.Renamed ρ W) (b.get? x) (b'.get? (ρ.spell k x))) :
    Machine.Renamed ρ (W ++ [(p, k)]) { m with scopes := m.scopes.add p b }
      { n with scopes := n.scopes.add p b' } :=
  { h with
    scopes := h.scopes.add p k hb
    fields := fun i x =>
      optionRel_mono (fun _ _ => Value.Renamed.mono (List.prefix_append W _)) (h.fields i x)
    outermost := h.outermost.mono (List.prefix_append W _) }

theorem define (h : m.Renamed ρ W n) {i j : ScopeId} (hij : i = j) {x x' : String}
    (hx : ∀ e, W[i]? = some e → x' = ρ.spell e.2 x) {v w : Value} (hv : v.Renamed ρ W w) :
    Machine.Renamed ρ W { m with scopes := m.scopes.define i x v }
      { n with scopes := n.scopes.define j x' w } :=
  { h with scopes := hij ▸ h.scopes.define hx hv }

theorem setField (h : m.Renamed ρ W n) (i : Nat) (x : String) {v w : Value} (hv : v.Renamed ρ W w) :
    Machine.Renamed ρ W { m with fields := m.fields.modify i (·.set x v) }
      { n with fields := n.fields.modify i (·.set x w) } := by
  refine { h with fieldCount := ?_, fields := fun j => ?_ }
  · rw [Array.size_modify, Array.size_modify, h.fieldCount]
  · rw [getD_modify, getD_modify, ← h.fieldCount]
    split
    · exact (h.fields j).set x hv
    · exact h.fields j

theorem newInstance (h : m.Renamed ρ W n) :
    Machine.Renamed ρ W { m with fields := m.fields.push .empty }
      { n with fields := n.fields.push .empty } := by
  refine { h with fieldCount := ?_, fields := fun j => ?_ }
  · rw [Array.size_push, Array.size_push, h.fieldCount]
  · rw [getD_push, getD_push]
    exact h.fields j

end Machine.Renamed

/-! ## Operators -/

namespace Operator

variable {ι : Type} {ρ : Renaming ι} {W : Styles ι}

theorem renamed_fail {t t' : Token} (h : ρ.Keeps t t') (cause : Cause) {A : Value → Value → Prop} :
    ExceptRel (Exit.Renamed ρ W) A (Operator.fail t cause) (Operator.fail t' cause) :=
  .error (.failed ⟨h.paired, rfl⟩)

theorem renamed_unary {t t' : Token} (ht : ρ.Keeps t t') {v w : Value} (hv : v.Renamed ρ W w) :
    ExceptRel (Exit.Renamed ρ W) (Value.Renamed ρ W) (unary t v) (unary t' w) := by
  have htruthy := hv.truthy_eq
  unfold unary
  rw [← ρ.kind ht.paired]
  cases t.kind with
  | bang => exact .ok (htruthy ▸ .bool _)
  | minus =>
    cases hv with
    | number x => exact .ok (.number _)
    | _ => exact renamed_fail ht _
  | _ => exact .error (.fault (.same _))

theorem renamed_add {t t' : Token} (ht : ρ.Keeps t t') {v w v' w' : Value} (hv : v.Renamed ρ W w)
    (hv' : v'.Renamed ρ W w') :
    ExceptRel (Exit.Renamed ρ W) (Value.Renamed ρ W) (add t v v') (add t' w w') := by
  cases hv with
  | number x => cases hv' with
    | number y => exact .ok (.number _)
    | _ => exact renamed_fail ht _
  | text s => cases hv' with
    | text s' => exact .ok (.text _)
    | _ => exact renamed_fail ht _
  | _ => exact renamed_fail ht _

theorem renamed_arithmetic (kind : Kind) (x y : Float) :
    Option.Rel (Value.Renamed ρ W) (arithmetic? kind x y) (arithmetic? kind x y) := by
  cases kind with
  | minus => exact .some (.number _)
  | star => exact .some (.number _)
  | slash => exact .some (.number _)
  | greater => exact .some (.bool _)
  | greaterEqual => exact .some (.bool _)
  | less => exact .some (.bool _)
  | lessEqual => exact .some (.bool _)
  | _ => exact .none

theorem renamed_onNumbers {t t' : Token} (ht : ρ.Keeps t t') {v w v' w' : Value}
    (hv : v.Renamed ρ W w) (hv' : v'.Renamed ρ W w') :
    ExceptRel (Exit.Renamed ρ W) (Value.Renamed ρ W) (onNumbers t v v') (onNumbers t' w w') := by
  cases hv with
  | number x => cases hv' with
    | number y =>
      have hresult := renamed_arithmetic (ρ := ρ) (W := W) t.kind x y
      rw [onNumbers, onNumbers, ← ρ.kind ht.paired]
      cases harith : arithmetic? t.kind x y with
      | none => exact .error (.fault (.same _))
      | some r =>
        rw [harith] at hresult
        cases hresult with
        | some hr => exact .ok hr
    | _ => exact renamed_fail ht _
  | _ => exact renamed_fail ht _

theorem renamed_binary {t t' : Token} (ht : ρ.Keeps t t') {v w v' w' : Value} (hv : v.Renamed ρ W w)
    (hv' : v'.Renamed ρ W w') :
    ExceptRel (Exit.Renamed ρ W) (Value.Renamed ρ W) (binary t v v') (binary t' w w') := by
  have hkind := ρ.kind ht.paired
  by_cases hplus : t.kind = .plus
  · simp only [binary, ← hkind, hplus]
    exact renamed_add ht hv hv'
  by_cases heq : t.kind = .equalEqual
  · simp only [binary, ← hkind, heq, hv.equal_eq hv']
    exact .ok (.bool _)
  by_cases hne : t.kind = .bangEqual
  · simp only [binary, ← hkind, hne, hv.equal_eq hv']
    exact .ok (.bool _)
  rw [binary_eq_onNumbers hplus heq hne,
    binary_eq_onNumbers (hkind ▸ hplus) (hkind ▸ heq) (hkind ▸ hne)]
  exact renamed_onNumbers ht hv hv'

end Operator
end Lox
