import Lox.Proofs.SessionMethods

/-!
# What `this` and `super` stand for

Whenever a `this` is evaluated in a session it stands for the instance that the method around it is
bound to, and that is an instance of the class that declares the method or of a class that inherits
from it (`this_of_class`). Whenever a `super` is evaluated, the method is looked for from the
superclass of that class on, whatever the class of the instance (`super_lexical`).
-/

namespace Lox

namespace Machine

variable {clock : Clock} {turns : List Turn} {l : Limits} {depth : Nat} {n : Machine}

theorem Made.superclass {name : Token} {superclass : Option Token} {methods : List FunDecl}
    {parent : Option Class} {c : Class} (h : Made clock turns name superclass methods parent c) :
    c.superclass? = parent ∧ ∀ x f, c.own.methods.get? x = some f → f.decl ∈ methods := by
  obtain ⟨l, depth, n, -, hmakes⟩ := h
  exact hmakes.superclass

/-- `this` is looked up in the scope of the bound method. -/
theorem eval_this {keyword : Token} {d : Nat} {j : ScopeId} {v : Value}
    (hkeyword : keyword.lexeme = "this") (hd : n.distances.find? keyword.site = some d)
    (hj : n.scopes.ancestor? n.current d = some j) (hv : n.scopes.local? j "this" = some v)
    (bound depth : Nat) :
    eval bound (depth + 1) (.this keyword) n = .ok v n := by
  rw [eval, Exec.lookUp_of_some hd, hkeyword, Scopes.getAt_of_local? hj hv]
  rfl

/-- A `super` yields the method of the first class from `parent` outwards that has one, bound to
`o`, and fails if and only if there is none. -/
structure SuperYields (n : Machine) (bound depth : Nat) (keyword method : Token) (parent : Class)
    (o : Instance) :
    Prop where
  found : ∀ g, parent.lineage.findSome? (fun d => d.own.methods.get? method.lexeme) = some g →
    ∃ b n', eval bound (depth + 1) (.super keyword method) n = .ok (.function b) n' ∧
      b.decl = g.decl ∧ b.isInitializer = g.isInitializer ∧
      n'.scopes.parent? b.scope = some g.scope ∧
      n'.scopes.local? b.scope "this" = some (.inst o)
  missing : (∃ e n', eval bound (depth + 1) (.super keyword method) n = .error (.failed e) n' ∧
      e.message = "Undefined property '" ++ method.lexeme ++ "'.") ↔
    ∀ d ∈ parent.lineage, d.own.methods.get? method.lexeme = none

theorem superYields {keyword : Token} {d : Nat} {parent : Class} {o : Instance}
    (hd : n.distances.find? keyword.site = some (d + 1))
    (hsuper : n.scopes.getAt n.current (d + 1) "super" = .ok (.cls parent))
    (hthis : n.scopes.getAt n.current d "this" = .ok (.inst o)) (method : Token)
    (bound depth : Nat) :
    n.SuperYields bound depth keyword method parent o := by
  have heval : eval bound (depth + 1) (.super keyword method) n =
      (parent.lineage.findSome? fun d => d.own.methods.get? method.lexeme).elim
        (Exec.fail method (.undefinedProperty method.lexeme) n)
        fun f => (Value.function <$> Exec.bindMethod f (.inst o)) n := by
    rw [eval, Exec.superMethod_eq hd hsuper hthis, Class.method?_eq_findSome?]
  constructor
  · intro g hg
    rw [hg] at heval
    refine ⟨_, _, heval, rfl, rfl, ?_, ?_⟩
    · show (n.scopes.add (some g.scope) _).parent? n.scopes.next = some g.scope
      rw [Scopes.parent?_add, if_pos rfl]
    · exact Scopes.local?_add_single ..
  · rw [← List.findSome?_eq_none_iff]
    cases hg : parent.lineage.findSome? fun d => d.own.methods.get? method.lexeme with
    | none =>
      rw [hg] at heval
      exact ⟨fun _ => rfl, fun _ => ⟨_, _, heval, rfl⟩⟩
    | some g =>
      rw [hg] at heval
      constructor
      · rintro ⟨e, n', herror, -⟩
        cases heval.symm.trans herror
      · intro hnone
        cases hnone

end Machine

/-! ## Calls at the start of a text -/

/-- What the body of a function without parameters starts with, if a program starts with a call of
the function as a global. -/
def Machine.called? (n : Machine) : List Stmt → Option Expr
  | .expr (.call (.var name) _ []) :: _ =>
    match n.distances.find? name.site, n.global? name.lexeme with
    | none, some (.function ⟨_, ⟨_, [], .expr e :: _⟩, _, _⟩) => some e
    | _, _ => none
  | _ => none

/-- The same for the program of a text. -/
def Machine.firstCalled? (m : Machine) (l : Limits) (source : String) : Option Expr :=
  (m.analysis l source).program.toOption.bind
    (called? { m.analysed l source with lastError := none })

theorem Machine.eval_global {n : Machine} {name : Token} {v : Value}
    (hsite : n.distances.find? name.site = none) (hv : n.global? name.lexeme = some v)
    (bound depth : Nat) : eval bound (depth + 1) (.var name) n = .ok v n := by
  have hlookup : n.scopes.lookup n.globals name = .ok v := by
    rw [global?] at hv
    rw [Scopes.lookup, Scopes.path, Scopes.outward, List.findSome?_cons, hv]
  rw [eval, Exec.lookUp_of_none hsite, hlookup]
  rfl

theorem Course.has_called {bound depth : Nat} (K : Course bound) {n : Machine} {program : List Stmt}
    {e : Expr} (h : K.has (depth + 5) (.execAll program) n) (he : n.called? program = some e) :
    ∃ n', K.has (depth + 1) (.eval e) n' := by
  unfold Machine.called? at he
  split at he
  · split at he
    · rename_i hsite hglobal
      cases he
      have hcallee := Machine.eval_global hsite hglobal bound (depth + 2)
      have hcall := K.starts (K.starts (K.starts h .statement) .expr) (.call hcallee rfl rfl)
      exact ⟨_, K.starts (K.starts (K.starts hcall (.body rfl)) .statement) .expr⟩
    · cases he
  · cases he

theorem Machine.begins_firstCalled {clock : Clock} {before : List Turn} {turn : Turn} {depth : Nat}
    {p : Expr → Bool}
    (h : (firstCalled? ((Machine.initial clock).session Machine.run before).2 turn.limits
      turn.source).any p = true) (hdepth : turn.limits.depth = depth + 5) :
    ∃ e n, p e = true ∧ Begins clock (before ++ [turn]) turn.limits (depth + 1) (.eval e) n := by
  obtain ⟨e, he, hp⟩ := (Option.any_eq_true _ _).1 h
  obtain ⟨program, hok, he⟩ := Option.bind_eq_some_iff.1 he
  have hstart := enters_of_toOption hok
  rw [hdepth] at hstart
  obtain ⟨n, hn⟩ := (Machine.course _ turn.limits turn.source).has_called hstart he
  exact ⟨e, n, hp, .during rfl hn⟩

/-- Three classes; `g` and `h` are functions inside methods of `B` that are bound to instances of
`C`. -/
def family : Turn := ⟨⟨30, 5⟩, "class A \x7b m() \x7b\x7d \x7d
class B < A \x7b m() \x7b fun f() \x7b super.m; \x7d return f; \x7d n() \x7b
    fun f() \x7b this; \x7d return f; \x7d \x7d
class C < B \x7b m() \x7b return super.m(); \x7d \x7d
var g = C().m(); var h = C().n();"⟩

def newBase : Turn := ⟨⟨30, 5⟩, "class A \x7b\x7d"⟩

def callSuper : Turn := ⟨⟨30, 5⟩, "g();"⟩

def callThis : Turn := ⟨⟨30, 5⟩, "h();"⟩

theorem firstCalled?_family :
    (Machine.firstCalled? ((Machine.initial (.still 0)).session Machine.run [family, newBase]).2
      callSuper.limits callSuper.source).any (fun e => e matches .super ..) = true ∧
    (Machine.firstCalled? ((Machine.initial (.still 0)).session Machine.run [family, newBase]).2
      callThis.limits callThis.source).any (fun e => e matches .this ..) = true := by decide +kernel

/-! ## Keywords in sessions -/

/-- **`super` is lexical.** Whenever a `super` is evaluated in a session, it is a keyword of a
method `f` that an execution of a class declaration made, for the class `c`, and the active scope is
inside that of the method as bound to an instance `o`. The method is looked for from the class on
that the name of the superclass came to in that execution. It is bound to `o`, for which a `this` in
the same place would stand. -/
theorem super_lexical (clock : Clock) (turns : List Turn) (l : Limits) (depth : Nat)
    (keyword method : Token) (n : Machine)
    (h : Machine.Begins clock turns l (depth + 1) (.eval (.super keyword method)) n) :
    ∃ name t methods parent c f o j,
      Machine.Made clock turns name (some t) methods (some parent) c ∧ f.decl ∈ methods ∧
      n.scopes.InMethod n.current c f o j ∧
      (∃ d, ⟨.super, keyword, d + 1⟩ ∈ f.decl.keywords ∧ ∀ k : Token, k.lexeme = "this" →
        n.distances.find? k.site = some d →
          eval l.iterations (depth + 1) (.this k) n = .ok (.inst o) n) ∧
      n.SuperYields l.iterations depth keyword method parent o := by
  obtain ⟨T, k, hwell, place, hplace, he⟩ := h.wellBound (Machine.permits_known clock turns)
  obtain ⟨c, f, o, j, parent, hseat, hkeyword, hfind, hsuperclass, hsuper, hthis⟩ :=
    MethodInvariant.super hwell hplace he
  obtain ⟨name, superclass, methods, parent', hmade⟩ := hseat.made
  obtain ⟨hparent, hmethods⟩ := hmade.superclass
  obtain ⟨x, hf⟩ := hseat.method
  obtain rfl : some parent = parent' := hsuperclass.symm.trans hparent
  -- A class that has a superclass was made by a declaration that names one.
  obtain ⟨t, rfl⟩ : ∃ t, superclass = some t := by
    obtain ⟨_, _, _, -, hmakes⟩ := hmade
    cases hmakes
    exact ⟨_, rfl⟩
  refine ⟨name, t, methods, parent, c, f, o, j, hmade, hmethods x f hf, hseat.toInMethod,
    ⟨place.depth, hkeyword, fun k hk hd => ?_⟩,
      Machine.superYields hfind hsuper hthis method _ depth⟩
  exact Machine.eval_this hk hd hseat.ancestor hseat.this _ depth

/-- The `super` is evaluated when the name of the superclass is bound to another class. -/
theorem super_lexical_newBase :
    ∃ keyword method n,
      Machine.Begins (.still 0) [family, newBase, callSuper] ⟨30, 5⟩ 26
        (.eval (.super keyword method)) n ∧
      ∃ name t methods parent c f o j,
        Machine.Made (.still 0) [family, newBase, callSuper] name (some t) methods (some parent) c ∧
        f.decl ∈ methods ∧ n.scopes.InMethod n.current c f o j ∧
        n.SuperYields 5 25 keyword method parent o := by
  obtain ⟨e, n, he, hn⟩ :=
    Machine.begins_firstCalled firstCalled?_family.1 (show 30 = 25 + 5 from rfl)
  cases e with
  | super keyword method =>
    obtain ⟨name, t, methods, parent, c, f, o, j, hmade, hf, hin, -, hyields⟩ :=
      super_lexical (.still 0) _ _ _ _ _ _ hn
    exact ⟨keyword, method, n, hn, name, t, methods, parent, c, f, o, j, hmade, hf, hin, hyields⟩
  | _ => cases he

/-- **`this` has the right class.** Whenever a `this` is evaluated in a session, it is a keyword of
a method `f` that an execution of a class declaration made, for the class `c`, and the active scope
is inside that of the method as bound to an instance `o`. The class of `o` is `c` or inherits from
it, and `o` is what the `this` comes to. A scope that binds `this` does so with the same value at
all points of the session. -/
theorem this_of_class (clock : Clock) (turns : List Turn) :
    (∀ l depth keyword n, Machine.Begins clock turns l (depth + 1) (.eval (.this keyword)) n →
      ∃ name superclass methods parent c f o j,
        Machine.Made clock turns name superclass methods parent c ∧ f.decl ∈ methods ∧
        (∃ d, ⟨.this, keyword, d⟩ ∈ f.decl.keywords) ∧ n.scopes.InMethod n.current c f o j ∧
        c ∈ o.cls.lineage ∧ eval l.iterations (depth + 1) (.this keyword) n = .ok (.inst o) n) ∧
    ∀ n n', Machine.Visits clock turns n → Machine.Visits clock turns n' → ∀ j v v',
      n.scopes.local? j "this" = some v → n'.scopes.local? j "this" = some v' → v = v' := by
  constructor
  · intro l depth keyword n h
    obtain ⟨T, k, hwell, place, hplace, he⟩ := h.wellBound (Machine.permits_known clock turns)
    obtain ⟨c, f, o, j, hseat, hkeyword, hfind⟩ :=
      MethodInvariant.keyword (r := ⟨.this, keyword, place.depth⟩) hwell hplace he
        List.mem_cons_self
    obtain ⟨name, superclass, methods, parent, hmade⟩ := hseat.made
    obtain ⟨x, hf⟩ := hseat.method
    refine ⟨name, superclass, methods, parent, c, f, o, j, hmade, hmade.superclass.2 x f hf,
      ⟨_, hkeyword⟩, hseat.toInMethod, hseat.chain, ?_⟩
    exact Machine.eval_this (he.wellFormed.1.2.1 he.wellFormed.2) hfind hseat.ancestor
      hseat.this _ depth
  · intro n n' hn hn' j v v' hv hv'
    have hend := hn.sameImplicit.bound (.inl rfl) hv
    exact Option.some.inj (hend.symm.trans (hn'.sameImplicit.bound (.inl rfl) hv'))

/-- The `this` is evaluated after the call of the method has ended, and its value is there to the
end. -/
theorem this_of_class_outlived :
    ∃ keyword n,
      Machine.Begins (.still 0) [family, newBase, callThis] ⟨30, 5⟩ 26 (.eval (.this keyword)) n ∧
      ∃ c f o j, n.scopes.InMethod n.current c f o j ∧ c ∈ o.cls.lineage ∧
        eval 5 26 (.this keyword) n = .ok (.inst o) n ∧
        ∀ v, ((Machine.initial (.still 0)).session Machine.run
          [family, newBase, callThis]).2.scopes.local? j "this" = some v → .inst o = v := by
  obtain ⟨e, n, he, hn⟩ :=
    Machine.begins_firstCalled firstCalled?_family.2 (show 30 = 25 + 5 from rfl)
  cases e with
  | this keyword =>
    obtain ⟨hthis, hsame⟩ := this_of_class (.still 0) [family, newBase, callThis]
    obtain ⟨-, -, -, -, c, f, o, j, -, -, -, hin, hchain, heval⟩ := hthis _ _ _ _ hn
    have hend : Machine.Visits (.still 0) [family, newBase, callThis] _ :=
      .between (List.append_nil _).symm
    exact ⟨keyword, n, hn, c, f, o, j, hin, hchain, heval,
      fun v hv => hsame n _ hn.visits hend j _ _ hin.this hv⟩
  | _ => cases he

end Lox
