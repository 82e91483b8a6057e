import Lox.Proofs.Activity

/-!
# What comes after a piece

A piece of evaluation ends before the piece that started it does. Between the two ends only such
things happen to the scopes as the invariant allows (`Invariant.Respects.rest`). So whatever
evaluation respects leads from each state that a run goes through to the end of the run
(`Invariant.Respects.enters`).
-/

namespace Lox

namespace Exec

variable {α β : Type} {x : Exec α} {f : α → Exec β} {m m' : Machine}

/-- What follows the computation leaves the scopes alone. -/
theorem scopes_after_bind (hf : ∀ a m₁, x m = .ok a m₁ → ((f a).after m₁).scopes = m₁.scopes) :
    (after (x >>= f) m).scopes = (x.after m).scopes := by
  cases hx : x m with
  | ok a m₁ => rw [after_bind_of_ok hx, after_of_ok hx, hf a m₁ hx]
  | error e m₁ => rw [after_bind_of_error hx, after_of_error hx]

theorem after_ofResult (r : Except Exit α) (m : Machine) : (ofResult r).after m = m := by
  cases r <;> rfl

theorem after_checkCall (paren : Token) (v : Value) (count : Nat) (m : Machine) :
    (checkCall paren v count).after m = m := by
  have hcount : ∀ arity, Exec.after (do
      if count ≠ arity then fail paren (.wrongCount arity count)) m = m := by
    intro arity
    split <;> rfl
  cases v with
  | function f => exact hcount f.arity
  | cls c => exact hcount c.arity
  | native n =>
    unfold checkCall
    by_cases hn : n.behaviour = .unimplemented
    · simp only [hn, if_true]
      rfl
    · simp only [hn, if_false]
      exact hcount n.arity
  | _ => rfl

theorem after_ofFault (r : Except Fault α) (m : Machine) : (ofFault r).after m = m := by
  cases r <;> rfl

/-- Nothing but what follows is to be looked at, and only if the computation does not fail. -/
theorem rest_bind {ρ : Scopes → Scopes → Prop} (hrefl : ∀ s, ρ s s)
    (hf : ∀ a m₁, x m = .ok a m₁ → ρ m₁.scopes ((f a).after m₁).scopes) :
    ρ (x.after m).scopes (after (x >>= f) m).scopes := by
  cases hx : x m with
  | ok a m₁ =>
    rw [after_bind_of_ok hx, after_of_ok hx]
    exact hf a m₁ hx
  | error e m₁ =>
    rw [after_bind_of_error hx, after_of_error hx]
    exact hrefl _

end Exec

/-! ## The last piece -/

section

variable {bound d : Nat} {m m₁ : Machine}

open Exec (after_discard after_bind_of_ok scopes_after_bind)

theorem scopes_after_right {left right : Expr} {op : Token} {v : Value}
    (hleft : eval bound d left m = .ok v m₁) :
    ((eval bound (d + 1) (.binary left op right)).after m).scopes =
      ((eval bound d right).after m₁).scopes := by
  rw [eval, after_bind_of_ok hleft]
  exact scopes_after_bind fun _ _ _ => congrArg _ (Exec.after_ofResult _ _)

theorem scopes_after_fieldValue {object value : Expr} {name : Token} {i : Instance}
    (hobject : eval bound d object m = .ok (.inst i) m₁) :
    ((eval bound (d + 1) (.set object name value)).after m).scopes =
      ((eval bound d value).after m₁).scopes := by
  rw [eval, after_bind_of_ok hobject]
  exact scopes_after_bind fun _ _ _ => rfl

theorem scopes_after_nextArguments {e : Expr} {es : List Expr} {v : Value}
    (hv : eval bound d e m = .ok v m₁) :
    (Exec.after ((e :: es).mapM (eval bound d)) m).scopes =
      (Exec.after (es.mapM (eval bound d)) m₁).scopes := by
  rw [List.mapM_cons, after_bind_of_ok hv]
  exact scopes_after_bind fun _ _ _ => rfl

theorem scopes_after_body {f : Closure} {args : List Value} {scope : ScopeId}
    (hscope : Exec.newScope f.scope (Bindings.empty.setAll (f.decl.params.map Token.lexeme) args)
      m = .ok scope m₁) :
    ((call bound (d + 1) (.function f) args).after m).scopes =
      ((execAll bound d f.decl.body).after { m₁ with current := scope }).scopes := by
  rw [call, Exec.invoke, after_bind_of_ok hscope, scopes_after_bind, Exec.after_catchReturn,
    Exec.after_within]
  · rfl
  · intro v m₁ _
    split
    · exact congrArg _ (Exec.after_ofFault _ _)
    · rfl

theorem scopes_after_initializer {c : Class} {f g : Closure} {i : Instance} {args : List Value}
    {m₂ : Machine} (hi : Exec.newInstance c m = .ok i m₁) (hf : c.initializer? = some f)
    (hg : Exec.bindMethod f (.inst i) m₁ = .ok g m₂) :
    ((call bound (d + 1) (.cls c) args).after m).scopes =
      ((call bound (d + 1) (.function g) args).after m₂).scopes := by
  show (Exec.after (Exec.construct c args fun body => body.forM (exec bound d)) m).scopes = _
  rw [Exec.construct, after_bind_of_ok hi, hf]
  dsimp only
  rw [after_bind_of_ok hg]
  exact scopes_after_bind fun _ _ _ => rfl

end

/-- Executing a program does to the scopes what its statements do. -/
theorem Machine.scopes_execute (m : Machine) (l : Limits) (program : List Stmt) :
    (m.execute l program).2.scopes =
      (Exec.after (execAll l.iterations l.depth program) { m with lastError := none }).scopes := by
  unfold execute Exec.after
  cases execAll l.iterations l.depth program { m with lastError := none } with
  | ok a m₁ => rfl
  | error e m₁ => cases e <;> rfl

namespace Invariant

variable {W C : Type} {R : Invariant W C}

theorem Preserves.discard {w : W} {m : Machine} {α : Type} {x : Exec α} {P : W → Scopes → α → Prop}
    (h : R.Preserves w m x P) :
    R.Preserves w m (discard x) fun _ _ _ => True := by
  show R.Ends w m _ (EStateM.map (fun _ => PUnit.unit) x m)
  unfold Preserves at h
  unfold EStateM.map
  generalize x m = r at h ⊢
  cases h with
  | ok hs _ => exact .ok hs trivial
  | error hs he => exact .error hs he

/-- What can be done under the invariant keeps it up. -/
theorem Fits.preserves (hR : R.Laws) {bound d : Nat} {K : Course bound} (hF : R.Follows K) {w : W}
    {m : Machine} {t : Task} (hK : K.has d t m) (hinv : R.inv w m) (ht : R.Fits w m t) :
    R.Preserves w m (t.run bound d) fun _ _ _ => True := by
  have hkept := Kept.of_depth hR hF d
  cases t with
  | eval e =>
    obtain ⟨c, hplace, he⟩ := ht
    exact (hkept.eval hK hinv hplace he).discard
  | evalAll es =>
    obtain ⟨c, hplace, hes⟩ := ht
    exact (hkept.evalAll hR hK hinv hplace hes).discard
  | call v args =>
    obtain ⟨hv, hargs, hcount⟩ := ht
    exact (hkept.call hK hinv hv hargs hcount).discard
  | exec s =>
    obtain ⟨c, hplace, hs⟩ := ht
    exact (hkept.exec hK hinv hplace hs).imp fun _ _ _ _ => trivial
  | execAll ss =>
    obtain ⟨c, hplace, hss⟩ := ht
    exact hkept.execAll hR hK hinv hplace hss
  | loop n condition body =>
    obtain ⟨c, hplace, hcondition, hbody⟩ := ht
    exact hkept.loop hR n hK hinv hplace hcondition hbody

/-- All that the invariant lets happen to the scopes is of a kind. -/
structure Respects (R : Invariant W C) (ρ : Scopes → Scopes → Prop) : Prop where
  refl : ∀ s, ρ s s
  trans : ∀ {s s' s''}, ρ s s' → ρ s' s'' → ρ s s''
  moves : ∀ {w s w' s'}, R.moves w s w' s' → s.Extends s' → ρ s s'

namespace Respects

variable {ρ : Scopes → Scopes → Prop} {bound d d' : Nat} {K : Course bound} {w : W} {m m' : Machine}
  {t t' : Task}

theorem preserves (hρ : R.Respects ρ) {α : Type} {x : Exec α} {P : W → Scopes → α → Prop}
    (h : R.Preserves w m x P) :
    ρ m.scopes (x.after m).scopes := by
  unfold Preserves at h
  unfold Exec.after
  generalize x m = r at h ⊢
  cases h with
  | ok hs _ => exact hρ.moves hs.moves hs.keeps.scopes
  | error hs _ => exact hρ.moves hs.moves hs.keeps.scopes

/-- A piece that is started is done. -/
theorem piece (hρ : R.Respects ρ) (hR : R.Laws) (hF : R.Follows K) (hK : K.has d t m)
    (hinv : R.inv w m) (ht : R.Fits w m t) (h : Starts bound d t m d' t' m') :
    ρ m'.scopes ((t'.run bound d').after m').scopes := by
  obtain ⟨w', hinv', ht'⟩ := fits_of_starts hR hF hK h hinv ht
  exact hρ.preserves (Fits.preserves hR hF (K.starts hK h) hinv' ht')

/-! ## From the end of a piece to the end of the whole -/

section

variable (hρ : R.Respects ρ) (hR : R.Laws) (hF : R.Follows K) (hinv : R.inv w m)

include hρ hR hF hinv

theorem eval_piece (hK : K.has d t m) (ht : R.Fits w m t) {e : Expr}
    (h : Starts bound d t m d' (.eval e) m') :
    ρ m'.scopes ((eval bound d' e).after m').scopes := by
  have hpiece := hρ.piece hR hF hK hinv ht h
  rwa [Task.run, Exec.after_discard] at hpiece

/-- From the arguments of a call to its end. -/
theorem rest_arguments {callee : Expr} {paren : Token} {es : List Expr}
    (hK : K.has (d + 1) (.eval (.call callee paren es)) m)
    (ht : R.Fits w m (.eval (.call callee paren es))) {f : Value}
    (hf : eval bound d callee m = .ok f m') :
    ρ (Exec.after (es.mapM (eval bound d)) m').scopes
      ((eval bound (d + 1) (.call callee paren es)).after m).scopes := by
  rw [eval, Exec.after_bind_of_ok hf]
  refine Exec.rest_bind hρ.refl fun args m₂ hargs => ?_
  have hcheck :=
    Exec.rest_bind (x := Exec.checkCall paren f args.length) (f := fun _ => call bound d f args)
      (m := m₂) hρ.refl fun _ m₃ hcheck => by
        have hcall := hρ.piece hR hF hK hinv ht (.call hf hargs hcheck)
        rwa [Task.run, Exec.after_discard] at hcall
  rwa [Exec.after_checkCall] at hcheck

/-- From the first part of an expression to its end. -/
theorem rest_first {e e' : Expr} {es : List Expr} (hK : K.has (d + 1) (.eval e) m)
    (ht : R.Fits w m (.eval e)) (hparts : e.parts = e' :: es) :
    ρ ((eval bound d e').after m).scopes ((eval bound (d + 1) e).after m).scopes := by
  have hfirst : ∀ {v m₁}, eval bound d e' m = .ok v m₁ → ∃ w₁, R.Step w m w₁ m₁ ∧
      R.value w₁ m₁.scopes v :=
    fun hv => (ht.part hR (by simp [hparts])).evaluated hR hF hinv (K.starts hK (.first hparts)) hv
  cases e <;> simp only [Expr.parts, List.cons.injEq, reduceCtorEq] at hparts <;>
    obtain ⟨rfl, -⟩ := hparts <;> rw [eval]
  case grouping => exact hρ.refl _
  case assign name value =>
    refine Exec.rest_bind hρ.refl fun v m₁ hv => ?_
    obtain ⟨w₁, hs, hvalue⟩ := hfirst hv
    obtain ⟨c, hplace, he⟩ := hs.fits hR ht
    refine hρ.preserves (P := fun _ _ _ => True)
      ((hR.assign hs.inv hplace he hvalue).bind hR fun hs' _ => ?_)
    exact .pure hR hs'.inv trivial
  case unary op operand =>
    refine Exec.rest_bind hρ.refl fun v m₁ _ => ?_
    rw [Exec.after_ofResult]
    exact hρ.refl _
  case binary left op right =>
    refine Exec.rest_bind hρ.refl fun v m₁ hv => ?_
    rw [Exec.scopes_after_bind fun _ _ _ => congrArg _ (Exec.after_ofResult _ _)]
    exact hρ.eval_piece hR hF hinv hK ht (.right hv)
  case logical left op right =>
    refine Exec.rest_bind hρ.refl fun v m₁ hv => ?_
    split
    · exact hρ.refl _
    · rename_i hne
      exact hρ.eval_piece hR hF hinv hK ht (.otherwise hv hne)
  case call callee paren arguments =>
    refine Exec.rest_bind hρ.refl fun f m₁ hf => ?_
    have harguments := hρ.piece hR hF hK hinv ht (.arguments hf)
    have hrest := hρ.rest_arguments hR hF hinv hK ht hf
    rw [eval, Exec.after_bind_of_ok hf] at hrest
    rw [Task.run, Exec.after_discard] at harguments
    exact hρ.trans harguments hrest
  case get object name =>
    refine Exec.rest_bind hρ.refl fun v m₁ hv => ?_
    obtain ⟨w₁, hs, hvalue⟩ := hfirst hv
    cases v with
    | inst i => exact hρ.preserves (.getProperty hR hs.inv hvalue name)
    | _ => exact hρ.refl _
  case set object name value =>
    refine Exec.rest_bind hρ.refl fun v m₁ hv => ?_
    cases v with
    | inst i =>
      dsimp only
      rw [Exec.scopes_after_bind fun _ _ _ => rfl]
      exact hρ.eval_piece hR hF hinv hK ht (.fieldValue hv)
    | _ => exact hρ.refl _

/-- From the name of the superclass to the end of a class declaration. -/
theorem rest_superclass {name s : Token} {methods : List FunDecl}
    (hK : K.has (d + 1) (.exec (.classDecl name (some s) methods)) m)
    (ht : R.Fits w m (.exec (.classDecl name (some s) methods)))
    (hnil : Exec.define name.lexeme .nil m = .ok () m') :
    ρ ((eval bound d (.var s)).after m').scopes
      ((exec bound (d + 1) (.classDecl name (some s) methods)).after m).scopes := by
  obtain ⟨c, hplace, hstmt⟩ := ht
  obtain ⟨w₁, hs₁, hp₁⟩ := (hR.declare hinv hstmt rfl (.inl hplace)
    (hR.plain (show Value.IsPlain .nil from trivial) _ _)).of_ok hnil
  rw [← hs₁.keeps.current] at hp₁
  rw [exec, Exec.declareClass_some, Exec.after_bind_of_ok hnil,
    ← Exec.scopes_after_bind (x := eval bound d (.var s)) (f := Exec.asSuperclass s)
      fun v m₁ _ => by cases v <;> rfl]
  refine Exec.rest_bind hρ.refl fun parent m₂ hparent => ?_
  have hname := Exec.of_asSuperclass hparent
  have hexpr : R.Fits w₁ m' (.eval (.var s)) := ⟨_, hp₁, hR.superclass hstmt⟩
  obtain ⟨w₂, hs₂, hvalue⟩ := hexpr.evaluated hR hF hs₁.inv (K.starts hK (.superclass hnil)) hname
  exact hρ.preserves
    (.declareSubclass hR hs₂.inv hstmt (hs₂.place hR hp₁) hvalue (hF.sub hK hnil hname))

/-- From the end of a piece to the end of the one that started it, only such things happen to the
scopes as the invariant allows. -/
theorem rest (hK : K.has d t m) (ht : R.Fits w m t) (h : Starts bound d t m d' t' m') :
    ρ ((t'.run bound d').after m').scopes ((t.run bound d).after m).scopes := by
  have hpiece : ∀ {d'' t'' m''}, Starts bound d t m d'' t'' m'' →
      ρ m''.scopes ((t''.run bound d'').after m'').scopes :=
    fun h => hρ.piece hR hF hK hinv ht h
  cases h with
  | first hparts =>
    rw [Task.run, Task.run, Exec.after_discard, Exec.after_discard]
    exact hρ.rest_first hR hF hinv hK ht hparts
  | right hleft =>
    rw [Task.run, Task.run, Exec.after_discard, Exec.after_discard, scopes_after_right hleft]
    exact hρ.refl _
  | otherwise hleft hv =>
    rw [Task.run, Task.run, Exec.after_discard, Exec.after_discard, eval,
      Exec.after_bind_of_ok hleft, if_neg hv]
    exact hρ.refl _
  | fieldValue hobject =>
    rw [Task.run, Task.run, Exec.after_discard, Exec.after_discard, scopes_after_fieldValue hobject]
    exact hρ.refl _
  | arguments hcallee =>
    rw [Task.run, Task.run, Exec.after_discard, Exec.after_discard]
    exact hρ.rest_arguments hR hF hinv hK ht hcallee
  | argument =>
    rw [Task.run, Task.run, Exec.after_discard, Exec.after_discard, List.mapM_cons]
    refine Exec.rest_bind hρ.refl fun v m₁ hv => ?_
    have hrest := hpiece (.nextArguments hv)
    rw [Task.run, Exec.after_discard] at hrest
    rwa [Exec.scopes_after_bind fun _ _ _ => rfl]
  | nextArguments hv =>
    rw [Task.run, Task.run, Exec.after_discard, Exec.after_discard, scopes_after_nextArguments hv]
    exact hρ.refl _
  | call hcallee hargs hcheck =>
    rw [Task.run, Task.run, Exec.after_discard, Exec.after_discard, eval,
      Exec.after_bind_of_ok hcallee, Exec.after_bind_of_ok hargs, Exec.after_bind_of_ok hcheck]
    exact hρ.refl _
  | body hscope =>
    rw [Task.run, Task.run, Exec.after_discard, scopes_after_body hscope]
    exact hρ.refl _
  | initializer hi hf hg =>
    rw [Task.run, Task.run, Exec.after_discard, Exec.after_discard,
      scopes_after_initializer hi hf hg]
    exact hρ.refl _
  | expr =>
    rw [Task.run, Task.run, Exec.after_discard, exec, Exec.scopes_after_bind fun _ _ _ => rfl]
    exact hρ.refl _
  | print =>
    rw [Task.run, Task.run, Exec.after_discard, exec, Exec.scopes_after_bind fun _ _ _ => rfl]
    exact hρ.refl _
  | ret =>
    rw [Task.run, Task.run, Exec.after_discard, exec, Exec.scopes_after_bind fun _ _ _ => rfl]
    exact hρ.refl _
  | varDecl =>
    rw [Task.run, Task.run, Exec.after_discard, exec]
    refine Exec.rest_bind hρ.refl fun v m₁ hv => ?_
    obtain ⟨c, hplace, hstmt⟩ := ht
    obtain ⟨c', he, hp⟩ := hR.initializer hstmt
    have hexpr : R.Fits w m (.eval _) := ⟨c', hp _ _ _ hplace, he⟩
    obtain ⟨w₁, hs, hvalue⟩ := hexpr.evaluated hR hF hinv (K.starts hK .varDecl) hv
    exact hρ.preserves (hR.declare hs.inv hstmt rfl (.inl (hs.place hR hplace)) hvalue)
  | superclass hnil =>
    rw [Task.run, Task.run, Exec.after_discard]
    exact hρ.rest_superclass hR hF hinv hK ht hnil
  | block hscope =>
    rw [Task.run, Task.run, exec,
      Exec.after_bind_of_ok (show (get : Exec Machine) m = .ok m m from rfl),
      Exec.after_bind_of_ok hscope, Exec.after_within]
    exact hρ.refl _
  | statement => exact Exec.rest_bind hρ.refl fun _ m₁ hs => hpiece (.nextStatements hs)
  | nextStatements hs =>
    rw [Task.run, Task.run, show execAll bound d (_ :: _) = _ >>= _ from rfl,
      Exec.after_bind_of_ok hs]
    exact hρ.refl _
  | @condition d condition thenBranch elseBranch =>
    rw [Task.run, Task.run, Exec.after_discard]
    cases elseBranch with
    | none =>
      rw [exec]
      refine Exec.rest_bind hρ.refl fun v m₁ hv => ?_
      split
      · rename_i htrue
        exact hpiece (.thenBranch hv htrue)
      · exact hρ.refl _
    | some s =>
      rw [exec]
      refine Exec.rest_bind hρ.refl fun v m₁ hv => ?_
      split
      · rename_i htrue
        exact hpiece (.thenBranch hv htrue)
      · rename_i hfalse
        exact hpiece (.elseBranch hv (by simpa using hfalse))
  | @thenBranch _ _ _ elseBranch _ _ _ hcondition hv =>
    cases elseBranch <;>
    · rw [Task.run, Task.run, exec, Exec.after_bind_of_ok hcondition, if_pos hv]
      exact hρ.refl _
  | elseBranch hcondition hv =>
    rw [Task.run, Task.run, exec, Exec.after_bind_of_ok hcondition, if_neg (by simp [hv])]
    exact hρ.refl _
  | whileDo => exact hρ.refl _
  | test =>
    rw [Task.run, Task.run, Exec.after_discard, Exec.loop, bind_map_left]
    refine Exec.rest_bind hρ.refl fun v m₁ hv => ?_
    split
    · rename_i htrue
      refine hρ.trans (hpiece (.round hv htrue)) (Exec.rest_bind hρ.refl fun _ m₂ hbody => ?_)
      exact hpiece (.nextRounds hv htrue hbody)
    · exact hρ.refl _
  | round hcondition hv =>
    rw [Task.run, Task.run, Exec.loop, bind_map_left, Exec.after_bind_of_ok hcondition, if_pos hv]
    exact Exec.rest_bind hρ.refl fun _ m₂ hbody => hpiece (.nextRounds hcondition hv hbody)
  | nextRounds hcondition hv hbody =>
    rw [Task.run, Task.run, Exec.loop, bind_map_left, Exec.after_bind_of_ok hcondition, if_pos hv,
      Exec.after_bind_of_ok hbody]
    exact hρ.refl _

end

section

variable {l : Limits} {source : String} {c : C} {n : Machine}

/-- What the invariant respects leads from the end of each piece of a run to the end of the run. -/
theorem after_enters (hρ : R.Respects ρ) (hR : R.Laws) (hF : R.Follows (m.course l source))
    (hinv : R.inv w (m.analysed l source)) (hplace : R.place c w m.scopes m.current)
    (hss : ∀ ss, (m.analysis l source).program = .ok ss → R.stmts c ss)
    (h : m.Enters l source d t n) :
    ρ ((t.run l.iterations d).after n).scopes (m.run l source).2.scopes := by
  induction h with
  | program hok =>
    rw [Machine.run_of_ok hok]
    dsimp only
    rw [Machine.scopes_execute]
    exact hρ.refl _
  | piece hn hstarts ih =>
    obtain ⟨w', hinv', ht'⟩ := fits_of_enters hR hF hinv hplace hss hn
    exact hρ.trans (hρ.rest hR hF hinv' (K := m.course l source) hn ht' hstarts) ih

/-- It leads there from each state that the run goes through. -/
theorem enters (hρ : R.Respects ρ) (hR : R.Laws) (hF : R.Follows (m.course l source))
    (hinv : R.inv w (m.analysed l source)) (hplace : R.place c w m.scopes m.current)
    (hss : ∀ ss, (m.analysis l source).program = .ok ss → R.stmts c ss)
    (h : m.Enters l source d t n) : ρ n.scopes (m.run l source).2.scopes := by
  obtain ⟨w', hinv', ht'⟩ := fits_of_enters hR hF hinv hplace hss h
  exact hρ.trans (hρ.preserves (Fits.preserves hR hF (K := m.course l source) h hinv' ht'))
    (hρ.after_enters hR hF hinv hplace hss h)

end

end Respects
end Invariant
end Lox
