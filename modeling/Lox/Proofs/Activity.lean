import Lox.Proofs.Invariants
import Lox.Proofs.TwinRuns

/-!
# What goes on during a run

What a piece of evaluation starts can be done under the invariant that the piece can be done under
(`Invariant.fits_of_starts`). `Machine.Enters` are all pieces that are started while a text is run:
these are the states that a session goes through. What an invariant keeps up holds of each of them
(`Invariant.fits_of_enters`).
-/

namespace Lox

/-! ## What holds of each piece -/

namespace Invariant

variable {W C : Type}

/-- The piece can be done under the invariant. -/
def Fits (R : Invariant W C) (w : W) (m : Machine) : Task → Prop
  | .eval e => ∃ c, R.place c w m.scopes m.current ∧ R.expr c e
  | .evalAll es => ∃ c, R.place c w m.scopes m.current ∧ ∀ e ∈ es, R.expr c e
  | .call v args => R.value w m.scopes v ∧ (∀ a ∈ args, R.value w m.scopes a) ∧
      (R.loose w m.scopes ∨ v.Takes args.length)
  | .exec s => ∃ c, R.place c w m.scopes m.current ∧ R.stmt c s
  | .execAll ss => ∃ c, R.place c w m.scopes m.current ∧ R.stmts c ss
  | .loop _ condition body =>
    ∃ c, R.place c w m.scopes m.current ∧ R.expr c condition ∧ R.stmt c body

section

variable {R : Invariant W C} {w : W} {m m' : Machine} {α : Type} {P : W → Scopes → α → Prop}
  {x : Exec α}

theorem Preserves.of_ok (h : R.Preserves w m x P) {a : α} (hx : x m = .ok a m') :
    ∃ w', R.Step w m w' m' ∧ P w' m'.scopes a := by
  unfold Preserves at h
  rw [hx] at h
  cases h with
  | ok hs hP => exact ⟨_, hs, hP⟩

/-- What can be done now can be done later. -/
theorem Step.fits (hR : R.Laws) {w' : W} (hs : R.Step w m w' m') {t : Task} (ht : R.Fits w m t) :
    R.Fits w' m' t := by
  cases t with
  | eval e => exact ht.imp fun c h => ⟨hs.place hR h.1, h.2⟩
  | evalAll es => exact ht.imp fun c h => ⟨hs.place hR h.1, h.2⟩
  | call v args =>
    exact ⟨hs.value hR ht.1, fun a ha => hs.value hR (ht.2.1 a ha),
      ht.2.2.imp_left (hR.loose_mono hs.moves hs.keeps.scopes)⟩
  | exec s => exact ht.imp fun c h => ⟨hs.place hR h.1, h.2⟩
  | execAll ss => exact ht.imp fun c h => ⟨hs.place hR h.1, h.2⟩
  | loop n condition body => exact ht.imp fun c h => ⟨hs.place hR h.1, h.2⟩

namespace Fits

variable {bound d : Nat} {K : Course bound}

theorem part (hR : R.Laws) {e e' : Expr} (h : R.Fits w m (.eval e)) (he' : e' ∈ e.parts) :
    R.Fits w m (.eval e') :=
  h.imp fun _ h => ⟨h.1, hR.parts h.2 e' he'⟩

theorem expr (hR : R.Laws) {s : Stmt} {e : Expr} (h : R.Fits w m (.exec s)) (he : e ∈ s.exprs) :
    R.Fits w m (.eval e) := h.imp fun _ h => ⟨h.1, hR.exprs h.2 e he⟩

theorem branch (hR : R.Laws) {s b : Stmt} (h : R.Fits w m (.exec s)) (hb : b ∈ s.branches) :
    R.Fits w m (.exec b) :=
  h.imp fun _ h => ⟨h.1, hR.branches h.2 b hb⟩

/-- An expression that can be evaluated was evaluated. -/
theorem evaluated (hR : R.Laws) (hF : R.Follows K) (hinv : R.inv w m) {e : Expr}
    (h : R.Fits w m (.eval e)) (hK : K.has d (.eval e) m) {v : Value}
    (hv : Lox.eval bound d e m = .ok v m') :
    ∃ w', R.Step w m w' m' ∧ R.value w' m'.scopes v := by
  obtain ⟨c, hplace, he⟩ := h
  exact ((Kept.of_depth hR hF d).eval hK hinv hplace he).of_ok hv

end Fits

/-- A piece that is started under the invariant can be done under it. -/
theorem fits_of_starts (hR : R.Laws) {bound d d' : Nat} {K : Course bound} (hF : R.Follows K)
    {t t' : Task} (hK : K.has d t m) (h : Starts bound d t m d' t' m')
    (hinv : R.inv w m) (ht : R.Fits w m t) : ∃ w', R.inv w' m' ∧ R.Fits w' m' t' := by
  cases h with
  | first hparts => exact ⟨w, hinv, ht.part hR (by simp [hparts])⟩
  | right hleft =>
    obtain ⟨w₁, hs, -⟩ :=
      (ht.part hR (by simp [Expr.parts])).evaluated hR hF hinv (K.starts hK (.first rfl)) hleft
    exact ⟨w₁, hs.inv, (hs.fits hR ht).part hR (by simp [Expr.parts])⟩
  | otherwise hleft _ =>
    obtain ⟨w₁, hs, -⟩ :=
      (ht.part hR (by simp [Expr.parts])).evaluated hR hF hinv (K.starts hK (.first rfl)) hleft
    exact ⟨w₁, hs.inv, (hs.fits hR ht).part hR (by simp [Expr.parts])⟩
  | fieldValue hobject =>
    obtain ⟨w₁, hs, -⟩ :=
      (ht.part hR (by simp [Expr.parts])).evaluated hR hF hinv (K.starts hK (.first rfl)) hobject
    exact ⟨w₁, hs.inv, (hs.fits hR ht).part hR (by simp [Expr.parts])⟩
  | arguments hcallee =>
    obtain ⟨w₁, hs, -⟩ :=
      (ht.part hR (by simp [Expr.parts])).evaluated hR hF hinv (K.starts hK (.first rfl)) hcallee
    obtain ⟨c, hplace, he⟩ := hs.fits hR ht
    exact ⟨w₁, hs.inv, c, hplace, fun a ha => hR.parts he a (by simp [Expr.parts, ha])⟩
  | argument =>
    obtain ⟨c, hplace, hes⟩ := ht
    exact ⟨w, hinv, c, hplace, hes _ List.mem_cons_self⟩
  | nextArguments hv =>
    obtain ⟨c, hplace, hes⟩ := ht
    obtain ⟨w₁, hs, -⟩ :=
      Fits.evaluated hR hF hinv ⟨c, hplace, hes _ List.mem_cons_self⟩ (K.starts hK .argument) hv
    exact ⟨w₁, hs.inv, c, hs.place hR hplace, fun e he => hes e (List.mem_cons_of_mem _ he)⟩
  | call hcallee hargs hcheck =>
    obtain ⟨w₁, hs₁, hf⟩ :=
      (ht.part hR (by simp [Expr.parts])).evaluated hR hF hinv (K.starts hK (.first rfl)) hcallee
    obtain ⟨c, hplace, he⟩ := hs₁.fits hR ht
    obtain ⟨w₂, hs₂, hvs⟩ :=
      ((Kept.of_depth hR hF _).evalAll hR (K.starts hK (.arguments hcallee)) hs₁.inv hplace
      fun a ha => hR.parts he a (by simp [Expr.parts, ha])).of_ok hargs
    obtain ⟨w₃, hs₃, htakes⟩ := (Preserves.checkCall hR hs₂.inv _ _ _).of_ok hcheck
    exact ⟨w₃, hs₃.inv, hs₃.value hR (hs₂.value hR hf), fun a ha => hs₃.value hR (hvs a ha),
      .inr htakes⟩
  | body hscope =>
    obtain ⟨hf, hargs, hcount⟩ := ht
    obtain ⟨w₁, hs, c, hbody, hplace⟩ := (hR.enter hinv hf hargs hcount).of_ok hscope
    exact ⟨w₁, hR.within hs.inv _, c, hplace, hbody⟩
  | initializer hi hf hg =>
    obtain ⟨hc, hargs, hcount⟩ := ht
    obtain ⟨w₁, hs₁, hi', hcls⟩ := (Preserves.newInstance hR hinv hc).of_ok hi
    have hsuits := hR.suits_cls hi'
    rw [hcls] at hsuits
    obtain ⟨w₂, hs₂, hg', hdecl⟩ := (hR.bindMethod hs₁.inv (hs₁.value hR hc) hf hi' hsuits).of_ok hg
    have hs := hs₁.trans hR hs₂
    refine ⟨w₂, hs₂.inv, hg', fun a ha => hs.value hR (hargs a ha), ?_⟩
    refine hcount.imp (hR.loose_mono hs.moves hs.keeps.scopes) fun hlen => ?_
    rw [Value.Takes, Class.arity, hf] at hlen
    rw [Value.Takes, Closure.arity, hdecl]
    exact hlen
  | expr => exact ⟨w, hinv, ht.expr hR (by simp [Stmt.exprs])⟩
  | print => exact ⟨w, hinv, ht.expr hR (by simp [Stmt.exprs])⟩
  | ret => exact ⟨w, hinv, ht.expr hR (by simp [Stmt.exprs])⟩
  | varDecl =>
    obtain ⟨c, hplace, hstmt⟩ := ht
    obtain ⟨c', he, hp⟩ := hR.initializer hstmt
    exact ⟨w, hinv, c', hp _ _ _ hplace, he⟩
  | superclass hnil =>
    obtain ⟨c, hplace, hstmt⟩ := ht
    obtain ⟨w₁, hs, hp⟩ := (hR.declare hinv hstmt rfl (.inl hplace)
      (hR.plain (show Value.IsPlain .nil from trivial) _ _)).of_ok hnil
    rw [← hs.keeps.current] at hp
    exact ⟨w₁, hs.inv, _, hp, hR.superclass hstmt⟩
  | block hscope =>
    obtain ⟨c, hplace, hstmt⟩ := ht
    obtain ⟨w₁, hs, c', hbody, hp⟩ := (hR.block hinv hplace hstmt).of_ok hscope
    exact ⟨w₁, hR.within hs.inv _, c', hp, hbody⟩
  | statement =>
    obtain ⟨c, hplace, hss⟩ := ht
    exact ⟨w, hinv, c, hplace, hss.1⟩
  | nextStatements hstep =>
    obtain ⟨c, hplace, hss⟩ := ht
    obtain ⟨w₁, hs, hp⟩ :=
      ((Kept.of_depth hR hF _).exec (K.starts hK .statement) hinv hplace hss.1).of_ok hstep
    rw [← hs.keeps.current] at hp
    exact ⟨w₁, hs.inv, _, hp, hss.2⟩
  | condition => exact ⟨w, hinv, ht.expr hR (by simp [Stmt.exprs])⟩
  | thenBranch hcondition _ =>
    obtain ⟨w₁, hs, -⟩ :=
      (ht.expr hR (by simp [Stmt.exprs])).evaluated hR hF hinv (K.starts hK .condition) hcondition
    exact ⟨w₁, hs.inv, (hs.fits hR ht).branch hR (by simp [Stmt.branches])⟩
  | elseBranch hcondition _ =>
    obtain ⟨w₁, hs, -⟩ :=
      (ht.expr hR (by simp [Stmt.exprs])).evaluated hR hF hinv (K.starts hK .condition) hcondition
    exact ⟨w₁, hs.inv, (hs.fits hR ht).branch hR (by simp [Stmt.branches])⟩
  | whileDo =>
    obtain ⟨c, hplace, hstmt⟩ := ht
    exact ⟨w, hinv, c, hplace, hR.exprs hstmt _ (by simp [Stmt.exprs]),
      hR.branches hstmt _ (by simp [Stmt.branches])⟩
  | test =>
    obtain ⟨c, hplace, he, -⟩ := ht
    exact ⟨w, hinv, c, hplace, he⟩
  | round hcondition _ =>
    obtain ⟨c, hplace, he, hbody⟩ := ht
    obtain ⟨w₁, hs, -⟩ := Fits.evaluated hR hF hinv ⟨c, hplace, he⟩ (K.starts hK .test) hcondition
    exact ⟨w₁, hs.inv, c, hs.place hR hplace, hbody⟩
  | nextRounds hcondition hv hround =>
    obtain ⟨c, hplace, he, hbody⟩ := ht
    obtain ⟨w₁, hs₁, -⟩ := Fits.evaluated hR hF hinv ⟨c, hplace, he⟩ (K.starts hK .test) hcondition
    have hK' := K.starts hK (.round hcondition hv)
    obtain ⟨w₂, hs₂, -⟩ :=
      ((Kept.of_depth hR hF _).exec hK' hs₁.inv (hs₁.place hR hplace) hbody).of_ok hround
    exact ⟨w₂, hs₂.inv, c, hs₂.place hR (hs₁.place hR hplace), he, hbody⟩

end
end Invariant

/-! ## Runs -/

/-- The pieces that are started while a text is run. -/
inductive Machine.Enters (m : Machine) (l : Limits) (source : String) :
    Nat → Task → Machine → Prop where
  /-- A text with a program is executed. -/
  | program {ss : List Stmt} : (m.analysis l source).program = .ok ss →
      Enters m l source l.depth (.execAll ss) { m.analysed l source with lastError := none }
  | piece {d d' : Nat} {t t' : Task} {n n' : Machine} : Enters m l source d t n →
      Starts l.iterations d t n d' t' n' → Enters m l source d' t' n'

theorem Machine.enters_of_toOption {m : Machine} {l : Limits} {source : String} {ss : List Stmt}
    (h : (m.analysis l source).program.toOption = some ss) :
    m.Enters l source l.depth (.execAll ss) { m.analysed l source with lastError := none } := by
  cases hprogram : (m.analysis l source).program with
  | ok program =>
    rw [hprogram] at h
    cases h
    exact .program hprogram
  | error o =>
    rw [hprogram] at h
    cases h

/-- What goes on while a text is run. -/
def Machine.course (m : Machine) (l : Limits) (source : String) : Course l.iterations :=
  ⟨m.Enters l source, .piece⟩

/-- All that is started while a text is run can be done under an invariant under which the text can
be executed. -/
theorem Invariant.fits_of_enters {W C : Type} {R : Invariant W C} (hR : R.Laws) {w : W} {c : C}
    {m : Machine} {l : Limits} {source : String} (hF : R.Follows (m.course l source))
    (hinv : R.inv w (m.analysed l source)) (hplace : R.place c w m.scopes m.current)
    (hss : ∀ ss, (m.analysis l source).program = .ok ss → R.stmts c ss)
    {d : Nat} {t : Task} {n : Machine} (h : m.Enters l source d t n) :
    ∃ w', R.inv w' n ∧ R.Fits w' n t := by
  induction h with
  | program hok => exact ⟨w, hR.frame hinv _ _ none _, c, hplace, hss _ hok⟩
  | piece hn hstarts ih =>
    obtain ⟨w₁, hinv₁, hfits₁⟩ := ih
    exact fits_of_starts hR hF hn hstarts hinv₁ hfits₁

end Lox
