import Lox.Proofs.Chains

/-!
# Two ways to a variable

A variable is found by name, in the nearest scope that binds it, or by distance. `Nearest s e x k j`
says that the nearest scope around `e` that binds `x` is `j`, at the distance `k`. At that distance
the two ways read the same value and change the same binding (`Nearest.lookup`, `Nearest.assign`).
Scopes are shared: what a change does to the lookups from all other scopes is `lookup_define`.
`by_name_eq_by_distance` puts this together for all stores that can be built.
-/

namespace Lox.Scopes

/-- The stores that can be built: scopes are made by themselves or inside scopes that are there, and
names are bound in them and changed, by name and by distance. -/
inductive Built : Scopes → Prop where
  | empty : Built .empty
  | add {s : Scopes} {parent : Option ScopeId} : Built s → (∀ p ∈ parent, p < s.next) →
      Built (s.add parent .empty)
  | define {s : Scopes} {i : ScopeId} (x : String) (v : Value) : Built s → i < s.next →
      Built (s.define i x v)
  | assign {s s' : Scopes} {i : ScopeId} {t : Token} {v : Value} : Built s → i < s.next →
      s.assign i t v = .ok s' → Built s'
  | assignAt {s s' : Scopes} {i : ScopeId} {d : Int} {x : String} {v : Value} : Built s →
      i < s.next → s.assignAt i (steps d) x v = .ok s' → Built s'

/-- `k` is the least distance at which a scope on the chain of `e` binds `x`, and `j` is that
scope. -/
structure Nearest (s : Scopes) (e : ScopeId) (x : String) (k : Nat) (j : ScopeId) : Prop where
  ancestor : s.ancestor e k = .ok j
  binds : (s.local? j x).isSome
  least : ∀ d i, s.ancestor e d = .ok i → (s.local? i x).isSome → k ≤ d

def Unbound (s : Scopes) (e : ScopeId) (x : String) : Prop :=
  ∀ d i, s.ancestor e d = .ok i → s.local? i x = none

variable {s s' : Scopes} {e i j : ScopeId} {x y : String} {v w : Value} {d k : Nat} {t : Token}

/-! ## Operations -/

theorem ancestor_eq_ok_iff : s.ancestor i d = .ok j ↔ s.ancestor? i d = some j := by
  unfold ancestor
  cases s.ancestor? i d with
  | none => simp
  | some a => simp

theorem getAt_eq (h : s.ancestor i d = .ok j) (hw : s.local? j x = some w) :
    s.getAt i d x = .ok w := by
  simp [getAt, h, hw, bind, Except.bind, pure, Except.pure]

theorem assignAt_eq (h : s.ancestor i d = .ok j) (x : String) (v : Value) :
    s.assignAt i d x v = .ok (s.define j x v) := by
  simp [assignAt, h, bind, Except.bind, pure, Except.pure]

theorem exists_of_assign (h : s.assign i t v = .ok s') : ∃ j, s' = s.define j t.lexeme v := by
  unfold assign at h
  cases hj : s.binder i t with
  | error e =>
    rw [hj] at h
    cases h
  | ok j =>
    rw [hj] at h
    cases h
    exact ⟨j, rfl⟩

theorem exists_of_assignAt (h : s.assignAt i d x v = .ok s') : ∃ j, s' = s.define j x v := by
  cases hj : s.ancestor i d with
  | error f => simp [assignAt, hj, bind, Except.bind] at h
  | ok j =>
    rw [assignAt_eq hj] at h
    cases h
    exact ⟨j, rfl⟩

/-! ## Chains -/

/-- Parents are older than the scopes inside them. -/
theorem Built.parent_lt (hs : s.Built) {p : ScopeId} (hp : s.parent? i = some p) : p < i := by
  induction hs generalizing i p with
  | empty => simp [parent?, Scopes.empty] at hp
  | @add s parent _ hparent ih =>
    rw [parent?_add] at hp
    split at hp
    · rename_i hi
      exact hi ▸ hparent p hp
    · exact ih hp
  | define x v _ _ ih =>
    rw [parent?_define] at hp
    exact ih hp
  | assign _ _ hs' ih =>
    obtain ⟨j, rfl⟩ := exists_of_assign hs'
    rw [parent?_define] at hp
    exact ih hp
  | assignAt _ _ hs' ih =>
    obtain ⟨j, rfl⟩ := exists_of_assignAt hs'
    rw [parent?_define] at hp
    exact ih hp

theorem Built.ancestor?_eq (hs : s.Built) (e : ScopeId) (d : Nat) :
    s.ancestor? e d = (s.path e)[d]? :=
  ancestor?_eq_getElem? (walk_path_of_lt (fun _ _ => hs.parent_lt) e) d

theorem Built.ancestor_eq_ok_iff (hs : s.Built) :
    s.ancestor e d = .ok j ↔ (s.path e)[d]? = some j := by
  rw [Scopes.ancestor_eq_ok_iff, hs.ancestor?_eq]

/-- The walk outwards finds a binder at the least distance. -/
theorem Built.binder?_eq_some_iff (hs : s.Built) :
    s.binder? e x = some j ↔ ∃ k, s.Nearest e x k j := by
  rw [binder?, List.find?_eq_some_iff_getElem]
  constructor
  · rintro ⟨hbinds, k, hk, hj, hleast⟩
    have hancestor : s.ancestor e k = .ok j :=
      hs.ancestor_eq_ok_iff.2 (List.getElem?_eq_some_iff.2 ⟨hk, hj⟩)
    refine ⟨k, hancestor, hbinds, fun d i hi hbound => ?_⟩
    obtain ⟨hd, rfl⟩ := List.getElem?_eq_some_iff.1 (hs.ancestor_eq_ok_iff.1 hi)
    by_contra hlt
    have hnone := hleast d (Nat.lt_of_not_le hlt)
    rw [hbound] at hnone
    cases hnone
  · rintro ⟨k, hancestor, hbinds, hleast⟩
    obtain ⟨hk, hj⟩ := List.getElem?_eq_some_iff.1 (hs.ancestor_eq_ok_iff.1 hancestor)
    refine ⟨hbinds, k, hk, hj, fun d hd => ?_⟩
    have hd' : d < (s.path e).length := Nat.lt_trans hd hk
    have hi : s.ancestor e d = .ok (s.path e)[d] :=
      hs.ancestor_eq_ok_iff.2 (List.getElem?_eq_getElem hd')
    cases hbound : (s.local? (s.path e)[d] x).isSome with
    | false => rfl
    | true => exact absurd (hleast d _ hi hbound) (Nat.not_le_of_lt hd)

/-- The walk outwards finds nothing where no scope binds the name. -/
theorem Built.binder?_eq_none (hs : s.Built) (h : s.Unbound e x) : s.binder? e x = none := by
  cases hj : s.binder? e x with
  | none => rfl
  | some j =>
    obtain ⟨k, hk⟩ := hs.binder?_eq_some_iff.1 hj
    have hbinds := hk.binds
    rw [h k j hk.ancestor] at hbinds
    cases hbinds

/-! ## Changes -/

theorem outward_define (s : Scopes) (i : ScopeId) (x : String) (v : Value) (n : Nat) (e : ScopeId) :
    (s.define i x v).outward n e = s.outward n e := by
  induction n generalizing e with
  | zero => rfl
  | succ n ih =>
    rw [outward, outward, parent?_define]
    cases s.parent? e with
    | none => rfl
    | some p => simp [ih]

/-- Changing a binding changes no binder. -/
theorem binder?_define (h : (s.local? j x).isSome) (v : Value) (e : ScopeId) (y : String) :
    (s.define j x v).binder? e y = s.binder? e y := by
  have hbound : ∀ i, ((s.define j x v).local? i y).isSome = (s.local? i y).isSome := by
    intro i
    rw [local?_define]
    split
    · rename_i hsame
      obtain ⟨rfl, rfl, -⟩ := hsame
      rw [h]
      rfl
    · rfl
  simp only [binder?, path, outward_define, hbound]

/-- Changing a binding changes the lookups that end at it, and no others. -/
theorem lookup_define (h : (s.local? j x).isSome) (v : Value) (e : ScopeId) (t : Token) :
    (s.define j x v).lookup e t =
      if t.lexeme = x ∧ s.binder? e x = some j then .ok v else s.lookup e t := by
  obtain ⟨w, hw⟩ := Option.isSome_iff_exists.1 h
  rw [lookup_eq, lookup_eq, binder?_define h]
  by_cases hx : t.lexeme = x
  · subst hx
    cases hb : s.binder? e t.lexeme with
    | none => simp
    | some b =>
      by_cases hbj : b = j
      · subst hbj
        simp [local?_define_self (lt_next_of_local? hw)]
      · simp [local?_define_of_ne s j b t.lexeme t.lexeme v (.inl (Ne.symm hbj)), hbj]
  · rw [if_neg fun hsame => hx hsame.1]
    simp only [local?_define_of_ne s j _ x t.lexeme v (.inr (Ne.symm hx))]

namespace Nearest

theorem lookup (hs : s.Built) (h : s.Nearest e t.lexeme k j) :
    ∃ w, s.lookup e t = .ok w ∧ s.getAt e k t.lexeme = .ok w := by
  obtain ⟨w, hw⟩ := Option.isSome_iff_exists.1 h.binds
  refine ⟨w, ?_, getAt_eq h.ancestor hw⟩
  rw [lookup_eq, hs.binder?_eq_some_iff.2 ⟨k, h⟩, Option.bind_some, hw]
  rfl

theorem assign (hs : s.Built) (h : s.Nearest e t.lexeme k j) (v : Value) :
    s.assign e t v = .ok (s.define j t.lexeme v) := by
  rw [Scopes.assign, binder, hs.binder?_eq_some_iff.2 ⟨k, h⟩]
  rfl

end Nearest

/-! ## The two ways -/

/-- As many steps outwards can be made as there are scopes around a scope. -/
theorem Built.ancestor_iff (hs : s.Built) (e : ScopeId) :
    ∃ around, Walk s.parent? e (e :: around) ∧ s.depth e = around.length ∧
      ∀ d : Int, (∃ j, s.ancestor e (steps d) = .ok j) ↔ d ≤ around.length := by
  obtain ⟨around, hpath⟩ : ∃ around, s.path e = e :: around := ⟨_, rfl⟩
  have hwalk : Walk s.parent? e (s.path e) := walk_path_of_lt (fun _ _ => hs.parent_lt) e
  have hdepth : s.depth e = around.length := by
    rw [depth, hpath]
    rfl
  refine ⟨around, hpath ▸ hwalk, hdepth, fun d => ?_⟩
  have hlt : (∃ j, s.ancestor e (steps d) = .ok j) ↔ steps d < (s.path e).length := by
    simp only [hs.ancestor_eq_ok_iff, List.getElem?_eq_some_iff]
    exact ⟨fun ⟨_, h, _⟩ => h, fun h => ⟨_, h, rfl⟩⟩
  rw [hlt, hpath, List.length_cons, steps]
  omega

/-- **The two ways to a variable agree.** Where the nearest scope that binds a name is `j`, at the
distance `k`, the name has the value that is read at the distance `k`. Changing it by name and by
that distance comes to the same store. There, the scope `j` binds the name to the new value; nothing
else about any scope is different. So the name has the new value in all scopes whose nearest binder
is `j`, and every other lookup gives what it gave. Where no scope on the chain binds the name, it
can neither be read nor changed, and no new store comes out. A scope at a distance is there exactly
if the distance is at most the number of scopes around. -/
theorem by_name_eq_by_distance (hs : s.Built) (e : ScopeId) (t : Token) (v : Value) :
    (∀ k j, s.Nearest e t.lexeme k j →
      (∃ w, s.lookup e t = .ok w ∧ s.getAt e k t.lexeme = .ok w) ∧
      ∃ s', s.assign e t v = .ok s' ∧ s.assignAt e k t.lexeme v = .ok s' ∧
        s'.next = s.next ∧ (∀ i, s'.parent? i = s.parent? i) ∧
        (∀ i y, s'.local? i y = if i = j ∧ y = t.lexeme then some v else s.local? i y) ∧
        ∀ e' t', ((t'.lexeme = t.lexeme ∧ ∃ k', s.Nearest e' t.lexeme k' j) →
          s'.lookup e' t' = .ok v) ∧
          (¬ (t'.lexeme = t.lexeme ∧ ∃ k', s.Nearest e' t.lexeme k' j) →
          s'.lookup e' t' = s.lookup e' t')) ∧
    (s.Unbound e t.lexeme →
      s.lookup e t = .error (undefined t) ∧ s.assign e t v = .error (undefined t) ∧
        (undefined t).message = "Undefined variable '" ++ t.lexeme ++ "'.") ∧
    ∃ around, Walk s.parent? e (e :: around) ∧ s.depth e = around.length ∧
      ∀ d : Int, (∃ j, s.ancestor e (steps d) = .ok j) ↔ d ≤ around.length := by
  refine ⟨fun k j h =>
    ⟨h.lookup hs, s.define j t.lexeme v, h.assign hs v, assignAt_eq h.ancestor _ _,
    next_define .., fun i => parent?_define .., fun i y => ?_, fun e' t' => ?_⟩,
      fun h => ?_, hs.ancestor_iff e⟩
  · obtain ⟨w, hw⟩ := Option.isSome_iff_exists.1 h.binds
    have hj := lt_next_of_local? hw
    rw [local?_define]
    by_cases hpair : i = j ∧ y = t.lexeme
    · rw [if_pos ⟨hpair.1.symm, hpair.2.symm, hj⟩, if_pos hpair]
    · rw [if_neg fun hsame => hpair ⟨hsame.1.symm, hsame.2.1.symm⟩, if_neg hpair]
  · rw [lookup_define h.binds, ← hs.binder?_eq_some_iff]
    exact ⟨fun hends => if_pos hends, fun hends => if_neg hends⟩
  · have hnone := hs.binder?_eq_none h
    refine ⟨?_, ?_, rfl⟩
    · rw [lookup_eq, hnone]
      rfl
    · rw [assign, binder, hnone]
      rfl

/-- Two scopes side by side in one that binds `a`. The second binds it again and has a scope
inside. -/
def siblings : Scopes :=
  (((((Scopes.empty.add none .empty).define 0 "a" (.bool true)).add (some 0) .empty).add (some 0)
    .empty).define 2 "a" (.bool false)).add (some 2) .empty

theorem by_name_eq_by_distance_siblings :
    let a : Token := ⟨.identifier, "a", 1, 0⟩
    siblings.Built ∧ siblings.Nearest 3 "a" 1 2 ∧
      ∃ s', siblings.assign 3 a .nil = .ok s' ∧ siblings.assignAt 3 1 "a" .nil = .ok s' ∧
        s'.lookup 3 a = .ok .nil ∧ s'.lookup 2 a = .ok .nil ∧ s'.lookup 1 a = .ok (.bool true) := by
  intro a
  have hbuilt : siblings.Built := by
    refine .add (.define _ _ (.add (.add (.define _ _ (.add .empty ?_) ?_) ?_) ?_) ?_) ?_
    all_goals decide
  have hnearest : siblings.Nearest 3 "a" 1 2 := by
    refine ⟨rfl, rfl, fun d i hi hbound => ?_⟩
    cases d with
    | zero =>
      cases hi
      cases hbound
    | succ d => omega
  obtain ⟨-, s', hname, hdistance, -, -, -, hlookup⟩ :=
    (by_name_eq_by_distance hbuilt 3 a .nil).1 1 2 hnearest
  refine ⟨hbuilt, hnearest, s', hname, hdistance, (hlookup 3 a).1 ⟨rfl, 1, hnearest⟩, ?_, ?_⟩
  · exact (hlookup 2 a).1 ⟨rfl, 0, rfl, rfl, fun d _ _ _ => Nat.zero_le d⟩
  · refine (hlookup 1 a).2 ?_
    rintro ⟨-, k', hk', -, -⟩
    match k' with
    | 0 => cases hk'
    | 1 => cases hk'
    | k' + 2 => cases hk'

end Lox.Scopes
