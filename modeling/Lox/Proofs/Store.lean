import Lox.Environment
import Mathlib.Tactic.ByContra

/-!
# The store of scopes

What adding a scope and binding a name do to the store. Scopes are only added and names only bound
(`Scopes.Extends`): a scope keeps its parent and its names for good, and only what a name is bound
to changes.
-/

namespace Lox

namespace Scopes

variable (s : Scopes) (i j : ScopeId) (x y : String) (v : Value)

theorem next_add (p : Option ScopeId) (b : Bindings Value) : (s.add p b).next = s.next + 1 := by
  simp [next, add]

theorem parent?_add (p : Option ScopeId) (b : Bindings Value) :
    (s.add p b).parent? j = if j = s.next then p else s.parent? j := by
  unfold parent? add next
  rw [Array.getElem?_push]
  split <;> rfl

theorem local?_add (p : Option ScopeId) (b : Bindings Value) :
    (s.add p b).local? j x = if j = s.next then b.get? x else s.local? j x := by
  unfold local? add next
  rw [Array.getElem?_push]
  split <;> rfl

theorem next_define : (s.define i x v).next = s.next := by
  simp [next, define]

theorem parent?_define : (s.define i x v).parent? j = s.parent? j := by
  unfold parent? define
  rw [Array.getElem?_modify]
  split
  · cases s.all[j]? <;> rfl
  · rfl

theorem local?_define_of_ne (h : i ≠ j ∨ x ≠ y) : (s.define i x v).local? j y = s.local? j y := by
  unfold local? define
  rw [Array.getElem?_modify]
  split
  · have hxy : y ≠ x := by rcases h with h | h <;> grind
    cases s.all[j]? <;> simp [hxy]
  · rfl

variable {s i j x y v}

theorem local?_define_self (h : i < s.next) : (s.define i x v).local? i x = some v := by
  have hi : i < s.all.size := h
  unfold local? define
  rw [Array.getElem?_modify, if_pos rfl, Array.getElem?_eq_getElem hi]
  simp

theorem local?_define (s : Scopes) (i j : ScopeId) (x y : String) (v : Value) :
    (s.define i x v).local? j y = if i = j ∧ x = y ∧ i < s.next then some v else s.local? j y := by
  by_cases hne : i ≠ j ∨ x ≠ y
  · rw [local?_define_of_ne s i j x y v hne, if_neg (by grind)]
  · obtain ⟨rfl, rfl⟩ : i = j ∧ x = y := by grind
    by_cases hi : i < s.next
    · rw [local?_define_self hi, if_pos ⟨rfl, rfl, hi⟩]
    · have houtside : s.all.size ≤ i := Nat.le_of_not_lt hi
      rw [if_neg (fun h => hi h.2.2)]
      simp [local?, define, houtside]

/-- What is bound after a scope was added was bound before or came with the scope. -/
theorem of_local?_add {p : Option ScopeId} {b : Bindings Value}
    (h : (s.add p b).local? j x = some v) :
    b.get? x = some v ∨ s.local? j x = some v := by
  rw [local?_add] at h
  split at h
  · exact .inl h
  · exact .inr h

theorem of_local?_define {w : Value} (h : (s.define i x v).local? j y = some w) :
    w = v ∨ s.local? j y = some w := by
  rw [local?_define] at h
  split at h
  · cases h
    exact .inl rfl
  · exact .inr h

theorem lt_next_of_parent? {p : ScopeId} (h : s.parent? i = some p) : i < s.next := by
  unfold parent? at h
  by_contra hi
  rw [Array.getElem?_eq_none (Nat.le_of_not_lt hi)] at h
  cases h

theorem lt_next_of_local? (h : s.local? i x = some v) : i < s.next := by
  unfold local? at h
  by_contra hi
  rw [Array.getElem?_eq_none (Nat.le_of_not_lt hi)] at h
  cases h

theorem isSome_local?_define (h : (s.local? j y).isSome) :
    ((s.define i x v).local? j y).isSome := by
  by_cases hne : i ≠ j ∨ x ≠ y
  · rwa [local?_define_of_ne s i j x y v hne]
  · obtain ⟨rfl, rfl⟩ : i = j ∧ x = y := by grind
    obtain ⟨w, hw⟩ := Option.isSome_iff_exists.1 h
    rw [local?_define_self (lt_next_of_local? hw)]
    rfl

/-- Looking up a name by walking outwards is reading it in its binder. -/
theorem lookup_eq (s : Scopes) (i : ScopeId) (t : Token) :
    s.lookup i t = ((s.binder? i t.lexeme).bind fun j => s.local? j t.lexeme).elim
      (.error (undefined t)) .ok := by
  have hfind : ∀ l : List ScopeId, (l.findSome? fun j => s.local? j t.lexeme) =
      (l.find? fun j => (s.local? j t.lexeme).isSome).bind fun j => s.local? j t.lexeme := by
    intro l
    induction l with
    | nil => rfl
    | cons j l ih =>
      rw [List.findSome?_cons, List.find?_cons]
      cases hj : s.local? j t.lexeme with
      | none => simpa using ih
      | some v => simp [hj]
  unfold lookup binder?
  rw [hfind]
  generalize Option.bind _ (fun j => s.local? j t.lexeme) = o
  cases o <;> rfl

/-- What is read at a distance is bound in the scope there. -/
theorem local?_of_getAt {d : Nat} (h : s.getAt i d x = .ok v) :
    ∃ j, s.ancestor? i d = some j ∧ s.local? j x = some v := by
  unfold getAt ancestor at h
  cases hj : s.ancestor? i d with
  | none =>
    rw [hj] at h
    cases h
  | some j =>
    rw [hj] at h
    cases hv : s.local? j x with
    | none =>
      simp only [bind, Except.bind, hv] at h
      cases h
    | some w =>
      simp only [bind, Except.bind, hv] at h
      cases h
      exact ⟨j, rfl, hv⟩

/-- What is found by name is bound in some scope. -/
theorem local?_of_lookup {t : Token} (h : s.lookup i t = .ok v) :
    ∃ j, s.local? j t.lexeme = some v := by
  unfold lookup at h
  split at h
  · rename_i w hw
    cases h
    obtain ⟨j, -, hj⟩ := List.exists_of_findSome?_eq_some hw
    exact ⟨j, hj⟩
  · cases h

/-! ## Growing stores -/

/-- Scopes were added and names bound, and nothing was taken away. -/
structure Extends (s s' : Scopes) : Prop where
  next : s.next ≤ s'.next
  parent : ∀ i, i < s.next → s'.parent? i = s.parent? i
  bound : ∀ i x, (s.local? i x).isSome → (s'.local? i x).isSome

namespace Extends

variable {s s' s'' : Scopes}

theorem refl (s : Scopes) : s.Extends s := ⟨Nat.le_refl _, fun _ _ => rfl, fun _ _ => id⟩

theorem trans (h : s.Extends s') (h' : s'.Extends s'') : s.Extends s'' where
  next := Nat.le_trans h.next h'.next
  parent i hi := (h'.parent i (Nat.lt_of_lt_of_le hi h.next)).trans (h.parent i hi)
  bound i x hx := h'.bound i x (h.bound i x hx)

theorem add (s : Scopes) (p : Option ScopeId) (b : Bindings Value) : s.Extends (s.add p b) where
  next := by
    rw [next_add]
    exact Nat.le_succ _
  parent i hi := by rw [parent?_add, if_neg (Nat.ne_of_lt hi)]
  bound i x hx := by
    obtain ⟨v, hv⟩ := Option.isSome_iff_exists.1 hx
    rwa [local?_add, if_neg (Nat.ne_of_lt (lt_next_of_local? hv))]

theorem define (s : Scopes) (i : ScopeId) (x : String) (v : Value) :
    s.Extends (s.define i x v) where
  next := Nat.le_of_eq (next_define s i x v).symm
  parent j _ := parent?_define s i j x v
  bound _ _ := isSome_local?_define

theorem ancestor? (h : s.Extends s') {i j : ScopeId} {d : Nat} (hj : s.ancestor? i d = some j) :
    s'.ancestor? i d = some j := by
  induction d generalizing i with
  | zero => exact hj
  | succ d ih =>
    obtain ⟨p, hp, hj⟩ := Option.bind_eq_some_iff.1 hj
    have hp' := (h.parent i (lt_next_of_parent? hp)).trans hp
    exact Option.bind_eq_some_iff.2 ⟨p, hp', ih hj⟩

end Extends
end Scopes
end Lox
