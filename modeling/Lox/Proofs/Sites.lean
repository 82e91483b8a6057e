import Lox.Proofs.Lexemes
import Lox.Distances
import Mathlib.Data.List.Nodup
import Mathlib.Data.List.Range

/-!
# Sites

The tokens of a text have consecutive sites, so that no two references share one. `Recorded T f
refs` says of a table of distances that it holds what was found for the references `refs` and
nothing else. `recorded_recordAll` establishes it for the table of a machine, and `Recorded.left`
and `Recorded.right` hand it down to the parts of a program.
-/

namespace Lox

/-- Identifiers are not spelled like the keywords that name implicit variables. -/
def Token.Spelled (t : Token) : Prop :=
  (t.kind = .identifier → t.lexeme ≠ "this" ∧ t.lexeme ≠ "super") ∧
  (t.kind = .thisKw → t.lexeme = "this") ∧ (t.kind = .superKw → t.lexeme = "super")

theorem spelled_of_isKindOfWord {t : Token} (h : IsKindOfWord t.lexeme t.kind) : t.Spelled := by
  refine ⟨fun hk => ?_, fun hk => ?_, fun hk => ?_⟩ <;> rw [hk] at h <;>
    rcases h with h | ⟨h, hnot⟩
  · simp [Kind.keywords] at h
  · exact ⟨fun hx => hnot .thisKw (by rw [hx]; decide),
      fun hx => hnot .superKw (by rw [hx]; decide)⟩
  · simpa [Kind.keywords] using h
  · simp at h
  · simpa [Kind.keywords] using h
  · simp at h

/-- A token is an operator, a numeral, a string or a word. -/
theorem Scan.sort_of_mem {site : Nat} {source : String} {t : Token}
    (ht : t ∈ (scan site source).tokens) :
    (∃ w, (w, t.kind) ∈ operators) ∨ (t.kind = .number ∨ t.kind = .string) ∨
      IsKindOfWord t.lexeme t.kind := by
  obtain ⟨cs, w, hpiece, hw⟩ := Scan.piece_of_mem_tokens ht
  generalize hs : Segment.token t.kind w = s at hpiece
  cases hpiece with
  | operator _ hk _ =>
    obtain ⟨hkind, rfl⟩ : t.kind = _ ∧ w = _ := by simpa using hs
    exact .inl ⟨w, hkind ▸ hk⟩
  | number => exact .inr (.inl (.inl (Segment.token.inj hs).1))
  | string => exact .inr (.inl (.inr (Segment.token.inj hs).1))
  | word _ hk =>
    obtain ⟨hkind, rfl⟩ : t.kind = _ ∧ w = _ := by simpa using hs
    exact .inr (.inr (by rwa [hkind, hw]))
  | _ => cases hs

theorem Scan.spelled_of_mem {site : Nat} {source : String} {t : Token}
    (ht : t ∈ (scan site source).tokens) : t.Spelled := by
  rcases Scan.sort_of_mem ht with ⟨w, hk⟩ | hk | hk
  · refine ⟨fun h => ?_, fun h => ?_, fun h => ?_⟩ <;> rw [h] at hk <;> simp [operators] at hk
  · refine ⟨fun h => ?_, fun h => ?_, fun h => ?_⟩ <;> rw [h] at hk <;> simp at hk
  · exact spelled_of_isKindOfWord hk

theorem Scan.kind_ne_eof {k : Nat} {source : String} {t : Token} (ht : t ∈ (scan k source).tokens) :
    t.kind ≠ .eof := by
  intro h
  rcases Scan.sort_of_mem ht with ⟨w, hk⟩ | hk | hk | ⟨hk, -⟩
  · rw [h] at hk
    simp [operators] at hk
  · simp [h] at hk
  · rw [h] at hk
    simp [Kind.keywords] at hk
  · simp [h] at hk

/-- No identifier is spelled like a keyword. -/
theorem Scan.not_keyword {site : Nat} {source : String} {t : Token}
    (ht : t ∈ (scan site source).tokens) (h : t.kind = .identifier) (k : Kind) :
    (t.lexeme, k) ∉ Kind.keywords := by
  rcases Scan.sort_of_mem ht with ⟨w, hk⟩ | hk | hk | ⟨-, hnot⟩
  · rw [h] at hk
    simp [operators] at hk
  · simp [h] at hk
  · rw [h] at hk
    simp [Kind.keywords] at hk
  · exact hnot k

theorem Scan.sites_tokensOf (line site : Nat) (ss : List Segment) :
    (tokensOf line site ss).map Token.site = List.range' site (tokensOf line site ss).length := by
  induction ss generalizing line site with
  | nil => rfl
  | cons s ss ih =>
    cases s with
    | token k w => simp [tokensOf, ih, List.range'_succ]
    | _ => exact ih _ _

theorem Scan.sites_tokens (site : Nat) (source : String) :
    (scan site source).tokens.map Token.site = List.range' site (scan site source).tokens.length :=
  sites_tokensOf 1 site _

theorem Scan.nodup_sites (site : Nat) (source : String) :
    ((scan site source).tokens.map Token.site).Nodup := by
  rw [sites_tokens]
  exact List.nodup_range'

theorem Scan.site_of_mem {site : Nat} {source : String} {t : Token}
    (ht : t ∈ (scan site source).tokens) :
    site ≤ t.site ∧ t.site < site + (scan site source).tokens.length := by
  have hmem : t.site ∈ (scan site source).tokens.map Token.site := List.mem_map_of_mem ht
  rw [sites_tokens, List.mem_range'_1] at hmem
  exact hmem

/-- Which distance the reference at a site has, `none` for a global. -/
abbrev SiteTable := Nat → Option Nat → Prop

def Resolution.node (r : Resolution) : Reference × Token := (r.reference, r.token)

/-- The table holds what was found for the references, and that the others have none. -/
structure Recorded (T : SiteTable) (f : Findings) (refs : List (Reference × Token)) : Prop where
  found : ∀ r ∈ f.resolutions, T r.token.site (some r.distance)
  missing : ∀ p ∈ refs, (∀ r ∈ f.resolutions, r.node ≠ p) → T p.2.site none

/-- Nothing was found but for the given references, and that in their order. -/
def Findings.Within (f : Findings) (refs : List (Reference × Token)) : Prop :=
  (f.resolutions.map Resolution.node).Sublist refs

theorem Findings.Within.append {f g : Findings} {refs refs' : List (Reference × Token)}
    (hf : f.Within refs) (hg : g.Within refs') : (f ++ g).Within (refs ++ refs') := by
  rw [Within, resolutions_append, List.map_append]
  exact List.Sublist.append hf hg

theorem Findings.Within.mem {f : Findings} {refs : List (Reference × Token)} (hf : f.Within refs)
    {r : Resolution} (hr : r ∈ f.resolutions) : r.node ∈ refs :=
  List.Sublist.mem (List.mem_map_of_mem hr) hf

/-- Errors alone need no references. -/
theorem Findings.within_of_nil {f : Findings} (h : f.resolutions = [])
    (refs : List (Reference × Token)) :
    f.Within refs := by
  rw [Within, h]
  exact List.nil_sublist refs

section

variable {T : SiteTable} {f g : Findings} {refs refs' : List (Reference × Token)}

theorem Recorded.left (h : Recorded T (f ++ g) (refs ++ refs')) (hn : (refs ++ refs').Nodup)
    (hg : g.Within refs') : Recorded T f refs where
  found r hr := h.found r (List.mem_append_left _ hr)
  missing t ht hnone := by
    refine h.missing t (List.mem_append_left _ ht) fun r hr => ?_
    rcases List.mem_append.1 hr with hr | hr
    · exact hnone r hr
    · rintro rfl
      exact hn.disjoint ht (hg.mem hr)

theorem Recorded.right (h : Recorded T (f ++ g) (refs ++ refs')) (hn : (refs ++ refs').Nodup)
    (hf : f.Within refs) : Recorded T g refs' where
  found r hr := h.found r (List.mem_append_right _ hr)
  missing t ht hnone := by
    refine h.missing t (List.mem_append_right _ ht) fun r hr => ?_
    rcases List.mem_append.1 hr with hr | hr
    · rintro rfl
      exact hn.disjoint (hf.mem hr) ht
    · exact hnone r hr

/-- What is found without any reference can be left out. -/
theorem Recorded.of_errors (h : Recorded T (f ++ g) refs) (hf : f.resolutions = []) :
    Recorded T g refs := by
  constructor
  · intro r hr
    exact h.found r (by simp [hr])
  · intro t ht hnone
    exact h.missing t ht (by simpa [hf] using hnone)

end

/-! ## The table of a machine -/

namespace Distances

theorem find?_recordAll_of_not_mem (rs : List Resolution) (d : Distances) {site : Nat}
    (h : ∀ r ∈ rs, r.token.site ≠ site) : (d.recordAll rs).find? site = d.find? site := by
  induction rs generalizing d with
  | nil => rfl
  | cons r rs ih =>
    show ((d.record r).recordAll rs).find? site = _
    rw [ih _ fun r' hr' => h r' (by simp [hr']), find?_record, if_neg (h r (by simp))]

theorem find?_recordAll_of_mem {rs : List Resolution} (d : Distances) {r : Resolution}
    (hr : r ∈ rs) (hn : (rs.map fun r => r.token.site).Nodup) :
    (d.recordAll rs).find? r.token.site = some r.distance := by
  induction rs generalizing d with
  | nil => simp at hr
  | cons r' rs ih =>
    rw [List.map_cons, List.nodup_cons] at hn
    show ((d.record r').recordAll rs).find? _ = _
    rcases List.mem_cons.1 hr with rfl | hr
    · have hnot : ∀ r' ∈ rs, r'.token.site ≠ r.token.site := by
        intro r' hr' heq
        rw [← heq] at hn
        exact hn.1 (List.mem_map_of_mem hr')
      rw [find?_recordAll_of_not_mem rs _ hnot, find?_record, if_pos rfl]
    · exact ih _ hr hn.2

end Distances

/-- The findings for references whose sites are new. -/
theorem recorded_recordAll {d : Distances} {f : Findings} {refs : List (Reference × Token)}
    {k : Nat} (hf : f.Within refs) (hn : (refs.map fun p => p.2.site).Nodup)
    (hnew : ∀ p ∈ refs, d.find? p.2.site = none) (hlt : ∀ p ∈ refs, p.2.site < k) :
    Recorded (fun s o => s < k ∧ (d.recordAll f.resolutions).find? s = o) f refs := by
  have hsub : (f.resolutions.map fun r => r.token.site).Sublist (refs.map fun p => p.2.site) := by
    have hmap := hf.map fun p => p.2.site
    rwa [List.map_map] at hmap
  constructor
  · intro r hr
    exact ⟨hlt _ (hf.mem hr), Distances.find?_recordAll_of_mem d hr (hsub.nodup hn)⟩
  · intro p hp hnone
    refine ⟨hlt p hp, ?_⟩
    rw [Distances.find?_recordAll_of_not_mem, hnew p hp]
    intro r hr heq
    exact hnone r hr (List.inj_on_of_nodup_map hn (hf.mem hr) hp heq)

end Lox
