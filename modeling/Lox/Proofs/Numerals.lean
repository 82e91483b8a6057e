import Lox.Eval
import Lox.Proofs.Doubles
import Lox.Proofs.Lookahead
import Lox.Proofs.PhraseAcceptance

/-!
# Printed numbers read back

The text of a number is read as that number again, for zeros and for magnitudes from `10 ^ -4` on
and below `10 ^ 21`. Whole numbers are written with all their digits. The others are written as
their shortest decimal: it reads back (`Neighbour.nearest`) and its leading digit is where no
exponent is needed (`Neighbour.le_leading`, `Neighbour.leading_lt`). So both texts are numerals
(`Layout.magnitude_spec`), and a numeral denotes what `Number.read` makes of it, with its sign put
in front as an operator (`denotes_numeral`, `denotes_minus_numeral`).
-/

namespace Lox

open Binary64 hiding one_pos

/-! ## Decimals -/

namespace Decimal

theorem ratio_pos (d : Decimal) : 0 < d.ratio.2 := by
  unfold ratio
  split
  · exact Nat.one_pos
  · exact Nat.pow_pos (by decide)

theorem nearest_congr {d d' : Decimal} (h : d.ratio = d'.ratio) : d.nearest = d'.nearest := by
  rw [nearest, nearest, h]

theorem nearest_of_digits_eq_zero {d : Decimal} (h : d.digits = 0) : d.nearest = 0 := by
  have hnum : d.ratio.1 = 0 := by
    unfold ratio
    split <;> simp only [h, Nat.zero_mul]
  have hzero : multiple 0 = 0 := rfl
  exact nearest_of_eq d.ratio_pos (by decide) (by rw [hnum, hzero, Nat.zero_mul, Nat.zero_mul])

/-- The digits of a magnitude from `10 ^ -4` on. -/
theorem pow_le_digits_below {b : Nat} (h : one ≤ multiple b * 10 ^ 4) (k : Nat) :
    10 ^ k ≤ (below b (.negSucc (k + 3))).digits := by
  show 10 ^ k ≤ multiple b * 10 ^ (k + 4) / one
  rw [Nat.le_div_iff_mul_le Binary64.one_pos, Nat.pow_add, Nat.mul_left_comm]
  exact Nat.mul_le_mul_left _ h

theorem digits_below_lt {b k : Nat} {g : Int} (h : multiple b < 10 ^ 16 * one) (hk : g + k = 16) :
    (below b g).digits < 10 ^ k := by
  cases g with
  | ofNat e =>
    replace hk : (e : Int) + k = 16 := hk
    have hpow : 10 ^ k * 10 ^ e = 10 ^ 16 := by
      rw [← Nat.pow_add]
      exact congrArg (10 ^ ·) (by omega)
    show multiple b / (one * 10 ^ e) < _
    rw [Nat.div_lt_iff_lt_mul (Nat.mul_pos Binary64.one_pos (Nat.pow_pos (by decide))),
      Nat.mul_left_comm, hpow, Nat.mul_comm]
    exact h
  | negSucc e =>
    obtain rfl : k = 16 + (e + 1) := by omega
    show multiple b * 10 ^ (e + 1) / one < _
    rw [Nat.div_lt_iff_lt_mul Binary64.one_pos, Nat.pow_add 10 16]
    generalize one = u at h ⊢
    rw [Nat.mul_right_comm]
    exact Nat.mul_lt_mul_of_pos_right h (Nat.pow_pos (by decide))

def tenTo16 : Nat := 0x4341C37937E08000

def tenTo21 : Nat := 0x444B1AE4D6E2EF50

/-- The bits of the double nearest to `10 ^ -4`, which is a little more. -/
def tenToMinus4 : Nat := 0x3F1A36E2EB1C432D

theorem nearest_of_eq_pow {d : Decimal} {k : Nat} (hk : d.exponent + k = 16)
    (hd : d.digits = 10 ^ k) :
    d.nearest = tenTo16 := by
  have hratio : d.ratio.1 = 10 ^ 16 * d.ratio.2 := by
    unfold ratio
    split
    · rename_i e he
      have he' : d.exponent = e := he
      show d.digits * 10 ^ e = 10 ^ 16 * 1
      rw [hd, ← Nat.pow_add, Nat.mul_one]
      exact congrArg (10 ^ ·) (by omega)
    · rename_i e he
      show d.digits = 10 ^ 16 * 10 ^ (e + 1)
      rw [hd, ← Nat.pow_add]
      exact congrArg (10 ^ ·) (by omega)
  refine nearest_of_eq d.ratio_pos (by decide) ?_
  have hmultiple : multiple tenTo16 = 10 ^ 16 * one := by decide +kernel
  rw [hratio, hmultiple, Nat.mul_right_comm]

theorem roof_le {b : Nat} (h : scale b < 1074) : roof b ≤ 16 := by
  have hlog := log2_multiple b
  unfold roof
  omega

theorem of_choose {p q : Bool} {o : Ordering} {lo hi d : Decimal}
    (h : choose p q o lo hi = some d) :
    p = true ∧ d = lo ∨ q = true ∧ d = hi := by
  cases p <;> cases q
  · cases h
  · exact .inr ⟨rfl, (Option.some.inj h).symm⟩
  · exact .inl ⟨rfl, (Option.some.inj h).symm⟩
  · have hd : d = lo ∨ d = hi := by
      cases o with
      | lt => exact .inl (Option.some.inj h).symm
      | gt => exact .inr (Option.some.inj h).symm
      | eq =>
        have hd := Option.some.inj h
        split at hd
        · exact .inl hd.symm
        · exact .inr hd.symm
    exact hd.imp (⟨rfl, ·⟩) (⟨rfl, ·⟩)

/-- One of the two multiples of a power of ten around the magnitude `b`, and it is read as `b`. -/
structure Neighbour (b : Nat) (d : Decimal) : Prop where
  nearest : d.nearest = b
  digits : d.digits = (below b d.exponent).digits ∨ d.digits = (below b d.exponent).digits + 1

theorem of_hit? {b : Nat} {g : Int} {d : Decimal} (h : hit? b g = some d) :
    Neighbour b d ∧ d.exponent = g := by
  rw [hit?] at h
  rcases of_choose h with ⟨hread, rfl⟩ | ⟨hread, rfl⟩
  · exact ⟨⟨beq_iff_eq.1 hread, .inl rfl⟩, rfl⟩
  · exact ⟨⟨beq_iff_eq.1 hread, .inr rfl⟩, rfl⟩

/-- On a fine grid nothing is cut off. -/
theorem nearest_below {b e : Nat} (hb : b < infinityBits) (he : one ∣ Nat.pow 10 (e + 1)) :
    (below b (.negSucc e)).nearest = b := by
  have hdigits : (below b (.negSucc e)).digits * one = multiple b * Nat.pow 10 (e + 1) :=
    Nat.div_mul_cancel (Nat.dvd_mul_left_of_dvd he _)
  exact nearest_of_eq (ratio_pos _) hb hdigits

theorem exact_eq_below (b : Nat) : exact b = below b (.negSucc 1073) := by
  have hten : Nat.pow 10 (1073 + 1) = Nat.pow 5 1074 * one := by decide +kernel
  unfold exact below
  dsimp only
  rw [hten]
  generalize Nat.pow 5 1074 = five
  rw [← Nat.mul_assoc, Nat.mul_div_cancel _ Binary64.one_pos]
  rfl

theorem shortest_spec {b : Nat} (hb : b < infinityBits) :
    Neighbour b (shortest b) ∧
      ((shortest b).exponent ≤ roof b ∨ (shortest b).exponent = .negSucc 1073) := by
  unfold shortest
  cases h : (List.range 24).findSome? fun (i : Nat) => hit? b (roof b - i) with
  | some d =>
    obtain ⟨i, -, hi⟩ := List.exists_of_findSome?_eq_some h
    obtain ⟨hd, hexponent⟩ := of_hit? hi
    exact ⟨hd, .inl (by rw [Option.getD_some]; omega)⟩
  | none =>
    have hfine : one ∣ Nat.pow 10 (1073 + 1) := by decide +kernel
    rw [Option.getD_none, exact_eq_below]
    exact ⟨⟨nearest_below hb hfine, .inl rfl⟩, .inr rfl⟩

/-- The weight of the leading digit, as a power of ten. -/
def leading (d : Decimal) : Int := d.exponent + (Nat.toDigits 10 d.digits).length - 1

theorem Neighbour.le_leading {b : Nat} {d : Decimal} (hd : Neighbour b d)
    (h : one ≤ multiple b * 10 ^ 4) :
    -4 ≤ d.leading := by
  by_contra hlt
  unfold leading at hlt
  have hlength := Nat.length_toDigits_pos (b := 10) (n := d.digits)
  obtain ⟨k, hk⟩ : ∃ k : Nat, d.exponent = .negSucc (k + 3) := ⟨(-4 - d.exponent).toNat, by omega⟩
  have hfew : d.digits < 10 ^ k :=
    (Nat.length_toDigits_le_iff (b := 10) (n := d.digits) (k := k) (by decide) (by omega)).1
      (by omega)
  have hmany := pow_le_digits_below h k
  have hdigits := hd.digits
  rw [hk] at hdigits
  omega

/-- Doubles with a fraction are below `10 ^ 16`. Their neighbours are, too: the upper one can only
get there by being `10 ^ 16`, and that is nearest to itself. -/
theorem Neighbour.leading_lt {b : Nat} {d : Decimal} (hd : Neighbour b d) (hb : b ≠ 0)
    (hscale : scale b < 1074) (hexponent : d.exponent ≤ 16) : d.leading < 16 := by
  obtain ⟨k, hk⟩ : ∃ k : Nat, d.exponent + k = 16 := ⟨(16 - d.exponent).toNat, by omega⟩
  have hmultiple : multiple b < 10 ^ 16 * one :=
    Nat.lt_of_lt_of_le (multiple_lt_of_scale_lt hscale) (Nat.mul_le_mul_right _ (by decide))
  have hbelow := digits_below_lt hmultiple hk
  have hne : d.digits ≠ 10 ^ k := by
    intro hpow
    rw [← hd.nearest, nearest_of_eq_pow hk hpow] at hscale
    exact absurd hscale (by decide)
  have hdigits := hd.digits
  have hlt : d.digits < 10 ^ k := by omega
  have hpos : 0 < k := by
    refine Nat.pos_of_ne_zero ?_
    rintro rfl
    exact hb (hd.nearest.symm.trans (nearest_of_digits_eq_zero (by omega)))
  have hlength := (Nat.length_toDigits_le_iff (by decide) hpos).2 hlt
  unfold leading
  omega

/-! ## Numerals -/

theorem ofNumeral_digits {ds : List Char} (h : '.' ∉ ds) :
    ofNumeral ds = ⟨Nat.ofDigitChars 10 ds 0, 0⟩ := by
  have hne : ∀ c ∈ ds, decide (c ≠ '.') = true := fun c hc => decide_eq_true fun heq => h (heq ▸ hc)
  unfold ofNumeral
  rw [List.filter_eq_self.2 hne, List.dropWhile_eq_nil_iff.2 hne]
  rfl

theorem ofNumeral_point {ds fs : List Char} (hds : '.' ∉ ds) (hfs : '.' ∉ fs) :
    ofNumeral (ds ++ '.' :: fs) = ⟨Nat.ofDigitChars 10 (ds ++ fs) 0, -fs.length⟩ := by
  have hne : ∀ {cs : List Char}, '.' ∉ cs → ∀ c ∈ cs, decide (c ≠ '.') = true :=
    fun h c hc => decide_eq_true fun heq => h (heq ▸ hc)
  have hfilter : (ds ++ '.' :: fs).filter (· ≠ '.') = ds ++ fs := by
    rw [List.filter_append, List.filter_cons_of_neg (by decide), List.filter_eq_self.2 (hne hds),
      List.filter_eq_self.2 (hne hfs)]
  have hdrop : (ds ++ '.' :: fs).dropWhile (· ≠ '.') = '.' :: fs := by
    rw [List.dropWhile_append_of_pos (hne hds)]
    rfl
  unfold ofNumeral
  rw [hfilter, hdrop]
  simp

end Decimal

theorem isDigit_of_mem_zeros {e : Nat} : ∀ c ∈ List.replicate e '0', isDigit c := by
  intro c hc
  rw [List.eq_of_mem_replicate hc]
  rfl

theorem isDigits_toDigits (n : Nat) : IsDigits (Nat.toDigits 10 n) :=
  ⟨Nat.toDigits_ne_nil, fun _ hc => Nat.isDigit_of_mem_toDigits (by decide) (by decide) hc⟩

namespace IsDigits

variable {ds fs : List Char}

theorem point_not_mem (h : IsDigits ds) : '.' ∉ ds := fun hmem => absurd (h.2 '.' hmem) (by decide)

theorem append_zeros (h : IsDigits ds) (e : Nat) : IsDigits (ds ++ List.replicate e '0') :=
  isDigits_append (List.append_ne_nil_of_left_ne_nil h.1 _) h.2 isDigit_of_mem_zeros

theorem zeros_append (h : IsDigits ds) (e : Nat) : IsDigits (List.replicate e '0' ++ ds) :=
  isDigits_append (List.append_ne_nil_of_right_ne_nil _ h.1) isDigit_of_mem_zeros h.2

theorem sublist (h : IsDigits ds) (hfs : fs.Sublist ds) (hne : fs ≠ []) : IsDigits fs :=
  ⟨hne, fun c hc => h.2 c (hfs.subset hc)⟩

end IsDigits

namespace Number.Layout

open Decimal

/-- A negative exponent puts a point among the digits, or zeros in front of them. -/
theorem positional_negSucc {ds : List Char} (hds : IsDigits ds) (e : Nat) :
    ∃ is fs, IsDigits is ∧ IsDigits fs ∧ value.positional ds (.negSucc e) = is ++ '.' :: fs ∧
      fs.length = e + 1 ∧ Nat.ofDigitChars 10 (is ++ fs) 0 = Nat.ofDigitChars 10 ds 0 := by
  unfold positional
  dsimp only
  split
  · rename_i h
    refine ⟨ds.take (ds.length - (e + 1)), ds.drop (ds.length - (e + 1)), ?_, ?_, rfl, ?_, ?_⟩
    · exact hds.sublist (List.take_sublist _ _) (by simp [List.take_eq_nil_iff, hds.1]; omega)
    · exact hds.sublist (List.drop_sublist _ _) (by simp; omega)
    · rw [List.length_drop]
      omega
    · rw [List.take_append_drop]
  · rename_i h
    have hzero : IsDigits ['0'] := isDigits_toDigits 0
    refine ⟨['0'], List.replicate (e + 1 - ds.length) '0' ++ ds, hzero, hds.zeros_append _,
      rfl, ?_, ?_⟩
    · rw [List.length_append, List.length_replicate]
      omega
    · rw [← List.append_assoc, Nat.ofDigitChars_append, Nat.ofDigitChars_append,
        Nat.ofDigitChars_replicate_zero]
      rfl

/-- The positional form of a decimal is a numeral and reads as the decimal. -/
theorem positional_spec {ds : List Char} (hds : IsDigits ds) (exponent : Int) :
    IsNumeral (value.positional ds exponent) ∧
      (ofNumeral (value.positional ds exponent)).ratio =
        (Decimal.mk (Nat.ofDigitChars 10 ds 0) exponent).ratio := by
  cases exponent with
  | ofNat e =>
    have hzeros := hds.append_zeros e
    have htext : value.positional ds (.ofNat e) = ds ++ List.replicate e '0' := by
      simp [positional, value]
    have hvalue : Nat.ofDigitChars 10 (ds ++ List.replicate e '0') 0 = 10 ^
        e * Nat.ofDigitChars 10 ds 0 := by
      rw [Nat.ofDigitChars_append, Nat.ofDigitChars_replicate_zero]
    rw [htext, ofNumeral_digits hzeros.point_not_mem, hvalue]
    refine ⟨.inl hzeros, ?_⟩
    show (10 ^ e * Nat.ofDigitChars 10 ds 0 * 1, 1) = (Nat.ofDigitChars 10 ds 0 * 10 ^ e, 1)
    rw [Nat.mul_one, Nat.mul_comm]
  | negSucc e =>
    obtain ⟨is, fs, his, hfs, htext, hlength, hvalue⟩ := positional_negSucc hds e
    rw [htext, ofNumeral_point his.point_not_mem hfs.point_not_mem, hlength, hvalue]
    exact ⟨.inr ⟨is, fs, his, hfs, rfl⟩, rfl⟩

/-- What is written without exponent reads back. -/
theorem decimal_spec {d : Decimal} (hlow : -4 ≤ d.leading) (hhigh : d.leading < 16) :
    IsNumeral (value.decimal d) ∧ (ofNumeral (value.decimal d)).nearest = d.nearest := by
  have htext : value.decimal d = value.positional (Nat.toDigits 10 d.digits) d.exponent :=
    if_pos ⟨hlow, hhigh⟩
  obtain ⟨hnumeral, hratio⟩ := positional_spec (isDigits_toDigits d.digits) d.exponent
  rw [Nat.ofDigitChars_ten_toDigits] at hratio
  rw [htext]
  exact ⟨hnumeral, nearest_congr hratio⟩

theorem whole_spec {b n : Nat} (hb : b < infinityBits) (h : multiple b = n * one) :
    IsNumeral (Nat.toDigits 10 n) ∧ (ofNumeral (Nat.toDigits 10 n)).nearest = b := by
  have hdigits := isDigits_toDigits n
  rw [ofNumeral_digits hdigits.point_not_mem, Nat.ofDigitChars_ten_toDigits]
  refine ⟨.inl hdigits, nearest_of_eq (ratio_pos _) hb ?_⟩
  show n * 1 * one = multiple b * 1
  rw [Nat.mul_one, Nat.mul_one, h]

/-- Magnitudes that are written without exponent: zero, and those from `10 ^ -4` on and below `10 ^
21`. -/
def IsPlain (b : Nat) : Prop := b = 0 ∨ one ≤ multiple b * 10 ^ 4 ∧ multiple b < 10 ^ 21 * one

theorem magnitude_spec {b : Nat} (hb : b < infinityBits) (h : IsPlain b) :
    IsNumeral (value.magnitude b) ∧ (ofNumeral (value.magnitude b)).nearest = b := by
  unfold magnitude
  dsimp only
  split
  · rename_i hzero
    exact whole_spec hb (hzero.trans (Nat.zero_mul _).symm)
  · split
    · rename_i hwhole
      exact whole_spec hb (Nat.div_mul_cancel (Nat.dvd_of_mod_eq_zero hwhole.1)).symm
    · rename_i hzero hwhole
      have hne : b ≠ 0 := by
        rintro rfl
        exact hzero rfl
      obtain ⟨hlow, hhigh⟩ := h.resolve_left hne
      -- A whole number in the range would have been written with all its digits.
      have hscale : scale b < 1074 := by
        by_contra hlarge
        have hmod := Nat.mod_eq_zero_of_dvd (one_dvd_multiple (Nat.le_of_not_lt hlarge))
        have hdiv : multiple b / one < 10 ^ 21 := (Nat.div_lt_iff_lt_mul Binary64.one_pos).2 hhigh
        exact hwhole ⟨hmod, hdiv⟩
      have hroof := roof_le hscale
      obtain ⟨hshortest, hexponent⟩ := shortest_spec hb
      obtain ⟨hnumeral, hread⟩ := decimal_spec (hshortest.le_leading hlow)
        (hshortest.leading_lt hne hscale (by omega))
      exact ⟨hnumeral, hread.trans hshortest.nearest⟩

end Number.Layout

/-! ## Ranges -/

theorem isPlain_of_range {x : Float} (h : x = 0 ∨ x = -0 ∨ 1e-4 ≤ x.abs ∧ x.abs < 1e21) :
    magnitude x < infinityBits ∧ Number.Layout.IsPlain (magnitude x) := by
  have hzero : magnitude 0 = 0 ∧ magnitude (-0) = 0 := by decide +kernel
  rcases h with rfl | rfl | ⟨hle, hlt⟩
  · exact ⟨hzero.1 ▸ by decide, .inl hzero.1⟩
  · exact ⟨hzero.2 ▸ by decide, .inl hzero.2⟩
  · have hlow : (1e-4 : Float) = ofMagnitude false Decimal.tenToMinus4 := by decide +kernel
    have hhigh : (1e21 : Float) = ofMagnitude false Decimal.tenTo21 := by decide +kernel
    rw [hhigh] at hlt
    replace hlt := magnitude_lt_of_abs_lt (by decide) hlt
    have hfinite : magnitude x < infinityBits := Nat.lt_trans hlt (by decide)
    rw [hlow, ← ofMagnitude_magnitude hfinite, abs_ofMagnitude _ hfinite,
      ofMagnitude_le_iff (by decide) hfinite] at hle
    refine ⟨hfinite, .inr ⟨?_, ?_⟩⟩
    · have hpower : one ≤ multiple Decimal.tenToMinus4 * 10 ^ 4 := by decide +kernel
      exact Nat.le_trans hpower (Nat.mul_le_mul_right _ (multiple_le hle))
    · have hpower : multiple (Decimal.tenTo21 - 1) < 10 ^ 21 * one := by decide +kernel
      exact Nat.lt_of_le_of_lt (multiple_le (Nat.le_sub_one_of_lt hlt)) hpower

theorem toList_text {x : Float} (hx : magnitude x < infinityBits) : (Number.text x).toList =
    if isNegative x then '-' :: Number.Layout.value.magnitude (magnitude x)
    else Number.Layout.value.magnitude (magnitude x) := by
  unfold Number.text Number.Layout.render
  rw [if_neg (Nat.not_lt_of_lt hx), if_neg (Nat.ne_of_lt hx), String.toList_ofList]

/-! ## Reading -/

/-- The text has tokens of the given categories and no errors, and they are an expression. Its value
is `v`, whatever the state. -/
structure Denotes (site : Nat) (source : String) (kinds : List Kind) (v : Value) : Prop where
  errors : (scan site source).errors = []
  kinds : (scan site source).tokens.map Token.kind = kinds
  value : ∃ e, Grammar.expression (Grammar.stepsFor (scan site source).tokens) .unlimited
    (scan site source).eof (scan site source).tokens = ⟨.done e, [], []⟩ ∧
      ∀ bound depth m, eval bound (depth + 2) e m = .ok v m

theorem segments_numeral {w : List Char} (h : IsNumeral w) : segments w = [.token .number w] := by
  have hlongest : Longest IsNumeral w (w ++ []) :=
    longest_append h fun c u _ hpre => by simp at hpre
  have hcut : Segmented (w ++ []) [.token .number w] :=
    .cons (s := .token .number w) (.piece (.number hlongest)) .nil
  rw [List.append_nil] at hcut
  exact (segmented_iff.1 hcut).symm

theorem segments_minus_numeral {w : List Char} (h : IsNumeral w) :
    segments ('-' :: w) = [.token .minus ['-'], .token .number w] := by
  have hminus : Begins ('-' :: w) (.token .minus ['-']) := .piece (Segment.piece_symbol w rfl)
  have hcut : Segmented ('-' :: w) [.token .minus ['-'], .token .number w] :=
    .cons (s := .token .minus ['-']) hminus (segmented_iff.2 (segments_numeral h).symm)
  exact (segmented_iff.1 hcut).symm

theorem Denotes.of_assignment {site : Nat} {cs : List Char} {ss : List Segment} {e : Expr}
    {v : Value} (hsegments : segments cs = ss) (herrors : Scan.errorsOf 1 ss = [])
    (h : Derives.Assignment (Scan.tokensOf 1 site ss) e)
    (hvalue : ∀ bound depth m, eval bound (depth + 2) e m = .ok v m) :
    Denotes site (String.ofList cs) ((Scan.tokensOf 1 site ss).map Token.kind) v := by
  subst hsegments
  have hscan : scan site (String.ofList cs) = Scan.ofChars site cs := by
    rw [scan, String.toList_ofList]
  have hread := Grammar.assignment_read h (Grammar.stepsFor (Scan.tokensOf 1 site (segments cs)))
    (Scan.ofChars site cs).eof [] (by unfold Grammar.stepsFor; omega) rfl (by decide)
  rw [List.append_nil] at hread
  constructor
  · exact hscan ▸ herrors
  · rw [hscan]
    rfl
  · rw [hscan]
    exact ⟨e, hread, hvalue⟩

theorem denotes_numeral {w : List Char} (h : IsNumeral w) (site : Nat) :
    Denotes site (String.ofList w) [.number] (.number (Number.read w)) := by
  refine .of_assignment (segments_numeral h) rfl
    (.operand (.call (.primary (.constant (.inl rfl))))) fun _ _ _ => ?_
  rw [Token.constant, Token.literal?, String.toList_ofList]
  rfl

theorem denotes_minus_numeral {w : List Char} (h : IsNumeral w) (site : Nat) :
    Denotes site (String.ofList ('-' :: w)) [.minus, .number] (.number (-Number.read w)) := by
  refine .of_assignment (segments_minus_numeral h) rfl
    (.operand (.unary rfl (.call (.primary (.constant (.inl rfl)))))) fun _ _ _ => ?_
  rw [Token.constant, Token.literal?, String.toList_ofList]
  rfl

/-- **Numbers read back.** Zero of either sign and every double from `10 ^ -4` on and below `10 ^
21` in magnitude is written as a numeral, behind a minus if its sign bit is set. That text is an
expression, and its value is the same double, bit for bit. -/
theorem number_reads_back (site : Nat) (x : Float)
    (h : x = 0 ∨ x = -0 ∨ 1e-4 ≤ x.abs ∧ x.abs < 1e21) :
    Denotes site (Number.text x) (if isNegative x then [.minus, .number] else [.number])
      (.number x) := by
  obtain ⟨hfinite, hplain⟩ := isPlain_of_range h
  obtain ⟨hnumeral, hnearest⟩ := Number.Layout.magnitude_spec hfinite hplain
  have hread : Number.read (Number.Layout.value.magnitude (magnitude x)) =
      ofMagnitude false (magnitude x) := by
    rw [Number.read, hnearest]
  have hx := ofMagnitude_magnitude hfinite
  rw [← String.ofList_toList (s := Number.text x), toList_text hfinite]
  by_cases hsign : isNegative x
  · have hdenotes := denotes_minus_numeral hnumeral site
    rw [hread, neg_ofMagnitude hfinite, ← hsign, hx] at hdenotes
    rwa [if_pos hsign, if_pos hsign]
  · have hdenotes := denotes_numeral hnumeral site
    rw [Bool.not_eq_true] at hsign
    rw [hread, ← hsign, hx] at hdenotes
    rwa [hsign, if_neg Bool.false_ne_true, if_neg Bool.false_ne_true]

/-- Seventeen digits are needed here, and zero keeps its sign. -/
theorem number_reads_back_negative :
    (1e-4 ≤ (-(0.1 + 0.2) : Float).abs ∧ (-(0.1 + 0.2) : Float).abs < 1e21) ∧
    Denotes 0 "-0.30000000000000004" [.minus, .number] (.number (-(0.1 + 0.2))) ∧
    Denotes 0 "-0" [.minus, .number] (.number (-0)) := by
  have hrange : 1e-4 ≤ (-(0.1 + 0.2) : Float).abs ∧ (-(0.1 + 0.2) : Float).abs < 1e21 := by
    decide +kernel
  have htext : Number.text (-(0.1 + 0.2)) = "-0.30000000000000004" ∧ Number.text (-0) = "-0" := by
    decide +kernel
  have hsign : isNegative (-(0.1 + 0.2)) ∧ isNegative (-0) := by decide +kernel
  have hsum := number_reads_back 0 (-(0.1 + 0.2)) (.inr (.inr hrange))
  have hzero := number_reads_back 0 (-0) (.inr (.inl rfl))
  rw [htext.1, if_pos hsign.1] at hsum
  rw [htext.2, if_pos hsign.2] at hzero
  exact ⟨hrange, hsum, hzero⟩

/-- On both sides of that range an exponent is written, which no numeral has. -/
example : Number.text 1.5e-7 = "1.5e-07" ∧ Number.text 1e21 = "1e+21" := by decide +kernel

end Lox
