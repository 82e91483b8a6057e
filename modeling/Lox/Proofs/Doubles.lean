import Lox.Number.Binary64
import Mathlib.Tactic.Ring

/-!
# Doubles and their bits

A finite double is made of its sign and the bits of its magnitude (`ofMagnitude_magnitude`).
`unpacked` says what the significand and the exponent are that arithmetic finds in them. Negation
and absolute values therefore only change the sign, and doubles without sign are ordered like their
bits (`ofMagnitude_le_iff`). Rounding gives a double back when there is nothing to round
(`nearest_of_eq`).
-/

namespace Lox.Binary64

open Float.Model Float.Model.UnpackedFloat

/-! ## Scale and significand -/

theorem scale_eq (b : Nat) : scale b = b / 2 ^ 52 - 1 := rfl

theorem significand_eq (b : Nat) : significand b = b - scale b * 2 ^ 52 := rfl

theorem multiple_eq (b : Nat) : multiple b = significand b * 2 ^ scale b := rfl

theorem infinityBits_eq : infinityBits = 2047 * 2 ^ 52 := rfl

theorem exists_one_eq : ∃ n, n = 1074 ∧ one = 2 ^ n := ⟨1074, rfl, by decide +kernel⟩

theorem one_pos : 0 < one := by decide +kernel

theorem scale_add_significand (b : Nat) : scale b * 2 ^ 52 + significand b = b := by
  have hscale := scale_eq b
  have hsig := significand_eq b
  omega

theorem significand_lt (b : Nat) : significand b < 2 ^ 53 := by
  have hscale := scale_eq b
  have hsig := significand_eq b
  omega

theorem le_significand {b : Nat} (h : 0 < scale b) : 2 ^ 52 ≤ significand b := by
  have hscale := scale_eq b
  have hsig := significand_eq b
  omega

theorem significand_eq_zero_iff {b : Nat} : significand b = 0 ↔ b = 0 := by
  have hscale := scale_eq b
  have hsig := significand_eq b
  omega

/-- The scale counts before the significand. -/
theorem lt_iff_scale_lt (a b : Nat) :
    a < b ↔ scale a < scale b ∨ scale a = scale b ∧ significand a < significand b := by
  have ha := scale_eq a
  have hb := scale_eq b
  have ha' := significand_eq a
  have hb' := significand_eq b
  omega

theorem multiple_lt (b : Nat) : multiple b < 2 ^ 52 * 2 ^ (scale b + 1) :=
  calc multiple b < 2 ^ 53 * 2 ^ scale b :=
    Nat.mul_lt_mul_of_pos_right (significand_lt b) (Nat.two_pow_pos _)
    _ = 2 ^ 52 * 2 ^ (scale b + 1) := by ring

theorem multiple_le {a b : Nat} (h : a ≤ b) : multiple a ≤ multiple b := by
  rcases Nat.lt_or_eq_of_le h with h | rfl
  · rcases (lt_iff_scale_lt a b).1 h with hscale | ⟨hscale, hsig⟩
    · calc multiple a ≤ 2 ^ 52 * 2 ^ (scale a + 1) := Nat.le_of_lt (multiple_lt a)
        _ ≤ significand b * 2 ^ scale b :=
          Nat.mul_le_mul (le_significand (by omega)) (Nat.pow_le_pow_right (by decide) hscale)
    · rw [multiple_eq, multiple_eq, hscale]
      exact Nat.mul_le_mul_right _ (Nat.le_of_lt hsig)
  · exact Nat.le_refl _

/-- Doubles with fractions are below `2 ^ 52`. -/
theorem multiple_lt_of_scale_lt {b : Nat} (h : scale b < 1074) : multiple b < 2 ^ 52 * one := by
  obtain ⟨n, hn, hone⟩ := exists_one_eq
  have hpow : 2 ^ (scale b + 1) ≤ one := by
    rw [hone]
    exact Nat.pow_le_pow_right (by decide) (by omega)
  exact Nat.lt_of_lt_of_le (multiple_lt b) (Nat.mul_le_mul_left _ hpow)

/-- Doubles without fraction. -/
theorem one_dvd_multiple {b : Nat} (h : 1074 ≤ scale b) : one ∣ multiple b := by
  obtain ⟨n, hn, hone⟩ := exists_one_eq
  rw [hone, multiple_eq]
  exact Nat.dvd_mul_left_of_dvd (Nat.pow_dvd_pow 2 (by omega)) _

/-! ## Packing -/

def sign (negative : Bool) : Sign := if negative then .negative else .positive

/-- The finite double with the given sign and magnitude, as arithmetic sees it. -/
def unpacked (negative : Bool) (b : Nat) : UnpackedFloat :=
  if h : significand b = 0 then .zero (sign negative)
  else .finite (sign negative) (significand b) (scale b - 1074) (Nat.pos_of_ne_zero h)

theorem unpacked_of_eq_zero (negative : Bool) {b : Nat} (h : significand b = 0) :
    unpacked negative b = .zero (sign negative) := dif_pos h

theorem unpacked_of_ne_zero (negative : Bool) {b : Nat} (h : significand b ≠ 0) :
    unpacked negative b =
    .finite (sign negative) (significand b) (scale b - 1074) (Nat.pos_of_ne_zero h) := dif_neg h

theorem toNat_unpackMantissa (v : BitVec Format.binary64.numBits) :
    (unpackMantissa v).toNat = v.toNat % 2 ^ 52 := by
  simp [unpackMantissa]

theorem toNat_unpackExponent (v : BitVec Format.binary64.numBits) :
    (unpackExponent v).toNat = v.toNat / 2 ^ 52 % 2 ^ 11 := by
  simp [unpackExponent, Nat.shiftRight_eq_div_pow]

theorem toNat_unpackSign (v : BitVec Format.binary64.numBits) :
    (unpackSign v).toNat = v.toNat / 2 ^ 63 := by
  have hv : v.toNat < 2 ^ 64 := v.isLt
  have hbit : (unpackSign v).toNat = v.toNat / 2 ^ 63 % 2 := by
    unfold unpackSign
    simp [Nat.shiftRight_eq_div_pow]
  omega

theorem toNat_append_implicit (w : BitVec 52) : (1#1 ++ w).toNat = 2 ^ 52 + w.toNat := by
  rw [BitVec.toNat_append, ← Nat.shiftLeft_add_eq_or_of_lt w.isLt]
  rfl

section

variable (negative : Bool) {b : Nat}

theorem unpack_eq (hb : b < infinityBits) (v : BitVec Format.binary64.numBits)
    (hv : v.toNat = (if negative then 2 ^ 63 else 0) + b) :
    UnpackedFloat.unpack Format.binary64 v = unpacked negative b := by
  rw [infinityBits_eq] at hb
  have hsign : Sign.ofBitVec (unpackSign v) = sign negative := by
    have hbit : (unpackSign v).toNat = if negative then 1 else 0 := by
      rw [toNat_unpackSign, hv]
      split <;> omega
    unfold Sign.ofBitVec sign
    simp only [← BitVec.toNat_inj, hbit]
    cases negative <;> rfl
  have hmantissa : (unpackMantissa v).toNat = b % 2 ^ 52 := by
    rw [toNat_unpackMantissa, hv]
    split <;> omega
  have hexponent : (unpackExponent v).toNat = b / 2 ^ 52 := by
    rw [toNat_unpackExponent, hv]
    split <;> omega
  have hmax : ¬ unpackExponent v = -1#11 := by
    rw [← BitVec.toNat_inj, hexponent]
    show ¬ _ = 2047
    omega
  have hmin : unpackExponent v = 0#11 ↔ b / 2 ^ 52 = 0 := by
    rw [← BitVec.toNat_inj, hexponent]
    rfl
  have hzero : unpackMantissa v = 0#52 ↔ b % 2 ^ 52 = 0 := by
    rw [← BitVec.toNat_inj, hmantissa]
    rfl
  have hscale := scale_eq b
  have hsig := significand_eq b
  unfold UnpackedFloat.unpack unpacked
  dsimp only
  rw [hsign, hexponent, if_neg hmax]
  by_cases h : b / 2 ^ 52 = 0
  · rw [if_pos (hmin.2 h)]
    by_cases h' : b % 2 ^ 52 = 0
    · rw [dif_pos (hzero.2 h'), dif_pos (by omega)]
    · rw [dif_neg (mt hzero.1 h'), dif_neg (by omega)]
      rw [finite.injEq]
      refine ⟨rfl, by omega, ?_⟩
      show ((b / 2 ^ 52 : Nat) : Int) - ((1023 : Nat) + (52 : Nat)) + 1 = _
      omega
  · rw [if_neg (mt hmin.1 h), dif_neg (by omega)]
    rw [finite.injEq]
    refine ⟨rfl, ?_, ?_⟩
    · have happend : (1#1 ++ unpackMantissa v).toNat = 2 ^ 52 + (unpackMantissa v).toNat :=
        toNat_append_implicit _
      omega
    · show ((b / 2 ^ 52 : Nat) : Int) - ((1023 : Nat) + (52 : Nat)) = _
      omega

theorem toNat_packComponents (e : BitVec 11) (m : BitVec 52) :
    (packComponents Format.binary64 (sign negative) e m).toNat =
      (if negative then 2 ^ 63 else 0) + (e.toNat * 2 ^ 52 + m.toNat) := by
  unfold packComponents
  rw [BitVec.toNat_append, ← Nat.shiftLeft_add_eq_or_of_lt m.isLt, BitVec.toNat_append,
    ← Nat.shiftLeft_add_eq_or_of_lt e.isLt, Nat.shiftLeft_eq, Nat.shiftLeft_eq]
  cases negative
  · show (0 * 2 ^ 11 + _) * 2 ^ 52 + _ = 0 + _
    omega
  · show (1 * 2 ^ 11 + _) * 2 ^ 52 + _ = 2 ^ 63 + _
    omega

theorem toNat_pack (hb : b < infinityBits) :
    (UnpackedFloat.pack Format.binary64 (unpacked negative b)).toNat =
      (if negative then 2 ^ 63 else 0) + b := by
  rw [infinityBits_eq] at hb
  have hscale := scale_eq b
  have hsig := significand_eq b
  by_cases h : significand b = 0
  · rw [unpacked_of_eq_zero negative h, significand_eq_zero_iff.1 h]
    exact toNat_packComponents negative 0 0
  · rw [unpacked_of_ne_zero negative h]
    have hbiased : ((scale b : Int) - 1074 + (Format.binary64.exponentBias : Int) +
        (Format.binary64.mantissaBitsWithoutImplicit : Int)).toNat = scale b + 1 := by
      show ((scale b : Int) - 1074 + (1023 : Nat) + (52 : Nat)).toNat = _
      omega
    unfold UnpackedFloat.pack
    dsimp only
    rw [hbiased, if_neg (by show ¬ 2 ^ 11 ≤ _; omega)]
    -- Without the implicit bit the exponent field is zero.
    by_cases hsub : b / 2 ^ 52 = 0
    · have hlog : (significand b).log2 < 52 := (Nat.log2_lt h).2 (by omega)
      rw [if_neg (by show ¬ _ = 53; omega), toNat_packComponents, BitVec.toNat_ofNat,
        BitVec.toNat_ofNat]
      show _ + (0 * 2 ^ 52 + significand b % 2 ^ 52) = _
      omega
    · have hlog : (significand b).log2 = 52 := (Nat.log2_eq_iff h).2 (by omega)
      rw [if_pos (by rw [hlog]; rfl), toNat_packComponents, BitVec.toNat_ofNat, BitVec.toNat_ofNat]
      show _ + ((scale b + 1) % 2 ^ 11 * 2 ^ 52 + significand b % 2 ^ 52) = _
      omega

end

/-! ## Sign and magnitude -/

theorem ext_toBits {x y : Float} (h : x.toBits.toNat = y.toBits.toNat) : x = y := by
  obtain ⟨⟨u, hu⟩⟩ := x
  obtain ⟨⟨w, hw⟩⟩ := y
  obtain rfl : u = w := UInt64.toNat_inj.1 h
  rfl

theorem toNat_bits (x : Float) :
    x.toBits.toNat = (if isNegative x then 2 ^ 63 else 0) + magnitude x := by
  have hx := x.toBits.toNat_lt
  have hmagnitude : magnitude x = x.toBits.toNat % 2 ^ 63 := rfl
  have hnegative : isNegative x = true ↔ 2 ^ 63 ≤ x.toBits.toNat := decide_eq_true_iff
  split
  · have hle := hnegative.1 ‹_›
    omega
  · have hlt := mt hnegative.2 ‹_›
    omega

section

variable (negative : Bool) {a b : Nat}

theorem toNat_bits_ofMagnitude (hb : b < infinityBits) :
    (ofMagnitude negative b).toBits.toNat = (if negative then 2 ^ 63 else 0) + b := by
  have hfinite := infinityBits_eq ▸ hb
  have hbits : (UInt64.ofNat (if negative then Nat.pow 2 63 + b else b)).toBitVec.toNat =
      (if negative then 2 ^ 63 else 0) + b := by
    rw [UInt64.toNat_toBitVec, UInt64.toNat_ofNat']
    show (if negative then 2 ^ 63 + b else b) % 2 ^ 64 = _
    split <;> omega
  have hpack := toNat_pack negative hb
  rw [← unpack_eq negative hb _ hbits] at hpack
  exact hpack

theorem unpack_ofMagnitude (hb : b < infinityBits) :
    (ofMagnitude negative b).toModel.unpack = unpacked negative b :=
  unpack_eq _ hb _ (toNat_bits_ofMagnitude negative hb)

/-- A finite double is its sign and its magnitude. -/
theorem ofMagnitude_magnitude {x : Float} (hx : magnitude x < infinityBits) :
    ofMagnitude (isNegative x) (magnitude x) = x :=
  ext_toBits ((toNat_bits_ofMagnitude _ hx).trans (toNat_bits x).symm)

theorem neg_ofMagnitude (hb : b < infinityBits) : -ofMagnitude false b = ofMagnitude true b := by
  have hneg : (unpacked false b).neg = unpacked true b := by
    by_cases h : significand b = 0
    · rw [unpacked_of_eq_zero false h, unpacked_of_eq_zero true h]
      rfl
    · rw [unpacked_of_ne_zero false h, unpacked_of_ne_zero true h]
      rfl
  refine ext_toBits ?_
  rw [toNat_bits_ofMagnitude true hb, ← toNat_pack true hb, ← hneg, ← unpack_ofMagnitude false hb]
  rfl

theorem abs_ofMagnitude (hb : b < infinityBits) :
    (ofMagnitude negative b).abs = ofMagnitude false b := by
  have habs : (unpacked negative b).abs = unpacked false b := by
    by_cases h : significand b = 0
    · rw [unpacked_of_eq_zero negative h, unpacked_of_eq_zero false h]
      rfl
    · rw [unpacked_of_ne_zero negative h, unpacked_of_ne_zero false h]
      rfl
  refine ext_toBits ?_
  rw [toNat_bits_ofMagnitude false hb, ← toNat_pack false hb, ← habs,
    ← unpack_ofMagnitude negative hb]
  rfl

/-! ## Order -/

theorem le_iff_compare {x y : Float} :
    x ≤ y ↔ (x.toModel.unpack.compare y.toModel.unpack).any Ordering.isLE = true :=
  decide_eq_true_iff

theorem lt_iff_compare {x y : Float} :
    x < y ↔ x.toModel.unpack.compare y.toModel.unpack = some .lt :=
  decide_eq_true_iff.trans beq_iff_eq

theorem compare_scale (a b : Nat) : (compare ((scale a : Int) - 1074) (scale b - 1074)).then
    (compare (significand a) (significand b)) = compare a b := by
  have hlt := lt_iff_scale_lt a b
  have hgt := lt_iff_scale_lt b a
  rcases Nat.lt_trichotomy (scale a) (scale b) with h | h | h
  · rw [Int.compare_eq_lt.2 (by omega), Nat.compare_eq_lt.2 (hlt.2 (.inl h))]
    rfl
  · rw [Int.compare_eq_eq.2 (by omega), Ordering.eq_then, Nat.compare_eq_ite_lt,
      Nat.compare_eq_ite_lt]
    simp only [hlt, hgt, h, Nat.lt_irrefl, true_and, false_or]
  · rw [Int.compare_eq_gt.2 (by omega), Nat.compare_eq_gt.2 (hgt.2 (.inl h))]
    rfl

theorem compare_unpacked (a b : Nat) :
    (unpacked false a).compare (unpacked false b) = some (compare a b) := by
  by_cases ha : significand a = 0
  · obtain rfl := significand_eq_zero_iff.1 ha
    by_cases hb : significand b = 0
    · obtain rfl := significand_eq_zero_iff.1 hb
      rfl
    · have hpos : 0 < b := Nat.pos_of_ne_zero (mt significand_eq_zero_iff.2 hb)
      rw [unpacked_of_ne_zero false hb, Nat.compare_eq_lt.2 hpos]
      rfl
  · by_cases hb : significand b = 0
    · obtain rfl := significand_eq_zero_iff.1 hb
      have hpos : 0 < a := Nat.pos_of_ne_zero (mt significand_eq_zero_iff.2 ha)
      rw [unpacked_of_ne_zero false ha, Nat.compare_eq_gt.2 hpos]
      rfl
    · rw [unpacked_of_ne_zero false ha, unpacked_of_ne_zero false hb]
      exact congrArg some (compare_scale a b)

/-- Doubles without sign are ordered like their bits. -/
theorem ofMagnitude_le_iff (ha : a < infinityBits) (hb : b < infinityBits) :
    ofMagnitude false a ≤ ofMagnitude false b ↔ a ≤ b := by
  rw [le_iff_compare, unpack_ofMagnitude false ha, unpack_ofMagnitude false hb, compare_unpacked]
  exact Nat.isLE_compare

theorem ofMagnitude_lt_iff (ha : a < infinityBits) (hb : b < infinityBits) :
    ofMagnitude false a < ofMagnitude false b ↔ a < b := by
  rw [lt_iff_compare, unpack_ofMagnitude false ha, unpack_ofMagnitude false hb, compare_unpacked,
    Option.some_inj, Nat.compare_eq_lt]

end

theorem unpack_of_infinityBits_le {x : Float} (h : infinityBits ≤ magnitude x) :
    (∃ s, x.toModel.unpack = .infinity s) ∨ x.toModel.unpack = .notANumber := by
  have hbits : x.toModel.toBits.toBitVec.toNat = _ := toNat_bits x
  have hlt : magnitude x < 2 ^ 63 := Nat.mod_lt _ (by decide)
  rw [infinityBits_eq] at h
  have hexponent : @unpackExponent Format.binary64 x.toModel.toBits.toBitVec = -1#11 := by
    rw [← BitVec.toNat_inj, toNat_unpackExponent, hbits]
    show _ = 2047
    split <;> omega
  unfold Float.Model.unpack UnpackedFloat.unpack
  dsimp only
  rw [if_pos hexponent]
  split
  · exact .inl ⟨_, rfl⟩
  · exact .inr rfl

theorem unpack_pack_infinity :
    (Float.Model.pack (.infinity .positive)).unpack = .infinity .positive := by
  with_unfolding_all rfl

theorem unpack_pack_notANumber : (Float.Model.pack .notANumber).unpack = .notANumber := by
  with_unfolding_all rfl

/-- Neither infinity nor what is not a number is below a finite double. -/
theorem magnitude_lt_of_abs_lt {x : Float} {b : Nat} (hb : b < infinityBits)
    (h : x.abs < ofMagnitude false b) :
    magnitude x < b := by
  by_cases hx : magnitude x < infinityBits
  · rwa [← ofMagnitude_magnitude hx, abs_ofMagnitude _ hx, ofMagnitude_lt_iff hx hb] at h
  · have habs : x.abs.toModel.unpack = (Float.Model.pack x.toModel.unpack.abs).unpack := rfl
    rw [lt_iff_compare, unpack_ofMagnitude false hb, habs] at h
    rcases unpack_of_infinityBits_le (Nat.le_of_not_lt hx) with ⟨s, hx⟩ | hx
    · rw [hx, show (infinity s).abs = .infinity .positive from rfl, unpack_pack_infinity] at h
      by_cases hzero : significand b = 0
      · rw [unpacked_of_eq_zero false hzero] at h
        cases h
      · rw [unpacked_of_ne_zero false hzero] at h
        cases h
    · rw [hx, show notANumber.abs = .notANumber from rfl, unpack_pack_notANumber] at h
      cases h

/-! ## Rounding -/

/-- The leading 53 bits of a double are those of its significand. -/
theorem log2_multiple (b : Nat) : (multiple b).log2 - 52 = scale b := by
  have hlt := significand_lt b
  rcases Nat.eq_zero_or_pos (scale b) with h | h
  · have hmul : multiple b = significand b := by rw [multiple_eq, h, Nat.pow_zero, Nat.mul_one]
    rw [hmul, h]
    by_cases hzero : significand b = 0
    · rw [hzero, Nat.log2_zero]
    · have hlog := (Nat.log2_lt hzero).2 hlt
      omega
  · have hle := le_significand h
    have hpos := Nat.two_pow_pos (scale b)
    have hne : multiple b ≠ 0 := Nat.mul_ne_zero (by omega) (Nat.ne_of_gt hpos)
    have hlog : (multiple b).log2 = 52 + scale b := by
      rw [Nat.log2_eq_iff hne, multiple_eq, Nat.add_right_comm 52, Nat.pow_add, Nat.pow_add]
      exact ⟨Nat.mul_le_mul_right _ hle, Nat.mul_lt_mul_of_pos_right hlt hpos⟩
    omega

theorem roundQuotient_mul (q : Nat) {den : Nat} (h : 0 < den) :
    roundQuotient (q * den) den = q := by
  unfold roundQuotient
  rw [Nat.mul_div_cancel _ h, Nat.mul_mod_left]
  exact if_pos h

/-- A quotient that is a double is rounded to it. -/
theorem nearest_of_eq {num den b : Nat} (hden : 0 < den) (hb : b < infinityBits)
    (h : num * one = multiple b * den) : nearest num den = b := by
  have hdiv : num * one / den = multiple b := by rw [h, Nat.mul_div_cancel _ hden]
  have hround : roundQuotient (num * one) (den * 2 ^ scale b) = significand b := by
    have hquotient : num * one = significand b * (den * 2 ^ scale b) := by
      rw [h, multiple_eq]
      ring
    rw [hquotient, roundQuotient_mul _ (Nat.mul_pos hden (Nat.two_pow_pos _))]
  unfold nearest
  simp only [hdiv, log2_multiple]
  show min (scale b * 2 ^ 52 + roundQuotient (num * one) (den * 2 ^ scale b)) infinityBits = b
  rw [hround, scale_add_significand, Nat.min_eq_left (Nat.le_of_lt hb)]

end Lox.Binary64
