import Mathlib
import FlightGen.Binary64

/-! Rounding to binary64 numbers. Every ratio lies in the interval of exactly one pattern,
between the midpoints to its neighbours, and that pattern is the nearest. Numbers and their
patterns stand for each other. -/

namespace FlightGen.Binary64

/-! ### Words -/

section Words

open Float.Model (Format)
open Float.Model.UnpackedFloat

/-- A word is put together again from its sign, exponent and mantissa. -/
theorem packComponents_unpack (b : BitVec Format.binary64.numBits) :
    packComponents Format.binary64 (Sign.ofBitVec (unpackSign b)) (unpackExponent b)
      (unpackMantissa b) = b := by
  have hsign : ∀ s : BitVec 1, (Sign.ofBitVec s).toBitVec = s := by decide
  rw [packComponents, hsign]
  apply BitVec.eq_of_getLsbD_eq
  intro i hi
  have hi64 : i < 64 := hi
  simp only [unpackSign, unpackExponent, unpackMantissa, BitVec.getLsbD_append, BitVec.getLsbD_cast,
    BitVec.getLsbD_extractLsb]
  split_ifs with hmantissa hexponent
  · rw [decide_eq_true (by omega), Bool.true_and, Nat.zero_add]
  · rw [decide_eq_true (by omega), Bool.true_and, Nat.add_sub_cancel' (by omega)]
  · obtain rfl : i = 63 := by omega
    rfl

theorem pack_subnormal {sign : Sign} {mantissa : BitVec 52} (hpos : 0 < mantissa.toNat) {e : Int}
    (he : e = -1074) : pack Format.binary64 (.finite sign mantissa.toNat e hpos) =
      packComponents Format.binary64 sign 0#11 mantissa := by
  have hlog : mantissa.toNat.log2 < 52 := (Nat.log2_lt (by omega)).2 mantissa.isLt
  have hbits : Format.binary64.mantissaBits = 53 := rfl
  subst he
  simp only [pack, hbits]
  rw [if_neg (by decide), if_neg (by omega), BitVec.ofNat_toNat, BitVec.setWidth_eq]

theorem pack_normal {sign : Sign} {exponent : BitVec 11} {mantissa : BitVec 52}
    (hexponent : exponent ≠ -1#11) (hpos : 0 < (1#1 ++ mantissa).toNat) {e : Int}
    (he : e = exponent.toNat - 1075) :
    pack Format.binary64 (.finite sign (1#1 ++ mantissa).toNat e hpos) =
      packComponents Format.binary64 sign exponent mantissa := by
  have hlt : exponent.toNat < 2 ^ 11 := exponent.isLt
  have hne : exponent.toNat ≠ 2 ^ 11 - 1 := fun hmax => hexponent (BitVec.eq_of_toNat_eq hmax)
  have hmantissa := mantissa.isLt
  have hvalue : (1#1 ++ mantissa).toNat = 2 ^ 52 + mantissa.toNat := by
    rw [BitVec.toNat_append, ← Nat.shiftLeft_add_eq_or_of_lt hmantissa, Nat.shiftLeft_eq]
    rfl
  have hlog : (1#1 ++ mantissa).toNat.log2 + 1 = Format.binary64.mantissaBits := by
    rw [hvalue, (Nat.log2_eq_iff (by omega)).2 (by omega : _ ∧ _ < 2 ^ (52 + 1))]
    rfl
  have hback : BitVec.ofNat 52 (1#1 ++ mantissa).toNat = mantissa := by
    apply BitVec.eq_of_toNat_eq
    rw [BitVec.toNat_ofNat, hvalue]
    omega
  have hbiased : (e + Format.binary64.exponentBias +
      (Format.binary64.mantissaBitsWithoutImplicit : Nat)).toNat = exponent.toNat := by
    have hbias : (Format.binary64.exponentBias : Int) = 1023 := rfl
    have hwidth : ((Format.binary64.mantissaBitsWithoutImplicit : Nat) : Int) = 52 := rfl
    rw [hbias, hwidth]
    omega
  simp only [pack, hbiased]
  rw [if_neg (by show ¬ 2 ^ 11 ≤ _; omega), if_pos hlog, BitVec.ofNat_toNat, BitVec.setWidth_eq]
  exact congrArg _ hback

/-- Words other than those of not-a-number survive unpacking. -/
theorem pack_unpack {b : BitVec Format.binary64.numBits}
    (h : unpackExponent b = -1#11 → unpackMantissa b = 0#52) :
    pack Format.binary64 (unpack Format.binary64 b) = b := by
  have hwhole := packComponents_unpack b
  unfold unpack
  simp only
  split_ifs with hspecial hfraction hlow hfraction
  · rw [hspecial, hfraction] at hwhole
    exact hwhole
  · exact absurd (h hspecial) hfraction
  · rw [hlow, hfraction] at hwhole
    exact hwhole
  · rw [hlow] at hwhole
    rw [hlow]
    exact (pack_subnormal _ rfl).trans hwhole
  · exact (pack_normal hspecial _ rfl).trans hwhole

theorem toNat_unpackExponent (b : BitVec Format.binary64.numBits) :
    (unpackExponent b).toNat = b.toNat / 2 ^ 52 % 2 ^ 11 := by
  simp [unpackExponent, BitVec.extractLsb, Nat.shiftRight_eq_div_pow]

theorem toNat_unpackMantissa (b : BitVec Format.binary64.numBits) :
    (unpackMantissa b).toNat = b.toNat % 2 ^ 52 := by
  simp [unpackMantissa, BitVec.extractLsb]

/-- A number has the bits that it is made from. -/
theorem toBits_ofBits {b : UInt64} (h : b.toNat % 2 ^ 63 ≤ infinity) :
    (Float.ofBits b).toBits = b := by
  have hfraction : @unpackExponent Format.binary64 b.toBitVec = -1#11 →
      @unpackMantissa Format.binary64 b.toBitVec = 0#52 := by
    intro hexponent
    have hall := congrArg BitVec.toNat hexponent
    rw [toNat_unpackExponent] at hall
    have hinf : infinity = 0x7FF * 2 ^ 52 := rfl
    have hmax : (-1#11).toNat = 2047 := rfl
    have hnat : b.toBitVec.toNat = b.toNat := rfl
    apply BitVec.eq_of_toNat_eq
    rw [toNat_unpackMantissa]
    show _ = 0
    omega
  show UInt64.ofBitVec (pack Format.binary64 (unpack Format.binary64 b.toBitVec)) = b
  rw [pack_unpack hfraction]

theorem toBits_injective {x y : Float} (h : x.toBits = y.toBits) : x = y := by
  obtain ⟨⟨bits, hx⟩⟩ := x
  obtain ⟨⟨bits', hy⟩⟩ := y
  cases (show bits = bits' from h)
  rfl

end Words

theorem form_eq_finite {x : Float} {bits : Nat} (h : form x = .finite false bits) :
    bits < infinity ∧ Float.ofBits bits.toUInt64 = x := by
  have hword := x.toBits.toNat_lt
  simp only [form, Nat.pow_eq] at h
  split_ifs at h with hfinite
  obtain ⟨hsign, hbits⟩ := Form.finite.inj h
  have hmagnitude : x.toBits.toNat = bits := by
    have := of_decide_eq_false hsign
    omega
  have hback : bits.toUInt64 = x.toBits := by
    rw [← hmagnitude]
    exact UInt64.ofNat_toNat
  refine ⟨hbits ▸ hfinite, toBits_injective ?_⟩
  rw [hback]
  exact toBits_ofBits hfinite.le

theorem form_ofBits {bits : Nat} (h : bits ≤ infinity) :
    form (Float.ofBits bits.toUInt64) =
      if bits < infinity then .finite false bits else .infinite false := by
  have hinf : infinity = 0x7FF * 2 ^ 52 := rfl
  have hnat : bits.toUInt64.toNat = bits := UInt64.toNat_ofNat_of_lt (show bits < 2 ^ 64 by omega)
  have hword : (Float.ofBits bits.toUInt64).toBits = bits.toUInt64 := toBits_ofBits (by omega)
  have hmod : bits % 2 ^ 63 = bits := Nat.mod_eq_of_lt (by omega)
  have hsign : decide (2 ^ 63 ≤ bits) = false := decide_eq_false (by omega)
  simp only [form, hword, hnat, Nat.pow_eq, hmod, hsign]
  split_ifs with hfinite heq
  · rfl
  · rfl
  · omega

/-! ### Units -/

/-- A pattern counts `m` steps of `2 ^ s` units, where `m` has its leading bit unless the
steps are single units. -/
theorem units_shift {s m : Nat} (hm : m ≤ 2 ^ 53) (h : s = 0 ∨ 2 ^ 52 ≤ m) :
    units (s * 2 ^ 52 + m) = m * 2 ^ s := by
  simp only [units, Nat.pow_eq]
  obtain hlow | hmid | rfl : m < 2 ^ 52 ∨ (2 ^ 52 ≤ m ∧ m < 2 ^ 53) ∨ m = 2 ^ 53 := by omega
  · obtain rfl : s = 0 := by omega
    rw [if_pos (by omega)]
    omega
  · have hexponent : (s * 2 ^ 52 + m) / 2 ^ 52 = s + 1 := by omega
    have hfraction : 2 ^ 52 + (s * 2 ^ 52 + m) % 2 ^ 52 = m := by omega
    rw [if_neg (by omega), hexponent, hfraction, Nat.add_sub_cancel]
  · have hexponent : (s * 2 ^ 52 + 2 ^ 53) / 2 ^ 52 = s + 2 := by omega
    have hfraction : (s * 2 ^ 52 + 2 ^ 53) % 2 ^ 52 = 0 := by omega
    rw [if_neg (by omega), hexponent, hfraction]
    show (2 ^ 52 + 0) * 2 ^ (s + 1) = _
    ring

theorem exists_shift (b : Nat) :
    ∃ s m, b = s * 2 ^ 52 + m ∧ m < 2 ^ 53 ∧ (s = 0 ∨ 2 ^ 52 ≤ m) := by
  by_cases h : b < 2 ^ 53
  · exact ⟨0, b, by omega, h, .inl rfl⟩
  · exact ⟨b / 2 ^ 52 - 1, 2 ^ 52 + b % 2 ^ 52, by omega, by omega, .inr (by omega)⟩

theorem units_strictMono : StrictMono units := by
  apply strictMono_nat_of_lt_succ
  intro b
  obtain ⟨s, m, rfl, hm, h⟩ := exists_shift b
  rw [units_shift hm.le h, Nat.add_assoc, units_shift hm (by omega)]
  exact Nat.mul_lt_mul_of_pos_right (Nat.lt_succ_self m) (Nat.two_pow_pos s)

/-! ### Rounding -/

/-- The ratio lies in the interval of a pattern, whose ends belong to it if it is even. -/
structure Rounds (num den b : Nat) : Prop where
  low : (units (b - 1) + units b) * den ≤ 2 * num
  high : 2 * num ≤ (units b + units (b + 1)) * den
  tie : (units (b - 1) + units b) * den = 2 * num ∨ 2 * num = (units b + units (b + 1)) * den →
    b % 2 = 0

theorem Rounds.le {num den b b' : Nat} (hden : 0 < den) (h : Rounds num den b)
    (h' : Rounds num den b') : b' ≤ b := by
  by_contra hlt
  have hprev : units b ≤ units (b' - 1) := units_strictMono.monotone (by omega)
  have hnext : units (b + 1) ≤ units b' := units_strictMono.monotone (by omega)
  have hmid : units b + units (b + 1) ≤ units (b' - 1) + units b' := by omega
  have hscaled := Nat.mul_le_mul_right den hmid
  have hupper := h.high
  have hlower := h'.low
  -- The ratio is the common end of both intervals, and both patterns would have to be even.
  have heven := h.tie (.inr (by omega))
  have heven' := h'.tie (.inl (by omega))
  have hsum := Nat.eq_of_mul_eq_mul_right hden
    (show (units b + units (b + 1)) * den = (units (b' - 1) + units b') * den by omega)
  have hsucc : b + 1 = b' := units_strictMono.injective (by omega)
  omega

theorem Rounds.unique {num den b b' : Nat} (hden : 0 < den) (h : Rounds num den b)
    (h' : Rounds num den b') : b = b' :=
  (h'.le hden h).antisymm (h.le hden h')

/-- Only the ratio matters. -/
theorem Rounds.scale {num den num' den' b : Nat} (h : Rounds num den b) (hden : 0 < den)
    (hden' : 0 < den') (hratio : num * den' = num' * den) : Rounds num' den' b := by
  have hleft : ∀ halves, halves * den * den' = halves * den' * den := fun _ => Nat.mul_right_comm ..
  have hright : 2 * num * den' = 2 * num' * den := by rw [Nat.mul_assoc, hratio, Nat.mul_assoc]
  have hle : ∀ halves, halves * den ≤ 2 * num ↔ halves * den' ≤ 2 * num' := by
    intro halves
    rw [← Nat.mul_le_mul_right_iff hden', hleft, hright, Nat.mul_le_mul_right_iff hden]
  have hge : ∀ halves, 2 * num ≤ halves * den ↔ 2 * num' ≤ halves * den' := by
    intro halves
    rw [← Nat.mul_le_mul_right_iff hden', hleft, hright, Nat.mul_le_mul_right_iff hden]
  refine ⟨(hle _).1 h.low, (hge _).1 h.high, fun htie => h.tie (htie.imp ?_ ?_)⟩
  · intro heq
    exact le_antisymm h.low ((hge _).2 heq.ge)
  · intro heq
    exact le_antisymm h.high ((hle _).2 heq.ge)

theorem roundHalfEven_cases (num den : Nat) :
    (roundHalfEven num den = num / den ∧ 2 * (num % den) ≤ den ∧
      (2 * (num % den) = den → num / den % 2 = 0)) ∨
    (roundHalfEven num den = num / den + 1 ∧ den ≤ 2 * (num % den) ∧
      (2 * (num % den) = den → num / den % 2 = 1)) := by
  unfold roundHalfEven
  simp only
  split_ifs with hless hhalf
  · exact .inl ⟨rfl, by omega, by omega⟩
  · obtain heven | hodd := Nat.mod_two_eq_zero_or_one (num / den)
    · exact .inl ⟨by omega, by omega, by omega⟩
    · exact .inr ⟨by omega, by omega, by omega⟩
  · exact .inr ⟨rfl, by omega, by omega⟩

/-- The leading bits of a quotient: without a shift at most 53 of them, and else exactly 53. -/
theorem shifted_bounds (n : Nat) :
    n / 2 ^ (n.log2 - 52) < 2 ^ 53 ∧ (n.log2 - 52 = 0 ∨ 2 ^ 52 ≤ n / 2 ^ (n.log2 - 52)) := by
  have hpos := Nat.two_pow_pos (n.log2 - 52)
  constructor
  · rw [Nat.div_lt_iff_lt_mul hpos, ← Nat.pow_add]
    exact Nat.lt_log2_self.trans_le (Nat.pow_le_pow_right (by decide) (by omega))
  · by_cases h : n.log2 ≤ 52
    · exact .inl (by omega)
    · refine .inr ((Nat.le_div_iff_mul_le hpos).2 ?_)
      rw [← Nat.pow_add, show 52 + (n.log2 - 52) = n.log2 by omega]
      exact Nat.log2_self_le (by rintro rfl; simp at h)

/-- Rounding the leading bits lands in the interval of the result. -/
theorem rounds_nearest (num : Nat) {den : Nat} (hden : 0 < den) :
    ∃ b, Rounds num den b ∧ nearest num den = min infinity b := by
  set s := Nat.log2 (num / den) - 52 with hs
  set step := den * 2 ^ s with hstep
  refine ⟨s * 2 ^ 52 + roundHalfEven num step, ?_, by simp only [nearest, Nat.pow_eq, hstep, hs]⟩
  obtain ⟨hsmall, hlead⟩ := shifted_bounds (num / den)
  rw [Nat.div_div_eq_div_mul, ← hs, ← hstep] at hsmall hlead
  have hdiv := Nat.div_add_mod num step
  have hmod : num % step < step := Nat.mod_lt num (Nat.mul_pos hden (Nat.two_pow_pos s))
  have hcases := roundHalfEven_cases num step
  set q := num / step
  set r := num % step
  set b := s * 2 ^ 52 + q with hb
  -- In steps, the pattern stands for `q` and the next one for `q + 1`.
  have hvalue : units b * den = step * q := by
    rw [units_shift hsmall.le hlead, hstep]
    ring
  have hnext : units (b + 1) * den = step * q + step := by
    rw [hb, Nat.add_assoc, @units_shift s (q + 1) hsmall (by omega), hstep]
    ring
  obtain ⟨hround, hhalf, htie⟩ | ⟨hround, hhalf, htie⟩ := hcases
  · rw [hround, ← hb]
    have hprev : units (b - 1) * den ≤ units b * den :=
      Nat.mul_le_mul_right _ (units_strictMono.monotone (Nat.sub_le _ _))
    refine ⟨?_, ?_, ?_⟩
    · rw [Nat.add_mul]
      omega
    · rw [Nat.add_mul]
      omega
    · rw [Nat.add_mul, Nat.add_mul]
      rintro (hlow | hhigh)
      · have hsame : units (b - 1) = units b := Nat.eq_of_mul_eq_mul_right hden (by omega)
        have := units_strictMono.injective hsame
        omega
      · have := htie (by omega)
        omega
  · rw [hround, ← Nat.add_assoc, ← hb]
    have hafter : units (b + 1) * den ≤ units (b + 1 + 1) * den :=
      Nat.mul_le_mul_right _ (units_strictMono.monotone (Nat.le_succ _))
    refine ⟨?_, ?_, ?_⟩
    · rw [Nat.add_sub_cancel, Nat.add_mul]
      omega
    · rw [Nat.add_mul]
      omega
    · rw [Nat.add_sub_cancel, Nat.add_mul, Nat.add_mul]
      rintro (hlow | hhigh)
      · have := htie (by omega)
        omega
      · omega

/-- The nearest pattern is the one whose interval holds the ratio. -/
theorem nearest_of_rounds {num den b : Nat} (hden : 0 < den) (h : Rounds num den b)
    (hb : b ≤ infinity) : nearest num den = b := by
  obtain ⟨b', hrounds, hnearest⟩ := rounds_nearest num hden
  rw [hnearest, hrounds.unique hden h, Nat.min_eq_right hb]

end FlightGen.Binary64
