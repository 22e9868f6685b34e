import Mathlib.Data.List.DropRight
import Mathlib.Tactic.Linarith
import Mathlib.Tactic.Ring
import FlightGen.Proofs.Binary64
import FlightGen.Value

/-! Decimals that stand for binary64 numbers. The shortest decimal of a number rounds to it,
and so does the decimal that is read from the text of a number. -/

namespace FlightGen

namespace Decimal

open Binary64 (Rounds units units_strictMono units_shift infinity nearest nearest_of_rounds)

/-! ### Rounding -/

/-- The decimal in units, over its denominator. -/
def numerator (d : Decimal) : Nat := d.digits * 10 ^ d.exponent.toNat * 2 ^ 1074

def denominator (d : Decimal) : Nat := 10 ^ (-d.exponent).toNat

theorem denominator_pos (d : Decimal) : 0 < d.denominator := Nat.pow_pos (by decide)

def RoundsTo (d : Decimal) (b : Nat) : Prop := Rounds d.numerator d.denominator b

/-- Zeros of the digits may as well stand in the exponent. -/
theorem roundsTo_shift {m k b : Nat} {e : Int} :
    RoundsTo ⟨m * 10 ^ k, e⟩ b ↔ RoundsTo ⟨m, e + k⟩ b := by
  have hratio : numerator ⟨m * 10 ^ k, e⟩ * denominator ⟨m, e + k⟩ =
      numerator ⟨m, e + k⟩ * denominator ⟨m * 10 ^ k, e⟩ := by
    have hexponent : k + e.toNat + (-(e + k)).toNat = (e + k).toNat + (-e).toNat := by omega
    simp only [numerator, denominator]
    generalize 2 ^ 1074 = u
    calc m * 10 ^ k * 10 ^ e.toNat * u * 10 ^ (-(e + k)).toNat
        = m * u * 10 ^ (k + e.toNat + (-(e + k)).toNat) := by ring
      _ = m * 10 ^ (e + k).toNat * u * 10 ^ (-e).toNat := by rw [hexponent]; ring
  exact ⟨fun h => h.scale (denominator_pos _) (denominator_pos _) hratio,
    fun h => h.scale (denominator_pos _) (denominator_pos _) hratio.symm⟩

theorem rounds_exact {num den b : Nat} (hden : 0 < den) (h : num = units b * den) :
    Rounds num den b := by
  have hprev : units (b - 1) * den ≤ units b * den :=
    Nat.mul_le_mul_right _ (units_strictMono.monotone (Nat.sub_le _ _))
  have hnext : units b * den < units (b + 1) * den :=
    Nat.mul_lt_mul_of_pos_right (units_strictMono (Nat.lt_succ_self b)) hden
  refine ⟨?_, ?_, ?_⟩
  · rw [Nat.add_mul]
    omega
  · rw [Nat.add_mul]
    omega
  · rw [Nat.add_mul, Nat.add_mul]
    rintro (hlow | hhigh)
    · have hsame : units (b - 1) = units b := Nat.eq_of_mul_eq_mul_right hden (by omega)
      have := units_strictMono.injective hsame
      omega
    · omega

theorem units_infinity : units infinity = 2 ^ 52 * 2 ^ 2046 := by
  have hinf : infinity = 2046 * 2 ^ 52 + 2 ^ 52 := rfl
  rw [hinf, units_shift (by decide) (.inr le_rfl)]

/-- What rounds to a finite number is too small for a large exponent. -/
theorem RoundsTo.exponent_le {d : Decimal} {b : Nat} (h : d.RoundsTo b) (hb : b < infinity)
    (hdigits : d.digits ≠ 0) : d.exponent ≤ 400 := by
  by_contra hlarge
  have hhigh := h.high
  have hden : d.denominator = 1 := by
    rw [denominator, Int.toNat_eq_zero.2 (by omega), Nat.pow_zero]
  have hself : units b ≤ units infinity := units_strictMono.monotone hb.le
  have hnext : units (b + 1) ≤ units infinity := units_strictMono.monotone hb
  have hten : 2 ^ (3 * 401) ≤ 10 ^ d.exponent.toNat :=
    calc 2 ^ (3 * 401) = (2 ^ 3) ^ 401 := Nat.pow_mul ..
      _ ≤ 10 ^ 401 := Nat.pow_le_pow_left (by decide) 401
      _ ≤ 10 ^ d.exponent.toNat := Nat.pow_le_pow_right (by decide) (by omega)
  have hnum : 2 ^ (3 * 401) * 2 ^ 1074 ≤ d.numerator :=
    Nat.mul_le_mul_right _ (hten.trans (Nat.le_mul_of_pos_left _ (by omega)))
  have hsep : 2 ^ 52 * 2 ^ 2046 < 2 ^ (3 * 401) * 2 ^ 1074 := by
    rw [← Nat.pow_add, ← Nat.pow_add]
    exact Nat.pow_lt_pow_right (by decide) (by decide)
  rw [hden] at hhigh
  rw [units_infinity] at hself hnext
  omega

/-- What rounds to a positive number is too large for a very negative exponent. -/
theorem RoundsTo.le_exponent {d : Decimal} {b : Nat} (h : d.RoundsTo b) (hb : 0 < b) :
    -400 ≤ d.exponent + Nat.log2 d.digits + 1 := by
  by_contra hsmall
  obtain ⟨k, hk⟩ : ∃ k : Nat, d.exponent = -k := ⟨(-d.exponent).toNat, by omega⟩
  have hlow := h.low
  have hden : d.denominator = 10 ^ k := by rw [denominator, hk, neg_neg, Int.toNat_natCast]
  have hnum : d.numerator = d.digits * 2 ^ 1074 := by
    rw [numerator, hk, Int.toNat_eq_zero.2 (by omega), Nat.pow_zero, Nat.mul_one]
  have hpos : 0 < units b := Nat.pos_of_ne_zero fun h0 =>
    hb.ne' (units_strictMono.injective (h0.trans (by decide : 0 = units 0)))
  have hdigits : d.digits < 2 ^ (k - 400) :=
    Nat.lt_log2_self.trans_le (Nat.pow_le_pow_right (by decide) (by omega))
  have hten : 2 ^ (3 * k) ≤ 10 ^ k := by
    rw [Nat.pow_mul]
    exact Nat.pow_le_pow_left (by decide) k
  have hone : 10 ^ k ≤ (units (b - 1) + units b) * 10 ^ k := Nat.le_mul_of_pos_left _ (by omega)
  have hbound : d.digits * 2 ^ 1074 ≤ 2 ^ (k - 400) * 2 ^ 1074 := Nat.mul_le_mul_right _ hdigits.le
  have hsep : 2 * (2 ^ (k - 400) * 2 ^ 1074) < 2 ^ (3 * k) := by
    rw [← Nat.pow_add, ← Nat.pow_succ']
    exact Nat.pow_lt_pow_right (by decide) (by omega)
  rw [hden, hnum] at hlow
  omega

/-- A decimal is read as the number to which it rounds. -/
theorem toFloat_of_roundsTo {d : Decimal} {b : Nat} (h : d.RoundsTo b) (hb : b < infinity) :
    d.toFloat = Float.ofBits b.toUInt64 := by
  unfold toFloat
  simp only
  congr 2
  split_ifs with hzero hlarge hsmall
  · have hnum : d.numerator = units 0 * d.denominator := by
      rw [numerator, hzero, Nat.zero_mul, Nat.zero_mul]
      exact (Nat.zero_mul _).symm
    exact (rounds_exact (denominator_pos d) hnum).unique (denominator_pos d) h
  · have := h.exponent_le hb hzero
    omega
  · by_contra hne
    have := h.le_exponent (Nat.pos_of_ne_zero (Ne.symm hne))
    omega
  · exact nearest_of_rounds (denominator_pos d) h hb.le

/-! ### The shortest decimal -/

theorem compareHalves_eq (d : Decimal) (halves : Nat) :
    d.compareHalves halves = compare (2 * d.numerator) (halves * d.denominator) := by
  have htwice : ∀ k, d.digits * 10 ^ d.exponent.toNat * 2 ^ (k + 1) =
      2 * (d.digits * 10 ^ d.exponent.toNat * 2 ^ k) := fun k => by ring
  unfold compareHalves numerator denominator
  simp only [Nat.pow_eq]
  rw [← htwice 1074]

theorem RoundsTo.of_readsAs {d : Decimal} {b : Nat} (h : d.readsAs b = true) : d.RoundsTo b := by
  simp only [readsAs, compareHalves_eq, Bool.and_eq_true, Bool.or_eq_true, beq_iff_eq,
    Nat.compare_eq_gt, Nat.compare_eq_lt, Nat.compare_eq_eq] at h
  exact ⟨by omega, by omega, by omega⟩

theorem pick_cases {tie : Tie} {floor n : Nat} {middle : Ordering} {down up : Bool}
    (h : pick tie floor middle down up = some n) :
    n = floor ∧ down = true ∨ n = floor + 1 ∧ up = true := by
  unfold pick at h
  grind

theorem RoundsTo.of_onGrid {tie : Tie} {b : Nat} {e : Int} {d : Decimal}
    (h : onGrid tie b e = some d) : d.RoundsTo b := by
  obtain ⟨n, hpick, rfl⟩ := Option.map_eq_some_iff.1 h
  obtain ⟨rfl, hreads⟩ | ⟨rfl, hreads⟩ := pick_cases hpick
  · exact .of_readsAs hreads
  · exact .of_readsAs hreads

theorem roundsTo_exact (b : Nat) : (exact b).RoundsTo b := by
  refine rounds_exact (denominator_pos _) ?_
  have hten : ∀ k : Nat, 5 ^ k * 2 ^ k = 10 ^ k := fun k => (Nat.mul_pow 5 2 k).symm
  simp only [numerator, denominator, exact, Nat.pow_eq, Int.reduceNeg, Int.reduceToNat, neg_neg,
    Nat.pow_zero, Nat.mul_one, Nat.mul_assoc, hten]

theorem digitsValue_zeros (cs : List Char) (k : Nat) :
    digitsValue (cs ++ List.replicate k '0') = digitsValue cs * 10 ^ k := by
  rw [digitsValue, Nat.ofDigitChars_append, Nat.ofDigitChars_replicate_zero, Nat.mul_comm]
  rfl

/-- Stripping moves a power of ten that divides the digits. -/
theorem strip_eq (d : Decimal) :
    ∃ zeros : Nat, d.strip.digits * 10 ^ zeros = d.digits ∧ d.strip.exponent = d.exponent + zeros := by
  let last := (Nat.toDigits 10 d.digits).rtakeWhile (· == '0')
  let front := (Nat.toDigits 10 d.digits).rdropWhile (· == '0')
  have hlast : last = List.replicate last.length '0' := by
    refine List.eq_replicate_of_mem fun c hc => ?_
    simpa using List.mem_rtakeWhile_imp hc
  have hsplit : Nat.toDigits 10 d.digits = front ++ List.replicate last.length '0' := by
    rw [← hlast]
    exact List.rdropWhile_append_rtakeWhile.symm
  have hdigits : d.digits = digitsValue front * 10 ^ last.length := by
    rw [← digitsValue_zeros, ← hsplit]
    exact Nat.ofDigitChars_ten_toDigits.symm
  have hzeros : ((Nat.toDigits 10 d.digits).reverse.takeWhile (· == '0')).length = last.length := by
    simp [last, List.rtakeWhile]
  refine ⟨last.length, ?_, by simp only [strip, hzeros]⟩
  simp only [strip, hzeros, Nat.pow_eq]
  exact Nat.div_mul_cancel ⟨_, hdigits.trans (Nat.mul_comm ..)⟩

theorem RoundsTo.strip {d : Decimal} {b : Nat} (h : d.RoundsTo b) : d.strip.RoundsTo b := by
  obtain ⟨zeros, hdigits, hexponent⟩ := d.strip_eq
  have hshift := roundsTo_shift (m := d.strip.digits) (k := zeros) (b := b) (e := d.exponent)
  rw [hdigits, ← hexponent] at hshift
  exact hshift.1 h

theorem roundsTo_shortest (tie : Tie) (b : Nat) : (shortest tie b).RoundsTo b := by
  apply RoundsTo.strip
  cases hfound : (List.range 17).findSome? fun n : Nat => onGrid tie b (scale b - (n + 1)) with
  | none => exact roundsTo_exact b
  | some d =>
    obtain ⟨n, -, hd⟩ := List.exists_of_findSome?_eq_some hfound
    exact .of_onGrid hd

/-! ### Plain text -/

/-- Text without an exponent: digits, and perhaps a point and digits after it. -/
inductive Plain : List Char → Decimal → Prop
  | whole {cs} : cs ≠ [] → (∀ c ∈ cs, c.isDigit) → Plain cs ⟨digitsValue cs, 0⟩
  | point {cs fraction} : cs ≠ [] → (∀ c ∈ cs, c.isDigit) → (∀ c ∈ fraction, c.isDigit) →
      Plain (cs ++ '.' :: fraction) ⟨digitsValue (cs ++ fraction), -fraction.length⟩

namespace Plain

variable {cs : List Char} {d : Decimal}

theorem read_eq (h : Plain cs d) : read? cs = some d := by
  cases h with
  | whole hne hcs =>
    have htake : cs.takeWhile Char.isDigit = cs := List.takeWhile_eq_self_iff.2 hcs
    have hdrop : cs.dropWhile Char.isDigit = [] := List.dropWhile_eq_nil_iff.2 hcs
    simp [read?, htake, hdrop, hne, readExponent?]
  | @point ws fraction hne hws hfraction =>
    have htake : (ws ++ '.' :: fraction).takeWhile Char.isDigit = ws := by
      rw [List.takeWhile_append_of_pos hws, List.takeWhile_cons_of_neg (by decide), List.append_nil]
    have hdrop : (ws ++ '.' :: fraction).dropWhile Char.isDigit = '.' :: fraction := by
      rw [List.dropWhile_append_of_pos hws, List.dropWhile_cons_of_neg (by decide)]
    have htake' : fraction.takeWhile Char.isDigit = fraction :=
      List.takeWhile_eq_self_iff.2 hfraction
    have hdrop' : fraction.dropWhile Char.isDigit = [] := List.dropWhile_eq_nil_iff.2 hfraction
    simp [read?, htake, hdrop, htake', hdrop', hne, readExponent?]

theorem eq_cons (h : Plain cs d) : ∃ c run, cs = c :: run ∧ c.isDigit ∧
    ∀ c ∈ run, c.isDigit || c == '.' := by
  cases h with
  | whole hne hcs =>
    obtain ⟨c, run, rfl⟩ := List.exists_cons_of_ne_nil hne
    exact ⟨c, run, rfl, hcs c (by simp), fun c hc => by simp [hcs c (by simp [hc])]⟩
  | point hne hcs hfraction =>
    obtain ⟨c, run, rfl⟩ := List.exists_cons_of_ne_nil hne
    refine ⟨c, _, rfl, hcs c (by simp), fun c hc => ?_⟩
    obtain hc | rfl | hc : c ∈ run ∨ c = '.' ∨ c ∈ _ := by simpa using hc
    · simp [hcs c (by simp [hc])]
    · rfl
    · simp [hfraction c hc]

end Plain

theorem isDigit_toDigits {n : Nat} : ∀ c ∈ Nat.toDigits 10 n, c.isDigit :=
  fun _ => Nat.isDigit_of_mem_toDigits (by decide) le_rfl

theorem isDigit_zeros {k : Nat} : ∀ c ∈ List.replicate k '0', c.isDigit := by
  intro c hc
  rw [List.eq_of_mem_replicate hc]
  rfl

theorem digitsValue_toDigits (m : Nat) : digitsValue (Nat.toDigits 10 m) = m :=
  Nat.ofDigitChars_ten_toDigits

/-- A point among the digits. -/
theorem plain_among {m places : Nat} (h : places < (Nat.toDigits 10 m).length) :
    Plain ((Nat.toDigits 10 m).take ((Nat.toDigits 10 m).length - places) ++
      '.' :: (Nat.toDigits 10 m).drop ((Nat.toDigits 10 m).length - places)) ⟨m, -places⟩ := by
  set whole := (Nat.toDigits 10 m).length - places with hwhole
  have hdigits : ∀ c ∈ (Nat.toDigits 10 m).take whole ++ (Nat.toDigits 10 m).drop whole,
      c.isDigit = true := by
    rw [List.take_append_drop]
    exact isDigit_toDigits
  obtain ⟨htake, hdrop⟩ := List.forall_mem_append.1 hdigits
  have hlength : ((Nat.toDigits 10 m).drop whole).length = places := by
    rw [List.length_drop]
    omega
  have hplain := Plain.point (List.ne_nil_of_length_pos (by rw [List.length_take]; omega)) htake hdrop
  rwa [List.take_append_drop, digitsValue_toDigits, hlength] at hplain

/-- A point before the digits, with zeros in between. -/
theorem plain_before {m places : Nat} (h : (Nat.toDigits 10 m).length ≤ places) :
    Plain ('0' :: '.' :: (List.replicate (places - (Nat.toDigits 10 m).length) '0' ++
      Nat.toDigits 10 m)) ⟨m, -places⟩ := by
  set zeros := List.replicate (places - (Nat.toDigits 10 m).length) '0' with hzeros
  have hplain := @Plain.point ['0'] (zeros ++ Nat.toDigits 10 m) (by simp) (by simp)
    (List.forall_mem_append.2 ⟨isDigit_zeros, isDigit_toDigits⟩)
  have hlength : (zeros ++ Nat.toDigits 10 m).length = places := by
    rw [List.length_append, hzeros, List.length_replicate]
    omega
  have hvalue : digitsValue (['0'] ++ (zeros ++ Nat.toDigits 10 m)) = m := by
    have hnothing : Nat.ofDigitChars 10 (['0'] ++ zeros) 0 = 0 := by
      rw [Nat.ofDigitChars_append, hzeros, Nat.ofDigitChars_replicate_zero]
      rfl
    rw [← List.append_assoc, digitsValue, Nat.ofDigitChars_append, hnothing]
    exact digitsValue_toDigits m
  rwa [hlength, hvalue] at hplain

/-- The positional spelling is plain, and stands for the same number. -/
theorem plain_positional (d : Decimal) :
    ∃ d', Plain d.positional.toList d' ∧ ∀ b, d'.RoundsTo b ↔ d.RoundsTo b := by
  obtain ⟨m, e⟩ := d
  simp only [positional]
  split_ifs with hexponent hplaces
  · refine ⟨_, .whole ?_ ?_, fun b => ?_⟩
    · simp [Nat.toDigits_ne_nil]
    · rw [String.toList_ofList]
      exact List.forall_mem_append.2 ⟨isDigit_toDigits, isDigit_zeros⟩
    · rw [String.toList_ofList, digitsValue_zeros, digitsValue_toDigits, roundsTo_shift,
        Int.toNat_of_nonneg hexponent, zero_add]
  · obtain ⟨places, rfl⟩ : ∃ places : Nat, e = -places := ⟨(-e).toNat, by omega⟩
    rw [neg_neg, Int.toNat_natCast] at hplaces ⊢
    rw [String.toList_ofList]
    exact ⟨_, plain_among hplaces, fun b => .rfl⟩
  · obtain ⟨places, rfl⟩ : ∃ places : Nat, e = -places := ⟨(-e).toNat, by omega⟩
    rw [neg_neg, Int.toNat_natCast] at hplaces ⊢
    rw [String.toList_ofList]
    exact ⟨_, plain_before (Nat.le_of_not_lt hplaces), fun b => .rfl⟩

end Decimal

/-- A whole number rounds to itself. -/
theorem Decimal.roundsTo_integer {bits n : Nat} (h : Binary64.integer? bits = some n) :
    RoundsTo ⟨n, 0⟩ bits := by
  simp only [Binary64.integer?, Nat.pow_eq, Option.ite_none_right_eq_some, Option.some.injEq] at h
  obtain ⟨hwhole, rfl⟩ := h
  refine rounds_exact (denominator_pos _) ?_
  simp only [numerator, denominator, neg_zero, Int.toNat_zero, Nat.pow_zero, Nat.mul_one]
  exact Nat.div_mul_cancel (Nat.dvd_of_mod_eq_zero hwhole)

open Decimal (Plain)

theorem signed_false (text : String) : signed false text = text := by
  simp [signed]

/-- The literal of a finite number without a sign is plain and reads back as the number. -/
theorem plain_literalText {x : Float} {bits : Nat} (h : Binary64.form x = .finite false bits) :
    ∃ d, Plain (literalText x).toList d ∧ d.toFloat = x := by
  obtain ⟨hfinite, hx⟩ := Binary64.form_eq_finite h
  suffices ∃ d, Plain (literalText x).toList d ∧ d.RoundsTo bits by
    obtain ⟨d, hplain, hrounds⟩ := this
    exact ⟨d, hplain, (Decimal.toFloat_of_roundsTo hrounds hfinite).trans hx⟩
  simp only [literalText, h]
  cases hinteger : Binary64.integer? bits with
  | none =>
    obtain ⟨d, hplain, hsame⟩ := (Decimal.shortest .up bits).plain_positional
    have hrounds := (hsame bits).2 (Decimal.roundsTo_shortest .up bits)
    refine ⟨d, ?_, hrounds⟩
    simp only [fractionText, signed_false]
    exact hplain
  | some n =>
    simp only [signed_false]
    have hplain := Plain.point (@Nat.toDigits_ne_nil n 10) Decimal.isDigit_toDigits
      (show ∀ c ∈ ['0'], c.isDigit = true by simp)
    have hvalue : Decimal.digitsValue (Nat.toDigits 10 n ++ ['0']) = n * 10 ^ 1 := by
      rw [show ['0'] = List.replicate 1 '0' from rfl, Decimal.digitsValue_zeros]
      exact congrArg (· * 10 ^ 1) Nat.ofDigitChars_ten_toDigits
    have htext : (toString n ++ ".0").toList = Nat.toDigits 10 n ++ '.' :: ['0'] := by
      rw [Nat.toString_eq_ofList_toDigits, String.toList_append, String.toList_ofList]
      rfl
    have hexponent : -(['0'].length : Int) + (1 : Nat) = 0 := rfl
    have hrounds := Decimal.roundsTo_integer hinteger
    rw [← hexponent, ← Decimal.roundsTo_shift, ← hvalue] at hrounds
    rw [← htext] at hplain
    exact ⟨_, hplain, hrounds⟩

end FlightGen
