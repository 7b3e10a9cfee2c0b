/-
Hexadecimal numerals.  A text is read as a number exactly when it is one to so
many digits of either case, after an optional mark, and the number is what the
digits are worth in base sixteen.  The mark is no digit throughout, so a text is
a numeral in one way.
-/
import Mathlib.Data.Nat.Digits.Lemmas
import Mathlib.Tactic.Ring
import ShieldedPool.Hex

namespace ShieldedPool.Hex

/-- The character is the digit of a value, in either case. -/
def IsDigitOf (value : Nat) (c : Char) : Prop :=
  value < 16 ∧ (c = digit value ∨ c = (digit value).toUpper)

/-- A text is the numeral of a value: an optional mark, then one to `limit` digits,
the most significant first. -/
def Writes (limit : Nat) (text : String) (value : Nat) : Prop :=
  ∃ (mark digits : List Char) (values : List Nat), (mark = [] ∨ mark = ['0', 'x']) ∧
    text.toList = mark ++ digits ∧ 1 ≤ digits.length ∧ digits.length ≤ limit ∧
    List.Forall₂ IsDigitOf values digits ∧ value = Nat.ofDigits 16 values.reverse

section Digits

variable {c : Char} {value : Nat}

theorem digitValue?_toUpper : ∀ value < 16, digitValue? (digit value).toUpper = some value := by
  decide

theorem toUpper_digit : ∀ value < 16, 10 ≤ value →
    (digit value).toUpper = Char.ofNat (55 + value) := by
  decide

theorem isDigitOf_of_digitValue? (hvalue : digitValue? c = some value) : IsDigitOf value c := by
  have hcode : Char.ofNat c.toNat = c := Char.ofNat_toNat c
  unfold digitValue? at hvalue
  split at hvalue
  · next hrange =>
      have hlow : 48 ≤ c.toNat := UInt32.le_iff_toNat_le.1 hrange.1
      have hhigh : c.toNat ≤ 57 := UInt32.le_iff_toNat_le.1 hrange.2
      obtain rfl := Option.some.inj hvalue
      refine ⟨by omega, .inl ?_⟩
      rw [digit, if_pos (by omega), show 48 + (c.toNat - 48) = c.toNat by omega, hcode]
  · split at hvalue
    · next hrange =>
        have hlow : 97 ≤ c.toNat := UInt32.le_iff_toNat_le.1 hrange.1
        have hhigh : c.toNat ≤ 102 := UInt32.le_iff_toNat_le.1 hrange.2
        obtain rfl := Option.some.inj hvalue
        refine ⟨by omega, .inl ?_⟩
        rw [digit, if_neg (by omega), show 87 + (c.toNat - 87) = c.toNat by omega, hcode]
    · split at hvalue
      · next hrange =>
          have hlow : 65 ≤ c.toNat := UInt32.le_iff_toNat_le.1 hrange.1
          have hhigh : c.toNat ≤ 70 := UInt32.le_iff_toNat_le.1 hrange.2
          obtain rfl := Option.some.inj hvalue
          refine ⟨by omega, .inr ?_⟩
          rw [toUpper_digit _ (by omega) (by omega),
            show 55 + (c.toNat - 55) = c.toNat by omega, hcode]
      · cases hvalue

theorem digitValue?_eq_some_iff : digitValue? c = some value ↔ IsDigitOf value c := by
  constructor
  · exact isDigitOf_of_digitValue?
  · rintro ⟨hlt, rfl | rfl⟩
    · exact digitValue?_digit value hlt
    · exact digitValue?_toUpper value hlt

end Digits

section Numerals

variable {limit value : Nat} {digits : List Char} {text : String}

/-- Digits go on after a number by a power of sixteen for each of them. -/
theorem valueFrom?_eq_some_iff {high : Nat} :
    valueFrom? high digits = some value ↔ ∃ values, List.Forall₂ IsDigitOf values digits ∧
      value = high * 16 ^ digits.length + Nat.ofDigits 16 values.reverse := by
  induction digits generalizing high with
  | nil => simp [valueFrom?, eq_comm]
  | cons c digits ih =>
      have hjoin : ∀ (low : Nat) (values : List Nat), values.length = digits.length →
          (16 * high + low) * 16 ^ digits.length + Nat.ofDigits 16 values.reverse =
            high * 16 ^ (digits.length + 1) + Nat.ofDigits 16 (low :: values).reverse := by
        intro low values hlength
        rw [Nat.ofDigits_reverse_cons, hlength]
        ring
      constructor
      · intro hvalue
        rw [valueFrom?] at hvalue
        split at hvalue
        · next low hlow =>
            obtain ⟨values, hvalues, rfl⟩ := ih.1 hvalue
            exact ⟨low :: values, .cons (digitValue?_eq_some_iff.1 hlow) hvalues,
              hjoin low values hvalues.length_eq⟩
        · cases hvalue
      · rintro ⟨_, _ | ⟨hlow, hvalues⟩, rfl⟩
        rw [valueFrom?, digitValue?_eq_some_iff.2 hlow]
        exact ih.2 ⟨_, hvalues, (hjoin _ _ hvalues.length_eq).symm⟩

theorem stripMark_or (chars : List Char) :
    chars = stripMark chars ∨ chars = '0' :: 'x' :: stripMark chars := by
  unfold stripMark
  split
  · exact .inr rfl
  · exact .inl rfl

/-- Digits do not start with the mark, whose second character is none. -/
theorem stripMark_of_digits {values : List Nat} (hdigits : List.Forall₂ IsDigitOf values digits) :
    stripMark digits = digits := by
  unfold stripMark
  split
  · next rest =>
      rcases hdigits with _ | ⟨-, _ | ⟨hx, -⟩⟩
      have hnone : digitValue? 'x' = none := by decide
      rw [digitValue?_eq_some_iff.2 hx] at hnone
      cases hnone
  · rfl

/-- What is left behind the mark is not empty, not too long, and digits throughout. -/
theorem number?_eq_some_iff_digits :
    number? limit text = some value ↔
      1 ≤ (stripMark text.toList).length ∧ (stripMark text.toList).length ≤ limit ∧
        valueFrom? 0 (stripMark text.toList) = some value := by
  simp only [number?, Bool.or_eq_true, decide_eq_true_eq, List.isEmpty_iff_length_eq_zero]
  split
  · next hrefused =>
      refine iff_of_false (by simp) ?_
      rintro ⟨hlow, hhigh, -⟩
      omega
  · next haccepted =>
      have hlow : 1 ≤ (stripMark text.toList).length := by omega
      have hhigh : (stripMark text.toList).length ≤ limit := by omega
      simp [hlow, hhigh]

/-- The texts that are read are the numerals, each as the number it is written for. -/
theorem number?_eq_some_iff : number? limit text = some value ↔ Writes limit text value := by
  rw [number?_eq_some_iff_digits]
  constructor
  · rintro ⟨hlow, hhigh, hvalue⟩
    obtain ⟨values, hvalues, rfl⟩ := valueFrom?_eq_some_iff.1 hvalue
    have hnumber : 0 * 16 ^ (stripMark text.toList).length + Nat.ofDigits 16 values.reverse =
        Nat.ofDigits 16 values.reverse := by rw [Nat.zero_mul, Nat.zero_add]
    rcases stripMark_or text.toList with hplain | hmarked
    · exact ⟨[], _, values, .inl rfl, hplain, hlow, hhigh, hvalues, hnumber⟩
    · exact ⟨['0', 'x'], _, values, .inr rfl, hmarked, hlow, hhigh, hvalues, hnumber⟩
  · rintro ⟨mark, digits, values, hmark, htext, hlow, hhigh, hvalues, rfl⟩
    have hstripped : stripMark text.toList = digits := by
      rw [htext]
      rcases hmark with rfl | rfl
      · exact stripMark_of_digits hvalues
      · rfl
    rw [hstripped]
    refine ⟨hlow, hhigh, valueFrom?_eq_some_iff.2 ⟨values, hvalues, ?_⟩⟩
    rw [Nat.zero_mul, Nat.zero_add]

theorem lt_of_number? (hvalue : number? limit text = some value) : value < 16 ^ limit := by
  obtain ⟨_, _, values, -, -, -, hlength, hvalues, rfl⟩ := number?_eq_some_iff.1 hvalue
  have hsmall : ∀ v ∈ values, v < 16 := ((List.forall₂_and_left _ _).1 hvalues).1
  have hdigits : ∀ v ∈ values.reverse, v < 16 := fun v hv => hsmall v (List.mem_reverse.1 hv)
  calc Nat.ofDigits 16 values.reverse
      < 16 ^ values.reverse.length := Nat.ofDigits_lt_base_pow_length (by decide) hdigits
    _ ≤ 16 ^ limit := by
        rw [List.length_reverse, hvalues.length_eq]
        exact Nat.pow_le_pow_right (by decide) hlength

end Numerals

end ShieldedPool.Hex
