/-
Reading byte by byte comes to reading numbers.  Byte strings of one length are
ordered as their numbers are, so 32 bytes come before those of the modulus
exactly when their number is below it.  Zeros in front change no number, and only
ASCII characters are digits, so text that is filled up and read in pairs gives
the bytes of the number that the digits write.
-/
import ShieldedPool.Felt.Bytewise
import ShieldedPool.Proofs.Residue.HexNumerals
import ShieldedPool.Proofs.Residue.Hexadecimal
import ShieldedPool.Proofs.Residue.Ring

namespace ShieldedPool

/-- A difference in front outweighs what follows. -/
theorem mul_add_lt_iff {unit high low high' low' : Nat} (hlow : low < unit)
    (hlow' : low' < unit) :
    high * unit + low < high' * unit + low' ↔ high < high' ∨ high = high' ∧ low < low' := by
  rcases Nat.lt_trichotomy high high' with hlt | heq | hgt
  · have hstep := Nat.mul_le_mul_right unit (Nat.succ_le_of_lt hlt)
    rw [Nat.succ_mul] at hstep
    exact iff_of_true (by omega) (.inl hlt)
  · rw [heq]
    omega
  · have hstep := Nat.mul_le_mul_right unit (Nat.succ_le_of_lt hgt)
    rw [Nat.succ_mul] at hstep
    exact iff_of_false (by omega) (by omega)

/-- Byte strings of one length are ordered as their numbers are. -/
theorem Bytes.lt_iff_toNatBE_lt {a b : Bytes} (hlength : a.length = b.length) :
    a < b ↔ toNatBE a < toNatBE b := by
  induction a generalizing b with
  | nil =>
      obtain rfl := List.length_eq_zero_iff.1 hlength.symm
      simp
  | cons x xs ih =>
      rcases b with _ | ⟨y, ys⟩
      · cases hlength
      · have htail : xs.length = ys.length := Nat.succ.inj hlength
        have hxs := toNatBE_lt xs
        rw [htail] at hxs
        rw [List.cons_lt_cons_iff, ih htail, toNatBE_cons, toNatBE_cons, htail,
          mul_add_lt_iff hxs (toNatBE_lt ys), UInt8.lt_iff_toNat_lt, UInt8.toNat_inj]

namespace Residue

variable (n : Nat) [NeZero n]

theorem foldl_gather (high : Nat) (bytes : Bytes) :
    bytes.foldl (fun high byte => high * 256 + ofNat n byte.toNat) (ofNat n high) =
      ofNat n (high * 256 ^ bytes.length + Bytes.toNatBE bytes) := by
  induction bytes generalizing high with
  | nil => simp [Bytes.toNatBE, Bytes.toNatLE]
  | cons byte rest ih =>
      have hstep : ofNat n high * 256 + ofNat n byte.toNat = ofNat n (high * 256 + byte.toNat) := by
        apply toZMod_injective
        simp [toZMod_natCast]
      rw [List.foldl_cons, hstep, ih, Bytes.toNatBE_cons, List.length_cons, Nat.pow_succ]
      congr 1
      ring

theorem gather_eq (bytes : Bytes) : gather n bytes = ofNat n (Bytes.toNatBE bytes) := by
  have hfold := foldl_gather n 0 bytes
  rw [Nat.zero_mul, Nat.zero_add] at hfold
  exact hfold

end Residue

namespace Hex

variable {c : Char} {chars digits : List Char} {width value : Nat}

section Pairs

theorem length_of_decodeDigits? {bytes : Bytes} (hbytes : decodeDigits? chars = some bytes) :
    chars.length = 2 * bytes.length := by
  fun_induction decodeDigits? chars generalizing bytes with
  | case1 =>
      cases hbytes
      rfl
  | case2 => cases hbytes
  | case3 high low rest ih =>
      simp only [Option.bind_eq_bind, Option.bind_eq_some_iff, Option.pure_def] at hbytes
      obtain ⟨_, -, _, -, tail, htail, hbytes⟩ := hbytes
      cases hbytes
      have hlength := ih htail
      simp only [List.length_cons]
      omega

/-- Pairs of digits write the number of their bytes. -/
theorem valueFrom?_eq_map (heven : chars.length % 2 = 0) (high : Nat) :
    valueFrom? high chars = (decodeDigits? chars).map fun bytes =>
      high * 256 ^ bytes.length + Bytes.toNatBE bytes := by
  induction chars using decodeDigits?.induct generalizing high with
  | case1 => simp [valueFrom?, decodeDigits?, Bytes.toNatBE, Bytes.toNatLE]
  | case2 => simp at heven
  | case3 first second rest ih =>
      have hrest : rest.length % 2 = 0 := by
        simp only [List.length_cons] at heven
        omega
      rcases hfirst : digitValue? first with _ | a
      · simp [valueFrom?, decodeDigits?, hfirst]
      · rcases hsecond : digitValue? second with _ | b
        · simp [valueFrom?, decodeDigits?, hfirst, hsecond]
        · have ha := (isDigitOf_of_digitValue? hfirst).1
          have hb := (isDigitOf_of_digitValue? hsecond).1
          have hfits : 16 * a + b < 256 := by omega
          have hbyte : (UInt8.ofNat (16 * a + b)).toNat = 16 * a + b :=
            UInt8.toNat_ofNat_of_lt' hfits
          rcases htail : decodeDigits? rest with _ | bytes
          · simp [valueFrom?, decodeDigits?, hfirst, hsecond, ih hrest, htail]
          · simp only [valueFrom?, decodeDigits?, hfirst, hsecond, ih hrest, htail,
              Option.bind_eq_bind, Option.bind_some, Option.pure_def, Option.map_some,
              Bytes.toNatBE_cons, hbyte, List.length_cons, Nat.pow_succ]
            congr 1
            ring

theorem decodeDigits?_eq_map (hlength : chars.length = 2 * width) :
    decodeDigits? chars = (valueFrom? 0 chars).map (Bytes.ofNatBE width) := by
  have heven : chars.length % 2 = 0 := by omega
  rw [valueFrom?_eq_map heven, Option.map_map]
  rcases hbytes : decodeDigits? chars with _ | bytes
  · rfl
  · have hwidth : width = bytes.length := by
      have hpairs := length_of_decodeDigits? hbytes
      omega
    subst hwidth
    rw [Option.map_some, Function.comp_apply, Nat.zero_mul, Nat.zero_add, Bytes.ofNatBE_toNatBE]

end Pairs

section Text

theorem toNat_lt_of_digitValue? (hvalue : digitValue? c = some value) : c.toNat < 128 := by
  have hascii : ∀ v < 16, (digit v).toNat < 128 ∧ (digit v).toUpper.toNat < 128 := by decide
  obtain ⟨hlt, rfl | rfl⟩ := isDigitOf_of_digitValue? hvalue
  · exact (hascii value hlt).1
  · exact (hascii value hlt).2

theorem digitValue?_of_large (hlarge : 128 ≤ c.toNat) : digitValue? c = none := by
  rcases hvalue : digitValue? c with _ | value
  · rfl
  · have hascii := toNat_lt_of_digitValue? hvalue
    omega

theorem map_utf8EncodeChar (hascii : c.toNat < 128) :
    (String.utf8EncodeChar c).map Char.ofUInt8 = [c] := by
  have hle : c.val.toNat ≤ 0x7f := Nat.le_of_lt_succ hascii
  have hcode : Char.ofUInt8 (UInt8.ofNat c.val.toNat) = c := by
    apply Char.ext
    apply UInt32.toNat.inj
    have hlt : c.val.toNat < 256 := by omega
    exact UInt8.toNat_ofNat_of_lt' hlt
  simp only [String.utf8EncodeChar, if_pos hle, List.map_cons, List.map_nil, hcode]

/-- A character that is not ASCII starts with a byte that is none either. -/
theorem exists_lead (hlarge : 128 ≤ c.toNat) :
    ∃ lead tail, (String.utf8EncodeChar c).map Char.ofUInt8 = lead :: tail ∧
      128 ≤ lead.toNat := by
  have hlead : ∀ byte, 128 ≤ byte → byte < 256 →
      128 ≤ (Char.ofUInt8 (UInt8.ofNat byte)).toNat := by
    intro byte hlow hhigh
    have hcode : (Char.ofUInt8 (UInt8.ofNat byte)).toNat = byte :=
      UInt8.toNat_ofNat_of_lt' hhigh
    omega
  have hnot : ¬ c.val.toNat ≤ 0x7f := Nat.not_le.2 hlarge
  simp only [String.utf8EncodeChar, if_neg hnot]
  -- two, three or four bytes
  split
  · exact ⟨_, _, rfl, hlead _ (by omega) (by omega)⟩
  · split
    · exact ⟨_, _, rfl, hlead _ (by omega) (by omega)⟩
    · exact ⟨_, _, rfl, hlead _ (by omega) (by omega)⟩

theorem valueFrom?_utf8 (high : Nat) (chars : List Char) :
    valueFrom? high ((utf8 chars).map Char.ofUInt8) = valueFrom? high chars := by
  induction chars generalizing high with
  | nil => rfl
  | cons c rest ih =>
      rw [utf8, List.flatMap_cons, List.map_append]
      by_cases hascii : c.toNat < 128
      · rw [map_utf8EncodeChar hascii, List.singleton_append, valueFrom?, valueFrom?]
        cases digitValue? c with
        | none => rfl
        | some low => exact ih _
      · have hlarge : 128 ≤ c.toNat := Nat.not_lt.1 hascii
        obtain ⟨lead, tail, hbytes, hlead⟩ := exists_lead hlarge
        rw [hbytes, List.cons_append, valueFrom?, valueFrom?, digitValue?_of_large hlarge,
          digitValue?_of_large hlead]

/-- A digit is one byte of text. -/
theorem length_utf8 {high : Nat} (hvalue : valueFrom? high chars = some value) :
    (utf8 chars).length = chars.length := by
  induction chars generalizing high with
  | nil => rfl
  | cons c rest ih =>
      rw [valueFrom?] at hvalue
      split at hvalue
      · next low hlow =>
          have hone := congrArg List.length (map_utf8EncodeChar (toNat_lt_of_digitValue? hlow))
          rw [List.length_map, List.length_singleton] at hone
          have hrest : (rest.flatMap String.utf8EncodeChar).length = rest.length := ih hvalue
          rw [utf8, List.flatMap_cons, List.length_append, hone, hrest, List.length_cons,
            Nat.add_comm]
      · cases hvalue

theorem valueFrom?_leftpad (count : Nat) (digits : List Char) :
    valueFrom? 0 (digits.leftpad count '0') = valueFrom? 0 digits := by
  rw [List.leftpad]
  induction count - digits.length with
  | zero => rfl
  | succ zeros ih =>
      have hzero : digitValue? '0' = some 0 := by decide
      rw [List.replicate_succ, List.cons_append, valueFrom?, hzero]
      exact ih

/-- Digits that are filled up write the bytes of their number. -/
theorem decodeBytes?_filled
    (hlength : (utf8 (digits.leftpad (2 * width) '0')).length = 2 * width) :
    decodeBytes? (utf8 (digits.leftpad (2 * width) '0')) =
      (valueFrom? 0 digits).map (Bytes.ofNatBE width) := by
  rw [decodeBytes?, decodeDigits?_eq_map (by rwa [List.length_map]), valueFrom?_utf8,
    valueFrom?_leftpad]

/-- The bytes that are read are those of the number that is read. -/
theorem fill?_eq_map (width : Nat) (text : String) :
    fill? width text = (number? (2 * width) text).map (Bytes.ofNatBE width) := by
  simp only [fill?, number?]
  generalize stripMark text.toList = digits
  rcases hvalue : valueFrom? 0 digits with _ | value
  · -- whichever check refuses, what is no digit is not read
    rw [ite_self, Option.map_none]
    split
    · rfl
    · split
      · next hlength => rw [decodeBytes?_filled hlength, hvalue, Option.map_none]
      · rfl
  · have hfilled : valueFrom? 0 (digits.leftpad (2 * width) '0') = some value := by
      rw [valueFrom?_leftpad, hvalue]
    have hlength := length_utf8 hfilled
    rw [List.length_leftpad] at hlength
    rw [length_utf8 hvalue]
    split
    · rfl
    · next haccepted =>
        have hfits : digits.length ≤ 2 * width := by
          simp only [Bool.or_eq_true, decide_eq_true_eq, not_or, Nat.not_lt] at haccepted
          exact haccepted.2
        rw [max_eq_left hfits] at hlength
        rw [if_pos hlength, decodeBytes?_filled hlength, hvalue]

end Text

end Hex

end ShieldedPool
