import Mathlib.Algebra.Order.Field.Power
import Mathlib.Algebra.Order.Field.Rat
import Mathlib.Order.Bounds.Defs
import Mathlib.Tactic.Ring
import TypeLattice.Proofs.NumericLattice

namespace TypeLattice

theorem isLeast_image_iff {ω : Type} [LinearOrder ω] {f : ω → ℕ} (hf : Monotone f) {S : Set ω} {a : ω}
    (h : IsLeast S a) {n : ℕ} : IsLeast (f '' S) n ↔ f a = n :=
  ⟨fun hn => (hf.map_isLeast h).unique hn, fun hn => hn ▸ hf.map_isLeast h⟩

namespace IntWidth

/-- The values of an integer width: a bit for the narrowest, two's complement for the others. -/
def Holds (w : IntWidth) (c : Int64) : Prop :=
  match w with
  | .w1 => 0 ≤ c.toInt ∧ c.toInt < 2
  | w => -2 ^ (w.bits - 1) ≤ c.toInt ∧ c.toInt < 2 ^ (w.bits - 1)

theorem ofConst_eq (c : Int64) : ofConst c =
    if c.toInt = 0 ∨ c.toInt = 1 then .w1
    else if -128 ≤ c.toInt ∧ c.toInt ≤ 127 then .w8
    else if -32768 ≤ c.toInt ∧ c.toInt ≤ 32767 then .w16
    else if -2147483648 ≤ c.toInt ∧ c.toInt ≤ 2147483647 then .w32
    else .w64 := by
  simp only [ofConst, Int64.le_iff_toInt_le, ← Int64.toInt_inj]
  rfl

theorem holds_iff (w : IntWidth) (c : Int64) : w.Holds c ↔ ofConst c ≤ w := by
  have hlow := c.le_toInt
  have hhigh := c.toInt_lt
  have hle (v : IntWidth) : v ≤ w ↔ v.bits ≤ w.bits := Iff.rfl
  rw [hle, ofConst_eq]
  split_ifs <;> cases w <;> simp only [Holds, bits, Nat.reduceSub, Int.reducePow] <;> omega

theorem isLeast_ofConst (c : Int64) : IsLeast {w | w.Holds c} (ofConst c) :=
  ⟨(holds_iff _ c).2 le_rfl, fun w hw => (holds_iff w c).1 hw⟩

theorem bits_roundUp_iff {n : ℕ} : (roundUp n).bits = n ↔ n ∈ all.map bits := by
  constructor
  · intro h
    rw [← h]
    cases roundUp n <;> decide
  · intro h
    obtain ⟨w, -, rfl⟩ := List.mem_map.1 h
    rw [roundUp_bits]

end IntWidth

namespace Binary64

def Single (v : ℚ) : Prop :=
  ∃ (k : ℕ) (q : ℤ), k < 2 ^ 24 ∧ -149 ≤ q ∧ q ≤ 104 ∧ v = k * 2 ^ q

theorem shift (k n : ℕ) (e : ℤ) : (k : ℚ) * 2 ^ (e + n) = (k * 2 ^ n : ℕ) * 2 ^ e := by
  rw [zpow_add₀ two_ne_zero, zpow_natCast]
  push_cast
  ring

theorem scaled_inj {m k : ℕ} {e : ℤ} : (m : ℚ) * 2 ^ e = k * 2 ^ e ↔ m = k := by
  rw [mul_left_inj' (by positivity), Nat.cast_inj]

theorem single_iff {v : ℚ} :
    Single v ↔ v < 2 ^ (128 : ℤ) ∧ ∃ (k : ℕ) (q : ℤ), k < 2 ^ 24 ∧ -149 ≤ q ∧ v = k * 2 ^ q := by
  have hsplit : (2 : ℚ) ^ (128 : ℤ) = 2 ^ 24 * 2 ^ (104 : ℤ) := by norm_num
  have hpos : (0 : ℚ) < 2 ^ (104 : ℤ) := by positivity
  constructor
  · rintro ⟨k, q, hk, hq, hq', rfl⟩
    refine ⟨?_, k, q, hk, hq, rfl⟩
    rw [hsplit]
    exact mul_lt_mul (mod_cast hk) (zpow_le_zpow_right₀ one_le_two hq') (by positivity)
      (by positivity)
  · rintro ⟨hv, k, q, hk, hq, rfl⟩
    rcases le_or_gt q 104 with hq' | hq'
    · exact ⟨k, q, hk, hq, hq', rfl⟩
    · obtain ⟨n, rfl⟩ := Int.le.dest hq'.le
      refine ⟨k * 2 ^ n, 104, ?_, by decide, le_rfl, shift k n 104⟩
      rw [shift, hsplit, mul_lt_mul_iff_left₀ hpos] at hv
      exact_mod_cast hv

theorem value_lt_iff {m : ℕ} (hm : m ≠ 0) (e n : ℤ) :
    (m : ℚ) * 2 ^ e < 2 ^ n ↔ e + (m.log2 + 1 : ℕ) ≤ n := by
  have hpos : (0 : ℚ) < 2 ^ e := by positivity
  have hlow : (2 : ℚ) ^ m.log2 ≤ m := mod_cast Nat.log2_self_le hm
  have hhigh : (m : ℚ) < 2 ^ (m.log2 + 1) := mod_cast Nat.lt_log2_self
  constructor
  · intro h
    have hpow : (2 : ℚ) ^ ((m.log2 : ℤ) + e) < 2 ^ n := by
      rw [zpow_add₀ two_ne_zero, zpow_natCast]
      exact (mul_le_mul_of_nonneg_right hlow hpos.le).trans_lt h
    have hexponent := (zpow_lt_zpow_iff_right₀ one_lt_two).1 hpow
    omega
  · intro h
    calc (m : ℚ) * 2 ^ e < 2 ^ (m.log2 + 1) * 2 ^ e := mul_lt_mul_of_pos_right hhigh hpos
      _ = 2 ^ (((m.log2 + 1 : ℕ) : ℤ) + e) := by rw [zpow_add₀ two_ne_zero, zpow_natCast]
      _ ≤ 2 ^ n := zpow_le_zpow_right₀ one_le_two (by omega)

theorem exists_digits_iff {m : ℕ} (hm : m ≠ 0) (e : ℤ) :
    (∃ (k : ℕ) (q : ℤ), k < 2 ^ 24 ∧ -149 ≤ q ∧ (m : ℚ) * 2 ^ e = k * 2 ^ q) ↔
      2 ^ max (m.log2 + 1 - 24) (-149 - e).toNat ∣ m := by
  constructor
  · rintro ⟨k, q, hk, hq, h⟩
    rcases le_total e q with hle | hle
    · obtain ⟨n, rfl⟩ := Int.le.dest hle
      rw [shift, scaled_inj] at h
      have hlog : m.log2 < 24 + n := by
        rw [Nat.log2_lt hm, h, pow_add]
        exact Nat.mul_lt_mul_of_pos_right hk (Nat.two_pow_pos n)
      have hdropped : max (m.log2 + 1 - 24) (-149 - e).toNat ≤ n := by omega
      exact (Nat.pow_dvd_pow 2 hdropped).trans (h ▸ Nat.dvd_mul_left _ k)
    · obtain ⟨n, rfl⟩ := Int.le.dest hle
      rw [shift, scaled_inj] at h
      have hlog : m.log2 < 24 := by
        rw [Nat.log2_lt hm]
        exact (h ▸ Nat.le_mul_of_pos_right m (Nat.two_pow_pos n)).trans_lt hk
      have hdropped : max (m.log2 + 1 - 24) (-149 - (q + n)).toNat = 0 := by omega
      rw [hdropped]
      exact one_dvd m
  · rintro ⟨k, hk⟩
    generalize hd : max (m.log2 + 1 - 24) (-149 - e).toNat = d at hk
    refine ⟨k, e + d, ?_, by omega, ?_⟩
    · have hm' : m < 2 ^ d * 2 ^ 24 := by
        rw [← pow_add, ← Nat.log2_lt hm]
        omega
      rw [hk] at hm'
      exact Nat.lt_of_mul_lt_mul_left hm'
    · rw [shift, scaled_inj, mul_comm]
      exact hk

theorem fitsSingle_iff (m : ℕ) (e : ℤ) : fitsSingle m e = true ↔ Single (m * 2 ^ e) := by
  by_cases hm : m = 0
  · subst hm
    refine iff_of_true rfl ⟨0, 0, by decide, by decide, by decide, ?_⟩
    simp
  · rw [single_iff, value_lt_iff hm, exists_digits_iff hm, Nat.dvd_iff_mod_eq_zero]
    simp [fitsSingle, hm, and_comm]

/-- Single precision has the number itself, and not only one near to it. -/
def Magnitude.IsSingle : Magnitude → Prop
  | nan | infinite => True
  | finite m e => Single (m * 2 ^ e)

theorem isSingle_iff (x : Binary64) : x.isSingle = true ↔ x.magnitude.IsSingle := by
  rw [isSingle]
  cases x.magnitude with
  | nan | infinite => exact iff_of_true rfl trivial
  | finite m e => exact fitsSingle_iff m e

/-- The pattern of a NaN: the largest exponent, and a fraction. -/
def IsNan (pattern : UInt64) : Prop :=
  pattern.toNat / 0x10000000000000 % 0x800 = 2047 ∧ pattern.toNat % 0x10000000000000 ≠ 0

theorem isNan_iff (pattern : UInt64) :
    IsNan pattern ↔ 0x7FF0000000000000 < pattern &&& 0x7FFFFFFFFFFFFFFF := by
  have hmask : (pattern &&& 0x7FFFFFFFFFFFFFFF).toNat = pattern.toNat % 2 ^ 63 := by
    rw [UInt64.toNat_and]
    exact Nat.and_two_pow_sub_one_eq_mod pattern.toNat 63
  rw [IsNan, UInt64.lt_iff_toNat_lt, hmask]
  change _ ↔ 0x7FF0000000000000 < _
  omega

theorem bits_ofBits_eq_iff (pattern : UInt64) :
    (ofBits pattern).bits = pattern ↔ (IsNan pattern → pattern = 0x7FF8000000000000) := by
  rw [isNan_iff, ofBits]
  split
  · next h => exact ⟨fun heq _ => heq.symm, fun heq => (heq h).symm⟩
  · next h => exact iff_of_true rfl fun h' => absurd h' h

end Binary64

namespace FltWidth

def Holds (w : FltWidth) (x : Binary64) : Prop :=
  match w with
  | .w32 => x.magnitude.IsSingle
  | .w64 => True

theorem holds_iff (w : FltWidth) (x : Binary64) : w.Holds x ↔ ofConst x ≤ w := by
  rw [ofConst]
  cases w with
  | w32 =>
      rw [Holds, ← Binary64.isSingle_iff]
      split_ifs with h
      · exact iff_of_true h le_rfl
      · exact iff_of_false h (by decide)
  | w64 => exact iff_of_true trivial (by split_ifs <;> decide)

theorem isLeast_ofConst (x : Binary64) : IsLeast {w | w.Holds x} (ofConst x) :=
  ⟨(holds_iff _ x).2 le_rfl, fun w hw => (holds_iff w x).1 hw⟩

theorem bits_roundUp_iff {n : ℕ} : (roundUp n).bits = n ↔ n ∈ all.map bits := by
  constructor
  · intro h
    rw [← h]
    cases roundUp n <;> decide
  · intro h
    obtain ⟨w, -, rfl⟩ := List.mem_map.1 h
    rw [roundUp_bits]

end FltWidth

end TypeLattice
