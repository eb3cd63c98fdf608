import Mathlib.Algebra.Order.Ring.Int
import Mathlib.Algebra.Ring.Int.Parity
import TypeLattice.Proofs.IntegerValues

namespace TypeLattice

namespace FltWidth

variable {w : FltWidth} {x : ℤ}

/-- The integers of a floating width: as many significant bits as it has, at any place. -/
def Represents (w : FltWidth) (x : ℤ) : Prop :=
  ∃ (m : ℤ) (e : ℕ), |m| < 2 ^ w.precision ∧ x = m * 2 ^ e

theorem represents_of_abs_le (h : |x| ≤ 2 ^ w.precision) : w.Represents x := by
  rcases h.lt_or_eq with hlt | hbound
  · exact ⟨x, 0, hlt, by rw [pow_zero, mul_one]⟩
  · -- the bound has one bit more, but all except the first are zero
    have hone : (1 : ℤ) < 2 ^ w.precision := one_lt_pow₀ one_lt_two (by cases w <;> decide)
    rcases (abs_eq (by positivity)).1 hbound with hx | hx
    · exact ⟨1, w.precision, by rwa [abs_one], by rw [hx, one_mul]⟩
    · exact ⟨-1, w.precision, by rwa [abs_neg, abs_one], by rw [hx, neg_one_mul]⟩

theorem not_represents_of_odd (hodd : Odd x) (h : 2 ^ w.precision ≤ |x|) : ¬w.Represents x := by
  rintro ⟨m, e, hm, rfl⟩
  cases e with
  | zero =>
      rw [pow_zero, mul_one] at h
      exact absurd hm h.not_gt
  | succ e =>
      have heven : Even (m * 2 ^ (e + 1)) := (even_two.pow_of_ne_zero e.succ_ne_zero).mul_left m
      exact Int.not_even_iff_odd.2 hodd heven

end FltWidth

theorem IntWidth.abs_le_of_mem_values {v : IntWidth} {x : ℤ} (h : x ∈ v.values) :
    |x| ≤ 2 ^ v.bits := by
  obtain ⟨c, rfl⟩ := exists_of_mem_values h
  have hpow : 2 ^ (ofConst c).bits ≤ 2 ^ v.bits :=
    Nat.pow_le_pow_right (Nat.succ_pos 1) (toInt_mem_values.1 h)
  rw [Int.abs_eq_natAbs]
  exact_mod_cast (natAbs_le_ofConst c).trans hpow

namespace Numeric

variable {m : Numeric IntWidth Int64} {w : FltWidth} {x : ℤ}

theorem represents_of_isExactAt (h : m.isExactAt w = true) (hx : x ∈ m.values) : w.Represents x := by
  apply FltWidth.represents_of_abs_le
  cases m with
  | const c =>
      rw [Set.mem_singleton_iff.1 hx, Int.abs_eq_natAbs]
      exact_mod_cast isExactAt_const.1 h
  | range i v =>
      have hbits : v.bits ≤ w.precision := of_decide_eq_true h
      exact (IntWidth.abs_le_of_mem_values hx).trans (pow_le_pow_right₀ one_le_two hbits)

theorem exists_not_represents {i : Half} {v : IntWidth} (h : ¬(range i v).isExactAt w = true) :
    ∃ x ∈ v.values, ¬w.Represents x := by
  have hmem : (2 ^ w.precision + 1 : ℤ) ∈ v.values := by
    revert h
    cases v <;> cases w <;> simp [isExactAt, IntWidth.bits, FltWidth.precision, IntWidth.values]
  have heven : Even (2 ^ w.precision : ℤ) := even_two.pow_of_ne_zero (by cases w <;> decide)
  refine ⟨_, hmem, FltWidth.not_represents_of_odd heven.add_one ?_⟩
  exact (Int.le_add_one le_rfl).trans (le_abs_self _)

end Numeric

theorem Ty.classify_int_flt {m : Numeric IntWidth Int64} (hm : m.half = .bottom) (w : FltWidth) :
    classify (ofAtom (.int m)) (ofAtom (.flt (.range .bottom w))) =
      if m.isExactAt w then .bitChanging else .incompatible := by
  rw [classify_atoms (a := .int m) hm rfl, if_neg nofun]
  rfl

namespace Store

variable {s : Store} {a b : Handle} {m : Numeric IntWidth Int64} {w : FltWidth}
  {log : List (Record Handle)}

theorem classify_eq_bitChanging_iff (hs : s.Sound) (ha : s.HoldsInt a m)
    (hb : s.Denotes b (.ofAtom (.flt (.range .bottom w)))) :
    s.classify a b = .bitChanging ↔ m.isExactAt w = true := by
  rw [classify_tree hs ha.holds hb.1, (ha.denotes hs).2, hb.2, Ty.classify_int_flt ha.settled]
  cases m.isExactAt w <;> decide

/-- An integer type may become a float only if the float has each of its integers; a range that may
not has an integer that the float lacks. The test of a constant never overflows: it is that of its
distance from zero against the bound, also for the least one. -/
theorem integers_become_floats_exactly (h : s.History log) (ha : s.HoldsInt a m) (hb : s.Holds b)
    (hw : s.node b = .atom (.flt (.range .bottom w))) :
    (s.classify a b = .bitChanging → ∀ x ∈ m.values, w.Represents x) ∧
    (m.isConst = false → s.classify a b ≠ .bitChanging → ∃ x ∈ m.values, ¬w.Represents x) ∧
    ∀ c, m = .const c → c.abs.toUInt64.toNat = c.toInt.natAbs ∧
      ((1 : UInt64) <<< w.precision.toUInt64).toNat = 2 ^ w.precision ∧
      (s.classify a b = .bitChanging ↔ |c.toInt| ≤ 2 ^ w.precision) := by
  have hs := h.sound
  have htb := denotes_of_node hs.descends hb hw
  rw [ne_eq, classify_eq_bitChanging_iff hs ha htb]
  refine ⟨fun hexact x => Numeric.represents_of_isExactAt hexact, ?_, ?_⟩
  · intro hconst hexact
    cases m with
    | const => cases hconst
    | range i v => exact Numeric.exists_not_represents hexact
  · rintro c rfl
    refine ⟨Numeric.toNat_abs c, w.toNat_shift, ?_⟩
    rw [Numeric.isExactAt_const, Int.abs_eq_natAbs, ← Int.ofNat_le, Int.natCast_pow]
    rfl

/-- The bound itself becomes a float, the least constant does not, and of the integers of 32 bits
single precision lacks some. -/
theorem boundary_integers_as_floats : ∃ (s : Store) (a b : Handle) (log : List (Record Handle)),
    s.History log ∧ s.HoldsInt a (.const 16777216) ∧ s.HoldsInt b (.const Int64.minValue) ∧
    s.classify a Preset.flt32.handle = .bitChanging ∧ FltWidth.w32.Represents 16777216 ∧
    s.classify b Preset.flt64.handle ≠ .bitChanging ∧
    ∃ x ∈ IntWidth.w32.values, ¬FltWidth.w32.Represents x := by
  obtain ⟨s, a, b, hs, ha, hb⟩ := exists_two_stored (Ty.normal_ofAtom (.int (.const 16777216)))
    (Ty.normal_ofAtom (.int (.const Int64.minValue)))
  obtain ⟨log, hlog⟩ := hs.exists_history
  have hsound := hs.sound
  have hbound := HoldsInt.of_denotes hsound ha rfl
  have hleast := HoldsInt.of_denotes hsound hb rfl
  have hint := HoldsInt.of_denotes hsound (tree_preset hsound .int32) rfl
  obtain ⟨hheld, hnode⟩ := hsound.preset .flt32
  obtain ⟨hheld', hnode'⟩ := hsound.preset .flt64
  obtain ⟨hkept, -, hconst⟩ := integers_become_floats_exactly hlog hbound hheld hnode
  obtain ⟨-, -, hconst'⟩ := integers_become_floats_exactly hlog hleast hheld' hnode'
  obtain ⟨-, hlost, -⟩ := integers_become_floats_exactly hlog hint hheld hnode
  have hbecomes : s.classify a Preset.flt32.handle = .bitChanging :=
    (hconst _ rfl).2.2.2 (by decide)
  refine ⟨s, a, b, log, hlog, hbound, hleast, hbecomes, hkept hbecomes _ rfl, ?_, hlost rfl ?_⟩
  · rw [ne_eq, (hconst' _ rfl).2.2]
    decide
  · rw [ne_eq, classify_eq_bitChanging_iff hsound hint (tree_preset hsound .flt32)]
    decide

end Store

end TypeLattice
