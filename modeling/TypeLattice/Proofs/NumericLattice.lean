import Mathlib.Order.Lattice
import TypeLattice.Number.Numeric

namespace TypeLattice

instance : LinearOrder IntWidth where
  le_refl v := Nat.le_refl v.bits
  le_trans _ _ _ := Nat.le_trans
  le_antisymm v w h h' := by
    have hbits : v.bits = w.bits := Nat.le_antisymm h h'
    rw [← IntWidth.roundUp_bits v, hbits, IntWidth.roundUp_bits]
  le_total v w := Nat.le_total v.bits w.bits
  toDecidableLE := inferInstance

instance : LinearOrder FltWidth where
  le_refl v := Nat.le_refl v.bits
  le_trans _ _ _ := Nat.le_trans
  le_antisymm v w h h' := by
    have hbits : v.bits = w.bits := Nat.le_antisymm h h'
    rw [← FltWidth.roundUp_bits v, hbits, FltWidth.roundUp_bits]
  le_total v w := Nat.le_total v.bits w.bits
  toDecidableLE := inferInstance

def Pick.swap {β : Type} : Pick β → Pick β
  | left => right
  | right => left
  | made b => made b

namespace Numeric

variable {ω ν : Type} [LinearOrder ω] [Sized ν ω] [DecidableEq ν]

theorem meet_swap {a b : Numeric ω ν} (h : a ≠ b) : b.meet a = (a.meet b).swap := by
  cases a with
  | const c =>
      cases b with
      | const d =>
          have hcd : c ≠ d := fun e => h (congrArg const e)
          simp only [meet, if_neg hcd, if_neg hcd.symm, Pick.swap, max_comm]
      | range k w =>
          cases k with
          | top => simp only [meet]; split <;> rfl
          | bottom => rfl
  | range j v =>
      cases b with
      | const d =>
          cases j with
          | top => simp only [meet]; split <;> rfl
          | bottom => rfl
      | range k w =>
          cases j <;> cases k <;> simp only [meet, Pick.swap, max_comm v w, min_comm v w]

def inf (a b : Numeric ω ν) : Numeric ω ν := (a.meet b).get a b

theorem inf_eq (a b : Numeric ω ν) : a.inf b =
    match a, b with
    | const c, const d =>
      if c = d then const c else range .bottom (max (Sized.width c) (Sized.width d))
    | const c, range .top w | range .top w, const c =>
      if Sized.width c ≤ w then const c else range .bottom (Sized.width c)
    | const c, range .bottom w | range .bottom w, const c => range .bottom (max (Sized.width c) w)
    | range .top v, range .top w => range .top (min v w)
    | range .bottom v, range .bottom w => range .bottom (max v w)
    | range .top _, range .bottom w | range .bottom w, range .top _ => range .bottom w := by
  rcases a with c | ⟨_ | _, v⟩ <;> rcases b with d | ⟨_ | _, w⟩ <;> simp only [inf, meet]
  case const.const | const.range.top | range.top.const => split <;> rfl
  all_goals rfl

theorem inf_self (a : Numeric ω ν) : a.inf a = a := by
  rcases a with c | ⟨_ | _, v⟩ <;> simp [inf_eq]

theorem half_inf (a b : Numeric ω ν) : (a.inf b).half = a.half.inf b.half := by
  rcases a with c | ⟨_ | _, v⟩ <;> rcases b with d | ⟨_ | _, w⟩ <;> simp only [inf_eq]
  case const.const | const.range.top | range.top.const => split <;> rfl
  all_goals rfl

theorem inf_assoc (a b c : Numeric ω ν) : (a.inf b).inf c = a.inf (b.inf c) := by
  rcases a with u | ⟨_ | _, u⟩ <;> rcases b with v | ⟨_ | _, v⟩ <;> rcases c with w | ⟨_ | _, w⟩ <;>
    grind [inf_eq]

theorem inf_sup_self (a b : Numeric ω ν) : a.inf (a.dual.inf b.dual).dual = a := by
  rcases a with u | ⟨_ | _, u⟩ <;> rcases b with v | ⟨_ | _, v⟩ <;>
    simp only [dual, Half.flip] <;> grind [inf_eq, dual, Half.flip]

end Numeric

end TypeLattice
