import TypeLattice.Half
import TypeLattice.Width
import TypeLattice.Number.Binary64

namespace TypeLattice

class Sized (ν : Type) (ω : outParam Type) where
  width : ν → ω

/-- A number type: one constant, or all numbers of a width. -/
inductive Numeric (ω ν : Type) where
  | const (value : ν)
  | range (half : Half) (width : ω)
deriving DecidableEq, Hashable, Repr

/-- The outcome of a rule on two operands that may hand one of them back. -/
inductive Pick (β : Type) where
  | left
  | right
  | made (value : β)
deriving DecidableEq, Repr

def Pick.get {β : Type} (a b : β) : Pick β → β
  | left => a
  | right => b
  | made c => c

namespace Numeric

variable {ω ν : Type}

def half : Numeric ω ν → Half
  | const _ => .bottom
  | range h _ => h

def dual : Numeric ω ν → Numeric ω ν
  | const c => const c
  | range h w => range h.flip w

def isConst : Numeric ω ν → Bool
  | const _ => true
  | range _ _ => false

variable [Sized ν ω]

def width : Numeric ω ν → ω
  | const c => Sized.width c
  | range _ w => w

def meet [DecidableEq ν] [LE ω] [DecidableLE ω] [Max ω] [Min ω] :
    Numeric ω ν → Numeric ω ν → Pick (Numeric ω ν)
  | const c, const d =>
    if c = d then .left else .made (range .bottom (max (Sized.width c) (Sized.width d)))
  | const c, range .top w =>
    if Sized.width c ≤ w then .left else .made (range .bottom (Sized.width c))
  | range .top w, const c =>
    if Sized.width c ≤ w then .right else .made (range .bottom (Sized.width c))
  | const c, range .bottom w => .made (range .bottom (max (Sized.width c) w))
  | range .bottom w, const c => .made (range .bottom (max (Sized.width c) w))
  | range .top v, range .top w => .made (range .top (min v w))
  | range .bottom v, range .bottom w => .made (range .bottom (max v w))
  | range .top _, range .bottom _ => .right
  | range .bottom _, range .top _ => .left

end Numeric

def IntWidth.ofConst (c : Int64) : IntWidth :=
  if c = 0 ∨ c = 1 then .w1
  else if -128 ≤ c ∧ c ≤ 127 then .w8
  else if -32768 ≤ c ∧ c ≤ 32767 then .w16
  else if -2147483648 ≤ c ∧ c ≤ 2147483647 then .w32
  else .w64

instance : Sized Int64 IntWidth := ⟨IntWidth.ofConst⟩

def FltWidth.ofConst (x : Binary64) : FltWidth := if x.isSingle then .w32 else .w64

instance : Sized Binary64 FltWidth := ⟨FltWidth.ofConst⟩

/-- Whether every number of the type is exact at a floating width. The distance of a constant
from zero is unsigned, so the least constant has one too. -/
def Numeric.isExactAt (w : FltWidth) : Numeric IntWidth Int64 → Bool
  | const c => c.abs.toUInt64 ≤ (1 : UInt64) <<< w.precision.toUInt64
  | range _ v => v.bits ≤ w.precision

end TypeLattice
