namespace TypeLattice

/-- A double-precision number as its bit pattern. The payload of a NaN is not
kept, so equal patterns are exactly equal numbers and the two zeros differ. -/
structure Binary64 where
  bits : UInt64
  canonical : 0x7FF0000000000000 < bits &&& 0x7FFFFFFFFFFFFFFF → bits = 0x7FF8000000000000
deriving DecidableEq, Hashable, Repr

namespace Binary64

def nan : Binary64 := ⟨0x7FF8000000000000, fun _ => rfl⟩

def ofBits (bits : UInt64) : Binary64 :=
  if h : 0x7FF0000000000000 < bits &&& 0x7FFFFFFFFFFFFFFF then nan else ⟨bits, fun h' => absurd h' h⟩

/-- What a pattern stands for, the sign apart: a finite magnitude is `mantissa * 2 ^ exponent`. -/
inductive Magnitude where
  | nan
  | infinite
  | finite (mantissa : Nat) (exponent : Int)
deriving DecidableEq, Repr

def isNegative (x : Binary64) : Bool := 0x8000000000000000 ≤ x.bits.toNat

def exponentField (x : Binary64) : Nat := x.bits.toNat / 0x10000000000000 % 0x800

def fraction (x : Binary64) : Nat := x.bits.toNat % 0x10000000000000

def magnitude (x : Binary64) : Magnitude :=
  if x.exponentField = 2047 then
    if x.fraction = 0 then .infinite else .nan
  else if x.exponentField = 0 then .finite x.fraction (-1074)
  else .finite (0x10000000000000 + x.fraction) (x.exponentField - 1075)

def isBinadeStart (x : Binary64) : Bool := 1 < x.exponentField && x.fraction = 0

/-- Whether single precision holds `mantissa * 2 ^ exponent`: what lies beyond its 24 significant
bits or below its least unit is zero, and the value is below its largest power. -/
def fitsSingle (mantissa : Nat) (exponent : Int) : Bool :=
  let length := mantissa.log2 + 1
  let dropped := max (length - 24) (-149 - exponent).toNat
  mantissa = 0 || (mantissa % Nat.pow 2 dropped = 0 && exponent + length ≤ 128)

def isSingle (x : Binary64) : Bool :=
  match x.magnitude with
  | .nan | .infinite => true
  | .finite m e => fitsSingle m e

end Binary64

end TypeLattice
