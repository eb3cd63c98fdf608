import TypeLattice.Number.Binary64

namespace TypeLattice

structure Decimal where
  digits : Nat
  exponent : Int
deriving DecidableEq, Repr

namespace Decimal

/-- The reals that round to one floating-point number, counted in a unit in which
all three are integers. The ends belong to the interval when `closed`. -/
structure Interval where
  low : Nat
  value : Nat
  high : Nat
  closed : Bool

def Interval.contains (i : Interval) (x : Nat) : Bool :=
  if i.closed then i.low ≤ x && x ≤ i.high else i.low < x && x < i.high

/-- On the grid of multiples of `10 ^ g`, for the coarsest `g` that has a point in
the interval, the point nearest to the value; halfway points go up. -/
def Interval.shortest (i : Interval) : Nat → Decimal
  | 0 => ⟨i.value, 0⟩
  | g + 1 =>
    let unit := Nat.pow 10 (g + 1)
    let below := i.value / unit
    let hasBelow := i.contains (below * unit)
    let hasAbove := i.contains ((below + 1) * unit)
    if hasBelow && (!hasAbove || 2 * i.value < (2 * below + 1) * unit) then ⟨below, g + 1⟩
    else if hasAbove then ⟨below + 1, g + 1⟩
    else i.shortest g

/-- The fewest digits that read back as `mantissa * 2 ^ exponent`. -/
def ofBinary (mantissa : Nat) (exponent : Int) (binadeStart : Bool) : Decimal :=
  let quarter := exponent - 2
  let scale := if 0 ≤ quarter then Nat.pow 2 quarter.toNat else Nat.pow 5 (-quarter).toNat
  let i : Interval :=
    ⟨(4 * mantissa - if binadeStart then 1 else 2) * scale, 4 * mantissa * scale,
      (4 * mantissa + 2) * scale, mantissa % 2 = 0⟩
  let d := i.shortest (Nat.toDigits 10 i.value).length
  ⟨d.digits, d.exponent + min quarter 0⟩

/-- Positional from one ten-thousandth up to `10 ^ 16`, with a digit on both sides of the
point; scientific beyond. -/
def render (d : Decimal) : String :=
  let ds := Nat.toDigits 10 d.digits
  let point := ds.length + d.exponent
  if -4 < point && point ≤ 16 then
    if point ≤ 0 then
      "0." ++ String.ofList (List.replicate (-point).toNat '0' ++ ds)
    else if ds.length ≤ point then
      String.ofList (ds ++ List.replicate (point - ds.length).toNat '0') ++ ".0"
    else
      String.ofList (ds.take point.toNat) ++ "." ++ String.ofList (ds.drop point.toNat)
  else
    let tail := if ds.length ≤ 1 then "" else "." ++ String.ofList (ds.drop 1)
    String.ofList (ds.take 1) ++ tail ++ "e" ++ toString (point - 1)

end Decimal

def Binary64.render (x : Binary64) : String :=
  let sign := if x.isNegative then "-" else ""
  match x.magnitude with
  | .nan => "NaN"
  | .infinite => sign ++ "inf"
  | .finite 0 _ => sign ++ "0.0"
  | .finite m e => sign ++ (Decimal.ofBinary m e x.isBinadeStart).render

end TypeLattice
