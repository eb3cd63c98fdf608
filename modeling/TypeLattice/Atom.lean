import TypeLattice.Kind
import TypeLattice.Ascending.OrdSet
import TypeLattice.Number.Decimal
import TypeLattice.Number.Numeric
import TypeLattice.Text.Quoted

namespace TypeLattice

inductive Atom where
  | universal (half : Half)
  | nil
  | scalar (half : Half)
  | ctrl (half : Half)
  | int (number : Numeric IntWidth Int64)
  | flt (number : Numeric FltWidth Binary64)
  | funPtr (half : Half) (targets : OrdSet Nat)
  | rpc (half : Half) (targets : OrdSet Nat)
  | oop (half : Half)
  | str (half : Half)
  | strConst (value : String)
deriving DecidableEq, Hashable, Repr

namespace Atom

def kind : Atom → Kind
  | universal _ => .universal
  | nil => .nil
  | scalar _ => .scalar
  | ctrl _ => .ctrl
  | int _ => .int
  | flt _ => .flt
  | funPtr _ _ => .funPtr
  | rpc _ _ => .rpc
  | oop _ => .oop
  | str _ | strConst _ => .str

/-- Constants lie at the center, which counts as the bottom half. -/
def half : Atom → Half
  | universal h | scalar h | ctrl h | funPtr h _ | rpc h _ | oop h | str h => h
  | nil | strConst _ => .bottom
  | int n => n.half
  | flt n => n.half

def dual : Atom → Atom
  | universal h => universal h.flip
  | nil => nil
  | scalar h => scalar h.flip
  | ctrl h => ctrl h.flip
  | int n => int n.dual
  | flt n => flt n.dual
  | funPtr h s => funPtr h.flip s
  | rpc h s => rpc h.flip s
  | oop h => oop h.flip
  | str h => str h.flip
  | strConst v => strConst v

def isConst : Atom → Bool
  | nil | strConst _ => true
  | int n => n.isConst
  | flt n => n.isConst
  | funPtr h s | rpc h s => !h.isTop && s.size == 1
  | universal _ | scalar _ | ctrl _ | oop _ | str _ => false

end Atom

def Half.mark : Half → String
  | top => "~"
  | bottom => ""

def Atom.render : Atom → String
  | universal .top => "any"
  | universal .bottom => "all"
  | nil => "nil"
  | scalar h => h.mark ++ "scalar"
  | ctrl h => h.mark ++ "ctrl"
  | int (.const c) => toString c.toInt
  | int (.range h w) => h.mark ++ "int" ++ toString w.bits
  | flt (.const c) => c.render
  | flt (.range h w) => h.mark ++ "flt" ++ toString w.bits
  | funPtr h s => h.mark ++ "*" ++ s.render toString
  | rpc h s => h.mark ++ "#" ++ s.render toString
  | oop h => h.mark ++ "oop"
  | str h => h.mark ++ "str"
  | strConst v => Text.quote v

end TypeLattice
