import TypeLattice.Node
import TypeLattice.Preset

namespace TypeLattice

/-- A number type as it is stored. A constant has a half and a width of its own. -/
structure NumberRecord (ν : Type) where
  half : Half
  bits : Nat
  const? : Option ν
deriving DecidableEq, Hashable

namespace NumberRecord

variable {ν : Type}

def isConst (a : NumberRecord ν) : Bool := a.const?.isSome

def meetRange (c r : NumberRecord ν) (keep : Pick (Half × Nat)) : Pick (Half × Nat) :=
  if r.half.isTop && c.bits ≤ r.bits then keep
  else .made (.bottom, if r.half.isTop then c.bits else max c.bits r.bits)

def meetShapes (a b : NumberRecord ν) : Pick (Half × Nat) :=
  match a.isConst, b.isConst with
  | true, true => .made (.bottom, max a.bits b.bits)
  | true, false => meetRange a b .left
  | false, true => meetRange b a .right
  | false, false =>
    match a.half, b.half with
    | .top, .top => .made (.top, min a.bits b.bits)
    | .bottom, .bottom => .made (.bottom, max a.bits b.bits)
    | .top, .bottom => .right
    | .bottom, .top => .left

/-- One of the operands, or a range by its half and its width. -/
def meet [DecidableEq ν] (a b : NumberRecord ν) : Pick (Half × Nat) :=
  if a.isConst && a.const? = b.const? then .left else meetShapes a b

/-- What the record stands for. The half and the width of a constant do not matter. -/
def view {ω μ : Type} (width : Nat → ω) (value : ν → μ) (a : NumberRecord ν) : Numeric ω μ :=
  match a.const? with
  | some c => .const (value c)
  | none => .range a.half (width a.bits)

end NumberRecord

/-- One layer of a type as it is stored, over a carrier of component types. -/
inductive Record (α : Type) where
  | universal (half : Half)
  | nil (half : Half) (inner : Option α)
  | name (label : String) (inner : α)
  | scalar (half : Half)
  | ctrl (half : Half)
  | int (number : NumberRecord Int64)
  | flt (number : NumberRecord UInt64)
  | funPtr (half : Half) (targets : List Nat)
  | func (half : Half) (params : List α) (result : α)
  | rpc (half : Half) (targets : List Nat)
  | oop (half : Half)
  | str (half : Half) (const? : Option String)
  | struct (half : Half) (fields : List (String × α))
  | tuple (half : Half) (elems : List α)
deriving DecidableEq, Hashable

namespace Record

variable {α : Type}

def kind : Record α → Kind
  | universal _ => .universal
  | nil _ _ => .nil
  | name _ _ => .name
  | scalar _ => .scalar
  | ctrl _ => .ctrl
  | int _ => .int
  | flt _ => .flt
  | funPtr _ _ => .funPtr
  | func _ _ _ => .func
  | rpc _ _ => .rpc
  | oop _ => .oop
  | str _ _ => .str
  | struct _ _ => .struct
  | tuple _ _ => .tuple

def half : Record α → Half
  | universal h | scalar h | ctrl h | funPtr h _ | func h _ _ | rpc h _ | oop h | struct h _
  | tuple h _ => h
  | name _ _ => .bottom
  | nil h inner => if inner.isSome then h else .bottom
  | int a => if a.isConst then .bottom else a.half
  | flt a => if a.isConst then .bottom else a.half
  | str h c => if c.isSome then .bottom else h

def node : Record α → Node α
  | universal h => .atom (.universal h)
  | nil _ none => .atom .nil
  | nil h (some x) => .nullable h x
  | name l x => .name l x
  | scalar h => .atom (.scalar h)
  | ctrl h => .atom (.ctrl h)
  | int a => .atom (.int (a.view .roundUp id))
  | flt a => .atom (.flt (a.view .roundUp .ofBits))
  | funPtr h ts => .atom (.funPtr h (.ofList ts))
  | func h ps r => .func h ps r
  | rpc h ts => .atom (.rpc h (.ofList ts))
  | oop h => .atom (.oop h)
  | str h none => .atom (.str h)
  | str _ (some v) => .atom (.strConst v)
  | struct h fs => .struct h fs
  | tuple h es => .tuple h es

end Record

def Preset.record {α : Type} : Preset → Record α
  | any => .universal .top
  | all => .universal .bottom
  | scalar => .scalar .bottom
  | anyScalar => .scalar .top
  | ctrl => .ctrl .bottom
  | anyCtrl => .ctrl .top
  | nil => .nil .bottom none
  | oop => .oop .bottom
  | anyOop => .oop .top
  | str => .str .bottom none
  | anyStr => .str .top none
  | bool => .int ⟨.bottom, 1, none⟩
  | int8 => .int ⟨.bottom, 8, none⟩
  | int32 => .int ⟨.bottom, 32, none⟩
  | int64 => .int ⟨.bottom, 64, none⟩
  | anyInt64 => .int ⟨.top, 64, none⟩
  | flt32 => .flt ⟨.bottom, 32, none⟩
  | flt64 => .flt ⟨.bottom, 64, none⟩
  | anyFlt64 => .flt ⟨.top, 64, none⟩

end TypeLattice
