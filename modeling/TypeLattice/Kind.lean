namespace TypeLattice

/-- The kinds of types. A meet puts the operand whose kind has the lower rank on
the left, so the order of the constructors is part of the rules. -/
inductive Kind where
  | universal
  | nil
  | name
  | scalar
  | ctrl
  | int
  | flt
  | funPtr
  | func
  | rpc
  | oop
  | str
  | struct
  | tuple
deriving DecidableEq, Hashable, Repr

namespace Kind

def rank : Kind → Nat := Kind.ctorIdx

instance : Ord Kind := ⟨fun j k => compare j.rank k.rank⟩

instance : LT Kind := ⟨fun j k => j.rank < k.rank⟩

instance : DecidableLT Kind := fun j k => inferInstanceAs (Decidable (j.rank < k.rank))

def isPointer : Kind → Bool
  | oop | str | struct | tuple => true
  | _ => false

def isScalarLike : Kind → Bool
  | int | flt | funPtr | func | rpc => true
  | k => k.isPointer

def label : Kind → String
  | universal => "universal"
  | nil => "nil"
  | name => "name"
  | scalar => "scalar"
  | ctrl => "ctrl"
  | int => "int"
  | flt => "flt"
  | funPtr => "funptr"
  | func => "fun"
  | rpc => "rpc"
  | oop => "oop"
  | str => "str"
  | struct => "struct"
  | tuple => "tuple"

theorem rank_injective {j k : Kind} (h : j.rank = k.rank) : j = k := by
  revert h
  cases j <;> cases k <;> decide

end Kind

end TypeLattice
