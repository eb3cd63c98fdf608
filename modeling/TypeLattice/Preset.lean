import TypeLattice.Half

namespace TypeLattice

/-- Types that every store holds from the start, in the order of their handles. -/
inductive Preset where
  | any
  | all
  | scalar
  | anyScalar
  | ctrl
  | anyCtrl
  | nil
  | oop
  | anyOop
  | str
  | anyStr
  | bool
  | int8
  | int32
  | int64
  | anyInt64
  | flt32
  | flt64
  | anyFlt64
deriving DecidableEq, Repr

namespace Preset

def list : List Preset :=
  [any, all, scalar, anyScalar, ctrl, anyCtrl, nil, oop, anyOop, str, anyStr, bool, int8, int32,
    int64, anyInt64, flt32, flt64, anyFlt64]

def dualPairs : List (Preset × Preset) :=
  [(any, all), (scalar, anyScalar), (ctrl, anyCtrl), (nil, nil), (oop, anyOop), (str, anyStr),
    (int64, anyInt64), (flt64, anyFlt64)]

def universalOf : Half → Preset
  | .top => any
  | .bottom => all

def scalarOf : Half → Preset
  | .top => anyScalar
  | .bottom => scalar

def ctrlOf : Half → Preset
  | .top => anyCtrl
  | .bottom => ctrl

def oopOf : Half → Preset
  | .top => anyOop
  | .bottom => oop

def strOf : Half → Preset
  | .top => anyStr
  | .bottom => str

end Preset

end TypeLattice
