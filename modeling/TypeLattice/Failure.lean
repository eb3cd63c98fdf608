import TypeLattice.Ty.Basic

namespace TypeLattice

/-- Two types without a meet, the one of lower kind on the left. -/
structure Clash (α : Type) where
  left : α
  right : α
deriving DecidableEq

inductive Failure where
  | noMeet (left right : Ty)
  | noConversion (source target : Ty)

namespace Failure

def message : Failure → String
  | noMeet l r =>
    "internal lattice error: no meet rule for " ++ l.render ++ " (" ++ l.node.kind.label ++ ") and " ++
      r.render ++ " (" ++ r.node.kind.label ++ ")"
  | noConversion s t => "cannot convert " ++ s.render ++ " to " ++ t.render

/-- A meet is missing only between control and a value, which no well-formed caller asks for; a
missing conversion is for the user to mend. -/
def isInternal : Failure → Bool
  | noMeet _ _ => true
  | noConversion _ _ => false

end Failure

end TypeLattice
