namespace TypeLattice

/-- What it takes to hand a value of one type to a consumer of another. -/
inductive Verdict where
  | unknown
  | free
  | bitChanging
  | incompatible
deriving DecidableEq, Repr

namespace Verdict

def code : Verdict → Int
  | unknown => -1
  | free => 0
  | bitChanging => 1
  | incompatible => 99

def label : Verdict → String
  | unknown => "unknown"
  | free => "free"
  | bitChanging => "bit-changing"
  | incompatible => "incompatible"

def rank : Verdict → Nat
  | free => 0
  | bitChanging => 1
  | unknown => 2
  | incompatible => 3

def worst (u v : Verdict) : Verdict := if u.rank < v.rank then v else u

def freeIf (p : Bool) : Verdict := if p then free else incompatible

theorem rank_worst (u v : Verdict) : (u.worst v).rank = max u.rank v.rank := by
  cases u <;> cases v <;> rfl

end Verdict

end TypeLattice
