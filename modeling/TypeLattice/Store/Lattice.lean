import TypeLattice.Failure
import TypeLattice.Store.Basic

namespace TypeLattice.Store

/-- Types that hold nil already are not wrapped. -/
def nullable (h : Half) (x : Handle) : StoreM Handle := do
  if (← get).absorbsNil x then return x
  intern (.nil h (some x))

def maker : Maker StoreM Handle := ⟨Preset.handle, intern, nullable⟩

def dualWithin : Nat → Handle → StoreM Handle
  | 0, h => pure h
  | n + 1, h => do
    match (← get).duals[h]? with
    | some d => return d
    | none =>
      let d ← maker.dual (dualWithin n) h ((← get).record h)
      recordDual h d
      return d

/-- The type with every half flipped. Duals are remembered, in both directions. -/
def dual (h : Handle) : StoreM Handle := dualWithin (h.index + 1) h

abbrev MeetM := ExceptT (Clash Handle) StoreM

def joinBy (meet : Handle → Handle → MeetM Handle) (x y : Handle) : MeetM Handle := do
  let x ← dual x
  let y ← dual y
  let z ← meet x y
  dual z

def meeter (meet : Handle → Handle → MeetM Handle) : Meeter MeetM Handle where
  toMaker := maker.lift
  meet := meet
  join := joinBy meet
  clash x y := throw ⟨x, y⟩

def meetWithin : Nat → Handle → Handle → MeetM Handle
  | 0, a, b => throw ⟨a, b⟩
  | n + 1, a, b => do
    if a = b then return a
    let s ← get
    (meeter (meetWithin n)).ofPair a (s.record a) b (s.record b)

def meet (a b : Handle) : MeetM Handle := meetWithin (a.index + b.index + 2) a b

def join (a b : Handle) : MeetM Handle := joinBy meet a b

/-- What a caller gets from a meet or a join: a type, or the failure with the two types that
clash, the one of lower kind on the left. -/
def reported (x : MeetM Handle) : StoreM (Except Failure Handle) := do
  match ← x.run with
  | .ok h => return .ok h
  | .error c =>
    let s ← get
    return .error (.noMeet (s.tree c.left) (s.tree c.right))

/-- The order of the lattice: `b` is below `a`. -/
def isa (a b : Handle) : StoreM Bool := do
  match ← (meet a b).run with
  | .ok c => return c = b
  | .error _ => return false

def requireConversion (s : Store) (a b : Handle) : Except Failure Verdict :=
  match s.classify a b with
  | .incompatible => .error (.noConversion (s.tree a) (s.tree b))
  | v => .ok v

end TypeLattice.Store
