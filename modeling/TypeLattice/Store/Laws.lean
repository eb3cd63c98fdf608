import TypeLattice.Store.Make

namespace TypeLattice

/-- A law of the lattice that fails at some types. -/
inductive Breach (α : Type) where
  | idempotence (a : α)
  | involution (a dual back : α)
  | commutativity (a b : α)
  | joinDuality (a b : α)
deriving DecidableEq

namespace Breach

def map {α β : Type} (f : α → β) : Breach α → Breach β
  | idempotence a => idempotence (f a)
  | involution a d b => involution (f a) (f d) (f b)
  | commutativity a b => commutativity (f a) (f b)
  | joinDuality a b => joinDuality (f a) (f b)

def message : Breach Ty → String
  | idempotence a => "meet of " ++ a.render ++ " with itself is not " ++ a.render
  | involution a d b => "dual of " ++ a.render ++ " is " ++ d.render ++ " whose dual is " ++ b.render
  | commutativity a b => "meet of " ++ a.render ++ " and " ++ b.render ++ " depends on order"
  | joinDuality a b =>
    "join of duals of " ++ a.render ++ " and " ++ b.render ++ " is not the dual of their meet"

end Breach

namespace Store

def meet? (a b : Handle) : StoreM (Option Handle) := do
  match ← (meet a b).run with
  | .ok c => return some c
  | .error _ => return none

def join? (a b : Handle) : StoreM (Option Handle) := do
  match ← (join a b).run with
  | .ok c => return some c
  | .error _ => return none

def breachesAt (a : Handle) : StoreM (List (Breach Handle)) := do
  let m ← meet? a a
  let d ← dual a
  let b ← dual d
  return (if m = some a then [] else [.idempotence a]) ++ (if b = a then [] else [.involution a d b])

/-- Two types without a meet satisfy a law if neither side of it exists. -/
def breachesBetween (a b : Handle) : StoreM (List (Breach Handle)) := do
  let ab ← meet? a b
  let ba ← meet? b a
  let d ← ab.mapM dual
  let a' ← dual a
  let b' ← dual b
  let j ← join? a' b'
  return (if ab = ba then [] else [.commutativity a b]) ++ (if d = j then [] else [.joinDuality a b])

def pairsOf {α : Type} : List α → List (α × α)
  | [] => []
  | a :: as => as.map (a, ·) ++ pairsOf as

def breaches (samples : List Handle) : StoreM (List (Breach Handle)) := do
  let single ← samples.mapM breachesAt
  let double ← (pairsOf samples).mapM (fun p => breachesBetween p.1 p.2)
  return single.flatten ++ double.flatten

/-- Types of every kind in both halves, closed under dual, in the order of their handles. -/
def standardSample : StoreM (List Handle) := do
  let point ← struct .bottom [("x", Preset.int64.handle), ("y", Preset.str.handle)]
  let base ← [
    preset .any, preset .all, preset .scalar, preset .anyScalar, preset .ctrl, preset .anyCtrl,
    preset .nil, preset .oop, preset .anyOop, preset .str, preset .anyStr,
    strConst "hello", strConst "world",
    preset .bool, preset .int8, preset .int32, preset .int64, preset .anyInt64,
    int .top 8, intConst 0, intConst 1, intConst 1000, intConst (-7),
    preset .flt32, preset .flt64, preset .anyFlt64,
    fltConst 0x3FF8000000000000, fltConst 0x3FB999999999999A,
    funPtrConst 1, funPtr .bottom [1, 2], funPtr .top [1, 2], funPtr .top [2, 3],
    rpcConst 4, rpc .top [4, 5],
    func .bottom [Preset.int64.handle] Preset.flt64.handle,
    tuple .bottom [Preset.int64.handle, Preset.str.handle],
    tuple .bottom [Preset.int64.handle, Preset.str.handle, Preset.flt64.handle],
    pure point,
    struct .bottom [("x", Preset.flt64.handle)],
    nullable .bottom Preset.int64.handle,
    nullable .top Preset.anyInt64.handle,
    name "Point" point,
    name "Meters" Preset.flt64.handle].mapM id
  let duals ← base.mapM dual
  return (OrdSet.ofList ((base ++ duals).map (·.index))).toList.map (⟨·⟩)

end Store

end TypeLattice
