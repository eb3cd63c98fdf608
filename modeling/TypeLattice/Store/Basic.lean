import Std.Data.HashMap
import TypeLattice.Conversion.Classify
import TypeLattice.Rules
import TypeLattice.Ty.Basic

namespace TypeLattice

/-- The position of a type in a store. Positions are not bounded. -/
structure Handle where
  index : Nat
deriving DecidableEq, Hashable, Repr

def Preset.handle (p : Preset) : Handle := ⟨p.ctorIdx⟩

/-- Types stored once each. A component of a stored type is stored before it. -/
structure Store where
  records : Array (Record Handle)
  index : Std.HashMap (Record Handle) Handle
  duals : Std.HashMap Handle Handle
  /-- Insertions that found their type. -/
  hits : Nat
  /-- Insertions that added it. -/
  misses : Nat

abbrev StoreM := StateM Store

namespace Store

def startCapacity : Nat := 1024

def size (s : Store) : Nat := s.records.size

/-- What is stored of a type. A handle of another store may read as the bottom universal. -/
def record (s : Store) (h : Handle) : Record Handle := s.records.getD h.index (.universal .bottom)

def node (s : Store) (h : Handle) : Node Handle := (s.record h).node

def lookup? (s : Store) (r : Record Handle) : Option Handle := s.index[r]?

def intern (r : Record Handle) : StoreM Handle := fun s =>
  match s.lookup? r with
  | some h => (h, { s with hits := s.hits + 1 })
  | none =>
    let h : Handle := ⟨s.size⟩
    (h, { s with records := s.records.push r, index := s.index.insert r h, misses := s.misses + 1 })

def recordDual (a b : Handle) : StoreM Unit :=
  modify fun s => { s with duals := (s.duals.insert a b).insert b a }

def empty : Store := ⟨.emptyWithCapacity startCapacity, .emptyWithCapacity startCapacity, ∅, 0, 0⟩

def addPresets : StoreM Unit := do
  Preset.list.forM (fun p => discard (intern p.record))
  Preset.dualPairs.forM (fun p => recordDual p.1.handle p.2.handle)

def initial : Store := (addPresets.run empty).2

def unnameWithin (s : Store) : Nat → Handle → Handle
  | 0, h => h
  | n + 1, h =>
    match s.node h with
    | .name _ x => s.unnameWithin n x
    | _ => h

def unname (s : Store) (h : Handle) : Handle := s.unnameWithin (h.index + 1) h

def reader (s : Store) : Reader Handle := ⟨s.node, s.unname⟩

def half (s : Store) (h : Handle) : Half := s.reader.half h

def absorbsNil (s : Store) (h : Handle) : Bool :=
  (s.node h).isUniversal || (s.node (s.unname h)).admitsNil

def treeWithin (s : Store) : Nat → Handle → Ty
  | 0, _ => .mk (.atom (.universal .bottom))
  | n + 1, h => .mk ((s.node h).map (s.treeWithin n))

def tree (s : Store) (h : Handle) : Ty := s.treeWithin (h.index + 1) h

def classify (s : Store) (a b : Handle) : Verdict :=
  s.reader.classifyWithin (a.index + b.index + 2) a b

end Store

end TypeLattice
