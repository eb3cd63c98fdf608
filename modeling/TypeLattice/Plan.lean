import TypeLattice.Node

namespace TypeLattice

/-- A component of a meet, as it follows from the components of the operands. -/
inductive Piece (α : Type) where
  | keep (x : α)
  | meet (x y : α)
  | join (x y : α)

def Piece.run {α : Type} {m : Type → Type} [Pure m] (meet join : α → α → m α) : Piece α → m α
  | .keep x => pure x
  | .meet x y => meet x y
  | .join x y => join x y

/-- What the meet of two types asks for, read off their outer layers. -/
inductive Plan (α : Type) where
  | clash (left right : α)
  | keep (x : α)
  | meet (x y : α)
  | build (node : Node (Piece α))

namespace Plan

variable {α : Type}

def make (a : Atom) : Plan α := build (.atom a)

def ofPick {β : Type} (x y : α) (f : β → Atom) : Pick β → Plan α
  | .left => keep x
  | .right => keep y
  | .made b => make (f b)

def ofKinds (x : α) (j : Kind) (y : α) (k : Kind) : Plan α :=
  if j.isPointer && k.isPointer then make (.oop .bottom)
  else if j.isScalarLike && k.isScalarLike then make (.scalar .bottom)
  else clash x y

def ofNil (x y : α) : Node α → Plan α
  | .atom (.ctrl _) => clash x y
  | .name _ z => meet x z
  | .nullable _ z => build (.nullable .bottom (.keep z))
  | .atom (.scalar .top) => make .nil
  | .atom (.scalar .bottom) => make (.scalar .bottom)
  | n => if n.kind.isPointer then make (.oop .bottom) else build (.nullable .bottom (.keep y))

def ofNullable (x : α) (h : Half) (inner y : α) : Node α → Plan α
  | .atom (.ctrl _) => clash x y
  | .name _ z => meet x z
  | .atom .nil => build (.nullable .bottom (.keep inner))
  | .nullable k z => build (.nullable (h.inf k) (.meet inner z))
  | n => build (.nullable (h.inf n.half) (.meet inner y))

def ofName (label : String) (inner y : α) : Node α → Plan α
  | .name l z => if l = label then build (.name label (.meet inner z)) else meet inner z
  | _ => meet inner y

def ofScalar (x : α) (h : Half) (y : α) : Node α → Plan α
  | .atom (.ctrl _) => clash x y
  | _ => keep (if h.isTop then y else x)

def ofCtrl (x y : α) : Node α → Plan α
  | .atom (.ctrl _) => make (.ctrl .bottom)
  | n => ofKinds x .ctrl y n.kind

def ofInt (x : α) (a : Numeric IntWidth Int64) (y : α) : Node α → Plan α
  | .atom (.int b) => ofPick x y .int (a.meet b)
  | n => ofKinds x .int y n.kind

def ofFlt (x : α) (a : Numeric FltWidth Binary64) (y : α) : Node α → Plan α
  | .atom (.flt b) => ofPick x y .flt (a.meet b)
  | n => ofKinds x .flt y n.kind

def ofTargets (f : Half → OrdSet Nat → Atom) (x : α) (h : Half) (s : OrdSet Nat) (y : α) (k : Half)
    (t : OrdSet Nat) : Plan α :=
  match h, k with
  | .top, .top => make (f .top (s.inter t))
  | .bottom, .bottom => make (f .bottom (s.union t))
  | .top, .bottom => keep y
  | .bottom, .top => keep x

def ofFunPtr (x : α) (h : Half) (s : OrdSet Nat) (y : α) : Node α → Plan α
  | .atom (.funPtr k t) => ofTargets .funPtr x h s y k t
  | n => ofKinds x .funPtr y n.kind

def ofRpc (x : α) (h : Half) (s : OrdSet Nat) (y : α) : Node α → Plan α
  | .atom (.rpc k t) => ofTargets .rpc x h s y k t
  | n => ofKinds x .rpc y n.kind

def ofFunc (x : α) (h : Half) (ps : List α) (r y : α) : Node α → Plan α
  | .func k qs q =>
    if ps.length = qs.length then build (.func (h.inf k) (List.zipWith .join ps qs) (.meet r q))
    else make (.scalar .bottom)
  | n => ofKinds x .func y n.kind

def ofOop (x : α) (h : Half) (y : α) (n : Node α) : Plan α :=
  if n.kind.isPointer then keep (if h.isTop then y else x) else ofKinds x .oop y n.kind

def ofStr (x : α) (h : Half) (y : α) : Node α → Plan α
  | .atom (.str _) => make (.str .bottom)
  | .atom (.strConst _) => if h.isTop then keep y else make (.str .bottom)
  | n => ofKinds x .str y n.kind

def ofStrConst (x : α) (s : String) (y : α) : Node α → Plan α
  | .atom (.str k) => if k.isTop then keep x else make (.str .bottom)
  | .atom (.strConst t) => if s = t then keep x else make (.str .bottom)
  | n => ofKinds x .str y n.kind

def ofStruct (x : α) (h : Half) (fs : List (String × α)) (y : α) : Node α → Plan α
  | .struct k gs =>
    let cmp (f g : String × α) := compare f.1 g.1
    let alone (f : String × α) := (f.1, Piece.keep f.2)
    let both (f g : String × α) := (f.1, Piece.meet f.2 g.2)
    match h, k with
    | .top, .top => build (.struct .top (Ascending.union cmp alone alone both fs gs))
    | .bottom, .bottom => build (.struct .bottom (Ascending.inter cmp both fs gs))
    | .top, .bottom => keep y
    | .bottom, .top => keep x
  | n => ofKinds x .struct y n.kind

def ofTuple (x : α) (h : Half) (es : List α) (y : α) : Node α → Plan α
  | .tuple k ds =>
    if es.length = ds.length then build (.tuple (h.inf k) (List.zipWith .meet es ds))
    else make (.oop .bottom)
  | n => ofKinds x .tuple y n.kind

def ofOrdered (x : α) (n : Node α) (y : α) (k : Node α) : Plan α :=
  match n with
  | .atom (.universal h) => keep (if h.isTop then y else x)
  | .atom .nil => ofNil x y k
  | .nullable h inner => ofNullable x h inner y k
  | .name l inner => ofName l inner y k
  | .atom (.scalar h) => ofScalar x h y k
  | .atom (.ctrl _) => ofCtrl x y k
  | .atom (.int a) => ofInt x a y k
  | .atom (.flt a) => ofFlt x a y k
  | .atom (.funPtr h s) => ofFunPtr x h s y k
  | .func h ps r => ofFunc x h ps r y k
  | .atom (.rpc h s) => ofRpc x h s y k
  | .atom (.oop h) => ofOop x h y k
  | .atom (.str h) => ofStr x h y k
  | .atom (.strConst s) => ofStrConst x s y k
  | .struct h fs => ofStruct x h fs y k
  | .tuple h es => ofTuple x h es y k

def ofPair (x : α) (n : Node α) (y : α) (k : Node α) : Plan α :=
  if k.kind < n.kind then ofOrdered y k x n else ofOrdered x n y k

/-- Carry a plan out with the given operations. -/
def run {m : Type → Type} [Monad m] (build : Node α → m α) (meet join clash : α → α → m α) :
    Plan α → m α
  | .clash x y => clash x y
  | .keep x => pure x
  | .meet x y => meet x y
  | .build n => do
    let n ← n.mapM (Piece.run meet join)
    build n

end Plan

end TypeLattice
