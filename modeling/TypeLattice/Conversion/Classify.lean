import TypeLattice.Node
import TypeLattice.Conversion.Verdict

namespace TypeLattice

/-- How the types of a carrier are read: the outer layer, and the type under its outer names. -/
structure Reader (α : Type) where
  node : α → Node α
  unname : α → α

/-- A verdict, or what it follows from: one conversion of components, or the worst of several,
where a target without a source cannot be converted to. -/
inductive Inquiry (α : Type) where
  | settled (v : Verdict)
  | through (source target : α)
  | worstOf (pairs : List (Option α × α))

namespace Inquiry

variable {α : Type}

def ofInts (a b : Numeric IntWidth Int64) : Verdict :=
  .freeIf (!b.isConst && a.width ≤ b.width)

def ofIntToFlt (a : Numeric IntWidth Int64) : Numeric FltWidth Binary64 → Verdict
  | .const _ => .incompatible
  | .range _ w => if a.isExactAt w then .bitChanging else .incompatible

def ofFlts : Numeric FltWidth Binary64 → Numeric FltWidth Binary64 → Verdict
  | _, .const _ => .incompatible
  | .const c, .range _ w => .freeIf (FltWidth.ofConst c ≤ w)
  | .range _ v, .range _ w =>
    if v = w then .free else if v ≤ w then .bitChanging else .incompatible

def toNil (source : α) (n : Node α) (target : Option α) : Inquiry α :=
  match n, target with
  | .atom .nil, _ => settled .free
  | .nullable _ x, some y => through x y
  | _, some y => through source y
  | _, none => settled .incompatible

def toAtom (n : Node α) : Atom → Verdict
  | .universal _ | .ctrl _ | .nil => .incompatible
  | .scalar _ => .free
  | .int b =>
    match n with
    | .atom (.int a) => ofInts a b
    | _ => .incompatible
  | .flt b =>
    match n with
    | .atom (.int a) => ofIntToFlt a b
    | .atom (.flt a) => ofFlts a b
    | _ => .incompatible
  | .funPtr _ t =>
    match n with
    | .atom (.funPtr _ s) => .freeIf (s.isSubset t)
    | _ => .incompatible
  | .rpc _ t =>
    match n with
    | .atom (.rpc _ s) => .freeIf (s.isSubset t)
    | _ => .incompatible
  | .oop _ =>
    match n with
    | .atom .nil => .free
    | n => .freeIf n.kind.isPointer
  | .str _ =>
    match n with
    | .atom .nil => .free
    | n => .freeIf (n.kind = .str)
  | .strConst _ =>
    match n with
    | .atom .nil => .free
    | _ => .incompatible

def toStruct (fields : List (String × α)) : Node α → Inquiry α
  | .atom .nil => settled .free
  | .struct _ fs => worstOf (fields.map (fun g => (Fields.find? fs g.1, g.2)))
  | _ => settled .incompatible

def toTuple (elems : List α) : Node α → Inquiry α
  | .atom .nil => settled .free
  | .tuple _ es =>
    if es.length = elems.length then worstOf (es.zipWith (fun x y => (some x, y)) elems)
    else settled .incompatible
  | _ => settled .incompatible

def ofNodes (source : α) (n k : Node α) : Inquiry α :=
  match n, k with
  | .atom (.universal _), _ | .atom (.ctrl _), _ => settled .incompatible
  | n, .atom .nil => toNil source n none
  | n, .nullable _ y => toNil source n (some y)
  | n, .atom a => settled (toAtom n a)
  | n, .struct _ gs => toStruct gs n
  | n, .tuple _ ds => toTuple ds n
  | _, .func _ _ _ | _, .name _ _ => settled .incompatible

def answer (convert : α → α → Verdict) : Inquiry α → Verdict
  | settled v => v
  | through x y => convert x y
  | worstOf pairs =>
    pairs.foldl (fun v p => v.worst (p.1.elim .incompatible (convert · p.2))) .free

end Inquiry

namespace Reader

variable {α : Type}

def half (r : Reader α) (x : α) : Half := (r.node (r.unname x)).half

variable [DecidableEq α]

/-- The verdict of a conversion, to a depth of layers. Nothing is decided while a side is a
choice; names do not matter otherwise. -/
def classifyWithin (r : Reader α) : Nat → α → α → Verdict
  | 0, _, _ => .incompatible
  | n + 1, a, b =>
    if (r.half a).isTop || (r.half b).isTop then .unknown
    else
      let s := r.unname a
      let t := r.unname b
      if s = t then .free
      else (Inquiry.ofNodes s (r.node s) (r.node t)).answer (r.classifyWithin n)

end Reader

end TypeLattice
