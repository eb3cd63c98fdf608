import TypeLattice.Conversion.Classify
import TypeLattice.Failure
import TypeLattice.Plan

namespace TypeLattice

namespace Ty

def half (t : Ty) : Half := t.unname.node.half

def absorbsNil (t : Ty) : Bool := t.node.isUniversal || t.unname.node.admitsNil

/-- The type of a layer. Nullable types that hold nil already are not wrapped. -/
def build : Node Ty → Ty
  | .nullable h t => if t.absorbsNil then t else mk (.nullable h t)
  | n => mk n

def dual : Ty → Ty := fold (fun n => build n.flip)

def meetWithin : Nat → Ty → Ty → Except (Clash Ty) Ty
  | 0, a, b => .error ⟨a, b⟩
  | n + 1, a, b =>
    if a = b then .ok a
    else
      (Plan.ofPair a a.node b b.node).run
        (fun k => .ok (build k))
        (meetWithin n)
        (fun x y => dual <$> meetWithin n x.dual y.dual)
        (fun x y => .error ⟨x, y⟩)

def meet (a b : Ty) : Except (Clash Ty) Ty := meetWithin (a.height + b.height) a b

def join (a b : Ty) : Except (Clash Ty) Ty := dual <$> meet a.dual b.dual

def isa (a b : Ty) : Bool :=
  match meet a b with
  | .ok c => c = b
  | .error _ => false

def reader : Reader Ty := ⟨node, unname⟩

def classify (a b : Ty) : Verdict := reader.classifyWithin (a.height + b.height) a b

theorem dual_mk (n : Node Ty) : dual (mk n) = build (n.flip.map dual) := by
  rw [dual, fold_mk, Node.flip_map]

end Ty

end TypeLattice
