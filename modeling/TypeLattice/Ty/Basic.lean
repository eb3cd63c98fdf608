import TypeLattice.Node

namespace TypeLattice

/-- A type as a finite tree. -/
inductive Ty where
  | mk (node : Node Ty)

namespace Ty

variable {β : Type}

def node : Ty → Node Ty
  | mk n => n

mutual

/-- Replace every layer, from the leaves up. -/
def fold (f : Node β → β) : Ty → β
  | mk n => f (foldNode f n)

def foldNode (f : Node β → β) : Node Ty → Node β
  | .atom a => .atom a
  | .nullable h x => .nullable h (fold f x)
  | .name l x => .name l (fold f x)
  | .func h ps r => .func h (foldList f ps) (fold f r)
  | .struct h fs => .struct h (foldFields f fs)
  | .tuple h es => .tuple h (foldList f es)

def foldList (f : Node β → β) : List Ty → List β
  | [] => []
  | t :: ts => fold f t :: foldList f ts

def foldFields (f : Node β → β) : List (String × Ty) → List (String × β)
  | [] => []
  | (l, t) :: fs => (l, fold f t) :: foldFields f fs

end

theorem foldList_eq_map (f : Node β → β) (ts : List Ty) : foldList f ts = ts.map (fold f) := by
  induction ts with
  | nil => rfl
  | cons t ts ih => rw [foldList, ih, List.map_cons]

theorem foldFields_eq_map (f : Node β → β) (fs : List (String × Ty)) :
    foldFields f fs = fs.map (fun p => (p.1, fold f p.2)) := by
  induction fs with
  | nil => rfl
  | cons p fs ih => rw [foldFields, ih, List.map_cons]

theorem fold_mk (f : Node β → β) (n : Node Ty) : fold f (mk n) = f (n.map (fold f)) := by
  cases n <;> simp [fold, foldNode, foldList_eq_map, foldFields_eq_map, Node.map]

mutual

theorem forall_of_node {P : Ty → Prop} (h : ∀ n : Node Ty, (∀ t ∈ n.children, P t) → P (mk n)) :
    ∀ t, P t
  | mk n => h n (forall_children h n)

theorem forall_children {P : Ty → Prop} (h : ∀ n : Node Ty, (∀ t ∈ n.children, P t) → P (mk n)) :
    ∀ n : Node Ty, ∀ t ∈ n.children, P t
  | .atom _ => by simp [Node.children]
  | .nullable _ x => by simpa [Node.children] using forall_of_node h x
  | .name _ x => by simpa [Node.children] using forall_of_node h x
  | .func _ ps r => by
    intro t ht
    rcases List.mem_append.1 ht with ht | ht
    · exact forall_list h ps t ht
    · rw [List.mem_singleton.1 ht]
      exact forall_of_node h r
  | .struct _ fs => by
    intro t ht
    obtain ⟨p, hp, rfl⟩ := List.mem_map.1 ht
    exact forall_fields h fs p hp
  | .tuple _ es => forall_list h es

theorem forall_list {P : Ty → Prop} (h : ∀ n : Node Ty, (∀ t ∈ n.children, P t) → P (mk n)) :
    ∀ ts : List Ty, ∀ t ∈ ts, P t
  | [] => by simp
  | t :: ts => List.forall_mem_cons.2 ⟨forall_of_node h t, forall_list h ts⟩

theorem forall_fields {P : Ty → Prop} (h : ∀ n : Node Ty, (∀ t ∈ n.children, P t) → P (mk n)) :
    ∀ fs : List (String × Ty), ∀ p ∈ fs, P p.2
  | [] => by simp
  | (_, t) :: fs => List.forall_mem_cons.2 ⟨forall_of_node h t, forall_fields h fs⟩

end

@[elab_as_elim, induction_eliminator]
theorem induction {motive : Ty → Prop}
    (mk : ∀ n : Node Ty, (∀ t ∈ n.children, motive t) → motive (mk n)) (t : Ty) : motive t :=
  forall_of_node mk t

def beq : Ty → Ty → Bool := fold (fun n t => n.agrees t.node)

theorem beq_iff (s t : Ty) : s.beq t = true ↔ s = t := by
  induction s generalizing t with
  | mk n ih =>
    obtain ⟨k⟩ := t
    rw [beq, fold_mk, mk.injEq]
    exact Node.agrees_map_iff beq n k ih

instance : DecidableEq Ty := fun s t => decidable_of_iff _ (beq_iff s t)

def unname : Ty → Ty
  | mk (.name _ x) => unname x
  | t => t

def render : Ty → String := fold Node.render

def isConst : Ty → Bool := fold Node.isConst

def height : Ty → Nat := fold Node.height

end Ty

end TypeLattice
