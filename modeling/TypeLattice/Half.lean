namespace TypeLattice

/-- A type in the top half is a choice among its members; a type in the bottom
half is all of them. -/
inductive Half where
  | top
  | bottom
deriving DecidableEq, Hashable, Repr

namespace Half

def flip : Half → Half
  | top => bottom
  | bottom => top

def isTop : Half → Bool
  | top => true
  | bottom => false

def ofBool (isTop : Bool) : Half := if isTop then top else bottom

def inf : Half → Half → Half
  | top, top => top
  | _, _ => bottom

@[simp] theorem flip_flip (h : Half) : h.flip.flip = h := by cases h <;> rfl

@[simp] theorem isTop_flip (h : Half) : h.flip.isTop = !h.isTop := by cases h <;> rfl

theorem inf_comm (h k : Half) : h.inf k = k.inf h := by cases h <;> cases k <;> rfl

theorem inf_assoc (h k l : Half) : (h.inf k).inf l = h.inf (k.inf l) := by
  cases h <;> cases k <;> cases l <;> rfl

@[simp] theorem inf_top (h : Half) : h.inf .top = h := by cases h <;> rfl

@[simp] theorem inf_self (h : Half) : h.inf h = h := by cases h <;> rfl

end Half

end TypeLattice
