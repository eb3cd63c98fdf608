namespace TypeLattice

inductive IntWidth where
  | w1
  | w8
  | w16
  | w32
  | w64
deriving DecidableEq, Hashable, Repr

namespace IntWidth

def bits : IntWidth → Nat
  | w1 => 1
  | w8 => 8
  | w16 => 16
  | w32 => 32
  | w64 => 64

def all : List IntWidth := [w1, w8, w16, w32, w64]

/-- The narrowest width of at least `n` bits; requests beyond the widest get the widest. -/
def roundUp (n : Nat) : IntWidth := (all.find? (fun w => n ≤ w.bits)).getD w64

instance : LE IntWidth := ⟨fun v w => v.bits ≤ w.bits⟩

instance : DecidableLE IntWidth := fun v w => inferInstanceAs (Decidable (v.bits ≤ w.bits))

instance : Max IntWidth := maxOfLe

instance : Min IntWidth := minOfLe

@[simp] theorem roundUp_bits (w : IntWidth) : roundUp w.bits = w := by cases w <;> rfl

end IntWidth

inductive FltWidth where
  | w32
  | w64
deriving DecidableEq, Hashable, Repr

namespace FltWidth

def bits : FltWidth → Nat
  | w32 => 32
  | w64 => 64

def all : List FltWidth := [w32, w64]

def roundUp (n : Nat) : FltWidth := (all.find? (fun w => n ≤ w.bits)).getD w64

/-- Significant bits, the hidden one included: every integer of at most this many bits is exact. -/
def precision : FltWidth → Nat
  | w32 => 24
  | w64 => 53

instance : LE FltWidth := ⟨fun v w => v.bits ≤ w.bits⟩

instance : DecidableLE FltWidth := fun v w => inferInstanceAs (Decidable (v.bits ≤ w.bits))

instance : Max FltWidth := maxOfLe

instance : Min FltWidth := minOfLe

@[simp] theorem roundUp_bits (w : FltWidth) : roundUp w.bits = w := by cases w <;> rfl

end FltWidth

end TypeLattice
