import TypeLattice.Atom

namespace TypeLattice

/-- Fields by name. Of two fields of one name the first stays. -/
def Fields.ofList {α : Type} (fs : List (String × α)) : List (String × α) :=
  Ascending.arrange Prod.fst fs

def Fields.find? {α : Type} (fs : List (String × α)) (label : String) : Option α :=
  (Ascending.find? Prod.fst label fs).map Prod.snd

/-- One layer of a type over a carrier of component types. -/
inductive Node (α : Type) where
  | atom (a : Atom)
  | nullable (half : Half) (inner : α)
  | name (label : String) (inner : α)
  | func (half : Half) (params : List α) (result : α)
  | struct (half : Half) (fields : List (String × α))
  | tuple (half : Half) (elems : List α)
deriving DecidableEq, Hashable

namespace Node

variable {α β : Type}

def kind : Node α → Kind
  | atom a => a.kind
  | nullable _ _ => .nil
  | name _ _ => .name
  | func _ _ _ => .func
  | struct _ _ => .struct
  | tuple _ _ => .tuple

/-- The half that the layer states. A name states none. -/
def half : Node α → Half
  | atom a => a.half
  | nullable h _ | func h _ _ | struct h _ | tuple h _ => h
  | name _ _ => .bottom

def flip : Node α → Node α
  | atom a => atom a.dual
  | nullable h x => nullable h.flip x
  | name l x => name l x
  | func h ps r => func h.flip ps r
  | struct h fs => struct h.flip fs
  | tuple h es => tuple h.flip es

def children : Node α → List α
  | atom _ => []
  | nullable _ x | name _ x => [x]
  | func _ ps r => ps ++ [r]
  | struct _ fs => fs.map (·.2)
  | tuple _ es => es

def map (f : α → β) : Node α → Node β
  | atom a => atom a
  | nullable h x => nullable h (f x)
  | name l x => name l (f x)
  | func h ps r => func h (ps.map f) (f r)
  | struct h fs => struct h (fs.map (fun p => (p.1, f p.2)))
  | tuple h es => tuple h (es.map f)

/-- Replace the components by an effect, in the order of `children`. -/
def mapM {m : Type → Type} [Monad m] (f : α → m β) : Node α → m (Node β)
  | atom a => return atom a
  | nullable h x => return nullable h (← f x)
  | name l x => return name l (← f x)
  | func h ps r => do
    let ps ← ps.mapM f
    return func h ps (← f r)
  | struct h fs => return struct h (← fs.mapM (fun p => return (p.1, ← f p.2)))
  | tuple h es => return tuple h (← es.mapM f)

def admitsNil (n : Node α) : Bool :=
  match n.kind with
  | .nil | .scalar => true
  | k => k.isPointer

def isUniversal : Node α → Bool
  | atom (.universal _) => true
  | _ => false

def field? (label : String) : Node α → Option α
  | struct _ fs => Fields.find? fs label
  | _ => none

def agreesList : List (α → Bool) → List α → Bool
  | [], [] => true
  | p :: ps, x :: xs => p x && agreesList ps xs
  | _, _ => false

def agrees : Node (α → Bool) → Node α → Bool
  | atom a, atom b => a = b
  | nullable h p, nullable k x => h = k && p x
  | name l p, name l' x => l = l' && p x
  | func h ps p, func k xs x => h = k && agreesList ps xs && p x
  | struct h fs, struct k gs =>
    h = k && fs.map (·.1) = gs.map (·.1) && agreesList (fs.map (·.2)) (gs.map (·.2))
  | tuple h ps, tuple k xs => h = k && agreesList ps xs
  | _, _ => false

def render : Node String → String
  | atom a => a.render
  | nullable .top x => "~(" ++ x ++ ")?"
  | nullable .bottom x => x ++ "?"
  | name l x => l ++ ":" ++ x
  | func h ps r => h.mark ++ "\x7b" ++ String.join (ps.map (· ++ " ")) ++ "-> " ++ r ++ "\x7d"
  | struct h fs =>
    h.mark ++ "@\x7b" ++ "; ".intercalate (fs.map (fun p => p.1 ++ ":" ++ p.2)) ++ "\x7d"
  | tuple h es => h.mark ++ "(" ++ ",".intercalate es ++ ")"

def isConst : Node Bool → Bool
  | atom a => a.isConst
  | nullable _ _ | func _ _ _ => false
  | name _ x => x
  | struct h fs => !h.isTop && !fs.isEmpty && fs.all (·.2)
  | tuple h es => !h.isTop && es.all id

def height (n : Node Nat) : Nat := n.children.foldr max 0 + 1

theorem children_map (f : α → β) (n : Node α) : (n.map f).children = n.children.map f := by
  cases n <;> simp [map, children]

@[simp] theorem map_id (n : Node α) : n.map (fun x => x) = n := by
  cases n <;> simp [map]

@[simp] theorem map_map {γ : Type} (g : β → γ) (f : α → β) (n : Node α) :
    (n.map f).map g = n.map (fun x => g (f x)) := by
  cases n <;> simp [map]

@[simp] theorem kind_map (f : α → β) (n : Node α) : (n.map f).kind = n.kind := by
  cases n <;> rfl

@[simp] theorem half_map (f : α → β) (n : Node α) : (n.map f).half = n.half := by
  cases n <;> rfl

@[simp] theorem flip_map (f : α → β) (n : Node α) : (n.map f).flip = n.flip.map f := by
  cases n <;> rfl

theorem map_congr {f g : α → β} {n : Node α} (h : ∀ x ∈ n.children, f x = g x) :
    n.map f = n.map g := by
  cases n with
  | struct k fs =>
    simp only [map, struct.injEq, true_and]
    exact List.map_congr_left fun p hp => by rw [h p.2 (List.mem_map_of_mem hp)]
  | _ => simp_all [map, children]

theorem agreesList_map_iff {β : Type} (p : α → β → Bool) (f : α → β) (xs : List α) (ys : List β)
    (h : ∀ x ∈ xs, ∀ y, p x y = true ↔ f x = y) :
    agreesList (xs.map p) ys = true ↔ xs.map f = ys := by
  induction xs generalizing ys with
  | nil => cases ys <;> simp [agreesList]
  | cons x xs ih => cases ys <;> simp_all [agreesList]

theorem agrees_map_iff (p : α → α → Bool) (n k : Node α)
    (h : ∀ x ∈ n.children, ∀ y, p x y = true ↔ x = y) : (n.map p).agrees k = true ↔ n = k := by
  have list (xs : List α) (ys : List α) (hxs : ∀ x ∈ xs, x ∈ n.children) :
      agreesList (xs.map p) ys = true ↔ xs = ys := by
    simpa using agreesList_map_iff p id xs ys fun x hx => h x (hxs x hx)
  cases n with
  | struct a fs =>
    cases k with
    | struct b gs =>
      have := list (fs.map (·.2)) (gs.map (·.2)) fun _ hx => by simpa [children] using hx
      simp only [List.map_map] at this
      simp only [map, agrees, List.map_map, Bool.and_eq_true, decide_eq_true_eq, Function.comp_def,
        struct.injEq] at this ⊢
      rw [this, and_assoc, and_congr_right_iff]
      refine fun _ => ⟨fun ⟨h₁, h₂⟩ => ?_, fun e => e ▸ ⟨rfl, rfl⟩⟩
      rw [← List.zip_unzip fs, ← List.zip_unzip gs]
      simp [List.unzip_eq_map, h₁, h₂]
    | _ => simp [map, agrees]
  | func a ps r =>
    cases k with
    | func b qs q =>
      simp [map, agrees, list ps qs fun _ hx => List.mem_append_left _ hx,
        h r (List.mem_append_right _ (List.mem_singleton_self r)), and_assoc]
    | _ => simp [map, agrees]
  | tuple a es =>
    cases k with
    | tuple b qs => simp [map, agrees, list es qs fun _ hx => hx]
    | _ => simp [map, agrees]
  | atom | nullable | name => cases k <;> simp_all [map, agrees, children]

end Node

end TypeLattice
