import TypeLattice.Record

namespace TypeLattice

/-- How the types of a carrier are made. -/
structure Maker (m : Type → Type) (α : Type) where
  preset : Preset → α
  intern : Record α → m α
  nullable : Half → α → m α

namespace Maker

variable {m n : Type → Type} {α : Type} (M : Maker m α)

def lift [MonadLiftT m n] : Maker n α where
  preset := M.preset
  intern r := liftM (M.intern r)
  nullable h x := liftM (M.nullable h x)

def int (h : Half) (bits : Nat) : m α := M.intern (.int ⟨h, (IntWidth.roundUp bits).bits, none⟩)

def intConst (c : Int64) : m α := M.intern (.int ⟨.bottom, (IntWidth.ofConst c).bits, some c⟩)

def flt (h : Half) (bits : Nat) : m α := M.intern (.flt ⟨h, (FltWidth.roundUp bits).bits, none⟩)

/-- The number with a bit pattern. Every NaN is stored by the same pattern. -/
def fltConst (pattern : UInt64) : m α :=
  let c := Binary64.ofBits pattern
  M.intern (.flt ⟨.bottom, (FltWidth.ofConst c).bits, some c.bits⟩)

variable [Monad m]

/-- The dual of a type by its record, given the duals of its components. -/
def dual (dual : α → m α) (x : α) : Record α → m α
  | .universal h => return M.preset (.universalOf h.flip)
  | .nil _ none => return M.preset .nil
  | .nil h (some y) => do M.nullable h.flip (← dual y)
  | .name l y => do M.intern (.name l (← dual y))
  | .scalar h => return M.preset (.scalarOf h.flip)
  | .ctrl h => return M.preset (.ctrlOf h.flip)
  | .int a =>
    match a.const? with
    | some c => M.intConst c
    | none => M.int a.half.flip a.bits
  | .flt a =>
    match a.const? with
    | some pattern => M.fltConst pattern
    | none => M.flt a.half.flip a.bits
  | .funPtr h ts => M.intern (.funPtr h.flip ts)
  | .func h ps r => do
    let ps ← ps.mapM dual
    M.intern (.func h.flip ps (← dual r))
  | .rpc h ts => M.intern (.rpc h.flip ts)
  | .oop h => return M.preset (.oopOf h.flip)
  | .str _ (some _) => return x
  | .str h none => return M.preset (.strOf h.flip)
  | .struct h fs => do M.intern (.struct h.flip (← fs.mapM fun f => return (f.1, ← dual f.2)))
  | .tuple h es => do M.intern (.tuple h.flip (← es.mapM dual))

end Maker

/-- What the rules of a meet rest on. -/
structure Meeter (m : Type → Type) (α : Type) extends Maker m α where
  meet : α → α → m α
  join : α → α → m α
  clash : α → α → m α

namespace Meeter

variable {m : Type → Type} [Monad m] {α : Type} (M : Meeter m α)

def ofPick (x y : α) (range : Half → Nat → m α) : Pick (Half × Nat) → m α
  | .left => return x
  | .right => return y
  | .made (h, bits) => range h bits

/-- Nil joins the values of any other type, and pointers have it already. -/
def ofNil (x : α) (h : Half) (inner : Option α) (y : α) (q : Record α) : m α :=
  match q with
  | .ctrl _ => M.clash x y
  | .name _ z => M.meet x z
  | q =>
    match inner, q with
    | none, .nil _ (some z) => M.nullable .bottom z
    | none, .scalar k => return M.preset (if k.isTop then .nil else .scalar)
    | none, q => if q.kind.isPointer then return M.preset .oop else M.nullable .bottom y
    | some u, .nil _ none => M.nullable .bottom u
    | some u, .nil k (some z) => do M.nullable (h.inf k) (← M.meet u z)
    | some u, q => do M.nullable (h.inf q.half) (← M.meet u y)

def ofName (label : String) (inner y : α) : Record α → m α
  | .name l z => do if l = label then M.intern (.name label (← M.meet inner z)) else M.meet inner z
  | _ => M.meet inner y

def ofScalar (x : α) (h : Half) (y : α) : Record α → m α
  | .ctrl _ => M.clash x y
  | _ => return if h.isTop then y else M.preset .scalar

/-- Code addresses: choices share targets, settled types pool them, and a settled type is below
every choice. -/
def ofTargets (f : Half → List Nat → Record α) (x : α) (h : Half) (s : List Nat) (y : α) (k : Half)
    (t : List Nat) : m α :=
  match h, k with
  | .top, .top => M.intern (f .top (Ascending.inter compare (fun i _ => i) s t))
  | .bottom, .bottom => M.intern (f .bottom (Ascending.union compare id id (fun i _ => i) s t))
  | .top, .bottom => return y
  | .bottom, .top => return x

def ofFunc (h : Half) (ps : List α) (r : α) (k : Half) (qs : List α) (q : α) : m α := do
  if ps.length = qs.length then
    let ps ← (ps.zip qs).mapM fun p => M.join p.1 p.2
    M.intern (.func (h.inf k) ps (← M.meet r q))
  else return M.preset .scalar

def ofStr (x : α) (h : Half) (c : Option String) (y : α) (k : Half) (d : Option String) : m α :=
  match c, d with
  | some u, some v => return if u = v then x else M.preset .str
  | some _, none => return if k.isTop then x else M.preset .str
  | none, some _ => return if h.isTop then y else M.preset .str
  | none, none => return M.preset .str

/-- Choices have the fields of both, settled types the fields they share, and a settled type is
below every choice. -/
def ofStruct (x : α) (h : Half) (fs : List (String × α)) (y : α) (k : Half)
    (gs : List (String × α)) : m α := do
  let cmp (f g : String × α) : m Ordering := return compare f.1 g.1
  let both (f g : String × α) : m (String × α) := return (f.1, ← M.meet f.2 g.2)
  match h, k with
  | .top, .top => M.intern (.struct .top (← Ascending.unionM cmp id id both fs gs))
  | .bottom, .bottom => M.intern (.struct .bottom (← Ascending.interM cmp both fs gs))
  | .top, .bottom => return y
  | .bottom, .top => return x

def ofTuple (h : Half) (es : List α) (k : Half) (ds : List α) : m α := do
  if es.length = ds.length then
    M.intern (.tuple (h.inf k) (← (es.zip ds).mapM fun p => M.meet p.1 p.2))
  else return M.preset .oop

def ofPointers (x : α) (r : Record α) (y : α) (q : Record α) : m α :=
  match r, q with
  | .oop h, _ => return if h.isTop then y else M.preset .oop
  | .str h c, .str k d => M.ofStr x h c y k d
  | .struct h fs, .struct k gs => M.ofStruct x h fs y k gs
  | .tuple h es, .tuple k ds => M.ofTuple h es k ds
  | _, _ => return M.preset .oop

/-- Two kinds without a rule of their own meet in the least class that holds both. -/
def ofKinds (x : α) (r : Record α) (y : α) (q : Record α) : m α :=
  if r.kind.isPointer && q.kind.isPointer then M.ofPointers x r y q
  else if r.kind.isScalarLike && q.kind.isScalarLike then return M.preset .scalar
  else M.clash x y

/-- The rule for two types of which the left one has the kind of lower rank. -/
def ofOrdered (x : α) (r : Record α) (y : α) (q : Record α) : m α :=
  match r, q with
  | .universal h, _ => return if h.isTop then y else x
  | .nil h inner, q => M.ofNil x h inner y q
  | .name l inner, q => M.ofName l inner y q
  | .scalar h, q => M.ofScalar x h y q
  | .ctrl _, .ctrl _ => return M.preset .ctrl
  | .int a, .int b => ofPick x y M.int (a.meet b)
  | .flt a, .flt b => ofPick x y M.flt (a.meet b)
  | .funPtr h s, .funPtr k t => M.ofTargets .funPtr x h s y k t
  | .func h ps u, .func k qs v => M.ofFunc h ps u k qs v
  | .rpc h s, .rpc k t => M.ofTargets .rpc x h s y k t
  | r, q => M.ofKinds x r y q

def ofPair (x : α) (r : Record α) (y : α) (q : Record α) : m α :=
  if q.kind < r.kind then M.ofOrdered y q x r else M.ofOrdered x r y q

end Meeter

end TypeLattice
