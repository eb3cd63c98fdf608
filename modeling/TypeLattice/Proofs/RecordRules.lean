import TypeLattice.Proofs.SortedSearch
import TypeLattice.Rules

namespace TypeLattice

theorem IntWidth.bits_max (v w : IntWidth) : (max v w).bits = max v.bits w.bits := by
  cases v <;> cases w <;> rfl

theorem IntWidth.bits_min (v w : IntWidth) : (min v w).bits = min v.bits w.bits := by
  cases v <;> cases w <;> rfl

theorem FltWidth.bits_max (v w : FltWidth) : (max v w).bits = max v.bits w.bits := by
  cases v <;> cases w <;> rfl

theorem FltWidth.bits_min (v w : FltWidth) : (min v w).bits = min v.bits w.bits := by
  cases v <;> cases w <;> rfl

theorem Binary64.ofBits_bits (c : Binary64) : ofBits c.bits = c := by
  obtain ⟨bits, hbits⟩ := c
  rw [ofBits]
  split
  · next h =>
      cases hbits h
      rfl
  · rfl

theorem Binary64.bits_injective {c d : Binary64} (h : c.bits = d.bits) : c = d := by
  rw [← ofBits_bits c, h, ofBits_bits]

theorem OrdSet.ofList_toList {α : Type} [Ord α] [Std.TransOrd α] [Std.LawfulEqOrd α]
    [DecidableEq α] (s : OrdSet α) : ofList s.toList = s :=
  ext_toList (Ascending.arrange_of_sorted s.sorted_map)

namespace Ascending

variable {α β γ δ : Type} {m : Type → Type} [Monad m] [LawfulMonad m] {cmp : α → β → Ordering}
  {left : α → γ} {left' : α → δ} {right : β → γ} {right' : β → δ} {both : α → β → γ}
  {both' : α → β → m δ} {g : γ → m δ}

theorem mapM_union (hleft : ∀ a, g (left a) = pure (left' a))
    (hright : ∀ b, g (right b) = pure (right' b)) (hboth : ∀ a b, g (both a b) = both' a b)
    (as : List α) (bs : List β) :
    (union cmp left right both as bs).mapM g =
      unionM (fun a b => pure (cmp a b)) left' right' both' as bs := by
  induction as generalizing bs with
  | nil => simp [unionM, List.mapM_map, Function.comp_def, hright]
  | cons a as iha =>
      induction bs with
      | nil => simp [unionM, List.mapM_map, Function.comp_def, hleft]
      | cons b bs ihb =>
          rw [union_cons_cons, unionM, pure_bind]
          cases cmp a b with
          | lt => simp [hleft, iha]
          | gt => simp [hright, ihb]
          | eq => simp [hboth, iha]

theorem mapM_inter (hboth : ∀ a b, g (both a b) = both' a b) (as : List α) (bs : List β) :
    (inter cmp both as bs).mapM g = interM (fun a b => pure (cmp a b)) both' as bs := by
  induction as generalizing bs with
  | nil => simp [interM]
  | cons a as iha =>
      induction bs with
      | nil => simp [interM]
      | cons b bs ihb =>
          rw [inter_cons_cons, interM, pure_bind]
          cases cmp a b with
          | lt => exact iha (b :: bs)
          | gt => exact ihb
          | eq => simp [hboth, iha]

end Ascending

def Numeric.record {ω ν μ : Type} [Sized ν ω] (bits : ω → Nat) (code : ν → μ) :
    Numeric ω ν → NumberRecord μ
  | const c => ⟨.bottom, bits (Sized.width c), some (code c)⟩
  | range h w => ⟨h, bits w, none⟩

def Pick.map {β γ : Type} (f : β → γ) : Pick β → Pick γ
  | left => left
  | right => right
  | made b => made (f b)

section numbers

variable {ω ν μ : Type} [Sized ν ω] [DecidableEq ν] [DecidableEq μ] [LE ω] [DecidableLE ω] [Max ω]
  [Min ω] (bits : ω → Nat) (code : ν → μ)

theorem Numeric.exists_range_of_meet {a b c : Numeric ω ν} (h : a.meet b = .made c) :
    ∃ k w, c = range k w := by
  cases a with
  | const u =>
      cases b with
      | const v => grind [meet]
      | range k w => cases k <;> grind [meet]
  | range j v =>
      cases b with
      | const u => cases j <;> grind [meet]
      | range k w => cases j <;> cases k <;> grind [meet]

/-- The meet of two records in normal form is that of the number types, by half and width. -/
theorem NumberRecord.meet_record (hle : ∀ v w, v ≤ w ↔ bits v ≤ bits w)
    (hmax : ∀ v w, bits (max v w) = max (bits v) (bits w))
    (hmin : ∀ v w, bits (min v w) = min (bits v) (bits w)) (hcode : ∀ c d, code c = code d ↔ c = d)
    (a b : Numeric ω ν) : (a.record bits code).meet (b.record bits code) =
      (a.meet b).map fun c => (c.half, bits c.width) := by
  cases a with
  | const c =>
      cases b with
      | const d =>
          by_cases h : c = d <;>
            simp [Numeric.record, Numeric.meet, Numeric.half, Numeric.width, meet, isConst,
              meetShapes, Pick.map, h, hcode, hmax]
      | range k w =>
          by_cases h : bits (Sized.width c) ≤ bits w <;> cases k <;>
            simp [Numeric.record, Numeric.meet, Numeric.half, Numeric.width, meet, isConst,
              meetShapes, meetRange, Half.isTop, Pick.map, h, hle, hmax]
  | range j v =>
      cases b with
      | const d =>
          by_cases h : bits (Sized.width d) ≤ bits v <;> cases j <;>
            simp [Numeric.record, Numeric.meet, Numeric.half, Numeric.width, meet, isConst,
              meetShapes, meetRange, Half.isTop, Pick.map, h, hle, hmax]
      | range k w =>
          cases j <;> cases k <;>
            simp [Numeric.record, Numeric.meet, Numeric.half, Numeric.width, meet, isConst,
              meetShapes, Pick.map, hmax, hmin]

end numbers

def Atom.record {α : Type} : Atom → Record α
  | universal h => .universal h
  | nil => .nil .bottom none
  | scalar h => .scalar h
  | ctrl h => .ctrl h
  | int a => .int (a.record IntWidth.bits id)
  | flt a => .flt (a.record FltWidth.bits Binary64.bits)
  | funPtr h s => .funPtr h s.toList
  | rpc h s => .rpc h s.toList
  | oop h => .oop h
  | str h => .str h none
  | strConst v => .str .bottom (some v)

namespace Node

variable {α : Type}

/-- The record of a layer in normal form. -/
def record : Node α → Record α
  | atom a => a.record
  | nullable h x => .nil h (some x)
  | name l x => .name l x
  | func h ps r => .func h ps r
  | struct h fs => .struct h fs
  | tuple h es => .tuple h es

@[simp] theorem node_record (n : Node α) : n.record.node = n := by
  cases n with
  | atom a =>
      cases a with
      | int a | flt a =>
          cases a <;> simp [record, Atom.record, Record.node, NumberRecord.view, Numeric.record,
            Binary64.ofBits_bits]
      | funPtr h s | rpc h s => simp [record, Atom.record, Record.node, OrdSet.ofList_toList]
      | _ => rfl
  | _ => rfl

theorem record_inj {n k : Node α} : n.record = k.record ↔ n = k := by
  refine ⟨fun h => ?_, fun h => h ▸ rfl⟩
  rw [← node_record n, h, node_record]

@[simp] theorem kind_record (n : Node α) : n.record.kind = n.kind := by
  cases n with
  | atom a => cases a <;> rfl
  | _ => rfl

@[simp] theorem half_record (n : Node α) : n.record.half = n.half := by
  cases n with
  | atom a =>
      cases a with
      | int a | flt a => cases a <;> rfl
      | _ => rfl
  | _ => rfl

end Node

namespace Preset

def atom : Preset → Atom
  | any => .universal .top
  | all => .universal .bottom
  | scalar => .scalar .bottom
  | anyScalar => .scalar .top
  | ctrl => .ctrl .bottom
  | anyCtrl => .ctrl .top
  | nil => .nil
  | oop => .oop .bottom
  | anyOop => .oop .top
  | str => .str .bottom
  | anyStr => .str .top
  | bool => .int (.range .bottom .w1)
  | int8 => .int (.range .bottom .w8)
  | int32 => .int (.range .bottom .w32)
  | int64 => .int (.range .bottom .w64)
  | anyInt64 => .int (.range .top .w64)
  | flt32 => .flt (.range .bottom .w32)
  | flt64 => .flt (.range .bottom .w64)
  | anyFlt64 => .flt (.range .top .w64)

theorem record_eq {α : Type} (p : Preset) : (p.record : Record α) = (Node.atom p.atom).record := by
  cases p <;> rfl

/-- Atoms with nothing but a half are presets in either half, and are never looked up. -/
def ofAtom? : Atom → Option Preset
  | .universal h => some (universalOf h)
  | .nil => some nil
  | .scalar h => some (scalarOf h)
  | .ctrl h => some (ctrlOf h)
  | .oop h => some (oopOf h)
  | .str h => some (strOf h)
  | .int _ | .flt _ | .funPtr _ _ | .rpc _ _ | .strConst _ => none

theorem atom_ofAtom? {a : Atom} {p : Preset} (h : ofAtom? a = some p) : p.atom = a := by
  cases a with
  | universal h' | scalar h' | ctrl h' | oop h' | str h' =>
      cases h
      cases h' <;> rfl
  | nil =>
      cases h
      rfl
  | _ => cases h

end Preset

namespace Maker

variable {m : Type → Type} [Monad m] {α : Type} (M : Maker m α)

def build : Node α → m α
  | .atom a =>
    match Preset.ofAtom? a with
    | some p => pure (M.preset p)
    | none => M.intern a.record
  | .nullable h x => M.nullable h x
  | n => M.intern n.record

theorem build_lift {n : Type → Type} [Monad n] [MonadLiftT m n] [LawfulMonadLiftT m n]
    (k : Node α) : (M.lift : Maker n α).build k = liftM (M.build k) := by
  cases k with
  | atom a =>
      simp only [build]
      split
      · exact (liftM_pure _).symm
      · rfl
  | _ => rfl

variable [LawfulMonad m]

def dualLayer (dual : α → m α) (x : α) : Node α → m α
  | .atom (.strConst _) => return x
  | n => do M.build (← n.mapM dual).flip

theorem dual_record (dual : α → m α) (x : α) (n : Node α) :
    M.dual dual x n.record = M.dualLayer dual x n := by
  cases n with
  | atom a =>
      cases a with
      | int a | flt a =>
          cases a <;>
            simp [Node.record, Atom.record, Numeric.record, Maker.dual, dualLayer, Node.mapM,
              Node.flip, Atom.dual, Numeric.dual, build, Preset.ofAtom?, intConst, int, fltConst,
              flt, Binary64.ofBits_bits, Sized.width]
      | _ =>
          simp [Node.record, Atom.record, Maker.dual, dualLayer, Node.mapM, Node.flip, Atom.dual,
            build, Preset.ofAtom?]
  | _ => simp [Node.record, Maker.dual, dualLayer, Node.mapM, Node.flip, build]

end Maker

namespace Meeter

variable {m : Type → Type} [Monad m] {α : Type} (M : Meeter m α)

def run (p : Plan α) : m α := p.run M.build M.meet M.join M.clash

/-- The settled classes that a rule answers are stored as their presets. -/
structure Places (x : α) (n : Node α) : Prop where
  scalar : n = .atom (.scalar .bottom) → x = M.preset .scalar
  oop : n = .atom (.oop .bottom) → x = M.preset .oop

variable (x y : α)

theorem run_lift {n : Type → Type} [Monad n] [MonadLiftT m n] [LawfulMonadLiftT m n] (N : Maker m α)
    (meet join clash : α → α → n α) (p : Plan α) : (Meeter.mk N.lift meet join clash).run p =
      p.run (fun k => liftM (N.build k)) meet join clash := by
  have hbuild : N.lift.build = fun k => (liftM (N.build k) : n α) := funext N.build_lift
  rw [run, hbuild]

@[simp] theorem run_keep : M.run (.keep x) = pure x := rfl

@[simp] theorem run_meet : M.run (.meet x y) = M.meet x y := rfl

@[simp] theorem run_clash : M.run (.clash x y) = M.clash x y := rfl

variable [LawfulMonad m]

@[simp] theorem run_make (a : Atom) : M.run (.make a) = M.build (.atom a) := by
  simp [run, Plan.run, Plan.make, Node.mapM]

@[simp] theorem run_nullable (h : Half) (p : Piece α) :
    M.run (.build (.nullable h p)) = (do M.nullable h (← p.run M.meet M.join)) := by
  simp [run, Plan.run, Node.mapM, Maker.build]

@[simp] theorem run_name (l : String) (p : Piece α) :
    M.run (.build (.name l p)) = (do M.intern (.name l (← p.run M.meet M.join))) := by
  simp [run, Plan.run, Node.mapM, Maker.build, Node.record]

@[simp] theorem run_func (h : Half) (ps : List (Piece α)) (r : Piece α) :
    M.run (.build (.func h ps r)) = (do
      let ps ← ps.mapM (Piece.run M.meet M.join)
      M.intern (.func h ps (← r.run M.meet M.join))) := by
  simp [run, Plan.run, Node.mapM, Maker.build, Node.record]

@[simp] theorem run_struct (h : Half) (fs : List (String × Piece α)) :
    M.run (.build (.struct h fs)) = (do
      let fs ← fs.mapM fun f => return (f.1, ← f.2.run M.meet M.join)
      M.intern (.struct h fs)) := by
  simp [run, Plan.run, Node.mapM, Maker.build, Node.record]

@[simp] theorem run_tuple (h : Half) (es : List (Piece α)) :
    M.run (.build (.tuple h es)) =
      (do M.intern (.tuple h (← es.mapM (Piece.run M.meet M.join)))) := by
  simp [run, Plan.run, Node.mapM, Maker.build, Node.record]

theorem ofPick_map {β : Type} (range : Half → Nat → m α) (f : β → Atom) (g : β → Half × Nat)
    (p : Pick β) (h : ∀ b, p = .made b → range (g b).1 (g b).2 = M.build (.atom (f b))) :
    ofPick x y range (p.map g) = M.run (.ofPick x y f p) := by
  cases p with
  | made b => simpa [Pick.map, ofPick, Plan.ofPick] using h b rfl
  | _ => rfl

theorem ofPick_int (a b : Numeric IntWidth Int64) :
    ofPick x y M.int ((a.record IntWidth.bits id).meet (b.record IntWidth.bits id)) =
      M.run (.ofPick x y .int (a.meet b)) := by
  rw [NumberRecord.meet_record IntWidth.bits id (fun _ _ => Iff.rfl) IntWidth.bits_max
    IntWidth.bits_min (fun _ _ => Iff.rfl)]
  refine M.ofPick_map x y M.int .int _ _ fun c hc => ?_
  obtain ⟨k, w, rfl⟩ := Numeric.exists_range_of_meet hc
  simp [Numeric.half, Numeric.width, Maker.int, Maker.build, Preset.ofAtom?, Atom.record,
    Numeric.record]

theorem ofPick_flt (a b : Numeric FltWidth Binary64) :
    ofPick x y M.flt ((a.record FltWidth.bits Binary64.bits).meet
      (b.record FltWidth.bits Binary64.bits)) = M.run (.ofPick x y .flt (a.meet b)) := by
  have hcode (c d : Binary64) : c.bits = d.bits ↔ c = d := ⟨Binary64.bits_injective, congrArg _⟩
  rw [NumberRecord.meet_record FltWidth.bits Binary64.bits (fun _ _ => Iff.rfl) FltWidth.bits_max
    FltWidth.bits_min hcode]
  refine M.ofPick_map x y M.flt .flt _ _ fun c hc => ?_
  obtain ⟨k, w, rfl⟩ := Numeric.exists_range_of_meet hc
  simp [Numeric.half, Numeric.width, Maker.flt, Maker.build, Preset.ofAtom?, Atom.record,
    Numeric.record]

theorem ofKinds_record (n k : Node α) (h : (n.kind.isPointer && k.kind.isPointer) = false ∨
      M.ofPointers x n.record y k.record = pure (M.preset .oop)) :
    M.ofKinds x n.record y k.record = M.run (.ofKinds x n.kind y k.kind) := by
  rw [ofKinds, Plan.ofKinds, Node.kind_record, Node.kind_record]
  split
  · next hptr =>
      -- on records two pointers have rules of their own first, which layers match on before
      rw [h.resolve_left (by simp [hptr]), run_make]
      rfl
  · split
    · rw [run_make]
      rfl
    · rfl

theorem ofNil_record (k : Node α) : M.ofNil x .bottom none y k.record = M.run (.ofNil x y k) := by
  cases k with
  | atom b =>
      cases b with
      | scalar h => cases h <;> simp [Node.record, Atom.record, ofNil, Plan.ofNil] <;> rfl
      | _ =>
          simp [Node.record, Atom.record, ofNil, Plan.ofNil, Record.kind, Node.kind, Atom.kind,
            Kind.isPointer, Piece.run] <;> rfl
  | _ =>
      simp [Node.record, ofNil, Plan.ofNil, Record.kind, Node.kind, Kind.isPointer,
        Piece.run] <;> rfl

theorem ofNullable_record (h : Half) (u : α) (k : Node α) :
    M.ofNil x h (some u) y k.record = M.run (.ofNullable x h u y k) := by
  have hhalf := k.half_record
  cases k with
  | atom b => cases b <;> simp_all [Node.record, Atom.record, ofNil, Plan.ofNullable, Piece.run]
  | _ => simp_all [Node.record, ofNil, Plan.ofNullable, Piece.run]

theorem ofName_record (l : String) (u : α) (k : Node α) :
    M.ofName l u y k.record = M.run (.ofName l u y k) := by
  cases k with
  | atom b => cases b <;> rfl
  | name l' z =>
      simp only [Node.record, ofName, Plan.ofName]
      split <;> simp [Piece.run]
  | _ => rfl

omit [Monad m] [LawfulMonad m] in
theorem settled_eq {h : Half} {p : Preset} (hx : h = .bottom → x = M.preset p) :
    (if h.isTop then y else M.preset p) = if h.isTop then y else x := by
  cases h with
  | top => rfl
  | bottom => exact (hx rfl).symm

omit [LawfulMonad m] in
theorem ofScalar_record {h : Half} (hx : M.Places x (.atom (.scalar h))) (k : Node α) :
    M.ofScalar x h y k.record = M.run (.ofScalar x h y k) := by
  have hrest := M.settled_eq x y fun hb : h = .bottom => hx.scalar (by rw [hb])
  cases k with
  | atom b => cases b <;> simp [Node.record, Atom.record, ofScalar, Plan.ofScalar, hrest]
  | _ => simp [Node.record, ofScalar, Plan.ofScalar, hrest]

theorem ofCtrl_record (h : Half) (k : Node α) :
    M.ofOrdered x (.ctrl h) y k.record = M.run (.ofCtrl x y k) := by
  have hkinds := M.ofKinds_record x y (.atom (.ctrl h)) k (.inl rfl)
  cases k with
  | atom b =>
      cases b with
      | ctrl _ => exact (M.run_make (.ctrl .bottom)).symm
      | _ => exact hkinds
  | _ => exact hkinds

theorem ofInt_record (a : Numeric IntWidth Int64) (k : Node α) :
    M.ofOrdered x (.int (a.record IntWidth.bits id)) y k.record = M.run (.ofInt x a y k) := by
  have hkinds := M.ofKinds_record x y (.atom (.int a)) k (.inl rfl)
  cases k with
  | atom b =>
      cases b with
      | int b => exact M.ofPick_int x y a b
      | _ => exact hkinds
  | _ => exact hkinds

theorem ofFlt_record (a : Numeric FltWidth Binary64) (k : Node α) :
    M.ofOrdered x (.flt (a.record FltWidth.bits Binary64.bits)) y k.record =
      M.run (.ofFlt x a y k) := by
  have hkinds := M.ofKinds_record x y (.atom (.flt a)) k (.inl rfl)
  cases k with
  | atom b =>
      cases b with
      | flt b => exact M.ofPick_flt x y a b
      | _ => exact hkinds
  | _ => exact hkinds

theorem ofTargets_record (f : Half → List Nat → Record α) (g : Half → OrdSet Nat → Atom)
    (hfg : ∀ h s, M.build (.atom (g h s)) = M.intern (f h s.toList)) (h : Half) (s : OrdSet Nat)
    (k : Half) (t : OrdSet Nat) :
    M.ofTargets f x h s.toList y k t.toList = M.run (.ofTargets g x h s y k t) := by
  cases h <;> cases k <;> simp [ofTargets, Plan.ofTargets, hfg] <;> rfl

theorem ofFunPtr_record (h : Half) (s : OrdSet Nat) (k : Node α) :
    M.ofOrdered x (.funPtr h s.toList) y k.record = M.run (.ofFunPtr x h s y k) := by
  have hkinds := M.ofKinds_record x y (.atom (.funPtr h s)) k (.inl rfl)
  cases k with
  | atom b =>
      cases b with
      | funPtr i t => exact M.ofTargets_record x y .funPtr .funPtr (fun _ _ => rfl) h s i t
      | _ => exact hkinds
  | _ => exact hkinds

theorem ofRpc_record (h : Half) (s : OrdSet Nat) (k : Node α) :
    M.ofOrdered x (.rpc h s.toList) y k.record = M.run (.ofRpc x h s y k) := by
  have hkinds := M.ofKinds_record x y (.atom (.rpc h s)) k (.inl rfl)
  cases k with
  | atom b =>
      cases b with
      | rpc i t => exact M.ofTargets_record x y .rpc .rpc (fun _ _ => rfl) h s i t
      | _ => exact hkinds
  | _ => exact hkinds

theorem mapM_zipWith (combine : α → α → m α) (piece : α → α → Piece α)
    (h : ∀ a b, (piece a b).run M.meet M.join = combine a b) (as bs : List α) :
    (List.zipWith piece as bs).mapM (Piece.run M.meet M.join) =
      (as.zip bs).mapM fun p => combine p.1 p.2 := by
  induction as generalizing bs with
  | nil => simp
  | cons a as ih => cases bs <;> simp [h, ih]

theorem ofFunc_record (h : Half) (ps : List α) (r : α) (k : Node α) :
    M.ofOrdered x (.func h ps r) y k.record = M.run (.ofFunc x h ps r y k) := by
  have hkinds := M.ofKinds_record x y (.func h ps r) k (.inl rfl)
  cases k with
  | atom b => cases b <;> exact hkinds
  | func i qs q =>
      simp only [Node.record, ofOrdered, ofFunc, Plan.ofFunc]
      split
      · rw [run_func, M.mapM_zipWith M.join .join (fun _ _ => rfl)]
        rfl
      · exact (M.run_make (.scalar .bottom)).symm
  | _ => exact hkinds

theorem ofOop_record {h : Half} (hx : M.Places x (.atom (.oop h))) (k : Node α) :
    M.ofOrdered x (.oop h) y k.record = M.run (.ofOop x h y k) := by
  have hrest := M.settled_eq x y fun hb : h = .bottom => hx.oop (by rw [hb])
  have hkinds : M.ofOrdered x (.oop h) y k.record = M.ofKinds x (.oop h) y k.record := by
    cases k with
    | atom b => cases b <;> rfl
    | _ => rfl
  have hpointers : M.ofPointers x (.oop h) y k.record = pure (if h.isTop then y else x) := by
    rw [← hrest]
    cases k with
    | atom b => cases b <;> rfl
    | _ => rfl
  rw [hkinds, Plan.ofOop]
  split
  · next hptr =>
      rw [ofKinds, if_pos (by simpa using ⟨rfl, hptr⟩), hpointers]
      rfl
  · next hptr => exact M.ofKinds_record x y (.atom (.oop h)) k (.inl (by simp [hptr]))

theorem ofStr_record (h : Half) (k : Node α) :
    M.ofOrdered x (.str h none) y k.record = M.run (.ofStr x h y k) := by
  cases k with
  | atom b =>
      cases b with
      | str i => exact (M.run_make (.str .bottom)).symm
      | strConst v => cases h <;> simp [Plan.ofStr, Half.isTop] <;> rfl
      | _ => exact M.ofKinds_record x y (.atom (.str h)) (.atom _) (.inr rfl)
  | _ => exact M.ofKinds_record x y (.atom (.str h)) _ (.inr rfl)

theorem ofStrConst_record (u : String) (k : Node α) :
    M.ofOrdered x (.str .bottom (some u)) y k.record = M.run (.ofStrConst x u y k) := by
  cases k with
  | atom b =>
      cases b with
      | str i => cases i <;> simp [Plan.ofStrConst, Half.isTop] <;> rfl
      | strConst v =>
          change pure (if u = v then x else M.preset .str) =
            M.run (.ofStrConst x u y (.atom (.strConst v)))
          rw [Plan.ofStrConst]
          split
          · rfl
          · exact (M.run_make (.str .bottom)).symm
      | _ => exact M.ofKinds_record x y (.atom (.strConst u)) (.atom _) (.inr rfl)
  | _ => exact M.ofKinds_record x y (.atom (.strConst u)) _ (.inr rfl)

theorem ofStruct_record (h : Half) (fs : List (String × α)) (k : Node α) :
    M.ofOrdered x (.struct h fs) y k.record = M.run (.ofStruct x h fs y k) := by
  cases k with
  | atom b => cases b <;> exact M.ofKinds_record x y (.struct h fs) (.atom _) (.inr rfl)
  | struct i gs =>
      change M.ofStruct x h fs y i gs = _
      cases h with
      | top =>
          cases i with
          | top =>
              simp only [ofStruct, Plan.ofStruct, run_struct]
              -- the plan walks the fields first and meets them afterwards, the rule does both at once
              refine congrArg (· >>= _) (Ascending.mapM_union ?_ ?_ ?_ fs gs).symm
              · exact fun f => pure_bind f.2 _
              · exact fun g => pure_bind g.2 _
              · exact fun f g => rfl
          | bottom => rfl
      | bottom =>
          cases i with
          | top => rfl
          | bottom =>
              simp only [ofStruct, Plan.ofStruct, run_struct]
              refine congrArg (· >>= _) (Ascending.mapM_inter ?_ fs gs).symm
              exact fun f g => rfl
  | _ => exact M.ofKinds_record x y (.struct h fs) _ (.inr rfl)

theorem ofTuple_record (h : Half) (es : List α) (k : Node α) :
    M.ofOrdered x (.tuple h es) y k.record = M.run (.ofTuple x h es y k) := by
  cases k with
  | atom b => cases b <;> exact M.ofKinds_record x y (.tuple h es) (.atom _) (.inr rfl)
  | tuple i ds =>
      change M.ofTuple h es i ds = _
      rw [ofTuple, Plan.ofTuple]
      split
      · rw [run_tuple, M.mapM_zipWith M.meet .meet (fun _ _ => rfl)]
      · exact (M.run_make (.oop .bottom)).symm
  | _ => exact M.ofKinds_record x y (.tuple h es) _ (.inr rfl)

theorem ofOrdered_record {n : Node α} (hx : M.Places x n) (k : Node α) :
    M.ofOrdered x n.record y k.record = M.run (.ofOrdered x n y k) := by
  cases n with
  | atom a =>
      cases a with
      | universal h =>
          cases k with
          | atom b => cases b <;> rfl
          | _ => rfl
      | nil => exact M.ofNil_record x y k
      | scalar h => exact M.ofScalar_record x y hx k
      | ctrl h => exact M.ofCtrl_record x y h k
      | int a => exact M.ofInt_record x y a k
      | flt a => exact M.ofFlt_record x y a k
      | funPtr h s => exact M.ofFunPtr_record x y h s k
      | rpc h s => exact M.ofRpc_record x y h s k
      | oop h => exact M.ofOop_record x y hx k
      | str h => exact M.ofStr_record x y h k
      | strConst u => exact M.ofStrConst_record x y u k
  | nullable h u => exact M.ofNullable_record x y h u k
  | name l u => exact M.ofName_record y l u k
  | func h ps r => exact M.ofFunc_record x y h ps r k
  | struct h fs => exact M.ofStruct_record x y h fs k
  | tuple h es => exact M.ofTuple_record x y h es k

/-- The rules of the meet on records in normal form are those on layers. -/
theorem ofPair_record {n k : Node α} (hx : M.Places x n) (hy : M.Places y k) :
    M.ofPair x n.record y k.record = M.run (.ofPair x n y k) := by
  rw [ofPair, Plan.ofPair, Node.kind_record, Node.kind_record]
  split
  · exact M.ofOrdered_record y x hy n
  · exact M.ofOrdered_record x y hx k

end Meeter

end TypeLattice
