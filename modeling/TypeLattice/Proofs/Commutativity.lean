import TypeLattice.Proofs.KeyedMerge
import TypeLattice.Proofs.NormalTree
import TypeLattice.Proofs.NumericLattice

namespace TypeLattice

variable {α : Type}

namespace Piece

def swap : Piece α → Piece α
  | keep x => keep x
  | meet x y => meet y x
  | join x y => join y x

end Piece

namespace Plan

def swap : Plan α → Plan α
  | clash x y => clash x y
  | keep x => keep x
  | meet x y => meet y x
  | build n => build (n.map Piece.swap)

theorem run_swap {m : Type → Type} [Monad m] [LawfulMonad m] {make : Node α → m α}
    {meet join clash : α → α → m α} (p : Plan α) :
    p.swap.run make meet join clash =
      p.run make (fun x y => meet y x) (fun x y => join y x) clash := by
  cases p with
  | clash | keep | meet => rfl
  | build n =>
      have hn : (n.map Piece.swap).mapM (Piece.run meet join) =
          n.mapM (Piece.run (fun x y => meet y x) (fun x y => join y x)) := by
        rw [Node.mapM_map]
        refine Node.mapM_congr fun q _ => ?_
        cases q <;> rfl
      simp only [swap, run, hn]

theorem ofPick_swap {γ : Type} (x y : α) (f : γ → Atom) (p : Pick γ) :
    ofPick y x f p.swap = (ofPick x y f p).swap := by
  cases p <;> rfl

theorem ofTargets_swap (f : Half → OrdSet Nat → Atom) (x y : α) (h k : Half) (s t : OrdSet Nat) :
    ofTargets f y k t x h s = (ofTargets f x h s y k t).swap := by
  cases h <;> cases k <;> simp only [ofTargets, OrdSet.union_comm s, OrdSet.inter_comm s] <;> rfl

theorem map_zipWith_swap (q : α → α → Piece α) (hq : ∀ x y, (q x y).swap = q y x) (xs ys : List α) :
    (List.zipWith q xs ys).map Piece.swap = List.zipWith q ys xs := by
  rw [List.map_zipWith, List.zipWith_comm]
  simp only [hq]

theorem ofStruct_swap (x y : α) (h k : Half) (fs gs : List (String × α)) :
    ofStruct y k gs x (.struct h fs) = (ofStruct x h fs y (.struct k gs)).swap := by
  cases h <;> cases k
  case top.bottom | bottom.top => rfl
  case top.top =>
    simp only [ofStruct, swap, Node.map, build.injEq, Node.struct.injEq, true_and]
    apply Ascending.union_swap
    · intro f g
      exact Std.OrientedCmp.eq_swap
    · intro f g hfg
      rw [Std.LawfulEqCmp.eq_of_compare hfg]
      rfl
    · exact fun _ => rfl
    · exact fun _ => rfl
  case bottom.bottom =>
    simp only [ofStruct, swap, Node.map, build.injEq, Node.struct.injEq, true_and]
    apply Ascending.inter_swap
    · intro f g
      exact Std.OrientedCmp.eq_swap
    · intro f g hfg
      rw [Std.LawfulEqCmp.eq_of_compare hfg]
      rfl

theorem ofNumbers_swap {ω ν : Type} [LinearOrder ω] [Sized ν ω] [DecidableEq ν]
    (f : Numeric ω ν → Atom) {x y : α} {a b : Numeric ω ν} (hsame : a = b → x = y) :
    ofPick y x f (b.meet a) = (ofPick x y f (a.meet b)).swap := by
  by_cases hab : a = b
  · cases hab
    cases hsame rfl
    cases a.meet a <;> rfl
  · rw [Numeric.meet_swap hab, ofPick_swap]

theorem keep_swap {x y : α} {h k : Half} (hsame : h = k → x = y) :
    keep (if k.isTop then x else y) = (keep (if h.isTop then y else x)).swap := by
  cases h <;> cases k <;> simp_all [swap, Half.isTop]

theorem ofAtoms_swap {x y : α} {a b : Atom} (hkind : a.kind = b.kind) (hsame : a = b → x = y) :
    ofOrdered y (.atom b) x (.atom a) = (ofOrdered x (.atom a) y (.atom b)).swap := by
  cases a with
  | universal h =>
      cases b with
      | universal k => exact keep_swap fun e => hsame (congrArg Atom.universal e)
      | _ => cases hkind
  | nil =>
      cases b with
      | nil => cases hsame rfl; rfl
      | _ => cases hkind
  | scalar h =>
      cases b with
      | scalar k => exact keep_swap fun e => hsame (congrArg Atom.scalar e)
      | _ => cases hkind
  | ctrl h =>
      cases b with
      | ctrl k => rfl
      | _ => cases hkind
  | int c =>
      cases b with
      | int d =>
          exact ofNumbers_swap .int fun e => hsame (congrArg Atom.int e)
      | _ => cases hkind
  | flt c =>
      cases b with
      | flt d =>
          exact ofNumbers_swap .flt fun e => hsame (congrArg Atom.flt e)
      | _ => cases hkind
  | funPtr h s =>
      cases b with
      | funPtr k t => exact ofTargets_swap .funPtr x y h k s t
      | _ => cases hkind
  | rpc h s =>
      cases b with
      | rpc k t => exact ofTargets_swap .rpc x y h k s t
      | _ => cases hkind
  | oop h =>
      cases b with
      | oop k => exact keep_swap fun e => hsame (congrArg Atom.oop e)
      | _ => cases hkind
  | str h =>
      cases b with
      | str k => rfl
      | strConst v =>
          simp only [ofOrdered, ofStr, ofStrConst]
          split <;> rfl
      | _ => cases hkind
  | strConst u =>
      cases b with
      | str k =>
          simp only [ofOrdered, ofStr, ofStrConst]
          split <;> rfl
      | strConst v =>
          simp only [ofOrdered, ofStrConst]
          by_cases huv : u = v
          · cases huv
            cases hsame rfl
            simp [swap]
          · rw [if_neg huv, if_neg (Ne.symm huv)]
            rfl
      | _ => cases hkind

theorem ofOrdered_swap {x y : α} {n k : Node α} (hkind : n.kind = k.kind) (hsame : n = k → x = y) :
    ofOrdered y k x n = (ofOrdered x n y k).swap := by
  cases n with
  | atom a =>
      cases k with
      | atom b => exact ofAtoms_swap hkind fun h => hsame (congrArg Node.atom h)
      | nullable j z => cases a <;> first | rfl | cases hkind
      | _ => cases a <;> cases hkind
  | nullable h z =>
      cases k with
      | atom b => cases b <;> first | rfl | cases hkind
      | nullable j w =>
          simp only [ofOrdered, ofNullable, swap, Node.map, Piece.swap, Half.inf_comm h j]
      | _ => cases hkind
  | name l z =>
      cases k with
      | atom b => cases b <;> cases hkind
      | name l' w =>
          simp only [ofOrdered, ofName]
          by_cases hl : l' = l
          · subst hl
            simp only [if_pos, swap, Node.map, Piece.swap]
          · rw [if_neg hl, if_neg (Ne.symm hl)]
            rfl
      | _ => cases hkind
  | func h ps r =>
      cases k with
      | atom b => cases b <;> cases hkind
      | func j qs q =>
          simp only [ofOrdered, ofFunc]
          by_cases hlen : ps.length = qs.length
          · rw [if_pos hlen, if_pos hlen.symm, swap, Node.map,
              map_zipWith_swap Piece.join (fun _ _ => rfl), Half.inf_comm h j]
            rfl
          · rw [if_neg hlen, if_neg (Ne.symm hlen)]
            rfl
      | _ => cases hkind
  | struct h fs =>
      cases k with
      | atom b => cases b <;> cases hkind
      | struct j gs => exact ofStruct_swap x y h j fs gs
      | _ => cases hkind
  | tuple h es =>
      cases k with
      | atom b => cases b <;> cases hkind
      | tuple j ds =>
          simp only [ofOrdered, ofTuple]
          by_cases hlen : es.length = ds.length
          · rw [if_pos hlen, if_pos hlen.symm, swap, Node.map,
              map_zipWith_swap Piece.meet (fun _ _ => rfl), Half.inf_comm h j]
          · rw [if_neg hlen, if_neg (Ne.symm hlen)]
            rfl
      | _ => cases hkind

/-- With its operands exchanged a pair has the same plan, or the one with all pairs in it exchanged. -/
theorem ofPair_swap {x y : α} {n k : Node α} (hsame : n = k → x = y) :
    ofPair y k x n = ofPair x n y k ∨ ofPair y k x n = (ofPair x n y k).swap := by
  by_cases hlt : k.kind < n.kind
  · have hgt : ¬n.kind < k.kind := Nat.lt_asymm hlt
    left
    rw [ofPair, ofPair, if_neg hgt, if_pos hlt]
  · by_cases hgt : n.kind < k.kind
    · left
      rw [ofPair, ofPair, if_pos hgt, if_neg hlt]
    · have hkind : n.kind = k.kind :=
        Kind.rank_injective (Nat.le_antisymm (Nat.not_lt.1 hlt) (Nat.not_lt.1 hgt))
      right
      rw [ofPair, ofPair, if_neg hgt, if_neg hlt, ofOrdered_swap hkind hsame]

theorem run_ofPair_comm {m : Type → Type} [Monad m] [LawfulMonad m] {make : Node α → m α}
    {meet join clash : α → α → m α} {x y : α} {n k : Node α} (hsame : n = k → x = y)
    (h : (ofPair x n y k).Fits (fun _ => True)
      (fun u v => meet u v = meet v u ∧ join u v = join v u)) :
    (ofPair y k x n).run make meet join clash = (ofPair x n y k).run make meet join clash := by
  rcases ofPair_swap hsame with hswap | hswap
  · rw [hswap]
  · rw [hswap, run_swap, ← run_congr h]

end Plan

namespace Ty

theorem meetWithin_comm {d : Nat} {a b : Ty} (hd : a.height + b.height ≤ d) :
    meetWithin d b a = meetWithin d a b := by
  induction d generalizing a b with
  | zero => have := height_pos a; omega
  | succ d ih =>
      rw [meetWithin, meetWithin]
      by_cases hab : a = b
      · rw [if_pos hab, if_pos hab.symm, hab]
      · rw [if_neg hab, if_neg (Ne.symm hab)]
        apply Plan.run_ofPair_comm
        · intro h
          cases a
          cases b
          exact congrArg mk h
        · refine (plan_fits_height a b).mono (fun _ h => h) fun u v huv => ⟨?_, ?_⟩
          · exact ih (by omega)
          · have hu := height_dual_le u
            have hv := height_dual_le v
            rw [ih (by omega)]

theorem meet_comm (a b : Ty) : meet a b = meet b a := by
  rw [meet, meet, Nat.add_comm b.height]
  exact meetWithin_comm (by omega)

theorem join_comm (a b : Ty) : join a b = join b a := by
  rw [join, join, meet_comm]

end Ty

end TypeLattice
