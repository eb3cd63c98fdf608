import TypeLattice.Plan
import TypeLattice.Proofs.Traversal

namespace TypeLattice

variable {α β : Type}

namespace Ascending

variable {α' β' γ γ' : Type} {cmp : α → β → Ordering} {cmp' : α' → β' → Ordering}
  {left : α → γ} {left' : α' → γ'} {right : β → γ} {right' : β' → γ'} {both : α → β → γ}
  {both' : α' → β' → γ'} (f : α → α') (g : β → β') (e : γ → γ')

theorem union_map (hcmp : ∀ a b, cmp' (f a) (g b) = cmp a b) (hleft : ∀ a, left' (f a) = e (left a))
    (hright : ∀ b, right' (g b) = e (right b)) (hboth : ∀ a b, both' (f a) (g b) = e (both a b))
    (as : List α) (bs : List β) :
    union cmp' left' right' both' (as.map f) (bs.map g) =
      (union cmp left right both as bs).map e := by
  induction as generalizing bs with
  | nil => simp [hright]
  | cons a as iha =>
      induction bs with
      | nil => simp [hleft]
      | cons b bs ihb =>
          have ih := iha (b :: bs)
          simp only [List.map_cons] at ihb ih ⊢
          rw [union_cons_cons, union_cons_cons, hcmp]
          cases cmp a b with
          | lt => simp only [List.map_cons, hleft, ih]
          | gt => simp only [List.map_cons, hright, ihb]
          | eq => simp only [List.map_cons, hboth, iha]

theorem inter_map (hcmp : ∀ a b, cmp' (f a) (g b) = cmp a b)
    (hboth : ∀ a b, both' (f a) (g b) = e (both a b)) (as : List α) (bs : List β) :
    inter cmp' both' (as.map f) (bs.map g) = (inter cmp both as bs).map e := by
  induction as generalizing bs with
  | nil => simp
  | cons a as iha =>
      induction bs with
      | nil => simp
      | cons b bs ihb =>
          have ih := iha (b :: bs)
          simp only [List.map_cons] at ihb ih ⊢
          rw [inter_cons_cons, inter_cons_cons, hcmp]
          cases cmp a b with
          | lt => exact ih
          | gt => exact ihb
          | eq => simp only [List.map_cons, hboth, iha]

section keys

variable {κ : Type} [Ord κ] (ka : α → κ) (kb : β → κ) (kc : γ → κ)

theorem union_sorted_of_keys [Std.TransOrd κ] (hleft : ∀ a, kc (left a) = ka a)
    (hright : ∀ b, kc (right b) = kb b) (hboth : ∀ a b, kc (both a b) = ka a)
    {as : List α} {bs : List β} (ha : Sorted (as.map ka)) (hb : Sorted (bs.map kb)) :
    Sorted ((union (fun a b => compare (ka a) (kb b)) left right both as bs).map kc) := by
  have h : union compare id id (fun a _ => a) (as.map ka) (bs.map kb) =
      (union (fun a b => compare (ka a) (kb b)) left right both as bs).map kc :=
    union_map ka kb kc (fun _ _ => rfl) (fun a => (hleft a).symm) (fun b => (hright b).symm)
      (fun a b => (hboth a b).symm) as bs
  rw [← h]
  exact OrdSet.union_sorted ha hb

theorem inter_sorted_of_keys (hboth : ∀ a b, kc (both a b) = ka a) {as : List α} {bs : List β}
    (ha : Sorted (as.map ka)) :
    Sorted ((inter (fun a b => compare (ka a) (kb b)) both as bs).map kc) := by
  have h : inter compare (fun a _ => a) (as.map ka) (bs.map kb) =
      (inter (fun a b => compare (ka a) (kb b)) both as bs).map kc :=
    inter_map ka kb kc (fun _ _ => rfl) (fun a b => (hboth a b).symm) as bs
  rw [← h]
  exact OrdSet.inter_sorted ha

end keys

theorem cases_of_mem_union {c : γ} {as : List α} {bs : List β}
    (h : c ∈ union cmp left right both as bs) :
    (∃ a ∈ as, c = left a) ∨ (∃ b ∈ bs, c = right b) ∨ ∃ a ∈ as, ∃ b ∈ bs, c = both a b := by
  induction as generalizing bs with
  | nil => simp_all [eq_comm]
  | cons a as iha =>
      induction bs with
      | nil => simp_all [eq_comm]
      | cons b bs ihb =>
          rw [union_cons_cons] at h
          split at h <;> grind

theorem cases_of_mem_inter {c : γ} {as : List α} {bs : List β} (h : c ∈ inter cmp both as bs) :
    ∃ a ∈ as, ∃ b ∈ bs, c = both a b := by
  induction as generalizing bs with
  | nil => simp at h
  | cons a as iha =>
      induction bs with
      | nil => simp at h
      | cons b bs ihb =>
          rw [inter_cons_cons] at h
          split at h <;> grind

end Ascending

namespace Node

/-- The fields of a struct are strictly ascending by name. -/
def Tidy : Node α → Prop
  | struct _ fs => Ascending.Sorted (fs.map (·.1))
  | _ => True

theorem tidy_map (f : α → β) (n : Node α) : (n.map f).Tidy ↔ n.Tidy := by
  cases n with
  | struct h fs => simp only [map, Tidy, List.map_map, Function.comp_def]
  | _ => rfl

theorem tidy_flip (n : Node α) : n.flip.Tidy ↔ n.Tidy := by
  cases n <;> rfl

theorem map_list_injective_on {γ δ : Type} {f : γ → δ} {xs ys : List γ} (h : xs.map f = ys.map f)
    (hf : ∀ x ∈ xs, ∀ y ∈ ys, f x = f y → x = y) : xs = ys := by
  induction xs generalizing ys with
  | nil => simpa [eq_comm] using h
  | cons x xs ih =>
      cases ys with
      | nil => simp at h
      | cons y ys =>
          simp only [List.map_cons, List.cons.injEq] at h
          rw [hf x List.mem_cons_self y List.mem_cons_self h.1,
            ih h.2 fun u hu v hv => hf u (List.mem_cons_of_mem x hu) v (List.mem_cons_of_mem y hv)]

theorem map_injective_on {f : α → β} {n k : Node α} (h : n.map f = k.map f)
    (hf : ∀ x ∈ n.children, ∀ y ∈ k.children, f x = f y → x = y) : n = k := by
  cases n with
  | atom => cases k <;> simp_all [map]
  | nullable _ x | name _ x => cases k <;> simp_all [map, children]
  | func i ps r =>
      cases k with
      | func j qs q =>
          simp only [map, func.injEq] at h
          have hp := map_list_injective_on h.2.1 fun x hx y hy =>
            hf x (List.mem_append_left _ hx) y (List.mem_append_left _ hy)
          have hr := hf r (List.mem_append_right _ (List.mem_singleton_self r)) q
            (List.mem_append_right _ (List.mem_singleton_self q)) h.2.2
          rw [h.1, hp, hr]
      | _ => simp [map] at h
  | struct i fs =>
      cases k with
      | struct j gs =>
          simp only [map, struct.injEq] at h
          have hfs : fs = gs := by
            apply map_list_injective_on h.2
            intro p hp q hq hpq
            simp only [Prod.mk.injEq] at hpq
            exact Prod.ext hpq.1 (hf _ (List.mem_map_of_mem hp) _ (List.mem_map_of_mem hq) hpq.2)
          rw [h.1, hfs]
      | _ => simp [map] at h
  | tuple i es =>
      cases k with
      | tuple j ds =>
          simp only [map, tuple.injEq] at h
          rw [h.1, map_list_injective_on h.2 hf]
      | _ => simp [map] at h

end Node

namespace Piece

def map (f : α → β) : Piece α → Piece β
  | keep x => keep (f x)
  | meet x y => meet (f x) (f y)
  | join x y => join (f x) (f y)

/-- Every component that is kept has the one property, every pair that is combined the other. -/
def Fits (P : α → Prop) (R : α → α → Prop) : Piece α → Prop
  | keep x => P x
  | meet x y | join x y => R x y

end Piece

namespace Plan

def map (f : α → β) : Plan α → Plan β
  | clash x y => clash (f x) (f y)
  | keep x => keep (f x)
  | meet x y => meet (f x) (f y)
  | build n => build (n.map (Piece.map f))

def Fits (P : α → Prop) (R : α → α → Prop) : Plan α → Prop
  | clash x y => P x ∧ P y
  | keep x => P x
  | meet x y => R x y
  | build n => ∀ q ∈ n.children, q.Fits P R

theorem Fits.mono {P P' : α → Prop} {R R' : α → α → Prop} {p : Plan α} (h : p.Fits P R)
    (hP : ∀ x, P x → P' x) (hR : ∀ x y, R x y → R' x y) : p.Fits P' R' := by
  cases p with
  | clash => exact ⟨hP _ h.1, hP _ h.2⟩
  | keep => exact hP _ h
  | meet => exact hR _ _ h
  | build n =>
      intro q hq
      have hq := h q hq
      cases q with
      | keep => exact hP _ hq
      | meet | join => exact hR _ _ hq

theorem Fits.and {P P' : α → Prop} {R R' : α → α → Prop} {p : Plan α} (h : p.Fits P R)
    (h' : p.Fits P' R') : p.Fits (fun x => P x ∧ P' x) (fun x y => R x y ∧ R' x y) := by
  cases p with
  | clash => exact ⟨⟨h.1, h'.1⟩, ⟨h.2, h'.2⟩⟩
  | keep | meet => exact ⟨h, h'⟩
  | build n =>
      intro q hq
      have hq₁ := h q hq
      have hq₂ := h' q hq
      cases q <;> exact ⟨hq₁, hq₂⟩

theorem run_congr {m : Type → Type} [Monad m] [LawfulMonad m] {make : Node α → m α}
    {meet meet' join join' clash : α → α → m α} {p : Plan α}
    (h : p.Fits (fun _ => True) (fun x y => meet x y = meet' x y ∧ join x y = join' x y)) :
    p.run make meet join clash = p.run make meet' join' clash := by
  cases p with
  | clash | keep => rfl
  | meet x y => exact h.1
  | build n =>
      have hn : n.mapM (Piece.run meet join) = n.mapM (Piece.run meet' join') := by
        apply Node.mapM_congr
        intro q hq
        have hq := h q hq
        cases q with
        | keep => rfl
        | meet => exact hq.1
        | join => exact hq.2
      simp only [run, hn]

section map

variable (f : α → β) (x y : α)

theorem map_ofPick {γ : Type} (g : γ → Atom) (p : Pick γ) :
    (ofPick x y g p).map f = ofPick (f x) (f y) g p := by
  cases p <;> rfl

theorem map_ofKinds (j k : Kind) : (ofKinds x j y k).map f = ofKinds (f x) j (f y) k := by
  unfold ofKinds
  split
  · rfl
  · split <;> rfl

theorem map_ofTargets (g : Half → OrdSet Nat → Atom) (h : Half) (s : OrdSet Nat) (k : Half)
    (t : OrdSet Nat) :
    (ofTargets g x h s y k t).map f = ofTargets g (f x) h s (f y) k t := by
  cases h <;> cases k <;> rfl

theorem map_ofNil (k : Node α) : (ofNil x y k).map f = ofNil (f x) (f y) (k.map f) := by
  cases k with
  | atom a =>
      cases a with
      | scalar h => cases h <;> rfl
      | _ => rfl
  | _ => rfl

theorem map_ofNullable (h : Half) (inner : α) (k : Node α) :
    (ofNullable x h inner y k).map f = ofNullable (f x) h (f inner) (f y) (k.map f) := by
  cases k with
  | atom a => cases a <;> rfl
  | _ => rfl

theorem map_ofName (l : String) (inner : α) (k : Node α) :
    (ofName l inner y k).map f = ofName l (f inner) (f y) (k.map f) := by
  cases k with
  | name l' z =>
      simp only [ofName, Node.map]
      split <;> rfl
  | _ => rfl

theorem map_ofScalar (h : Half) (k : Node α) :
    (ofScalar x h y k).map f = ofScalar (f x) h (f y) (k.map f) := by
  cases k with
  | atom a => cases a <;> cases h <;> rfl
  | _ => cases h <;> rfl

theorem map_ofCtrl (k : Node α) : (ofCtrl x y k).map f = ofCtrl (f x) (f y) (k.map f) := by
  cases k with
  | atom a => cases a <;> rfl
  | _ => rfl

theorem map_ofInt (a : Numeric IntWidth Int64) (k : Node α) :
    (ofInt x a y k).map f = ofInt (f x) a (f y) (k.map f) := by
  cases k with
  | atom b =>
      cases b with
      | int b => exact map_ofPick f x y _ _
      | _ => rfl
  | _ => rfl

theorem map_ofFlt (a : Numeric FltWidth Binary64) (k : Node α) :
    (ofFlt x a y k).map f = ofFlt (f x) a (f y) (k.map f) := by
  cases k with
  | atom b =>
      cases b with
      | flt b => exact map_ofPick f x y _ _
      | _ => rfl
  | _ => rfl

theorem map_ofFunPtr (h : Half) (s : OrdSet Nat) (k : Node α) :
    (ofFunPtr x h s y k).map f = ofFunPtr (f x) h s (f y) (k.map f) := by
  cases k with
  | atom b =>
      cases b with
      | funPtr h' t => exact map_ofTargets f x y _ h s h' t
      | _ => rfl
  | _ => rfl

theorem map_ofRpc (h : Half) (s : OrdSet Nat) (k : Node α) :
    (ofRpc x h s y k).map f = ofRpc (f x) h s (f y) (k.map f) := by
  cases k with
  | atom b =>
      cases b with
      | rpc h' t => exact map_ofTargets f x y _ h s h' t
      | _ => rfl
  | _ => rfl

theorem map_zipWith (g : α → α → Piece α) (g' : β → β → Piece β)
    (hg : ∀ u v, (g u v).map f = g' (f u) (f v)) (us vs : List α) :
    (List.zipWith g us vs).map (Piece.map f) = List.zipWith g' (us.map f) (vs.map f) := by
  rw [List.map_zipWith, List.zipWith_map]
  congr 1
  funext u v
  exact hg u v

theorem map_ofFunc (h : Half) (ps : List α) (r : α) (k : Node α) :
    (ofFunc x h ps r y k).map f = ofFunc (f x) h (ps.map f) (f r) (f y) (k.map f) := by
  cases k with
  | func h' qs q =>
      simp only [ofFunc, Node.map, List.length_map]
      split
      · simp only [map, Node.map, map_zipWith f .join .join (fun _ _ => rfl), Piece.map]
      · rfl
  | atom b => cases b <;> rfl
  | _ => rfl

theorem map_ofOop (h : Half) (k : Node α) :
    (ofOop x h y k).map f = ofOop (f x) h (f y) (k.map f) := by
  simp only [ofOop, Node.kind_map]
  split
  · cases h <;> rfl
  · exact map_ofKinds f x y _ _

theorem map_ofStr (h : Half) (k : Node α) :
    (ofStr x h y k).map f = ofStr (f x) h (f y) (k.map f) := by
  cases k with
  | atom b => cases b <;> cases h <;> rfl
  | _ => rfl

theorem map_ofStrConst (s : String) (k : Node α) :
    (ofStrConst x s y k).map f = ofStrConst (f x) s (f y) (k.map f) := by
  cases k with
  | atom b =>
      cases b with
      | str h => cases h <;> rfl
      | strConst t =>
          simp only [ofStrConst, Node.map]
          split <;> rfl
      | _ => rfl
  | _ => rfl

theorem map_ofStruct (h : Half) (fs : List (String × α)) (k : Node α) :
    (ofStruct x h fs y k).map f =
      ofStruct (f x) h (fs.map fun p => (p.1, f p.2)) (f y) (k.map f) := by
  cases k with
  | struct h' gs =>
      cases h <;> cases h'
      · refine congrArg (fun fs => build (.struct .top fs))
          (Ascending.union_map _ _ _ ?_ ?_ ?_ ?_ fs gs).symm <;> intros <;> rfl
      · rfl
      · rfl
      · refine congrArg (fun fs => build (.struct .bottom fs))
          (Ascending.inter_map _ _ _ ?_ ?_ fs gs).symm <;> intros <;> rfl
  | atom b => cases b <;> rfl
  | _ => rfl

theorem map_ofTuple (h : Half) (es : List α) (k : Node α) :
    (ofTuple x h es y k).map f = ofTuple (f x) h (es.map f) (f y) (k.map f) := by
  cases k with
  | tuple h' ds =>
      simp only [ofTuple, Node.map, List.length_map]
      split
      · simp only [map, Node.map, map_zipWith f .meet .meet (fun _ _ => rfl)]
      · rfl
  | atom b => cases b <;> rfl
  | _ => rfl

theorem map_ofOrdered (n k : Node α) :
    (ofOrdered x n y k).map f = ofOrdered (f x) (n.map f) (f y) (k.map f) := by
  cases n with
  | atom a =>
      cases a with
      | universal h => cases h <;> rfl
      | nil => exact map_ofNil f x y k
      | scalar h => exact map_ofScalar f x y h k
      | ctrl h => exact map_ofCtrl f x y k
      | int a => exact map_ofInt f x y a k
      | flt a => exact map_ofFlt f x y a k
      | funPtr h s => exact map_ofFunPtr f x y h s k
      | rpc h s => exact map_ofRpc f x y h s k
      | oop h => exact map_ofOop f x y h k
      | str h => exact map_ofStr f x y h k
      | strConst s => exact map_ofStrConst f x y s k
  | nullable h z => exact map_ofNullable f x y h z k
  | name l z => exact map_ofName f y l z k
  | func h ps r => exact map_ofFunc f x y h ps r k
  | struct h fs => exact map_ofStruct f x y h fs k
  | tuple h es => exact map_ofTuple f x y h es k

/-- Changing the carrier of both operands changes the plan alike. -/
theorem map_ofPair (n k : Node α) :
    (ofPair x n y k).map f = ofPair (f x) (n.map f) (f y) (k.map f) := by
  simp only [ofPair, Node.kind_map]
  split
  · exact map_ofOrdered f y x k n
  · exact map_ofOrdered f x y n k

end map

structure Operands (P : α → Prop) (R : α → α → Prop) (x : α) (n : Node α) (y : α) (k : Node α) :
    Prop where
  left : P x
  right : P y
  leftParts : ∀ u ∈ n.children, P u
  rightParts : ∀ v ∈ k.children, P v
  leftWhole : ∀ v ∈ k.children, R x v
  rightWhole : ∀ u ∈ n.children, R u y
  parts : ∀ u ∈ n.children, ∀ v ∈ k.children, R u v

section fits

variable {P : α → Prop} {R : α → α → Prop} {x y : α} {n k : Node α}

theorem Operands.symm (hR : ∀ u v, R u v → R v u) (h : Operands P R x n y k) :
    Operands P R y k x n where
  left := h.right
  right := h.left
  leftParts := h.rightParts
  rightParts := h.leftParts
  leftWhole u hu := hR _ _ (h.rightWhole u hu)
  rightWhole v hv := hR _ _ (h.leftWhole v hv)
  parts v hv u hu := hR _ _ (h.parts u hu v hv)

theorem exists_of_mem_zipWith {γ δ ε : Type} {g : γ → δ → ε} {c : ε} {us : List γ} {vs : List δ}
    (h : c ∈ List.zipWith g us vs) : ∃ u ∈ us, ∃ v ∈ vs, c = g u v := by
  rw [← List.map_uncurry_zip_eq_zipWith] at h
  obtain ⟨p, hp, rfl⟩ := List.mem_map.1 h
  exact ⟨p.1, (List.of_mem_zip hp).1, p.2, (List.of_mem_zip hp).2, rfl⟩

theorem fits_make (a : Atom) : (make a : Plan α).Fits P R := by
  simp [make, Fits, Node.children]

theorem fits_pick (i : Half) (hx : P x) (hy : P y) :
    (keep (if i.isTop then y else x)).Fits P R := by
  cases i
  · exact hy
  · exact hx

theorem fits_ofPick {γ : Type} (g : γ → Atom) (p : Pick γ) (hx : P x) (hy : P y) :
    (ofPick x y g p).Fits P R := by
  cases p with
  | left => exact hx
  | right => exact hy
  | made b => exact fits_make _

theorem fits_ofKinds (i j : Kind) (hx : P x) (hy : P y) : (ofKinds x i y j).Fits P R := by
  unfold ofKinds
  split
  · exact fits_make _
  · split
    · exact fits_make _
    · exact ⟨hx, hy⟩

theorem fits_ofTargets (g : Half → OrdSet Nat → Atom) (h : Half) (s : OrdSet Nat) (i : Half)
    (t : OrdSet Nat) (hx : P x) (hy : P y) : (ofTargets g x h s y i t).Fits P R := by
  cases h <;> cases i
  · exact fits_make _
  · exact hy
  · exact hx
  · exact fits_make _

theorem fits_ofNil (h : Operands P R x (.atom .nil) y k) : (ofNil x y k).Fits P R := by
  cases k with
  | atom a =>
      cases a with
      | ctrl => exact ⟨h.left, h.right⟩
      | scalar i => cases i <;> exact fits_make _
      | oop | str | strConst => exact fits_make _
      | _ => simpa [ofNil, Node.kind, Atom.kind, Kind.isPointer, Fits, Node.children, Piece.Fits]
          using h.right
  | nullable i z =>
      simpa [ofNil, Fits, Node.children, Piece.Fits] using h.rightParts z (List.mem_singleton_self z)
  | name l z => exact h.leftWhole z (List.mem_singleton_self z)
  | func i ps r =>
      simpa [ofNil, Node.kind, Kind.isPointer, Fits, Node.children, Piece.Fits] using h.right
  | struct | tuple => exact fits_make _

theorem fits_ofNullable {i : Half} {z : α} (h : Operands P R x (.nullable i z) y k) :
    (ofNullable x i z y k).Fits P R := by
  have hz : z ∈ (Node.nullable i z).children := List.mem_singleton_self z
  cases k with
  | atom a =>
      cases a with
      | ctrl => exact ⟨h.left, h.right⟩
      | nil => simpa [ofNullable, Fits, Node.children, Piece.Fits] using h.leftParts z hz
      | _ => simpa [ofNullable, Fits, Node.children, Piece.Fits] using h.rightWhole z hz
  | nullable j w =>
      simpa [ofNullable, Fits, Node.children, Piece.Fits] using
        h.parts z hz w (List.mem_singleton_self w)
  | name l w => exact h.leftWhole w (List.mem_singleton_self w)
  | _ => simpa [ofNullable, Fits, Node.children, Piece.Fits] using h.rightWhole z hz

theorem fits_ofName {l : String} {z : α} (h : Operands P R x (.name l z) y k) :
    (ofName l z y k).Fits P R := by
  have hz : z ∈ (Node.name l z).children := List.mem_singleton_self z
  cases k with
  | name l' w =>
      have hw := h.parts z hz w (List.mem_singleton_self w)
      simp only [ofName]
      split
      · simpa [Fits, Node.children, Piece.Fits] using hw
      · exact hw
  | _ => exact h.rightWhole z hz

theorem fits_ofScalar (i : Half) (hx : P x) (hy : P y) : (ofScalar x i y k).Fits P R := by
  unfold ofScalar
  split
  · exact ⟨hx, hy⟩
  · exact fits_pick i hx hy

theorem fits_ofCtrl (hx : P x) (hy : P y) : (ofCtrl x y k).Fits P R := by
  unfold ofCtrl
  split
  · exact fits_make _
  · exact fits_ofKinds _ _ hx hy

theorem fits_ofInt (a : Numeric IntWidth Int64) (hx : P x) (hy : P y) :
    (ofInt x a y k).Fits P R := by
  unfold ofInt
  split
  · exact fits_ofPick _ _ hx hy
  · exact fits_ofKinds _ _ hx hy

theorem fits_ofFlt (a : Numeric FltWidth Binary64) (hx : P x) (hy : P y) :
    (ofFlt x a y k).Fits P R := by
  unfold ofFlt
  split
  · exact fits_ofPick _ _ hx hy
  · exact fits_ofKinds _ _ hx hy

theorem fits_ofFunPtr (i : Half) (s : OrdSet Nat) (hx : P x) (hy : P y) :
    (ofFunPtr x i s y k).Fits P R := by
  unfold ofFunPtr
  split
  · exact fits_ofTargets _ _ _ _ _ hx hy
  · exact fits_ofKinds _ _ hx hy

theorem fits_ofRpc (i : Half) (s : OrdSet Nat) (hx : P x) (hy : P y) :
    (ofRpc x i s y k).Fits P R := by
  unfold ofRpc
  split
  · exact fits_ofTargets _ _ _ _ _ hx hy
  · exact fits_ofKinds _ _ hx hy

theorem fits_ofFunc {i : Half} {ps : List α} {r : α} (h : Operands P R x (.func i ps r) y k) :
    (ofFunc x i ps r y k).Fits P R := by
  unfold ofFunc
  split
  · next j qs q =>
      split
      · intro w hw
        rcases List.mem_append.1 hw with hw | hw
        · obtain ⟨u, hu, v, hv, rfl⟩ := exists_of_mem_zipWith hw
          exact h.parts u (List.mem_append_left _ hu) v (List.mem_append_left _ hv)
        · rw [List.mem_singleton.1 hw]
          exact h.parts r (List.mem_append_right _ (List.mem_singleton_self r)) q
            (List.mem_append_right _ (List.mem_singleton_self q))
      · exact fits_make _
  · exact fits_ofKinds _ _ h.left h.right

theorem fits_ofOop (i : Half) (hx : P x) (hy : P y) : (ofOop x i y k).Fits P R := by
  unfold ofOop
  split
  · exact fits_pick i hx hy
  · exact fits_ofKinds _ _ hx hy

theorem fits_ofStr (i : Half) (hx : P x) (hy : P y) : (ofStr x i y k).Fits P R := by
  unfold ofStr
  split
  · exact fits_make _
  · split
    · exact hy
    · exact fits_make _
  · exact fits_ofKinds _ _ hx hy

theorem fits_ofStrConst (s : String) (hx : P x) (hy : P y) : (ofStrConst x s y k).Fits P R := by
  unfold ofStrConst
  split
  · split
    · exact hx
    · exact fits_make _
  · split
    · exact hx
    · exact fits_make _
  · exact fits_ofKinds _ _ hx hy

theorem fits_ofStruct {i : Half} {fs : List (String × α)} (h : Operands P R x (.struct i fs) y k) :
    (ofStruct x i fs y k).Fits P R := by
  cases k with
  | struct j gs =>
      cases i <;> cases j
      · intro w hw
        obtain ⟨p, hp, rfl⟩ := List.mem_map.1 hw
        obtain ⟨f, hf, rfl⟩ | ⟨g, hg, rfl⟩ | ⟨f, hf, g, hg, rfl⟩ := Ascending.cases_of_mem_union hp
        · exact h.leftParts _ (List.mem_map_of_mem hf)
        · exact h.rightParts _ (List.mem_map_of_mem hg)
        · exact h.parts _ (List.mem_map_of_mem hf) _ (List.mem_map_of_mem hg)
      · exact h.right
      · exact h.left
      · intro w hw
        obtain ⟨p, hp, rfl⟩ := List.mem_map.1 hw
        obtain ⟨f, hf, g, hg, rfl⟩ := Ascending.cases_of_mem_inter hp
        exact h.parts _ (List.mem_map_of_mem hf) _ (List.mem_map_of_mem hg)
  | _ => exact fits_ofKinds _ _ h.left h.right

theorem fits_ofTuple {i : Half} {es : List α} (h : Operands P R x (.tuple i es) y k) :
    (ofTuple x i es y k).Fits P R := by
  unfold ofTuple
  split
  · split
    · intro w hw
      obtain ⟨u, hu, v, hv, rfl⟩ := exists_of_mem_zipWith hw
      exact h.parts u hu v hv
    · exact fits_make _
  · exact fits_ofKinds _ _ h.left h.right

theorem fits_ofOrdered (h : Operands P R x n y k) : (ofOrdered x n y k).Fits P R := by
  cases n with
  | atom a =>
      cases a with
      | universal i => exact fits_pick i h.left h.right
      | nil => exact fits_ofNil h
      | scalar i => exact fits_ofScalar i h.left h.right
      | ctrl => exact fits_ofCtrl h.left h.right
      | int a => exact fits_ofInt a h.left h.right
      | flt a => exact fits_ofFlt a h.left h.right
      | funPtr i s => exact fits_ofFunPtr i s h.left h.right
      | rpc i s => exact fits_ofRpc i s h.left h.right
      | oop i => exact fits_ofOop i h.left h.right
      | str i => exact fits_ofStr i h.left h.right
      | strConst s => exact fits_ofStrConst s h.left h.right
  | nullable => exact fits_ofNullable h
  | name => exact fits_ofName h
  | func => exact fits_ofFunc h
  | struct => exact fits_ofStruct h
  | tuple => exact fits_ofTuple h

theorem fits_ofPair (hR : ∀ u v, R u v → R v u) (h : Operands P R x n y k) :
    (ofPair x n y k).Fits P R := by
  unfold ofPair
  split
  · exact fits_ofOrdered (h.symm hR)
  · exact fits_ofOrdered h

end fits

def Tidy : Plan α → Prop
  | build n => n.Tidy
  | _ => True

section tidy

variable {x y : α} {n k : Node α}

theorem tidy_ofKinds (i j : Kind) : (ofKinds x i y j).Tidy := by
  unfold ofKinds
  split
  · trivial
  · split <;> trivial

theorem tidy_ofStruct {i : Half} {fs : List (String × α)} (hn : (Node.struct i fs).Tidy)
    (hk : k.Tidy) : (ofStruct x i fs y k).Tidy := by
  cases k with
  | struct j gs =>
      cases i <;> cases j
      · refine Ascending.union_sorted_of_keys Prod.fst Prod.fst Prod.fst ?_ ?_ ?_ hn hk <;>
          intros <;> rfl
      · trivial
      · trivial
      · refine Ascending.inter_sorted_of_keys Prod.fst Prod.fst Prod.fst ?_ hn
        intros
        rfl
  | _ => exact tidy_ofKinds _ _

theorem tidy_ofOrdered (hn : n.Tidy) (hk : k.Tidy) : (ofOrdered x n y k).Tidy := by
  cases n with
  | atom a =>
      cases a with
      | universal => trivial
      | nil =>
          simp only [ofOrdered]
          unfold ofNil
          split <;> (try split) <;> trivial
      | scalar =>
          simp only [ofOrdered]
          unfold ofScalar
          split <;> trivial
      | ctrl =>
          simp only [ofOrdered]
          unfold ofCtrl
          split
          · trivial
          · exact tidy_ofKinds _ _
      | int a =>
          simp only [ofOrdered]
          unfold ofInt
          split
          · next b => cases a.meet b <;> trivial
          · exact tidy_ofKinds _ _
      | flt a =>
          simp only [ofOrdered]
          unfold ofFlt
          split
          · next b => cases a.meet b <;> trivial
          · exact tidy_ofKinds _ _
      | funPtr i s =>
          simp only [ofOrdered]
          unfold ofFunPtr
          split
          · next j t => cases i <;> cases j <;> trivial
          · exact tidy_ofKinds _ _
      | rpc i s =>
          simp only [ofOrdered]
          unfold ofRpc
          split
          · next j t => cases i <;> cases j <;> trivial
          · exact tidy_ofKinds _ _
      | oop =>
          simp only [ofOrdered]
          unfold ofOop
          split
          · trivial
          · exact tidy_ofKinds _ _
      | str =>
          simp only [ofOrdered]
          unfold ofStr
          split
          · trivial
          · split <;> trivial
          · exact tidy_ofKinds _ _
      | strConst =>
          simp only [ofOrdered]
          unfold ofStrConst
          split
          · split <;> trivial
          · split <;> trivial
          · exact tidy_ofKinds _ _
  | nullable =>
      simp only [ofOrdered]
      unfold ofNullable
      split <;> trivial
  | name =>
      simp only [ofOrdered]
      unfold ofName
      split
      · split <;> trivial
      · trivial
  | func =>
      simp only [ofOrdered]
      unfold ofFunc
      split
      · split <;> trivial
      · exact tidy_ofKinds _ _
  | struct => exact tidy_ofStruct hn hk
  | tuple =>
      simp only [ofOrdered]
      unfold ofTuple
      split
      · split <;> trivial
      · exact tidy_ofKinds _ _

theorem tidy_ofPair (hn : n.Tidy) (hk : k.Tidy) : (ofPair x n y k).Tidy := by
  unfold ofPair
  split
  · exact tidy_ofOrdered hk hn
  · exact tidy_ofOrdered hn hk

end tidy

end Plan

end TypeLattice
