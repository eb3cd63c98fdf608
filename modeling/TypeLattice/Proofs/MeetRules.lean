import TypeLattice.Proofs.TotalMeet

namespace TypeLattice

namespace Kind

def isCore : Kind → Bool
  | universal | nil | name => false
  | _ => true

theorem isCore_iff {k : Kind} : k.isCore = true ↔ k ≠ .universal ∧ k ≠ .nil ∧ k ≠ .name := by
  cases k <;> decide

theorem not_lt_scalar {k : Kind} (h : k.isCore = true) : ¬k < .scalar := by
  revert h
  cases k <;> decide

theorem not_lt_ctrl {k : Kind} (h : k.isCore = true) (hs : k ≠ .scalar) : ¬k < .ctrl := by
  revert h hs
  cases k <;> decide

theorem isPointer_of_oop_lt {k : Kind} (h : oop < k) : k.isPointer = true := by
  revert h
  cases k <;> decide

theorem not_lt_oop {k : Kind} (h : k.isPointer = true) : ¬k < .oop := by
  revert h
  cases k <;> decide

theorem ne_of_isScalarLike {k : Kind} (h : k.isScalarLike = true) : k ≠ .nil ∧ k ≠ .scalar := by
  revert h
  cases k <;> decide

theorem lt_or_lt_of_ne {j k : Kind} (h : j ≠ k) : j < k ∨ k < j :=
  Nat.lt_or_gt_of_ne fun hr => h (rank_injective hr)

end Kind

def poolTargets : Half × OrdSet Nat → Half × OrdSet Nat → Half × OrdSet Nat
  | (.top, s), (.top, t) => (.top, s.inter t)
  | (.bottom, s), (.bottom, t) => (.bottom, s.union t)
  | (.top, _), (.bottom, t) => (.bottom, t)
  | (.bottom, s), (.top, _) => (.bottom, s)

def mergeField {α : Type} (meet : α → α → α) (f g : String × α) : String × α := (f.1, meet f.2 g.2)

def poolFields {α : Type} (meet : α → α → α) :
    Half × List (String × α) → Half × List (String × α) → Half × List (String × α)
  | (.top, fs), (.top, gs) => (.top, Ascending.unionBy Prod.fst (mergeField meet) fs gs)
  | (.bottom, fs), (.bottom, gs) => (.bottom, Ascending.interBy Prod.fst (mergeField meet) fs gs)
  | (.top, _), (.bottom, gs) => (.bottom, gs)
  | (.bottom, fs), (.top, _) => (.bottom, fs)

namespace Plan

variable {α : Type} {x y : α} {n k : Node α}

theorem build_ne_clash (l : Node (Piece α)) (u v : α) : build l ≠ clash u v := by
  intro he
  cases he

theorem ofScalar_of_ne_ctrl (h : Half) (hk : k.kind ≠ .ctrl) :
    ofScalar x h y k = .keep (if h.isTop then y else x) := by
  unfold ofScalar
  split
  · exact absurd rfl hk
  · rfl

theorem ofOrdered_eq_ofKinds (hcore : n.kind.isCore = true) (hscalar : n.kind ≠ .scalar)
    (hoop : n.kind ≠ .oop) (hne : k.kind ≠ n.kind) :
    ofOrdered x n y k = ofKinds x n.kind y k.kind := by
  cases n with
  | atom a =>
      cases a with
      | universal | nil => cases hcore
      | scalar => exact absurd rfl hscalar
      | oop => exact absurd rfl hoop
      | ctrl => simp only [ofOrdered]; unfold ofCtrl; split; exact absurd rfl hne; rfl
      | int => simp only [ofOrdered]; unfold ofInt; split; exact absurd rfl hne; rfl
      | flt => simp only [ofOrdered]; unfold ofFlt; split; exact absurd rfl hne; rfl
      | funPtr => simp only [ofOrdered]; unfold ofFunPtr; split; exact absurd rfl hne; rfl
      | rpc => simp only [ofOrdered]; unfold ofRpc; split; exact absurd rfl hne; rfl
      | str =>
          simp only [ofOrdered]
          unfold ofStr
          split
          · exact absurd rfl hne
          · exact absurd rfl hne
          · rfl
      | strConst =>
          simp only [ofOrdered]
          unfold ofStrConst
          split
          · exact absurd rfl hne
          · exact absurd rfl hne
          · rfl
  | nullable | name => cases hcore
  | func => simp only [ofOrdered]; unfold ofFunc; split; exact absurd rfl hne; rfl
  | struct => simp only [ofOrdered]; unfold ofStruct; split; exact absurd rfl hne; rfl
  | tuple => simp only [ofOrdered]; unfold ofTuple; split; exact absurd rfl hne; rfl

end Plan

namespace Ty

abbrev ofAtom (a : Atom) : Ty := mk (.atom a)

theorem normal_ofAtom (a : Atom) : (ofAtom a).Normal := .mk trivial nofun

theorem dual_ofAtom (a : Atom) : dual (ofAtom a) = ofAtom a.dual := dual_mk _

def IsCore (t : Ty) : Prop := t.node.kind.isCore = true

/-- A meet by the rule for its operands in the order of their kinds. -/
theorem inf_of_plan {a b : Ty} {p : Plan Ty} (hlt : ¬b.node.kind < a.node.kind)
    (hp : Plan.ofOrdered a a.node b b.node = p) (hne : ∀ u v, p ≠ .clash u v)
    (hself : a = b → p.value build inf sup = a)
    (hstay : Plan.stays a.node b.node = false) : inf a b = p.value build inf sup := by
  have hpair : Plan.ofPair a a.node b b.node = p := by rw [Plan.ofPair, if_neg hlt, hp]
  have hstay' : Plan.stays b.node a.node = false := by
    apply Plan.stays_eq_false
    intro hb ha
    rw [hb, ha] at hlt
    exact hlt (by decide)
  rw [inf_eq]
  split
  · next h => exact (hself h).symm
  · rw [Plan.ofTotal_of_ne_clash hstay hstay' fun u v => hpair ▸ hne u v, hpair]

theorem inf_of_clash {a b u v : Ty} (hlt : a.node.kind < b.node.kind)
    (hp : Plan.ofOrdered a a.node b b.node = .clash u v) (hnil : b.node.kind ≠ .nil)
    (hscalar : b.node.kind ≠ .scalar) :
    inf a b = (Plan.settle a a.node b b.node).value build inf sup := by
  have hgt : ¬b.node.kind < a.node.kind := Nat.lt_asymm hlt
  have hne : a ≠ b := by
    rintro rfl
    exact hgt hlt
  have hpair : Plan.ofPair a a.node b b.node = .clash u v := by rw [Plan.ofPair, if_neg hgt, hp]
  rw [inf_eq, if_neg hne, Plan.ofTotal, Plan.stays_eq_false fun _ => hscalar,
    Plan.stays_eq_false fun h => absurd h hnil, hpair]
  simp only [Bool.false_eq_true, if_false, if_neg hgt]

theorem inf_any (b : Ty) : inf (ofAtom (.universal .top)) b = b :=
  inf_of_plan (p := .keep b) (Nat.not_lt_zero _) rfl nofun Eq.symm rfl

theorem inf_all (b : Ty) : inf (ofAtom (.universal .bottom)) b = ofAtom (.universal .bottom) :=
  inf_of_plan (p := .keep (ofAtom (.universal .bottom))) (Nat.not_lt_zero _) rfl nofun
    (fun _ => rfl) rfl

theorem inf_name_name (l : String) (x y : Ty) :
    inf (mk (.name l x)) (mk (.name l y)) = mk (.name l (inf x y)) := by
  refine inf_of_plan (p := .build (.name l (.meet x y))) (Nat.lt_irrefl _) (if_pos rfl) nofun ?_ rfl
  intro h
  cases h
  simp [Plan.value, Node.map, Piece.value, build]

theorem inf_name_ne {l l' : String} (h : l' ≠ l) (x y : Ty) :
    inf (mk (.name l x)) (mk (.name l' y)) = inf x y := by
  refine inf_of_plan (p := .meet x y) (Nat.lt_irrefl _) (if_neg h) nofun ?_ rfl
  intro he
  cases he
  exact absurd rfl h

theorem universal_cases {t : Ty} (h : t.node.kind = .universal) :
    t = ofAtom (.universal .top) ∨ t = ofAtom (.universal .bottom) := by
  obtain ⟨n⟩ := t
  cases n with
  | atom a =>
      cases a with
      | universal i => cases i <;> simp
      | _ => cases h
  | _ => cases h

/-- The types that a meet with a named type takes the name from. -/
def IsValue (t : Ty) : Prop := t ≠ ofAtom (.universal .top) ∧ t.node.kind ≠ .name

theorem isValue_of_kind {t : Ty} (hu : t.node.kind ≠ .universal) (hn : t.node.kind ≠ .name) :
    t.IsValue := by
  refine ⟨?_, hn⟩
  rintro rfl
  exact hu rfl

theorem isValue_of_isCore {t : Ty} (h : t.IsCore) : t.IsValue :=
  isValue_of_kind (Kind.isCore_iff.1 h).1 (Kind.isCore_iff.1 h).2.2

theorem ofPair_name {b : Ty} (hu : b.node.kind ≠ .universal) (hn : b.node.kind ≠ .name) (l : String)
    (x : Ty) : Plan.ofPair (mk (.name l x)) (.name l x) b b.node = .meet x b ∨
      Plan.ofPair (mk (.name l x)) (.name l x) b b.node = .meet b x := by
  obtain ⟨k⟩ := b
  by_cases hnil : k.kind = .nil
  · right
    have hlt : k.kind < (Node.name l x).kind := by
      rw [hnil]
      exact (by decide : Kind.nil < Kind.name)
    rw [node, Plan.ofPair, if_pos hlt]
    cases k with
    | atom a => cases a <;> first | rfl | cases hnil
    | nullable => rfl
    | _ => cases hnil
  · left
    have hcore : k.kind.isCore = true := Kind.isCore_iff.2 ⟨hu, hnil, hn⟩
    have hlt : ¬k.kind < (Node.name l x).kind :=
      Kind.not_lt_trans (Kind.not_lt_scalar hcore) (by decide : ¬Kind.scalar < Kind.name)
    rw [node, Plan.ofPair, if_neg hlt]
    cases k with
    | name => exact absurd rfl hn
    | _ => rfl

theorem inf_name_left {b : Ty} (hb : b.IsValue) (l : String) (x : Ty) :
    inf (mk (.name l x)) b = inf x b := by
  by_cases hu : b.node.kind = .universal
  · rw [(universal_cases hu).resolve_left hb.1, inf_comm, inf_all, inf_comm, inf_all]
  · have hne : mk (.name l x) ≠ b := fun h => hb.2 (h ▸ rfl)
    have hstay : Plan.stays b.node (.name l x) = false := Plan.stays_eq_false fun _ => nofun
    have htotal : Plan.ofTotal (mk (.name l x)) (.name l x) b b.node =
        Plan.ofPair (mk (.name l x)) (.name l x) b b.node := by
      apply Plan.ofTotal_of_ne_clash rfl hstay
      intro u v hclash
      rcases ofPair_name hu hb.2 l x with h | h <;> rw [h] at hclash <;> cases hclash
    rw [inf_eq, if_neg hne, node, htotal]
    rcases ofPair_name hu hb.2 l x with h | h
    · rw [h]
      rfl
    · rw [h]
      exact inf_comm b x

def withName : Option String → Ty → Ty
  | none, t => t
  | some l, t => mk (.name l t)

def commonName (l k : Option String) : Option String := if l = k then l else none

theorem commonName_comm (l k : Option String) : commonName l k = commonName k l := by
  grind [commonName]

theorem commonName_none (l : Option String) : commonName l none = none := by
  grind [commonName]

theorem ne_none_of_commonName {l k : Option String} (h : commonName l k ≠ none) :
    l ≠ none ∧ k ≠ none := by
  grind [commonName]

theorem commonName_assoc (l k m : Option String) :
    commonName (commonName l k) m = commonName l (commonName k m) := by
  grind [commonName]

theorem inf_withName {x y : Ty} (l k : Option String) (hx : x.IsValue) (hy : y.IsValue) :
    inf (withName l x) (withName k y) = withName (commonName l k) (inf x y) := by
  cases l with
  | none =>
      cases k with
      | none => rfl
      | some k =>
          rw [inf_comm, inf_comm x]
          exact inf_name_left hx k y
  | some l =>
      cases k with
      | none => exact inf_name_left hy l x
      | some k =>
          by_cases h : k = l
          · rw [h, commonName, if_pos rfl]
            exact inf_name_name l x y
          · rw [commonName, if_neg fun he => h (Option.some.inj he).symm]
            exact inf_name_ne h x y

variable {a b : Ty}

theorem inf_anyScalar (hb : b.IsCore) : inf (ofAtom (.scalar .top)) b = b := by
  obtain ⟨k⟩ := b
  by_cases hc : k.kind = .ctrl
  · obtain ⟨i, rfl⟩ := Node.kind_eq_ctrl hc
    exact inf_of_clash (by decide : Kind.scalar < Kind.ctrl) rfl nofun nofun
  · exact inf_of_plan (p := .keep (mk k)) (Kind.not_lt_scalar hb) (Plan.ofScalar_of_ne_ctrl .top hc)
      nofun Eq.symm rfl

theorem inf_scalar (hb : b.IsCore) :
    inf (ofAtom (.scalar .bottom)) b = ofAtom (.scalar .bottom) := by
  obtain ⟨k⟩ := b
  by_cases hc : k.kind = .ctrl
  · obtain ⟨i, rfl⟩ := Node.kind_eq_ctrl hc
    exact inf_of_clash (by decide : Kind.scalar < Kind.ctrl) rfl nofun nofun
  · exact inf_of_plan (p := .keep (ofAtom (.scalar .bottom))) (Kind.not_lt_scalar hb)
      (Plan.ofScalar_of_ne_ctrl .bottom hc) nofun (fun _ => rfl) rfl

theorem inf_of_kind_lt (ha : a.IsCore) (hs : a.node.kind ≠ .scalar)
    (hlt : a.node.kind < b.node.kind) (hoop : a.node.kind ≠ .oop) :
    inf a b = if a.node.kind.isPointer && b.node.kind.isPointer then ofAtom (.oop .bottom)
      else ofAtom (.scalar .bottom) := by
  have hgt : ¬b.node.kind < a.node.kind := Nat.lt_asymm hlt
  have hne : b.node.kind ≠ a.node.kind := fun h => by rw [h] at hlt; exact Nat.lt_irrefl _ hlt
  have hself : a ≠ b := fun h => hne (by rw [h])
  have hplan := Plan.ofOrdered_eq_ofKinds (x := a) (y := b) ha hs hoop hne
  have hb : b.node.kind.isScalarLike = true := by
    refine Kind.isScalarLike_of_ne_ctrl (Kind.not_lt_trans hgt (Kind.not_lt_ctrl ha hs)) fun h => ?_
    rw [h] at hlt
    exact Kind.not_lt_ctrl ha hs hlt
  have hstay : Plan.stays a.node b.node = false :=
    Plan.stays_eq_false fun h => absurd h (Kind.isCore_iff.1 ha).2.1
  by_cases hp : (a.node.kind.isPointer && b.node.kind.isPointer) = true
  · rw [if_pos hp]
    refine inf_of_plan (p := .make (.oop .bottom)) hgt ?_ nofun (fun h => absurd h hself) hstay
    rw [hplan, Plan.ofKinds, if_pos hp]
  · rw [if_neg hp]
    by_cases hctrl : a.node.kind = .ctrl
    · obtain ⟨i, hi⟩ := Node.kind_eq_ctrl hctrl
      have hclash : Plan.ofOrdered a a.node b b.node = .clash a b := by
        rw [hplan, Plan.ofKinds, if_neg hp, hctrl]
        rfl
      obtain ⟨hnil, hscalar⟩ := Kind.ne_of_isScalarLike hb
      rw [inf_of_clash hlt hclash hnil hscalar, hi]
      rfl
    · refine inf_of_plan (p := .make (.scalar .bottom)) hgt ?_ nofun (fun h => absurd h hself) hstay
      have ha' := Kind.isScalarLike_of_ne_ctrl (Kind.not_lt_ctrl ha hs) hctrl
      rw [hplan, Plan.ofKinds, if_neg hp, ha', hb]
      rfl

/-- Types of different classes have no other class in common than all scalars. -/
theorem inf_of_kind_ne (ha : a.IsCore) (hb : b.IsCore) (has : a.node.kind ≠ .scalar)
    (hbs : b.node.kind ≠ .scalar) (hne : a.node.kind ≠ b.node.kind)
    (hp : (a.node.kind.isPointer && b.node.kind.isPointer) = false) :
    inf a b = ofAtom (.scalar .bottom) := by
  have hoop {j k : Kind} (hlt : j < k) (hp : (j.isPointer && k.isPointer) = false) : j ≠ .oop := by
    rintro rfl
    rw [Kind.isPointer_of_oop_lt hlt] at hp
    cases hp
  rcases Kind.lt_or_lt_of_ne hne with hlt | hlt
  · rw [inf_of_kind_lt ha has hlt (hoop hlt hp), hp]
    rfl
  · rw [Bool.and_comm] at hp
    rw [inf_comm, inf_of_kind_lt hb hbs hlt (hoop hlt hp), hp]
    rfl

theorem inf_of_pointers (ha : a.node.kind.isPointer = true) (hb : b.node.kind.isPointer = true)
    (hao : a.node.kind ≠ .oop) (hbo : b.node.kind ≠ .oop) (hne : a.node.kind ≠ b.node.kind) :
    inf a b = ofAtom (.oop .bottom) := by
  have hcore {t : Ty} (h : t.node.kind.isPointer = true) : t.IsCore ∧ t.node.kind ≠ .scalar := by
    rw [IsCore]
    revert h
    cases t.node.kind <;> decide
  rcases Kind.lt_or_lt_of_ne hne with hlt | hlt
  · rw [inf_of_kind_lt (hcore ha).1 (hcore ha).2 hlt hao, ha, hb]
    rfl
  · rw [inf_comm, inf_of_kind_lt (hcore hb).1 (hcore hb).2 hlt hbo, ha, hb]
    rfl

theorem inf_anyOop (hb : b.node.kind.isPointer = true) : inf (ofAtom (.oop .top)) b = b :=
  inf_of_plan (p := .keep b) (Kind.not_lt_oop hb) (if_pos hb) nofun Eq.symm rfl

theorem inf_oop (hb : b.node.kind.isPointer = true) :
    inf (ofAtom (.oop .bottom)) b = ofAtom (.oop .bottom) :=
  inf_of_plan (p := .keep (ofAtom (.oop .bottom))) (Kind.not_lt_oop hb) (if_pos hb) nofun
    (fun _ => rfl) rfl

theorem inf_ctrl (h k : Half) :
    inf (ofAtom (.ctrl h)) (ofAtom (.ctrl k)) = ofAtom (.ctrl (h.inf k)) := by
  by_cases hk : h = k
  · rw [hk, inf_self, Half.inf_self]
  · have hplan := inf_of_plan (a := ofAtom (.ctrl h)) (b := ofAtom (.ctrl k))
      (p := .make (.ctrl .bottom)) (Nat.lt_irrefl _) rfl nofun
      (fun he => by cases he; exact absurd rfl hk) rfl
    rw [hplan]
    cases h <;> cases k <;> first | rfl | exact absurd rfl hk

theorem inf_numbers {ω ν : Type} [LinearOrder ω] [Sized ν ω] [DecidableEq ν]
    {f : Numeric ω ν → Atom} {c d : Numeric ω ν} (hkind : (f d).kind = (f c).kind)
    (hinj : f c = f d → c = d)
    (hplan : Plan.ofOrdered (ofAtom (f c)) (.atom (f c)) (ofAtom (f d)) (.atom (f d)) =
      Plan.ofPick (ofAtom (f c)) (ofAtom (f d)) f (c.meet d)) :
    inf (ofAtom (f c)) (ofAtom (f d)) = ofAtom (f (c.inf d)) := by
  have hvalue : (Plan.ofPick (ofAtom (f c)) (ofAtom (f d)) f (c.meet d)).value build inf sup =
      ofAtom (f (c.inf d)) := by
    rw [Numeric.inf]
    cases c.meet d <;> rfl
  rw [← hvalue]
  refine inf_of_plan ?_ hplan ?_ ?_ rfl
  · simp only [node, Node.kind, hkind]
    exact Nat.lt_irrefl _
  · intro u v hc
    cases hm : c.meet d <;> rw [hm] at hc <;> cases hc
  · intro h
    have hcd : c = d := hinj (by simpa using h)
    rw [hvalue, hcd, Numeric.inf_self]

theorem inf_int (c d : Numeric IntWidth Int64) :
    inf (ofAtom (.int c)) (ofAtom (.int d)) = ofAtom (.int (c.inf d)) :=
  inf_numbers rfl (by simp) rfl

theorem inf_flt (c d : Numeric FltWidth Binary64) :
    inf (ofAtom (.flt c)) (ofAtom (.flt d)) = ofAtom (.flt (c.inf d)) :=
  inf_numbers rfl (by simp) rfl

theorem inf_targets {f : Half → OrdSet Nat → Atom} {h k : Half} {s t : OrdSet Nat}
    (hkind : (f k t).kind = (f h s).kind) (hinj : f h s = f k t → h = k ∧ s = t)
    (hplan : Plan.ofOrdered (ofAtom (f h s)) (.atom (f h s)) (ofAtom (f k t)) (.atom (f k t)) =
      Plan.ofTargets f (ofAtom (f h s)) h s (ofAtom (f k t)) k t) :
    inf (ofAtom (f h s)) (ofAtom (f k t)) =
      ofAtom (f (poolTargets (h, s) (k, t)).1 (poolTargets (h, s) (k, t)).2) := by
  have hvalue : (Plan.ofTargets f (ofAtom (f h s)) h s (ofAtom (f k t)) k t).value build inf sup =
      ofAtom (f (poolTargets (h, s) (k, t)).1 (poolTargets (h, s) (k, t)).2) := by
    cases h <;> cases k <;> rfl
  rw [← hvalue]
  refine inf_of_plan ?_ hplan ?_ ?_ rfl
  · simp only [node, Node.kind, hkind]
    exact Nat.lt_irrefl _
  · intro u v he
    cases h <;> cases k <;> cases he
  · intro he
    obtain ⟨rfl, rfl⟩ := hinj (by simpa using he)
    rw [hvalue]
    cases h <;> simp only [poolTargets, OrdSet.inter_self, OrdSet.union_self]

theorem inf_funPtr (h k : Half) (s t : OrdSet Nat) :
    inf (ofAtom (.funPtr h s)) (ofAtom (.funPtr k t)) =
      ofAtom (.funPtr (poolTargets (h, s) (k, t)).1 (poolTargets (h, s) (k, t)).2) :=
  inf_targets rfl (by simp) rfl

theorem inf_rpc (h k : Half) (s t : OrdSet Nat) :
    inf (ofAtom (.rpc h s)) (ofAtom (.rpc k t)) =
      ofAtom (.rpc (poolTargets (h, s) (k, t)).1 (poolTargets (h, s) (k, t)).2) :=
  inf_targets rfl (by simp) rfl

theorem inf_str (h k : Half) :
    inf (ofAtom (.str h)) (ofAtom (.str k)) = ofAtom (.str (h.inf k)) := by
  by_cases hk : h = k
  · rw [hk, inf_self, Half.inf_self]
  · have hplan := inf_of_plan (a := ofAtom (.str h)) (b := ofAtom (.str k))
      (p := .make (.str .bottom)) (Nat.lt_irrefl _) rfl nofun
      (fun he => by cases he; exact absurd rfl hk) rfl
    rw [hplan]
    cases h <;> cases k <;> first | rfl | exact absurd rfl hk

theorem inf_anyStr_const (v : String) :
    inf (ofAtom (.str .top)) (ofAtom (.strConst v)) = ofAtom (.strConst v) :=
  inf_of_plan (p := .keep (ofAtom (.strConst v))) (Nat.lt_irrefl _) rfl nofun nofun rfl

theorem inf_str_const (v : String) :
    inf (ofAtom (.str .bottom)) (ofAtom (.strConst v)) = ofAtom (.str .bottom) :=
  inf_of_plan (p := .make (.str .bottom)) (Nat.lt_irrefl _) rfl nofun nofun rfl

theorem inf_consts {u v : String} (h : u ≠ v) :
    inf (ofAtom (.strConst u)) (ofAtom (.strConst v)) = ofAtom (.str .bottom) := by
  refine inf_of_plan (p := .make (.str .bottom)) (Nat.lt_irrefl _) (if_neg h) nofun ?_ rfl
  intro he
  cases he
  exact absurd rfl h

theorem map_zipWith_value (q : Ty → Ty → Piece Ty) (ts us : List Ty) :
    (List.zipWith q ts us).map (Piece.value inf sup) =
      List.zipWith (fun t u => (q t u).value inf sup) ts us :=
  List.map_zipWith

theorem sup_self {t : Ty} (h : t.Normal) : sup t t = t := by
  rw [sup, inf_self, dual_dual h]

theorem inf_func {h k : Half} {ps qs : List Ty} {r q : Ty} (hn : ∀ p ∈ ps, p.Normal) :
    inf (mk (.func h ps r)) (mk (.func k qs q)) =
      if ps.length = qs.length then mk (.func (h.inf k) (List.zipWith sup ps qs) (inf r q))
      else ofAtom (.scalar .bottom) := by
  by_cases hlen : ps.length = qs.length
  · rw [if_pos hlen]
    have hvalue : (Plan.build (.func (h.inf k) (List.zipWith .join ps qs) (.meet r q))).value
        build inf sup = mk (.func (h.inf k) (List.zipWith sup ps qs) (inf r q)) := by
      rw [Plan.value, Node.map, map_zipWith_value]
      rfl
    rw [← hvalue]
    refine inf_of_plan (Nat.lt_irrefl _) (if_pos hlen) (Plan.build_ne_clash _) (fun he => ?_) rfl
    cases he
    rw [hvalue, Ascending.zipWith_self fun p hp => sup_self (hn p hp), inf_self, Half.inf_self]
  · rw [if_neg hlen]
    refine inf_of_plan (p := .make (.scalar .bottom)) (Nat.lt_irrefl _) (if_neg hlen)
      (Plan.build_ne_clash _) ?_ rfl
    intro he
    cases he
    exact absurd rfl hlen

theorem inf_tuple (h k : Half) (es ds : List Ty) :
    inf (mk (.tuple h es)) (mk (.tuple k ds)) =
      if es.length = ds.length then mk (.tuple (h.inf k) (List.zipWith inf es ds))
      else ofAtom (.oop .bottom) := by
  by_cases hlen : es.length = ds.length
  · rw [if_pos hlen]
    have hvalue : (Plan.build (.tuple (h.inf k) (List.zipWith .meet es ds))).value build inf sup =
        mk (.tuple (h.inf k) (List.zipWith inf es ds)) := by
      rw [Plan.value, Node.map, map_zipWith_value]
      rfl
    rw [← hvalue]
    refine inf_of_plan (Nat.lt_irrefl _) (if_pos hlen) (Plan.build_ne_clash _) (fun he => ?_) rfl
    cases he
    rw [hvalue, Ascending.zipWith_self fun t _ => inf_self t, Half.inf_self]
  · rw [if_neg hlen]
    refine inf_of_plan (p := .make (.oop .bottom)) (Nat.lt_irrefl _) (if_neg hlen)
      (Plan.build_ne_clash _) ?_ rfl
    intro he
    cases he
    exact absurd rfl hlen

theorem inf_struct (h k : Half) (fs gs : List (String × Ty)) :
    inf (mk (.struct h fs)) (mk (.struct k gs)) =
      mk (.struct (poolFields inf (h, fs) (k, gs)).1 (poolFields inf (h, fs) (k, gs)).2) := by
  have hvalue : (Plan.ofStruct (mk (.struct h fs)) h fs (mk (.struct k gs)) (.struct k gs)).value
      build inf sup =
      mk (.struct (poolFields inf (h, fs) (k, gs)).1 (poolFields inf (h, fs) (k, gs)).2) := by
    cases h <;> cases k
    case top.bottom | bottom.top => rfl
    case top.top =>
      have hmap : Ascending.unionBy Prod.fst (mergeField inf) (fs.map id) (gs.map id) =
          (Ascending.union (fun f g : String × Ty => compare f.1 g.1)
            (fun f => (f.1, Piece.keep f.2)) (fun g => (g.1, Piece.keep g.2))
            (fun f g => (f.1, Piece.meet f.2 g.2)) fs gs).map
              (fun p => (p.1, p.2.value inf sup)) := by
        apply Ascending.union_map id id <;> intros <;> rfl
      rw [List.map_id, List.map_id] at hmap
      rw [poolFields, hmap]
      rfl
    case bottom.bottom =>
      have hmap : Ascending.interBy Prod.fst (mergeField inf) (fs.map id) (gs.map id) =
          (Ascending.inter (fun f g : String × Ty => compare f.1 g.1)
            (fun f g => (f.1, Piece.meet f.2 g.2)) fs gs).map
              (fun p => (p.1, p.2.value inf sup)) := by
        apply Ascending.inter_map id id <;> intros <;> rfl
      rw [List.map_id, List.map_id] at hmap
      rw [poolFields, hmap]
      rfl
  rw [← hvalue]
  refine inf_of_plan (Nat.lt_irrefl _) rfl ?_ ?_ rfl
  · intro u v he
    cases h <;> cases k <;> cases he
  · intro he
    cases he
    have hself : ∀ f ∈ fs, mergeField inf f f = f := fun f _ => by rw [mergeField, inf_self]
    rw [hvalue]
    cases h <;> simp only [poolFields, Ascending.unionBy_self hself, Ascending.interBy_self hself]

end Ty

end TypeLattice
