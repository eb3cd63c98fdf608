import TypeLattice.Proofs.ShapeClasses

namespace TypeLattice

/-- How nil stands in a type: whether it must be there or may be, and the name of the component
below it. -/
structure Mark where
  half : Half
  name : Option String

namespace Ty

variable {x y z : Ty} {h k : Half} {l m : Option String}

abbrev nil : Ty := ofAtom .nil

theorem absorbsNil_eq (hx : x.node.kind ≠ .name) : x.absorbsNil = !x.node.kind.isWord := by
  rw [absorbsNil, unname_of_ne hx, Node.isUniversal_eq, Node.admitsNil]
  revert hx
  cases x.node.kind <;> decide

def Wordy (t : Ty) : Prop := t.unname.node.kind.isWord = true

theorem absorbsNil_of_wordy {t : Ty} (h : t.Wordy) : t.absorbsNil = false := by
  have hadmits : t.unname.node.admitsNil = false := by
    rw [Wordy] at h
    rw [Node.admitsNil]
    revert h
    cases t.unname.node.kind <;> decide
  have huniversal : t.node.isUniversal = false := by
    rw [Node.isUniversal_eq, decide_eq_false_iff_not]
    intro hu
    have hname : t.node.kind ≠ .name := hu.trans_ne (by decide)
    rw [Wordy, unname_of_ne hname, hu] at h
    cases h
  rw [absorbsNil, hadmits, huniversal, Bool.or_false]

theorem absorbsNil_withName (l : Option String) (hx : x.node.kind.isWord = true) :
    (withName l x).absorbsNil = false := by
  obtain ⟨hu, -, hname⟩ := Kind.isCore_iff.1 (Kind.ne_of_isWord hx).1
  have hword : x.absorbsNil = false := by rw [absorbsNil_eq hname, hx, Bool.not_true]
  cases l with
  | none => exact hword
  | some l =>
      rw [absorbsNil, Bool.or_eq_false_iff] at hword ⊢
      rw [withName, unname_name]
      exact ⟨rfl, hword.2⟩

theorem unname_withName (l : Option String) (hx : x.node.kind ≠ .name) :
    (withName l x).unname = x := by
  cases l with
  | none => exact unname_of_ne hx
  | some l => rw [withName, unname_name, unname_of_ne hx]

theorem inf_nil_anyScalar : inf nil anyScalar = nil :=
  inf_of_plan (p := .make .nil) (by decide : ¬Kind.scalar < Kind.nil) rfl nofun nofun rfl

theorem inf_nil_scalar : inf nil scalar = scalar :=
  inf_of_plan (p := .make (.scalar .bottom)) (by decide : ¬Kind.scalar < Kind.nil) rfl nofun nofun
    rfl

theorem inf_nil_pointer (hx : x.node.kind.isPointer = true) : inf nil x = oop := by
  obtain ⟨n⟩ := x
  refine inf_of_plan (p := .make (.oop .bottom)) ?_ ?_ nofun ?_ rfl
  · exact Kind.not_lt_trans (Kind.not_lt_oop hx) (by decide : ¬Kind.oop < Kind.nil)
  · cases n with
    | atom a => cases a <;> first | rfl | cases hx
    | struct | tuple => rfl
    | _ => cases hx
  · intro he
    cases he
    cases hx

theorem inf_nil_word (hx : x.node.kind.isWord = true) : inf nil x = mk (.nullable .bottom x) := by
  have hbuild : build (.nullable .bottom x) = mk (.nullable .bottom x) :=
    build_nullable .bottom (absorbsNil_withName none hx)
  rw [← hbuild]
  obtain ⟨n⟩ := x
  by_cases hc : n.kind = .ctrl
  · obtain ⟨i, rfl⟩ := Node.kind_eq_ctrl hc
    exact inf_of_clash (by decide : Kind.nil < Kind.ctrl) rfl nofun nofun
  · refine inf_of_plan (p := .build (.nullable .bottom (.keep (mk n)))) ?_ ?_ nofun ?_ rfl
    · have hcore := (Kind.ne_of_isWord hx).1
      exact Kind.not_lt_trans (Kind.not_lt_scalar hcore) (by decide : ¬Kind.scalar < Kind.nil)
    · cases n with
      | atom a => cases a <;> first | rfl | exact absurd rfl hc | cases hx
      | func => rfl
      | _ => cases hx
    · intro he
      cases he
      cases hx

theorem inf_nil_nullable (h : Half) (hx : x.absorbsNil = false) :
    inf nil (mk (.nullable h x)) = mk (.nullable .bottom x) := by
  rw [← build_nullable .bottom hx]
  exact inf_of_plan (p := .build (.nullable .bottom (.keep x))) (Nat.lt_irrefl _) rfl nofun nofun
    rfl

theorem inf_nil_cases (hx : x.Normal) (hu : x.node.kind ≠ .universal) (hn : x.node.kind ≠ .name) :
    inf nil x = nil ∨ inf nil x = scalar ∨ inf nil x = oop ∨
      ∃ y, inf nil x = mk (.nullable .bottom y) := by
  by_cases hk : x.node.kind = .nil
  · obtain ⟨k⟩ := x
    cases k with
    | atom d =>
        cases d with
        | nil => exact .inl (inf_self nil)
        | _ => cases hk
    | nullable j z => exact .inr (.inr (.inr ⟨z, inf_nil_nullable j hx.layer⟩))
    | _ => cases hk
  · rcases core_cases (Kind.isCore_iff.2 ⟨hu, hk, hn⟩) with rfl | rfl | hp | hw
    · exact .inl inf_nil_anyScalar
    · exact .inr (.inl inf_nil_scalar)
    · exact .inr (.inr (.inl (inf_nil_pointer hp)))
    · exact .inr (.inr (.inr ⟨x, inf_nil_word hw⟩))

theorem inf_nullable_nullable (hx : x.absorbsNil = false) :
    inf (mk (.nullable h x)) (mk (.nullable k y)) = build (.nullable (h.inf k) (inf x y)) := by
  refine inf_of_plan (p := .build (.nullable (h.inf k) (.meet x y))) (Nat.lt_irrefl _) rfl nofun ?_
    rfl
  intro he
  cases he
  simp only [Plan.value, Node.map, Piece.value, inf_self, Half.inf_self, build_nullable _ hx]

theorem inf_nullable_core (hy : y.IsCore) (hstay : y = anyScalar → x.unname.node.kind ≠ .ctrl) :
    inf (mk (.nullable h x)) y = build (.nullable (h.inf y.node.half) (inf x y)) := by
  obtain ⟨k⟩ := y
  by_cases hc : k.kind = .ctrl
  · obtain ⟨i, rfl⟩ := Node.kind_eq_ctrl hc
    exact inf_of_clash (by decide : Kind.nil < Kind.ctrl) rfl nofun nofun
  · refine inf_of_plan (p := .build (.nullable (h.inf k.half) (.meet x (mk k)))) ?_ ?_ nofun ?_ ?_
    · exact Kind.not_lt_trans (Kind.not_lt_scalar hy) (by decide : ¬Kind.scalar < Kind.nil)
    · cases k with
      | atom a =>
          cases a with
          | ctrl => exact absurd rfl hc
          | nil => cases hy
          | _ => rfl
      | nullable | name => cases hy
      | _ => rfl
    · intro he
      cases he
      cases hy
    · apply Bool.eq_false_iff.2
      intro hs
      obtain ⟨_, _, hn, hk, hctrl⟩ := Plan.exists_of_stays hs
      cases hn
      exact hstay (congrArg mk hk) hctrl

theorem inf_nullable_anyScalar (h : Half) (hx : x.unname.node.kind = .ctrl) :
    inf (mk (.nullable h x)) anyScalar = mk (.nullable h x) := by
  have hstays : Plan.stays (mk (.nullable h x)).node anyScalar.node = true := decide_eq_true hx
  rw [inf_eq, if_neg (by simp), Plan.ofTotal, if_pos hstays]
  rfl

def NamesControl (l : Option String) (x : Ty) : Prop := l ≠ none → x.node.kind = .ctrl

theorem name_eq_none (hl : NamesControl l x) (hx : x.node.kind ≠ .ctrl) : l = none := by
  by_contra h
  exact hx (hl h)

/-- The type with nil added. Only a word keeps how nil stands in it. -/
def orNil (m : Mark) (x : Ty) : Ty :=
  if x.node.kind.isWord then mk (.nullable m.half (withName m.name x)) else inf nil x

theorem orNil_word (m : Mark) (hx : x.node.kind.isWord = true) :
    orNil m x = mk (.nullable m.half (withName m.name x)) := if_pos hx

theorem orNil_pointer (m : Mark) (hx : x.node.kind.isPointer = true) : orNil m x = oop := by
  have hword : ¬x.node.kind.isWord = true := by
    intro hw
    rw [(Kind.ne_of_isWord hw).2.2.2] at hx
    cases hx
  rw [orNil, if_neg hword, inf_nil_pointer hx]

theorem orNil_anyScalar (m : Mark) : orNil m anyScalar = nil := inf_nil_anyScalar

theorem orNil_scalar (m : Mark) : orNil m scalar = scalar := inf_nil_scalar

theorem inf_word_core (hx : x.node.kind.isWord = true) (hy : y.IsCore) (hn : x.Normal) :
    inf x y = scalar ∨ (inf x y).node.kind.isWord = true := by
  have hcore := (Kind.ne_of_isWord hx).1
  rcases core_cases hy with rfl | rfl | hp | hw
  · rw [inf_comm, inf_anyScalar hcore]
    exact .inr hx
  · rw [inf_comm, inf_scalar hcore]
    exact .inl rfl
  · exact .inl (inf_word_pointer hx hp)
  · exact (inf_word_word hx hw hn).imp_right And.left

theorem build_orNil (m : Mark) (hx : x = scalar ∨ x.node.kind.isWord = true)
    (hm : NamesControl m.name x) :
    build (.nullable m.half (withName m.name x)) = orNil m x := by
  rcases hx with rfl | hw
  · rw [name_eq_none hm nofun, orNil_scalar]
    rfl
  · rw [build_nullable m.half (absorbsNil_withName m.name hw), orNil_word m hw]

theorem inf_nil_orNil (m : Mark) (hy : y.IsCore) :
    inf nil (orNil m y) = orNil ⟨.bottom, m.name⟩ y := by
  rcases core_cases hy with rfl | rfl | hp | hw
  · rw [orNil_anyScalar, inf_self, orNil_anyScalar]
  · rw [orNil_scalar, inf_nil_scalar, orNil_scalar]
  · rw [orNil_pointer _ hp, orNil_pointer _ hp, inf_nil_pointer rfl]
  · rw [orNil_word _ hw, orNil_word _ hw, inf_nil_nullable _ (absorbsNil_withName _ hw)]

theorem orNil_inf_pointer (m : Mark) (hx : x.node.kind.isPointer = true) (hy : y.IsCore)
    (hn : x.Normal) : orNil m (inf x y) = inf oop y := by
  have hcore : x.IsCore := (Kind.ne_of_isPointer hx).1
  have hoop : oop.IsCore := rfl
  rcases core_cases hy with rfl | rfl | hp | hw
  · rw [inf_comm, inf_anyScalar hcore, inf_comm, inf_anyScalar hoop, orNil_pointer m hx]
  · rw [inf_comm, inf_scalar hcore, inf_comm, inf_scalar hoop, orNil_scalar]
  · rw [orNil_pointer m (isPointer_inf hx hp hn), inf_oop hp]
  · rw [inf_comm, inf_word_pointer hw hx, inf_comm, inf_word_pointer hw rfl, orNil_scalar]

def nilHalf (x : Ty) : Option Mark → Half
  | none => x.node.half
  | some m => if x = anyScalar then .bottom else m.half

def nilName : Option Mark → Option String
  | none => none
  | some m => m.name

def mergeName (x : Ty) (l : Option String) (y : Ty) (m : Option String) : Option String :=
  if x = anyScalar then m else if y = anyScalar then l else commonName l m

theorem ne_anyScalar_of_isWord (hx : x.node.kind.isWord = true) : x ≠ anyScalar := by
  rintro rfl
  cases hx

theorem nilHalf_word (m : Mark) (hx : x.node.kind.isWord = true) : nilHalf x (some m) = m.half :=
  if_neg (ne_anyScalar_of_isWord hx)

theorem namesControl_merge (hx : x.IsCore) (hy : y.IsCore) (hl : NamesControl l x)
    (hm : NamesControl m y) : NamesControl (mergeName x l y m) (inf x y) := by
  intro h
  unfold mergeName at h
  split at h
  · next hany =>
      rw [hany, inf_anyScalar hy]
      exact hm h
  · split at h
    · next hany =>
        rw [hany, inf_comm, inf_anyScalar hx]
        exact hl h
    · obtain ⟨hl', hm'⟩ := ne_none_of_commonName h
      obtain ⟨n⟩ := x
      obtain ⟨k⟩ := y
      obtain ⟨i, rfl⟩ := Node.kind_eq_ctrl (hl hl')
      obtain ⟨j, rfl⟩ := Node.kind_eq_ctrl (hm hm')
      rw [inf_ctrl]
      rfl

theorem inf_orNil_anyScalar (m : Mark) (hx : x.node.kind.isWord = true)
    (hm : NamesControl m.name x) : inf (orNil m x) anyScalar = orNil m x := by
  have hcore : x.IsCore := (Kind.ne_of_isWord hx).1
  have hvalue := isValue_of_isCore hcore
  rw [orNil_word m hx]
  by_cases hc : x.node.kind = .ctrl
  · apply inf_nullable_anyScalar
    rw [unname_withName m.name hvalue.2, hc]
  · rw [name_eq_none hm hc, withName]
    have hunname : x.unname.node.kind ≠ .ctrl := by rwa [unname_of_ne hvalue.2]
    have hany : anyScalar.IsCore := rfl
    have hhalf : m.half.inf anyScalar.node.half = m.half := Half.inf_top m.half
    rw [inf_nullable_core hany fun _ => hunname, hhalf, inf_comm x, inf_anyScalar hcore]
    exact build_nullable _ (absorbsNil_withName none hx)

theorem inf_orNil_core (m : Mark) (hx : x.IsCore) (hy : y.IsCore) (hn : x.Normal)
    (hm : NamesControl m.name x) : inf (orNil m x) y =
      orNil ⟨(nilHalf x (some m)).inf y.node.half, mergeName x m.name y none⟩ (inf x y) := by
  rcases core_cases hx with rfl | rfl | hp | hw
  · rw [orNil_anyScalar, inf_anyScalar hy]
    rcases core_cases hy with rfl | rfl | hp | hw
    · rw [inf_nil_anyScalar, orNil_anyScalar]
    · rw [inf_nil_scalar, orNil_scalar]
    · rw [inf_nil_pointer hp, orNil_pointer _ hp]
    · rw [inf_nil_word hw, orNil_word _ hw]
      rfl
  · rw [orNil_scalar, inf_scalar hy, orNil_scalar]
  · rw [orNil_pointer m hp, orNil_inf_pointer _ hp hy hn]
  · rw [nilHalf_word m hw, mergeName, if_neg (ne_anyScalar_of_isWord hw)]
    by_cases hany : y = anyScalar
    · have hhalf : m.half.inf anyScalar.node.half = m.half := Half.inf_top m.half
      rw [if_pos hany, hany, inf_orNil_anyScalar m hw hm, inf_comm, inf_anyScalar hx, hhalf]
    · have hvalue : y.IsValue := isValue_of_isCore hy
      have hname : inf (withName m.name x) y = withName (commonName m.name none) (inf x y) :=
        inf_withName m.name none (isValue_of_isCore hx) hvalue
      have hnone : commonName m.name none = none := commonName_none m.name
      rw [if_neg hany, orNil_word m hw, inf_nullable_core hy fun h => absurd h hany, hname]
      exact build_orNil ⟨_, _⟩ (inf_word_core hw hy hn) fun h => absurd hnone h

theorem inf_orNil_of_not_word (m k : Mark) (hx : x.IsCore) (hy : y.IsCore) (hn : x.Normal)
    (hny : y.Normal) (hk : NamesControl k.name y) (hw : ¬x.node.kind.isWord = true) :
    inf (orNil m x) (orNil k y) = orNil ⟨(nilHalf x (some m)).inf (nilHalf y (some k)),
      mergeName x m.name y k.name⟩ (inf x y) := by
  rcases core_cases hx with rfl | rfl | hp | hw'
  · rw [orNil_anyScalar, inf_nil_orNil k hy, inf_anyScalar hy]
    rfl
  · rw [orNil_scalar, inf_comm, inf_orNil_core k hy hx hny hk, inf_comm, inf_scalar hy,
      orNil_scalar, orNil_scalar]
  · have hoop : oop.IsCore ∧ oop.Normal := ⟨rfl, normal_ofAtom _⟩
    rw [orNil_pointer m hp, inf_comm, inf_orNil_core k hy hoop.1 hny hk, inf_comm,
      orNil_inf_pointer _ rfl hy hoop.2, orNil_inf_pointer _ hp hy hn]
  · exact absurd hw' hw

theorem mergeName_comm (hl : NamesControl l x) (hm : NamesControl m y) :
    mergeName x l y m = mergeName y m x l := by
  unfold mergeName
  by_cases hx : x = anyScalar
  · by_cases hy : y = anyScalar
    · have hnone : l = none ∧ m = none := by
        subst hx hy
        exact ⟨name_eq_none hl nofun, name_eq_none hm nofun⟩
      rw [hnone.1, hnone.2, hx, hy]
    · rw [if_pos hx, if_neg hy, if_pos hx]
  · rw [if_neg hx, if_neg hx, commonName_comm]

theorem inf_orNil_orNil (m k : Mark) (hx : x.IsCore) (hy : y.IsCore) (hn : x.Normal)
    (hny : y.Normal) (hm : NamesControl m.name x) (hk : NamesControl k.name y) :
    inf (orNil m x) (orNil k y) = orNil ⟨(nilHalf x (some m)).inf (nilHalf y (some k)),
      mergeName x m.name y k.name⟩ (inf x y) := by
  by_cases hxw : x.node.kind.isWord = true
  · by_cases hyw : y.node.kind.isWord = true
    · have hname : inf (withName m.name x) (withName k.name y) =
          withName (commonName m.name k.name) (inf x y) :=
        inf_withName m.name k.name (isValue_of_isCore hx) (isValue_of_isCore hy)
      have hmerge : mergeName x m.name y k.name = commonName m.name k.name := by
        rw [mergeName, if_neg (ne_anyScalar_of_isWord hxw), if_neg (ne_anyScalar_of_isWord hyw)]
      have hcontrol := namesControl_merge hx hy hm hk
      rw [hmerge] at hcontrol
      rw [orNil_word m hxw, orNil_word k hyw, inf_nullable_nullable (absorbsNil_withName _ hxw),
        nilHalf_word m hxw, nilHalf_word k hyw, hname, hmerge]
      exact build_orNil ⟨_, _⟩ (inf_word_core hxw hy hn) hcontrol
    · rw [inf_comm, inf_orNil_of_not_word k m hy hx hny hn hm hyw, inf_comm, Half.inf_comm,
        mergeName_comm hk hm]
  · exact inf_orNil_of_not_word m k hx hy hn hny hk hxw

def withNil (x : Ty) : Option Mark → Ty
  | none => x
  | some m => orNil m x

def mergeNil (x : Ty) (p : Option Mark) (y : Ty) (q : Option Mark) : Option Mark :=
  if p.isSome || q.isSome then
    some ⟨(nilHalf x p).inf (nilHalf y q), mergeName x (nilName p) y (nilName q)⟩
  else none

/-- Nil is added to a meet if it was added on either side. -/
theorem inf_withNil {p q : Option Mark} (hx : x.IsCore) (hy : y.IsCore) (hn : x.Normal)
    (hm : y.Normal) (hp : NamesControl (nilName p) x) (hq : NamesControl (nilName q) y) :
    inf (withNil x p) (withNil y q) = withNil (inf x y) (mergeNil x p y q) := by
  cases p with
  | none =>
      cases q with
      | none => rfl
      | some k =>
          have hname : mergeName y k.name x none = mergeName x none y k.name :=
            mergeName_comm hq hp
          rw [withNil, withNil, inf_comm, inf_orNil_core k hy hx hm hq, inf_comm, Half.inf_comm,
            hname]
          rfl
  | some m =>
      cases q with
      | none => exact inf_orNil_core m hx hy hn hp
      | some k => exact inf_orNil_orNil m k hx hy hn hm hp hq

def Marked (x : Ty) : Prop := x = anyScalar ∨ x.node.kind.isWord = true

theorem not_marked_scalar : ¬scalar.Marked := by
  rintro (h | h) <;> cases h

theorem not_marked_pointer (hx : x.node.kind.isPointer = true) : ¬x.Marked := by
  rintro (rfl | hw)
  · cases hx
  · rw [(Kind.ne_of_isWord hw).2.2.2] at hx
    cases hx

theorem marked_of_inf (hx : x.IsCore) (hy : y.IsCore) (hn : x.Normal) (h : (inf x y).Marked) :
    x.Marked := by
  rcases core_cases hx with rfl | rfl | hp | hw
  · exact .inl rfl
  · rwa [inf_scalar hy] at h
  · rcases core_cases hy with rfl | rfl | hyp | hyw
    · rwa [inf_comm, inf_anyScalar hx] at h
    · rw [inf_comm, inf_scalar hx] at h
      exact absurd h not_marked_scalar
    · exact absurd h (not_marked_pointer (isPointer_inf hp hyp hn))
    · rw [inf_comm, inf_word_pointer hyw hp] at h
      exact absurd h not_marked_scalar
  · exact .inr hw

theorem half_inf_of_marked (hx : x.IsCore) (hy : y.IsCore) (hn : x.Normal) (hm : y.Normal)
    (h : (inf x y).Marked) : (inf x y).node.half = x.node.half.inf y.node.half := by
  rcases marked_of_inf hx hy hn h with rfl | hxw
  · rw [inf_anyScalar hy]
    cases y.node.half <;> rfl
  · rcases marked_of_inf hy hx hm (inf_comm x y ▸ h) with rfl | hyw
    · rw [inf_comm, inf_anyScalar hx]
      cases x.node.half <;> rfl
    · rcases inf_word_word hxw hyw hn with hs | ⟨-, hhalf⟩
      · rw [hs] at h
        exact absurd h not_marked_scalar
      · exact hhalf

theorem inf_eq_anyScalar (hx : x.IsCore) (hy : y.IsCore) (hn : x.Normal) (hm : y.Normal)
    (h : inf x y = anyScalar) : x = anyScalar ∧ y = anyScalar := by
  have hmarked : (inf x y).Marked := .inl h
  rcases marked_of_inf hx hy hn hmarked with rfl | hxw
  · rw [inf_anyScalar hy] at h
    exact ⟨rfl, h⟩
  · rcases marked_of_inf hy hx hm (inf_comm x y ▸ hmarked) with rfl | hyw
    · rw [inf_comm, inf_anyScalar hx] at h
      exact ⟨h, rfl⟩
    · rcases inf_word_word hxw hyw hn with hs | ⟨hw, -⟩
      · rw [hs] at h
        cases h
      · rw [h] at hw
        cases hw

@[simp] theorem isSome_mergeNil (x : Ty) (p : Option Mark) (y : Ty) (q : Option Mark) :
    (mergeNil x p y q).isSome = (p.isSome || q.isSome) := by
  cases p <;> cases q <;> rfl

theorem mergeNil_congr {x' y' : Ty} {p p' q q' : Option Mark}
    (hsome : (p.isSome || q.isSome) = (p'.isSome || q'.isSome))
    (hhalf : (nilHalf x p).inf (nilHalf y q) = (nilHalf x' p').inf (nilHalf y' q'))
    (hname : mergeName x (nilName p) y (nilName q) = mergeName x' (nilName p') y' (nilName q')) :
    mergeNil x p y q = mergeNil x' p' y' q' := by
  rw [mergeNil, mergeNil, hsome, hhalf, hname]

theorem nilName_mergeNil (x : Ty) (p : Option Mark) (y : Ty) (q : Option Mark) :
    nilName (mergeNil x p y q) = mergeName x (nilName p) y (nilName q) := by
  cases p with
  | none =>
      cases q with
      | none => simp [mergeNil, nilName, mergeName, commonName]
      | some => rfl
  | some => rfl

theorem mergeName_assoc {n : Option String} (hx : x.IsCore) (hy : y.IsCore) (hz : z.IsCore)
    (hn : x.Normal) (hm : y.Normal) (hk : z.Normal) :
    mergeName (inf x y) (mergeName x l y m) z n = mergeName x l (inf y z) (mergeName y m z n) := by
  by_cases hxa : x = anyScalar
  · rw [hxa, inf_anyScalar hy]
    rfl
  · by_cases hya : y = anyScalar
    · rw [hya, inf_comm, inf_anyScalar hx, inf_anyScalar hz]
      simp only [mergeName, if_neg hxa, if_true]
    · have hxy : inf x y ≠ anyScalar := fun h => hxa (inf_eq_anyScalar hx hy hn hm h).1
      have hyz : inf y z ≠ anyScalar := fun h => hya (inf_eq_anyScalar hy hz hm hk h).1
      by_cases hza : z = anyScalar
      · rw [hza, inf_comm y, inf_anyScalar hy]
        simp only [mergeName, if_neg hxy, if_neg hya, if_true]
      · simp only [mergeName, if_neg hxy, if_neg hyz, if_neg hxa, if_neg hya, if_neg hza,
          commonName_assoc]

theorem nilHalf_mergeNil {p q : Option Mark} (hx : x.IsCore) (hy : y.IsCore) (hn : x.Normal)
    (hm : y.Normal) (h : (inf x y).Marked) :
    nilHalf (inf x y) (mergeNil x p y q) = (nilHalf x p).inf (nilHalf y q) := by
  by_cases hsome : (p.isSome || q.isSome) = true
  · rw [mergeNil, if_pos hsome]
    by_cases hany : inf x y = anyScalar
    · obtain ⟨rfl, rfl⟩ := inf_eq_anyScalar hx hy hn hm hany
      cases p with
      | none =>
          cases q with
          | none => cases hsome
          | some k => rfl
      | some k => cases q <;> rfl
    · exact if_neg hany
  · have hnone : p = none ∧ q = none := by simpa using hsome
    rw [hnone.1, hnone.2]
    exact half_inf_of_marked hx hy hn hm h

theorem withNil_congr {p q : Option Mark} (hx : x.IsCore) (hsome : p.isSome = q.isSome)
    (h : x.Marked → p = q) : withNil x p = withNil x q := by
  cases p with
  | none =>
      cases q with
      | none => rfl
      | some => cases hsome
  | some i =>
      cases q with
      | none => cases hsome
      | some j =>
          rcases core_cases hx with rfl | rfl | hp | hw
          · rw [h (.inl rfl)]
          · rw [withNil, withNil, orNil_scalar, orNil_scalar]
          · rw [withNil, withNil, orNil_pointer i hp, orNil_pointer j hp]
          · rw [h (.inr hw)]

theorem inf_withNil_assoc {p q r : Option Mark} (hx : x.IsCore) (hy : y.IsCore) (hz : z.IsCore)
    (hn : x.Normal) (hm : y.Normal) (hk : z.Normal) (hp : NamesControl (nilName p) x)
    (hq : NamesControl (nilName q) y) (hr : NamesControl (nilName r) z)
    (hassoc : inf (inf x y) z = inf x (inf y z)) :
    inf (inf (withNil x p) (withNil y q)) (withNil z r) =
      inf (withNil x p) (inf (withNil y q) (withNil z r)) := by
  have hcxy := isCore_inf hx hy hn
  have hcyz := isCore_inf hy hz hm
  have hnxy := normal_inf hn hm
  have hnyz := normal_inf hm hk
  have hpq : NamesControl (nilName (mergeNil x p y q)) (inf x y) := by
    rw [nilName_mergeNil]
    exact namesControl_merge hx hy hp hq
  have hqr : NamesControl (nilName (mergeNil y q z r)) (inf y z) := by
    rw [nilName_mergeNil]
    exact namesControl_merge hy hz hq hr
  rw [inf_withNil hx hy hn hm hp hq, inf_withNil hy hz hm hk hq hr,
    inf_withNil hcxy hz hnxy hk hpq hr, inf_withNil hx hcyz hn hnyz hp hqr, hassoc]
  -- The two marks need not agree where the meet of the cores has lost them.
  apply withNil_congr (isCore_inf hx hcyz hn)
  · rw [isSome_mergeNil, isSome_mergeNil, isSome_mergeNil, isSome_mergeNil, Bool.or_assoc]
  · intro h
    have hxy : (inf x y).Marked := marked_of_inf hcxy hz hnxy (hassoc ▸ h)
    have hyz : (inf y z).Marked := marked_of_inf hcyz hx hnyz (inf_comm x _ ▸ h)
    apply mergeNil_congr
    · rw [isSome_mergeNil, isSome_mergeNil, Bool.or_assoc]
    · rw [nilHalf_mergeNil hx hy hn hm hxy, nilHalf_mergeNil hy hz hm hk hyz, Half.inf_assoc]
    · rw [nilName_mergeNil, nilName_mergeNil, mergeName_assoc hx hy hz hn hm hk]

end Ty

end TypeLattice
