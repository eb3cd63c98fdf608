import TypeLattice.Proofs.Absorption
import TypeLattice.Proofs.Nullability

namespace TypeLattice

theorem Node.Faces.flip_map {α : Type} {n k : Node α} {x y : α} (f : α → α) (h : n.Faces k x y) :
    (n.flip.map f).Faces (k.flip.map f) (f x) (f y) := by
  have hzip {xs ys : List α} (hmem : (x, y) ∈ xs.zip ys) :
      (f x, f y) ∈ (xs.map f).zip (ys.map f) := by
    rw [List.zip_map]
    exact List.mem_map_of_mem hmem
  have hfield {l : String} {x : α} {fs : List (String × α)} (hmem : (l, x) ∈ fs) :
      (l, f x) ∈ fs.map (fun p => (p.1, f p.2)) :=
    List.mem_map_of_mem (f := fun p => (p.1, f p.2)) hmem
  cases h with
  | inner => exact .inner
  | param hlen hmem => exact .param (by simp [hlen]) (hzip hmem)
  | result hlen => exact .result (by simp [hlen])
  | field hx hy => exact .field (hfield hx) (hfield hy)
  | elem hlen hmem => exact .elem (by simp [hlen]) (hzip hmem)

namespace Ty

variable {x y : Ty}

/-- Nil keeps the left type from being below its join with the right one. -/
inductive NilGap : Ty → Ty → Prop
  /-- A join with nil has to admit nil in addition, and then is not above nil alone. -/
  | nil {y : Ty} (hne : y ≠ nil) (hkind : y.node.kind ≠ .universal ∧ y.node.kind ≠ .scalar) :
      NilGap nil y
  | word {x : Ty} (hx : x.node.kind.isWord = true) : NilGap x nil
  | unmarked {x t : Ty} {h : Half} (hx : x.node.kind.isWord = true)
      (hshape : x.node.shape = t.node.shape) : NilGap x (mk (.nullable h t))
  | marked {t y : Ty} {h : Half} (hy : y.node.kind.isWord = true) (hgap : NilGap t y) :
      NilGap (mk (.nullable h t)) y
  | part {n k : Node Ty} {u v : Ty} (hface : n.Faces k u v) (hgap : NilGap u v) :
      NilGap (mk n) (mk k)

/-- The types without names, by how nil stands to them. -/
inductive Form : Ty → Prop
  | bound {x : Ty} (hx : x.node.kind = .universal ∨ x.node.kind = .scalar) : Form x
  | nil : Form nil
  | nullable (h : Half) {t : Ty} (ht : t.node.kind.isWord = true) : Form (mk (.nullable h t))
  | word {x : Ty} (hx : x.node.kind.isWord = true) : Form x
  | pointer {x : Ty} (hx : x.node.kind.isPointer = true) : Form x

theorem form_of_unnamed (hx : x.Normal) (kx : x.Of (· ≠ .name)) : Form x := by
  obtain ⟨n⟩ := x
  cases n with
  | atom a =>
      cases a with
      | universal => exact .bound (.inl rfl)
      | scalar => exact .bound (.inr rfl)
      | nil => exact .nil
      | oop | str | strConst => exact .pointer rfl
      | _ => exact .word rfl
  | nullable h t =>
      have hname := (kx.parts t (List.mem_singleton_self t)).layer
      have habsorbs : t.absorbsNil = false := hx.layer
      rw [absorbsNil_eq hname, Bool.not_eq_false'] at habsorbs
      exact .nullable h habsorbs
  | name => exact absurd rfl kx.layer
  | func => exact .word rfl
  | struct | tuple => exact .pointer rfl

theorem absorbsNil_word (hx : x.node.kind.isWord = true) : x.absorbsNil = false :=
  absorbsNil_withName none hx

theorem inf_nullable_top (h : Half) {t : Ty} (ht : t.node.kind.isWord = true) :
    inf (mk (.nullable h t)) anyScalar = mk (.nullable h t) := by
  have hname : t.node.kind ≠ .name := (Kind.isCore_iff.1 (Kind.ne_of_isWord ht).1).2.2
  by_cases hctrl : t.node.kind = .ctrl
  · exact inf_nullable_anyScalar h (by rw [unname_of_ne hname, hctrl])
  · rw [inf_nullable_core (y := anyScalar) rfl fun _ => by rwa [unname_of_ne hname], inf_comm t,
      inf_anyScalar (Kind.ne_of_isWord ht).1, build_nullable _ (absorbsNil_word ht)]
    cases h <;> rfl

theorem inf_anyScalar_of_form (hx : Form x) (hu : x.node.kind ≠ .universal) :
    inf anyScalar x = x := by
  cases hx with
  | bound hb => exact inf_anyScalar (by rw [IsCore, hb.resolve_left hu]; rfl)
  | nil => rw [inf_comm, inf_nil_anyScalar]
  | nullable h ht => rw [inf_comm, inf_nullable_top h ht]
  | word hw => exact inf_anyScalar (Kind.ne_of_isWord hw).1
  | pointer hp => exact inf_anyScalar (Kind.ne_of_isPointer hp).1

theorem inf_scalar_of_form (hx : Form x) (hu : x.node.kind ≠ .universal) :
    inf scalar x = scalar := by
  cases hx with
  | bound hb => exact inf_scalar (by rw [IsCore, hb.resolve_left hu]; rfl)
  | nil => rw [inf_comm, inf_nil_scalar]
  | nullable h ht =>
      rw [inf_comm, inf_nullable_core (y := scalar) rfl (fun he => by cases he), inf_comm,
        inf_scalar (Kind.ne_of_isWord ht).1]
      rfl
  | word hw => exact inf_scalar (Kind.ne_of_isWord hw).1
  | pointer hp => exact inf_scalar (Kind.ne_of_isPointer hp).1

theorem absorbs_of_inf_dual_eq (hx : x.Normal) (h : inf x.dual y.dual = x.dual) : Absorbs x y := by
  rw [Absorbs, sup, h, dual_dual hx, inf_self]

theorem absorbs_of_inf_dual_eq_scalar (hx : Form x) (hu : x.node.kind ≠ .universal)
    (h : inf x.dual y.dual = scalar) : Absorbs x y := by
  have hsup : sup x y = anyScalar := by rw [sup, h]; rfl
  rw [Absorbs, hsup, inf_comm, inf_anyScalar_of_form hx hu]

theorem absorbs_universal (h : Half) (y : Ty) : Absorbs (ofAtom (.universal h)) y := by
  cases h with
  | top => exact absorbs_of_inf_dual_eq (normal_ofAtom _) (inf_all _)
  | bottom => exact inf_all _

theorem absorbs_of_universal (hx : x.Normal) (h : Half) : Absorbs x (ofAtom (.universal h)) := by
  cases h with
  | top =>
      have hsup : sup x (ofAtom (.universal .top)) = ofAtom (.universal .top) := by
        rw [sup, inf_comm]
        exact congrArg dual (inf_all _)
      rw [Absorbs, hsup, inf_comm, inf_any]
  | bottom =>
      apply absorbs_of_inf_dual_eq hx
      rw [inf_comm]
      exact inf_any _

section scalars

variable (hy : y.Normal) (ky : y.Of (· ≠ .name)) (hu : y.node.kind ≠ .universal)

include hy ky hu

theorem absorbs_scalar (h : Half) : Absorbs (ofAtom (.scalar h)) y := by
  have hform := form_of_unnamed (normal_dual hy) (of_dual ky)
  have hu' : y.dual.node.kind ≠ .universal := by rwa [kind_dual hy]
  cases h with
  | top => exact absorbs_of_inf_dual_eq (normal_ofAtom _) (inf_scalar_of_form hform hu')
  | bottom =>
      have hsup : sup scalar y = y := by
        rw [sup]
        exact (congrArg dual (inf_anyScalar_of_form hform hu')).trans (dual_dual hy)
      rw [Absorbs, hsup, inf_scalar_of_form (form_of_unnamed hy ky) hu]

theorem absorbs_of_scalar (h : Half) : Absorbs y (ofAtom (.scalar h)) := by
  have hform := form_of_unnamed (normal_dual hy) (of_dual ky)
  have hu' : y.dual.node.kind ≠ .universal := by rwa [kind_dual hy]
  cases h with
  | top =>
      apply absorbs_of_inf_dual_eq_scalar (form_of_unnamed hy ky) hu
      rw [inf_comm]
      exact inf_scalar_of_form hform hu'
  | bottom =>
      apply absorbs_of_inf_dual_eq hy
      rw [inf_comm]
      exact inf_anyScalar_of_form hform hu'

end scalars

theorem scalar_cases (h : x.node.kind = .scalar) : ∃ i, x = ofAtom (.scalar i) := by
  obtain ⟨n⟩ := x
  cases n with
  | atom a =>
      cases a with
      | scalar i => exact ⟨i, rfl⟩
      | _ => cases h
  | _ => cases h

theorem absorbs_of_bound (hx : x.Normal) (hy : y.Normal) (kx : x.Of (· ≠ .name))
    (ky : y.Of (· ≠ .name)) (h : (x.node.kind = .universal ∨ x.node.kind = .scalar) ∨
      y.node.kind = .universal ∨ y.node.kind = .scalar) : Absorbs x y := by
  by_cases hux : x.node.kind = .universal
  · rcases universal_cases hux with rfl | rfl <;> exact absorbs_universal _ y
  · by_cases huy : y.node.kind = .universal
    · rcases universal_cases huy with rfl | rfl <;> exact absorbs_of_universal hx _
    · rcases h with h | h
      · obtain ⟨i, rfl⟩ := scalar_cases (h.resolve_left hux)
        exact absorbs_scalar hy ky huy i
      · obtain ⟨i, rfl⟩ := scalar_cases (h.resolve_left huy)
        exact absorbs_of_scalar hx kx hux i

theorem dual_nil : nil.dual = nil := dual_ofAtom .nil

theorem dual_build_nullable (h : Half) (hx : x.Normal) (hname : x.node.kind ≠ .name) :
    (build (.nullable h x)).dual = build (.nullable h.flip x.dual) := by
  have hkind := kind_dual hx
  have habsorbs : x.dual.absorbsNil = x.absorbsNil := by
    rw [absorbsNil_eq hname, absorbsNil_eq (hkind ▸ hname), hkind]
  cases ha : x.absorbsNil with
  | true =>
      rw [ha] at habsorbs
      simp only [build, ha, habsorbs, if_true]
  | false => rw [build_nullable h ha, dual_mk]; rfl

theorem isWord_dual (hx : x.Normal) (hw : x.node.kind.isWord = true) :
    x.dual.node.kind.isWord = true := by rwa [kind_dual hx]

theorem normal_nullable (h : Half) (hx : x.Normal) (hw : x.node.kind.isWord = true) :
    (mk (.nullable h x)).Normal :=
  .mk (absorbsNil_word hw) (List.forall_mem_singleton.2 hx)

theorem dual_nullable (h : Half) (hx : x.Normal) (hw : x.node.kind.isWord = true) :
    (mk (.nullable h x)).dual = mk (.nullable h.flip x.dual) :=
  dual_of_normal (normal_nullable h hx hw)

section words

variable {t : Ty} (hx : x.Normal) (hw : x.node.kind.isWord = true) (ht : t.Normal)
  (htw : t.node.kind.isWord = true)

include hx hw

theorem sup_nil_word : sup nil x = mk (.nullable .top x) := by
  rw [sup, dual_nil, inf_nil_word (isWord_dual hx hw),
    dual_nullable _ (normal_dual hx) (isWord_dual hx hw), dual_dual hx]
  rfl

theorem sup_nil_nullable (h : Half) : sup nil (mk (.nullable h x)) = mk (.nullable .top x) := by
  rw [sup, dual_nil, dual_nullable h hx hw,
    inf_nil_nullable _ (absorbsNil_word (isWord_dual hx hw)),
    dual_nullable _ (normal_dual hx) (isWord_dual hx hw), dual_dual hx]
  rfl

include ht htw

theorem inf_dual_words : inf x.dual t.dual = scalar ∧ x.node.shape ≠ t.node.shape ∨
    (inf x.dual t.dual).node.kind.isWord = true ∧ x.node.shape = t.node.shape := by
  have hxd := isWord_dual hx hw
  by_cases hshape : x.node.shape = t.node.shape
  · have hdual : x.dual.node.shape = t.dual.node.shape := by rw [shape_dual hx, shape_dual ht, hshape]
    obtain ⟨hinf, -⟩ := alike_inf (Node.alike_of_isWord hxd hdual) (normal_dual hx)
    have hkind : (inf x.dual t.dual).node.kind = x.dual.node.kind := congrArg Prod.fst hinf
    exact .inr ⟨by rw [hkind, hxd], hshape⟩
  · refine .inl ⟨inf_words_of_ne hxd (isWord_dual ht htw) (normal_dual hx) ?_, hshape⟩
    rwa [shape_dual hx, shape_dual ht]

theorem sup_words : sup x t = anyScalar ∧ x.node.shape ≠ t.node.shape ∨
    (sup x t).node.kind.isWord = true ∧ x.node.shape = t.node.shape := by
  rcases inf_dual_words hx hw ht htw with ⟨hinf, hshape⟩ | ⟨hword, hshape⟩
  · exact .inl ⟨by rw [sup, hinf]; rfl, hshape⟩
  · refine .inr ⟨?_, hshape⟩
    exact isWord_dual (normal_inf (normal_dual hx) (normal_dual ht)) hword

theorem dual_nullable_inf (h : Half) : (build (.nullable h (inf x.dual t.dual))).dual =
    build (.nullable h.flip (sup x t)) := by
  apply dual_build_nullable _ (normal_inf (normal_dual hx) (normal_dual ht))
  rcases inf_dual_words hx hw ht htw with ⟨hinf, -⟩ | ⟨hword, -⟩
  · rw [hinf]
    nofun
  · exact (Kind.isCore_iff.1 (Kind.ne_of_isWord hword).1).2.2

theorem sup_nullable_nullable (h k : Half) : sup (mk (.nullable h x)) (mk (.nullable k t)) =
    build (.nullable (h.flip.inf k.flip).flip (sup x t)) := by
  rw [sup, dual_nullable h hx hw, dual_nullable k ht htw,
    inf_nullable_nullable (absorbsNil_word (isWord_dual hx hw)),
    dual_nullable_inf hx hw ht htw]

theorem sup_nullable_word (h : Half) : sup (mk (.nullable h x)) t =
    build (.nullable (h.flip.inf t.dual.node.half).flip (sup x t)) := by
  have htd := isWord_dual ht htw
  have hcore : t.dual.IsCore := (Kind.ne_of_isWord htd).1
  rw [sup, dual_nullable h hx hw, inf_nullable_core hcore, dual_nullable_inf hx hw ht htw]
  intro he
  rw [he] at htd
  cases htd

theorem inf_nullable_sup_iff {h k : Half} (hk : h.inf k = h) :
    inf (mk (.nullable h x)) (build (.nullable k (sup x t))) = mk (.nullable h x) ↔
      Absorbs x t := by
  have hcore := (Kind.ne_of_isWord hw).1
  rw [Absorbs]
  rcases sup_words hx hw ht htw with ⟨hsup, -⟩ | ⟨hword, -⟩
  · rw [hsup, inf_comm x, inf_anyScalar hcore]
    exact iff_of_true (inf_nullable_top h hw) rfl
  · rw [build_nullable k (absorbsNil_word hword),
      inf_nullable_nullable (absorbsNil_word hw), hk]
    rcases inf_word_word hw hword hx with hinf | ⟨hinf, -⟩
    · rw [hinf]
      refine iff_of_false ?_ ?_
      · intro he
        cases he
      · rintro rfl
        cases hw
    · rw [build_nullable h (absorbsNil_word hinf), mk.injEq, Node.nullable.injEq,
        and_iff_right rfl]

theorem absorbs_nullable_nullable_iff (h k : Half) :
    Absorbs (mk (.nullable h x)) (mk (.nullable k t)) ↔ Absorbs x t := by
  rw [Absorbs, sup_nullable_nullable hx hw ht htw]
  exact inf_nullable_sup_iff hx hw ht htw (Half.inf_flip_self h _)

theorem absorbs_nullable_word_iff (h : Half) : Absorbs (mk (.nullable h x)) t ↔ Absorbs x t := by
  rw [Absorbs, sup_nullable_word hx hw ht htw]
  exact inf_nullable_sup_iff hx hw ht htw (Half.inf_flip_self h _)

/-- A word is not below its join with a nullable type of its shape: that join is nullable. -/
theorem absorbs_word_nullable_iff (k : Half) :
    Absorbs x (mk (.nullable k t)) ↔ x.node.shape ≠ t.node.shape := by
  have hcore : x.IsCore := (Kind.ne_of_isWord hw).1
  rw [Absorbs, sup_comm, sup_nullable_word ht htw hx hw, ne_comm]
  rcases sup_words ht htw hx hw with ⟨hsup, hshape⟩ | ⟨hword, hshape⟩
  · rw [hsup, inf_comm]
    exact iff_of_true (inf_anyScalar hcore) hshape
  · rw [build_nullable _ (absorbsNil_word hword), inf_comm, inf_nullable_core hcore]
    · refine iff_of_false (fun h => ?_) (absurd hshape)
      rcases inf_word_word hword hw (normal_sup ht hx) with hinf | ⟨hinf, -⟩
      · rw [hinf] at h
        rw [← h] at hw
        cases hw
      · rw [build_nullable _ (absorbsNil_word hinf)] at h
        rw [← h] at hw
        cases hw
    · rintro rfl
      cases hw

end words

theorem sup_nil_pointer (hx : x.Normal) (hp : x.node.kind.isPointer = true) :
    sup nil x = anyOop := by
  rw [sup, dual_nil, inf_nil_pointer (by rwa [kind_dual hx])]
  rfl

theorem not_absorbs_nil (hx : x.Normal) (hform : Form x) (hne : x ≠ nil)
    (hkind : x.node.kind ≠ .universal ∧ x.node.kind ≠ .scalar) : ¬Absorbs nil x := by
  rw [Absorbs]
  cases hform with
  | bound hb => exact absurd hb (not_or.2 hkind)
  | nil => exact absurd rfl hne
  | nullable h ht =>
      have hn := hx.parts _ (List.mem_singleton_self _)
      rw [sup_nil_nullable hn ht, inf_nil_nullable _ (absorbsNil_word ht)]
      intro h
      cases h
  | word hw =>
      rw [sup_nil_word hx hw, inf_nil_nullable _ (absorbsNil_word hw)]
      intro h
      cases h
  | pointer hp =>
      rw [sup_nil_pointer hx hp, inf_nil_pointer rfl]
      intro h
      cases h

theorem not_absorbs_of_nil (hx : x.Normal) (hw : x.node.kind.isWord = true) : ¬Absorbs x nil := by
  have hcore : x.IsCore := (Kind.ne_of_isWord hw).1
  rw [Absorbs, sup_comm, sup_nil_word hx hw, inf_comm, inf_nullable_core hcore, inf_self,
    build_nullable _ (absorbsNil_word hw)]
  · intro h
    rw [← h] at hw
    cases hw
  · rintro rfl
    cases hw

theorem absorbs_nullable_nil (hx : x.Normal) (hw : x.node.kind.isWord = true) (h : Half) :
    Absorbs (mk (.nullable h x)) nil := by
  rw [Absorbs, sup_comm, sup_nil_nullable hx hw, inf_nullable_nullable (absorbsNil_word hw), inf_self,
    build_nullable _ (absorbsNil_word hw)]
  cases h <;> rfl

theorem absorbs_pointer_nil (hx : x.Normal) (hp : x.node.kind.isPointer = true) :
    Absorbs x nil := by
  rw [Absorbs, sup_comm, sup_nil_pointer hx hp, inf_comm, inf_anyOop hp]

theorem absorbs_pointer_nullable (hx : x.Normal) (hp : x.node.kind.isPointer = true) (hy : y.Normal)
    (hw : y.node.kind.isWord = true) (h : Half) :
    Absorbs x (mk (.nullable h y)) ∧ Absorbs (mk (.nullable h y)) x := by
  have hpd : x.dual.node.kind.isPointer = true := by rwa [kind_dual hx]
  have hcore : x.dual.IsCore := (Kind.ne_of_isPointer hpd).1
  have hinf : inf (mk (.nullable h y)).dual x.dual = scalar := by
    rw [dual_nullable h hy hw, inf_nullable_core hcore, inf_word_pointer (isWord_dual hy hw) hpd]
    · rfl
    · intro he
      rw [he] at hpd
      cases hpd
  constructor
  · refine absorbs_of_inf_dual_eq_scalar (.pointer hp) (fun hu => ?_) (by rw [inf_comm, hinf])
    rw [hu] at hp
    cases hp
  · exact absorbs_of_inf_dual_eq_scalar (.nullable h hw) nofun hinf

namespace NilGap

theorem kinds (h : NilGap x y) : (x.node.kind ≠ .universal ∧ x.node.kind ≠ .scalar) ∧
    y.node.kind ≠ .universal ∧ y.node.kind ≠ .scalar := by
  have hword {t : Ty} (ht : t.node.kind.isWord = true) :
      t.node.kind ≠ .universal ∧ t.node.kind ≠ .scalar := by
    obtain ⟨hcore, hscalar, -⟩ := Kind.ne_of_isWord ht
    exact ⟨(Kind.isCore_iff.1 hcore).1, hscalar⟩
  cases h with
  | nil _ hkind => exact ⟨by decide, hkind⟩
  | word hx => exact ⟨hword hx, by decide⟩
  | unmarked hx => exact ⟨hword hx, nofun, nofun⟩
  | marked hy => exact ⟨⟨nofun, nofun⟩, hword hy⟩
  | part hface => cases hface <;> exact ⟨⟨nofun, nofun⟩, nofun, nofun⟩

theorem core_iff (hx : x.IsCore) (hy : y.IsCore) :
    NilGap x y ↔ ∃ u v, x.node.Faces y.node u v ∧ NilGap u v := by
  constructor
  · intro h
    cases h with
    | nil | marked => cases hx
    | word | unmarked => cases hy
    | part hface hgap => exact ⟨_, _, hface, hgap⟩
  · rintro ⟨u, v, hface, hgap⟩
    obtain ⟨n⟩ := x
    obtain ⟨k⟩ := y
    exact .part hface hgap

theorem nullable_iff {t u : Ty} {h k : Half} :
    NilGap (mk (.nullable h t)) (mk (.nullable k u)) ↔ NilGap t u := by
  constructor
  · intro hgap
    cases hgap with
    | unmarked hw | marked hw => cases hw
    | part hface hgap =>
        cases hface
        exact hgap
  · exact .part .inner

theorem marked_iff {t : Ty} {h : Half} (hy : y.node.kind.isWord = true) :
    NilGap (mk (.nullable h t)) y ↔ NilGap t y := by
  constructor
  · intro hgap
    cases hgap with
    | word hw | unmarked hw => cases hw
    | marked _ hgap => exact hgap
    | part hface =>
        cases hface
        cases hy
  · exact .marked hy

theorem unmarked_iff {t : Ty} {h : Half} (hx : x.node.kind.isWord = true) :
    NilGap x (mk (.nullable h t)) ↔ x.node.shape = t.node.shape := by
  constructor
  · intro hgap
    cases hgap with
    | nil | marked => cases hx
    | unmarked _ hshape => exact hshape
    | part hface =>
        cases hface
        cases hx
  · exact .unmarked hx

theorem not_of_pointer (hp : x.node.kind.isPointer = true) (hy : y.node.kind = .nil) :
    ¬NilGap x y := by
  have hword : ¬x.node.kind.isWord = true := by
    intro hw
    rw [(Kind.ne_of_isWord hw).2.2.2] at hp
    cases hp
  intro hgap
  cases hgap with
  | nil | marked => cases hp
  | word hw | unmarked hw => exact hword hw
  | part hface =>
      cases hface with
      | inner | param | result => cases hp
      | field | elem => cases hy

theorem not_nullable_pointer {t : Ty} {h : Half} (hp : y.node.kind.isPointer = true) :
    ¬NilGap (mk (.nullable h t)) y := by
  intro hgap
  cases hgap with
  | word hw | unmarked hw => cases hw
  | marked hw =>
      rw [(Kind.ne_of_isWord hw).2.2.2] at hp
      cases hp
  | part hface =>
      cases hface
      cases hp

theorem dual (hx : x.Normal) (hy : y.Normal) (h : NilGap x y) : NilGap x.dual y.dual := by
  induction h with
  | @nil y hne hkind =>
      rw [dual_nil]
      refine .nil (fun h => hne ?_) (by rwa [kind_dual hy])
      rw [← dual_dual hy, h, dual_nil]
  | word hw =>
      rw [dual_nil]
      exact .word (isWord_dual hx hw)
  | @unmarked x t h hw hshape =>
      have ht := hy.parts t (List.mem_singleton_self t)
      rw [dual_of_normal hy]
      exact .unmarked (isWord_dual hx hw) (by rw [shape_dual hx, shape_dual ht, hshape])
  | @marked t y h hw _ ih =>
      rw [dual_of_normal hx]
      exact .marked (isWord_dual hy hw) (ih (hx.parts t (List.mem_singleton_self t)) hy)
  | @part n k u v hface _ ih =>
      obtain ⟨hu, hv⟩ := hface.mem
      rw [dual_of_normal hx, dual_of_normal hy]
      exact .part (hface.flip_map Ty.dual) (ih (hx.parts u hu) (hy.parts v hv))

theorem dual_iff (hx : x.Normal) (hy : y.Normal) : NilGap x.dual y.dual ↔ NilGap x y := by
  refine ⟨fun h => ?_, dual hx hy⟩
  have h' := dual (normal_dual hx) (normal_dual hy) h
  rwa [dual_dual hx, dual_dual hy] at h'

theorem not_of_nilFree (kx : x.Of (· ≠ .nil)) (ky : y.Of (· ≠ .nil)) : ¬NilGap x y := by
  intro h
  induction h with
  | nil | marked => exact kx.layer rfl
  | word | unmarked => exact ky.layer rfl
  | part hface _ ih =>
      obtain ⟨hu, hv⟩ := hface.mem
      exact ih (kx.parts _ hu) (ky.parts _ hv)

end NilGap

section exact

variable (hx : x.Normal) (hy : y.Normal) (kx : x.Of (· ≠ .name)) (ky : y.Of (· ≠ .name))

include hy ky

theorem absorbs_iff_nil : Absorbs nil y ↔ ¬NilGap nil y := by
  by_cases hne : y = nil
  · subst hne
    refine iff_of_true (absorbs_of_inf_dual_eq hy (inf_self _)) fun hgap => ?_
    cases hgap with
    | nil hne => exact hne rfl
    | word hw => cases hw
    | part hface => cases hface
  · by_cases hb : y.node.kind = .universal ∨ y.node.kind = .scalar
    · have habsorbs := absorbs_of_bound (x := nil) (normal_ofAtom _) hy (.mk nofun nofun) ky (.inr hb)
      exact iff_of_true habsorbs fun hgap => not_or.2 hgap.kinds.2 hb
    · rw [not_or] at hb
      exact iff_of_false (not_absorbs_nil hy (form_of_unnamed hy ky) hne hb)
        (not_not_intro (.nil hne hb))

include hx kx

theorem absorbs_iff_of_bound (h : (x.node.kind = .universal ∨ x.node.kind = .scalar) ∨
    y.node.kind = .universal ∨ y.node.kind = .scalar) : Absorbs x y ↔ ¬NilGap x y := by
  refine iff_of_true (absorbs_of_bound hx hy kx ky h) fun hgap => ?_
  obtain ⟨hkx, hky⟩ := hgap.kinds
  exact h.elim (not_or.2 hkx) (not_or.2 hky)

theorem absorbs_iff_nullable {h : Half} {t : Ty} (hxt : x = mk (.nullable h t))
    (ht : t.node.kind.isWord = true) (hface : ∀ u, x.node.Faces y.node t u →
      (Absorbs t u ↔ ¬NilGap t u)) (hinner : Absorbs t y ↔ ¬NilGap t y) :
    Absorbs x y ↔ ¬NilGap x y := by
  subst hxt
  have hnt := hx.parts t (List.mem_singleton_self t)
  cases form_of_unnamed hy ky with
  | bound hb => exact absorbs_iff_of_bound hx hy kx ky (.inr hb)
  | nil =>
      refine iff_of_true (absorbs_nullable_nil hnt ht h) fun hgap => ?_
      cases hgap with
      | word hw | marked hw => cases hw
      | part hface => cases hface
  | @nullable k u hu =>
      have hnu := hy.parts u (List.mem_singleton_self u)
      rw [absorbs_nullable_nullable_iff hnt ht hnu hu, NilGap.nullable_iff]
      exact hface u .inner
  | word hw => rw [absorbs_nullable_word_iff hnt ht hy hw, NilGap.marked_iff hw, hinner]
  | pointer hp =>
      exact iff_of_true (absorbs_pointer_nullable hy hp hnt ht h).2 (NilGap.not_nullable_pointer hp)

theorem absorbs_iff_core (hcore : x.node.kind.isWord = true ∨ x.node.kind.isPointer = true)
    (hface : ∀ u v, x.node.Faces y.node u v →
      (Absorbs u v ↔ ¬NilGap u v) ∧ (Absorbs u.dual v.dual ↔ ¬NilGap u v)) :
    Absorbs x y ↔ ¬NilGap x y := by
  have hcx : x.IsCore := hcore.elim (fun h => (Kind.ne_of_isWord h).1)
    fun h => (Kind.ne_of_isPointer h).1
  have hcores (hcy : y.IsCore) : Absorbs x y ↔ ¬NilGap x y := by
    rw [absorbs_core_iff hx hy hcx hcy hface, NilGap.core_iff hcx hcy]
    simp only [not_exists, not_and]
  cases form_of_unnamed hy ky with
  | bound hb => exact absorbs_iff_of_bound hx hy kx ky (.inr hb)
  | nil =>
      rcases hcore with hw | hp
      · exact iff_of_false (not_absorbs_of_nil hx hw) (not_not_intro (.word hw))
      · exact iff_of_true (absorbs_pointer_nil hx hp) (NilGap.not_of_pointer hp rfl)
  | @nullable k u hu =>
      have hnu := hy.parts u (List.mem_singleton_self u)
      rcases hcore with hw | hp
      · rw [absorbs_word_nullable_iff hx hw hnu hu, NilGap.unmarked_iff hw]
      · exact iff_of_true (absorbs_pointer_nullable hx hp hnu hu k).1 (NilGap.not_of_pointer hp rfl)
  | word hw => exact hcores (Kind.ne_of_isWord hw).1
  | pointer hp => exact hcores (Kind.ne_of_isPointer hp).1

theorem absorbs_iff : Absorbs x y ↔ ¬NilGap x y := by
  induction x, y using pair_induction with
  | h x y ih =>
      have hface (u v : Ty) (hface : x.node.Faces y.node u v) :
          (Absorbs u v ↔ ¬NilGap u v) ∧ (Absorbs u.dual v.dual ↔ ¬NilGap u v) := by
        obtain ⟨hu, hv⟩ := hface.mem
        have hlu := height_lt_of_mem_node hu
        have hlv := height_lt_of_mem_node hv
        have hnu := hx.parts u hu
        have hnv := hy.parts v hv
        have hku := kx.parts u hu
        have hkv := ky.parts v hv
        refine ⟨ih u v (by omega) hnu hnv hku hkv, ?_⟩
        rw [← NilGap.dual_iff hnu hnv]
        apply ih u.dual v.dual _ (normal_dual hnu) (normal_dual hnv) (of_dual hku) (of_dual hkv)
        rw [height_dual hnu, height_dual hnv]
        omega
      cases form_of_unnamed hx kx with
      | bound h => exact absorbs_iff_of_bound hx hy kx ky (.inl h)
      | nil => exact absorbs_iff_nil hy ky
      | @nullable h t ht =>
          have hmem : t ∈ (mk (.nullable h t)).node.children := List.mem_singleton_self t
          have hlt := height_lt_of_mem_node hmem
          refine absorbs_iff_nullable hx hy kx ky rfl ht (fun u hu => (hface t u hu).1) ?_
          exact ih t y (by omega) (hx.parts t hmem) hy (kx.parts t hmem) ky
      | word hw => exact absorbs_iff_core hx hy kx ky (.inl hw) hface
      | pointer hp => exact absorbs_iff_core hx hy kx ky (.inr hp) hface

end exact

theorem inf_sup_self (hx : x.Normal) (hy : y.Normal)
    (kx : x.Of fun k => k ≠ .name ∧ k ≠ .nil) (ky : y.Of fun k => k ≠ .name ∧ k ≠ .nil) :
    inf x (sup x y) = x := by
  have hname {t : Ty} (ht : t.Of fun k => k ≠ .name ∧ k ≠ .nil) : t.Of (· ≠ .name) :=
    Everywhere.mono (fun _ h => h.1) ht
  have hnil {t : Ty} (ht : t.Of fun k => k ≠ .name ∧ k ≠ .nil) : t.Of (· ≠ .nil) :=
    Everywhere.mono (fun _ h => h.2) ht
  exact (absorbs_iff hx hy (hname kx) (hname ky)).2 (NilGap.not_of_nilFree (hnil kx) (hnil ky))

end Ty

end TypeLattice
