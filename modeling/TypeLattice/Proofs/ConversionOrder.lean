import TypeLattice.Proofs.ConversionChain
import TypeLattice.Proofs.SortedSearch
import TypeLattice.Proofs.StructuralSubtyping

namespace TypeLattice

def Kind.IsData (k : Kind) : Prop := k ≠ .universal ∧ k ≠ .name ∧ k ≠ .ctrl ∧ k ≠ .func

instance : DecidablePred Kind.IsData := fun k =>
  inferInstanceAs (Decidable (k ≠ .universal ∧ k ≠ .name ∧ k ≠ .ctrl ∧ k ≠ .func))

namespace Ascending

theorem sublist_union {α : Type} (cmp : α → α → Ordering) (as bs : List α) :
    as.Sublist (union cmp id id (fun a _ => a) as bs) := by
  induction as generalizing bs with
  | nil => exact List.nil_sublist _
  | cons a as iha =>
      induction bs with
      | nil => simp
      | cons b bs ihb =>
          rw [union_cons_cons]
          cases cmp a b with
          | lt => exact (iha (b :: bs)).cons_cons a
          | gt => exact ihb.cons b
          | eq => exact (iha bs).cons_cons a

end Ascending

theorem OrdSet.isSubset_of_union {s t : OrdSet Nat} (h : s.union t = t) : s.isSubset t = true := by
  have hsub : s.toList.Sublist (s.union t).toList := Ascending.sublist_union compare _ _
  rw [h] at hsub
  exact isSubsequence_iff.2 hsub

theorem Numeric.width_le_of_inf {ω ν : Type} [LinearOrder ω] [Sized ν ω] [DecidableEq ν]
    {a b : Numeric ω ν} (ha : a.half = .bottom) (hb : b.half = .bottom) (h : a.inf b = b) :
    a = b ∨ ∃ w, b = range .bottom w ∧ a.width ≤ w := by
  cases b with
  | const d =>
      left
      cases a with
      | const c =>
          by_cases hcd : c = d
          · rw [hcd]
          · simp only [inf_eq, if_neg hcd] at h
            cases h
      | range i v =>
          obtain rfl : i = .bottom := ha
          rw [inf_eq] at h
          cases h
  | range j w =>
      obtain rfl : j = .bottom := hb
      refine .inr ⟨w, rfl, ?_⟩
      cases a with
      | const c =>
          rw [inf_eq] at h
          exact le_of_le_of_eq (le_max_left _ _) (Numeric.range.inj h).2
      | range i v =>
          obtain rfl : i = .bottom := ha
          rw [inf_eq] at h
          exact le_of_le_of_eq (le_max_left _ _) (Numeric.range.inj h).2

namespace Ty

def Settled : Ty → Prop := Everywhere fun n => n.half = .bottom

/-- Data that is settled, as the store keeps it. -/
structure Concrete (t : Ty) : Prop where
  normal : t.Normal
  kinds : t.Of Kind.IsData
  settled : t.Settled

variable {a b : Ty}

namespace Concrete

theorem parts (h : a.Concrete) : ∀ u ∈ a.node.children, u.Concrete := fun u hu =>
  ⟨h.normal.parts u hu, h.kinds.parts u hu, h.settled.parts u hu⟩

theorem ne_name (h : a.Concrete) : a.node.kind ≠ .name := h.kinds.layer.2.1

theorem ne_anyScalar (h : a.Concrete) : a ≠ anyScalar := by
  rintro rfl
  cases h.settled.layer

theorem ne_anyOop (h : a.Concrete) : a ≠ anyOop := by
  rintro rfl
  cases h.settled.layer

theorem classes (h : a.Concrete) : a = nil ∨
    (∃ x, a = Ty.mk (.nullable .bottom x) ∧ x.Concrete ∧ x.node.kind.isWord = true) ∨ a.IsCore := by
  by_cases hnil : a.node.kind = .nil
  · obtain ⟨n⟩ := a
    cases n with
    | atom c =>
        cases c with
        | nil => exact .inl rfl
        | _ => cases hnil
    | nullable i x =>
        have hx := h.parts x (List.mem_singleton_self x)
        have hlacks : x.absorbsNil = false := h.normal.layer
        rw [absorbsNil_eq hx.ne_name, Bool.not_eq_false'] at hlacks
        obtain rfl : i = .bottom := h.settled.layer
        exact .inr (.inl ⟨x, rfl, hx, hlacks⟩)
    | _ => cases hnil
  · exact .inr (.inr (Kind.isCore_iff.2 ⟨h.kinds.layer.1, hnil, h.ne_name⟩))

theorem core_classes (h : a.Concrete) (hcore : a.IsCore) :
    a = scalar ∨ a.node.kind.isPointer = true ∨ a.node.kind.isWord = true :=
  (core_cases hcore).resolve_left h.ne_anyScalar

end Concrete

theorem converts_of_rule (ha : a.Concrete) (hb : b.Concrete)
    (h : a = b ∨ Inquiry.Rule 1 (Converts 1) a a.node b.node) : Converts 1 a b := by
  rw [converts_iff (Nat.le_refl 1), half, half, unname_of_ne ha.ne_name, unname_of_ne hb.ne_name]
  exact ⟨ha.settled.layer, hb.settled.layer, h⟩

theorem rule_of_alike (halike : a.node.Alike b.node) (ha : a.Concrete) (hb : b.Concrete)
    (h : inf a b = b)
    (ih : ∀ u ∈ a.node.children, ∀ v ∈ b.node.children, inf u v = v → Converts 1 u v) :
    a = b ∨ Inquiry.Rule 1 (Converts 1) a a.node b.node := by
  have sa := ha.settled.layer
  have sb := hb.settled.layer
  have ka := ha.kinds.layer
  obtain ⟨n⟩ := a
  obtain ⟨k⟩ := b
  cases halike with
  | ctrl => exact absurd rfl ka.2.2.1
  | func => exact absurd rfl ka.2.2.2
  | int c d =>
      rw [inf_int] at h
      have hcd : c.inf d = d := Atom.int.inj (Node.atom.inj (Ty.mk.inj h))
      rcases Numeric.width_le_of_inf sa sb hcd with rfl | ⟨w, rfl, hw⟩
      · exact .inl rfl
      · exact .inr (.ints hw)
  | flt c d =>
      rw [inf_flt] at h
      have hcd : c.inf d = d := Atom.flt.inj (Node.atom.inj (Ty.mk.inj h))
      rcases Numeric.width_le_of_inf sa sb hcd with rfl | ⟨w, rfl, hw⟩
      · exact .inl rfl
      · cases c with
        | const c => exact .inr (.fltConst hw)
        | range i v => exact .inr (.flts (.inr ⟨Nat.le_refl 1, hw⟩))
  | funPtr i s j t =>
      obtain rfl : i = .bottom := sa
      obtain rfl : j = .bottom := sb
      rw [inf_funPtr] at h
      have hst : s.union t = t := (Atom.funPtr.inj (Node.atom.inj (Ty.mk.inj h))).2
      exact .inr (.funPtr (OrdSet.isSubset_of_union hst))
  | rpc i s j t =>
      obtain rfl : i = .bottom := sa
      obtain rfl : j = .bottom := sb
      rw [inf_rpc] at h
      have hst : s.union t = t := (Atom.rpc.inj (Node.atom.inj (Ty.mk.inj h))).2
      exact .inr (.rpc (OrdSet.isSubset_of_union hst))
  | strs | constStr => exact .inr (.str rfl)
  | strConst i v =>
      obtain rfl : i = .bottom := sa
      rw [inf_str_const] at h
      cases h
  | consts u v =>
      by_cases huv : u = v
      · exact .inl (by rw [huv])
      · rw [inf_consts huv] at h
        cases h
  | struct i fs j gs =>
      obtain rfl : i = .bottom := sa
      obtain rfl : j = .bottom := sb
      have hfields := (inf_struct_eq_iff ha.normal hb.normal).1 h
      refine .inr (.struct fun g hg => ?_)
      obtain ⟨f, hf, hlabel, hmeet⟩ := hfields g hg
      refine ⟨f.2, ?_, ih f.2 (List.mem_map_of_mem hf) g.2 (List.mem_map_of_mem hg) hmeet⟩
      rw [← hlabel]
      exact Fields.find?_of_mem ha.normal.layer hf
  | tuple i es j ds => exact .inr (.tuple (forall₂_imp_of_mem ih (inf_tuple_eq_iff.1 h).1))

theorem build_nullable_inf (h : Half) {x y : Ty} (hx : x.node.kind.isWord = true) (hn : x.Normal)
    (hy : y.IsCore) : build (.nullable h (inf x y)) = scalar ∨
      build (.nullable h (inf x y)) = mk (.nullable h (inf x y)) := by
  rcases inf_word_core hx hy hn with hxy | hxy
  · rw [hxy]
    exact .inl rfl
  · exact .inr (build_nullable h (absorbsNil_withName none hxy))

theorem inf_nullable_cases {h : Half} {x y : Ty} (hx : x.node.kind.isWord = true) (hn : x.Normal)
    (hy : y.IsCore) (hany : y ≠ anyScalar) :
    inf (mk (.nullable h x)) y = scalar ∨
      inf (mk (.nullable h x)) y = mk (.nullable (h.inf y.node.half) (inf x y)) := by
  rw [inf_nullable_core hy fun he => absurd he hany]
  exact build_nullable_inf _ hx hn hy

theorem eq_nil_of_inf (ha : a.Concrete) (h : inf a nil = nil) : a = nil := by
  rw [inf_comm] at h
  rcases ha.classes with rfl | ⟨x, rfl, -, -⟩ | hcore
  · rfl
  · rw [inf_nil_nullable _ ha.normal.layer] at h
    cases h
  · rcases ha.core_classes hcore with rfl | hpa | hwa
    · rw [inf_nil_scalar] at h
      cases h
    · rw [inf_nil_pointer hpa] at h
      cases h
    · rw [inf_nil_word hwa] at h
      cases h

section alike

variable (ha : a.Concrete) (hb : b.Concrete) (h : inf a b = b)
include ha hb h

theorem classes_of_inf (hcore : b.IsCore) (hscalar : b ≠ scalar) :
    (a = nil ∧ b.node.kind.isPointer = true) ∨
      (a.node.kind.isPointer = true ∧ b.node.kind.isPointer = true) ∨
      (a.node.kind.isWord = true ∧ b.node.kind.isWord = true) := by
  have hclass := (hb.core_classes hcore).resolve_left hscalar
  have hne : inf a b ≠ scalar := by rwa [h]
  rcases ha.classes with rfl | ⟨x, rfl, hx, hwx⟩ | hca
  · refine .inl ⟨rfl, hclass.resolve_right fun hwb => ?_⟩
    rw [inf_nil_word hwb] at h
    rw [← h] at hwb
    cases hwb
  · rw [(inf_nullable_cases hwx hx.normal hcore hb.ne_anyScalar).resolve_left hne] at h
    rw [← h] at hcore
    cases hcore
  · rcases ha.core_classes hca with rfl | hpa | hwa
    · exact absurd (inf_scalar hcore) hne
    · refine .inr (.inl ⟨hpa, hclass.resolve_right fun hwb => hne ?_⟩)
      rw [inf_comm, inf_word_pointer hwb hpa]
    · exact .inr (.inr ⟨hwa, hclass.resolve_left fun hpb => hne (inf_word_pointer hwa hpb)⟩)

omit hb in
theorem alike_of_pointers (hpa : a.node.kind.isPointer = true) (hpb : b.node.kind.isPointer = true)
    (hbo : b.node.kind ≠ .oop) : a.node.Alike b.node := by
  have hne : inf a b ≠ oop := by
    intro hoop
    rw [← h, hoop] at hbo
    exact hbo rfl
  have hao : a.node.kind ≠ .oop := by
    intro hao
    obtain rfl := (oop_cases hao).resolve_left ha.ne_anyOop
    exact hne (inf_oop hpb)
  apply Node.alike_of_isPointer hpa hao
  by_contra hshape
  exact hne (inf_pointers_of_ne hpa hpb hao hbo hshape)

omit hb in
theorem alike_of_words (hwa : a.node.kind.isWord = true) (hwb : b.node.kind.isWord = true) :
    a.node.Alike b.node := by
  apply Node.alike_of_isWord hwa
  by_contra hshape
  rw [inf_words_of_ne hwa hwb ha.normal hshape] at h
  rw [← h] at hwb
  cases hwb

end alike

/-- Data above a word with nil is nil, or it lies above the word, with nil or without. -/
theorem above_nullable {y : Ty} (ha : a.Concrete) (hy : y.Concrete) (hwy : y.node.kind.isWord = true)
    (h : inf a (mk (.nullable .bottom y)) = mk (.nullable .bottom y)) :
    a = nil ∨ (∃ x, a = mk (.nullable .bottom x) ∧ inf x y = y) ∨ (a.IsCore ∧ inf a y = y) := by
  rcases ha.classes with rfl | ⟨x, rfl, hx, hwx⟩ | hcore
  · exact .inl rfl
  · rw [inf_nullable_nullable ha.normal.layer] at h
    rcases build_nullable_inf _ hwx hx.normal (Kind.ne_of_isWord hwy).1 with hxy | hxy
    · cases hxy.symm.trans h
    · exact .inr (.inl ⟨x, rfl, (Node.nullable.inj (Ty.mk.inj (hxy.symm.trans h))).2⟩)
  · rw [inf_comm] at h
    rcases inf_nullable_cases hwy hy.normal hcore ha.ne_anyScalar with hay | hay
    · cases hay.symm.trans h
    · rw [inf_comm a]
      exact .inr (.inr ⟨hcore, (Node.nullable.inj (Ty.mk.inj (hay.symm.trans h))).2⟩)

theorem converts_of_inf (ha : a.Concrete) (hb : b.Concrete) (h : inf a b = b) :
    Converts 1 a b := by
  induction a, b using pair_induction with
  | h a b ih =>
      have parts (u : Ty) (hu : u ∈ a.node.children) (v : Ty) (hv : v ∈ b.node.children)
          (huv : inf u v = v) : Converts 1 u v := by
        have := height_lt_of_mem_node hu
        have := height_lt_of_mem_node hv
        exact ih u v (by omega) (ha.parts u hu) (hb.parts v hv) huv
      have hua : a.node.kind ≠ .universal := ha.kinds.layer.1
      have hca : a.node.kind ≠ .ctrl := ha.kinds.layer.2.2.1
      apply converts_of_rule ha hb
      rcases hb.classes with rfl | ⟨y, rfl, hy, hwy⟩ | hcore
      · exact .inl (eq_nil_of_inf ha h)
      · have hmem : y ∈ (mk (.nullable .bottom y)).node.children := List.mem_singleton_self y
        rcases above_nullable ha hy hwy h with rfl | ⟨x, rfl, hxy⟩ | ⟨hcore, hay⟩
        · exact .inr .nilToNullable
        · exact .inr (.nullables (parts x (List.mem_singleton_self x) y hmem hxy))
        · have := height_lt_of_mem_node hmem
          have hconv : Converts 1 a y := ih a y (by omega) ha hy hay
          exact .inr (.toNullable hua hca (Kind.isCore_iff.1 hcore).2.1 hconv)
      · by_cases hscalar : b = scalar
        · rw [hscalar]
          exact .inr (.scalar hua hca)
        rcases classes_of_inf ha hb h hcore hscalar with ⟨rfl, hpb⟩ | ⟨hpa, hpb⟩ | ⟨hwa, hwb⟩
        · exact .inr (.nilToPointer hpb)
        · by_cases hbo : b.node.kind = .oop
          · obtain rfl := (oop_cases hbo).resolve_left hb.ne_anyOop
            exact .inr (.oop hpa)
          · exact rule_of_alike (alike_of_pointers ha h hpa hpb hbo) ha hb h parts
        · exact rule_of_alike (alike_of_words ha h hwa hwb) ha hb h parts

def record (fs : List (String × Preset)) : Ty :=
  mk (.struct .bottom (fs.map fun f => (f.1, mk (.atom f.2.atom))))

theorem concrete_record {fs : List (String × Preset)} (hsorted : Ascending.Sorted (fs.map Prod.fst))
    (hfs : ∀ f ∈ fs, f.2.atom.kind.IsData ∧ f.2.atom.half = .bottom) : (record fs).Concrete := by
  have fields {P : Node Ty → Prop} (hP : ∀ f ∈ fs, P (.atom f.2.atom)) :
      ∀ t ∈ (record fs).node.children, Everywhere P t := by
    intro t ht
    obtain ⟨g, hg, rfl⟩ := List.mem_map.1 ht
    obtain ⟨f, hf, rfl⟩ := List.mem_map.1 hg
    exact .mk (hP f hf) nofun
  have hlabels : (fs.map fun f => (f.1, mk (.atom f.2.atom))).map Prod.fst = fs.map Prod.fst := by
    simp
  have hkind : Kind.struct.IsData := by decide
  refine ⟨.mk ?_ (fields fun _ _ => trivial), .mk hkind (fields fun f hf => (hfs f hf).1),
    .mk rfl (fields fun f hf => (hfs f hf).2)⟩
  rw [← hlabels] at hsorted
  exact hsorted

end Ty

namespace Store

variable {s : Store} {a b : Handle}

/-- The classifier agrees with the order: settled data converts to all settled data below it. -/
theorem isa_converts (hs : s.Reachable) (ha : s.HoldsOf Kind.IsData a) (hb : s.HoldsOf Kind.IsData b)
    (sa : (s.tree a).Settled) (sb : (s.tree b).Settled) (h : s.Isa a b) :
    s.classify a b = .free ∨ s.classify a b = .bitChanging := by
  have hmeet := (isa_iff (fun _ hk => hk.2.2.1) hs.sound ha hb).1 h
  have ca : (s.tree a).Concrete := ⟨hs.sound.normal a ha.holds, ha.kinds, sa⟩
  have cb : (s.tree b).Concrete := ⟨hs.sound.normal b hb.holds, hb.kinds, sb⟩
  rw [classify_tree hs.sound ha.holds hb.holds]
  exact Verdict.rank_le_one_iff.1 (Ty.converts_of_inf ca cb hmeet)

/-- A record with a missing object, a narrow float and a text lies above one with any object and a
wider float, and converts to it. -/
theorem record_isa_converts : ∃ (s : Store) (a b : Handle), s.Reachable ∧
    s.Denotes a (.record [("next", .nil), ("size", .flt32), ("text", .str)]) ∧
    s.Denotes b (.record [("next", .oop), ("size", .flt64)]) ∧
    s.HoldsOf Kind.IsData a ∧ s.HoldsOf Kind.IsData b ∧ (s.tree a).Settled ∧ (s.tree b).Settled ∧
    s.Isa a b ∧ (s.classify a b = .free ∨ s.classify a b = .bitChanging) := by
  have ca : (Ty.record [("next", .nil), ("size", .flt32), ("text", .str)]).Concrete :=
    Ty.concrete_record (by decide) (by decide)
  have cb : (Ty.record [("next", .oop), ("size", .flt64)]).Concrete :=
    Ty.concrete_record (by decide) (by decide)
  obtain ⟨a, s₁, hs₁, -, ha⟩ := storable_of_normal ca.normal initial .initial
  obtain ⟨b, s, hs, hle, hb⟩ := storable_of_normal cb.normal s₁ hs₁
  replace ha := ha.mono hs₁.sound hle
  have ka := HoldsOf.of_denotes ha ca.kinds
  have kb := HoldsOf.of_denotes hb cb.kinds
  have sa : (s.tree a).Settled := ha.2 ▸ ca.settled
  have sb : (s.tree b).Settled := hb.2 ▸ cb.settled
  have hisa : s.Isa a b := by
    rw [Isa, (isa_leads hs.sound ha.1 hb.1).2.2, ha.2, hb.2]
    decide +kernel
  exact ⟨s, a, b, hs, ha, hb, ka, kb, sa, sb, hisa, isa_converts hs ka kb sa sb hisa⟩

end Store

end TypeLattice
