import TypeLattice.Proofs.ConversionOrder

namespace TypeLattice

theorem OrdSet.eq_of_union_of_size {s t : OrdSet Nat} (h : s.union t = t) (hsize : s.size = t.size) :
    s = t := by
  apply ext_toList
  have hsub : s.toList.Sublist (s.union t).toList := Ascending.sublist_union compare _ _
  rw [h] at hsub
  exact hsub.eq_of_length hsize

theorem Numeric.eq_of_inf_of_isConst {ω ν : Type} [LinearOrder ω] [Sized ν ω] [DecidableEq ν]
    {a b : Numeric ω ν} (ha : a.isConst = true) (hb : b.isConst = true) (h : a.inf b = b) : a = b := by
  cases a with
  | range => cases ha
  | const c =>
      cases b with
      | range => cases hb
      | const d =>
          rcases width_le_of_inf rfl rfl h with hcd | ⟨w, hd, -⟩
          · exact hcd
          · cases hd

theorem eq_of_poolTargets {h k : Half} {s t : OrdSet Nat} (hs : (!h.isTop && s.size == 1) = true)
    (ht : (!k.isTop && t.size == 1) = true) (hpool : poolTargets (h, s) (k, t) = (k, t)) :
    h = k ∧ s = t := by
  cases h with
  | top => cases hs
  | bottom =>
      cases k with
      | top => cases ht
      | bottom =>
          have hsize : s.size = t.size := (eq_of_beq hs).trans (eq_of_beq ht).symm
          exact ⟨rfl, OrdSet.eq_of_union_of_size (Prod.mk.inj hpool).2 hsize⟩

theorem Atom.data_of_isConst {a : Atom} (ha : a.isConst = true) :
    a.kind.IsData ∧ a.half = .bottom := by
  cases a with
  | universal | scalar | ctrl | oop | str => cases ha
  | nil | strConst => exact ⟨⟨nofun, nofun, nofun, nofun⟩, rfl⟩
  | int n | flt n =>
      cases n with
      | const => exact ⟨⟨nofun, nofun, nofun, nofun⟩, rfl⟩
      | range => cases ha
  | funPtr h | rpc h =>
      cases h with
      | top => cases ha
      | bottom => exact ⟨⟨nofun, nofun, nofun, nofun⟩, rfl⟩

theorem compare_append (l : String) : compare l (l ++ "x") = .lt := by
  rw [compare_lt_iff_lt, String.lt_iff_toList_lt, String.toList_append]
  induction l.toList with
  | nil => exact List.nil_lt_cons _ _
  | cons c cs ih =>
      rw [List.cons_append]
      exact List.cons_lt_cons_self.2 ih

theorem exists_sorted_concat {ls : List String} (h : Ascending.Sorted ls) :
    ∃ l, Ascending.Sorted (ls ++ [l]) := by
  rcases List.eq_nil_or_concat' ls with rfl | ⟨init, last, rfl⟩
  · exact ⟨"", List.pairwise_singleton _ _⟩
  · refine ⟨last ++ "x", List.pairwise_append.2 ⟨h, List.pairwise_singleton _ _, ?_⟩⟩
    intro l hl m hm
    rw [List.mem_singleton.1 hm]
    rcases List.mem_append.1 hl with hl | hl
    · have hlast := (List.pairwise_append.1 h).2.2 l hl last (List.mem_singleton_self last)
      exact Std.TransCmp.lt_trans hlast (compare_append last)
    · rw [List.mem_singleton.1 hl]
      exact compare_append last

namespace Ty

variable {x y : Ty}

/-- Constants without names: atoms, and settled tuples and structs of constants. A struct without
fields is none. -/
inductive Constant : Ty → Prop
  | atom {a : Atom} (ha : a.isConst = true) : Constant (ofAtom a)
  | tuple {es : List Ty} (hes : ∀ e ∈ es, Constant e) : Constant (mk (.tuple .bottom es))
  | struct {fs : List (String × Ty)} (hne : fs ≠ []) (hsorted : Ascending.Sorted (fs.map (·.1)))
      (hfs : ∀ f ∈ fs, Constant f.2) : Constant (mk (.struct .bottom fs))

theorem isConst_atom {a : Atom} : (ofAtom a).isConst = a.isConst := by
  rw [isConst, fold_mk]
  rfl

theorem isConst_tuple {h : Half} {es : List Ty} :
    (mk (.tuple h es)).isConst = true ↔ h = .bottom ∧ ∀ e ∈ es, e.isConst = true := by
  rw [isConst, fold_mk, Node.map, Node.isConst]
  cases h <;> simp [Half.isTop]

theorem isConst_struct {h : Half} {fs : List (String × Ty)} :
    (mk (.struct h fs)).isConst = true ↔
      h = .bottom ∧ fs ≠ [] ∧ ∀ f ∈ fs, f.2.isConst = true := by
  rw [isConst, fold_mk, Node.map, Node.isConst]
  cases h <;> simp [Half.isTop]

namespace Constant

theorem isConst (h : Constant x) : x.isConst = true := by
  induction h with
  | atom ha => rw [isConst_atom, ha]
  | tuple _ ih => exact isConst_tuple.2 ⟨rfl, ih⟩
  | struct hne _ _ ih => exact isConst_struct.2 ⟨rfl, hne, ih⟩

theorem everywhere {P : Node Ty → Prop} (h : Constant x)
    (hatom : ∀ a : Atom, a.isConst = true → P (.atom a)) (htuple : ∀ es, P (.tuple .bottom es))
    (hstruct : ∀ fs : List (String × Ty), Ascending.Sorted (fs.map (·.1)) → P (.struct .bottom fs)) :
    Everywhere P x := by
  induction h with
  | atom ha => exact .mk (hatom _ ha) nofun
  | tuple _ ih => exact .mk (htuple _) ih
  | struct _ hsorted _ ih => exact .mk (hstruct _ hsorted) (List.forall_mem_map.2 ih)

theorem concrete (h : Constant x) : x.Concrete where
  normal := h.everywhere (fun _ _ => trivial) (fun _ => trivial) fun _ hsorted => hsorted
  kinds := h.everywhere (fun _ ha => (Atom.data_of_isConst ha).1)
    (fun _ => (by decide : Kind.tuple.IsData)) fun _ _ => (by decide : Kind.struct.IsData)
  settled := h.everywhere (fun _ ha => (Atom.data_of_isConst ha).2) (fun _ => rfl) fun _ _ => rfl

theorem normal (h : Constant x) : x.Normal := h.concrete.normal

theorem unnamed (h : Constant x) : x.Of (· ≠ .name) := h.concrete.kinds.mono fun _ hk => hk.2.1

theorem uncontrolled (h : Constant x) : x.Of (· ≠ .ctrl) :=
  h.concrete.kinds.mono fun _ hk => hk.2.2.1

theorem ne {p : Ty} (h : Constant x) (hp : p.isConst = false) : x ≠ p := by
  rintro rfl
  rw [h.isConst] at hp
  cases hp

theorem part (h : Constant x) {p : Ty} (hp : p ∈ x.node.children) : p.Constant := by
  cases h with
  | atom => cases hp
  | tuple hes => exact hes p hp
  | struct _ _ hfs =>
      obtain ⟨f, hf, rfl⟩ := List.mem_map.1 hp
      exact hfs f hf

theorem classes (h : Constant x) : x = nil ∨ (x.IsCore ∧ x.node.kind ≠ .oop) := by
  cases h with
  | @atom a ha =>
      cases a with
      | universal | scalar | ctrl | oop | str => cases ha
      | nil => exact .inl rfl
      | strConst | int | flt | funPtr | rpc => exact .inr ⟨rfl, nofun⟩
  | tuple | struct => exact .inr ⟨rfl, nofun⟩

end Constant

theorem constant_iff :
    x.Constant ↔ x.Normal ∧ x.Of (· ≠ .name) ∧ x.isConst = true := by
  refine ⟨fun h => ⟨h.normal, h.unnamed, h.isConst⟩, ?_⟩
  rintro ⟨hn, hu, hc⟩
  induction x with
  | mk n ih =>
      cases n with
      | atom a =>
          apply Constant.atom
          rw [← isConst_atom]
          exact hc
      | nullable | func => cases hc
      | name => exact absurd rfl hu.layer
      | tuple h es =>
          obtain ⟨rfl, hes⟩ := isConst_tuple.1 hc
          exact .tuple fun e he => ih e he (hn.parts e he) (hu.parts e he) (hes e he)
      | struct h fs =>
          obtain ⟨rfl, hne, hfs⟩ := isConst_struct.1 hc
          refine .struct hne hn.layer fun f hf => ?_
          have hmem : f.2 ∈ (Node.struct .bottom fs).children := List.mem_map_of_mem hf
          exact ih f.2 hmem (hn.parts f.2 hmem) (hu.parts f.2 hmem) (hfs f hf)

theorem eq_or_structural_of_alike (halike : x.node.Alike y.node) (hx : x.Constant) (hy : y.Constant)
    (h : inf x y = y) : x = y ∨ x.node.Structural (fun x y => inf x y = y) y.node := by
  have cx := hx.isConst
  have cy := hy.isConst
  obtain ⟨n⟩ := x
  obtain ⟨k⟩ := y
  cases halike with
  | ctrl | func | strs | strConst => cases cx
  | constStr => cases cy
  | int c d =>
      rw [inf_int, mk.injEq, Node.atom.injEq, Atom.int.injEq] at h
      rw [Numeric.eq_of_inf_of_isConst cx cy h]
      exact .inl rfl
  | flt c d =>
      rw [inf_flt, mk.injEq, Node.atom.injEq, Atom.flt.injEq] at h
      rw [Numeric.eq_of_inf_of_isConst cx cy h]
      exact .inl rfl
  | funPtr i s j t =>
      rw [inf_funPtr, mk.injEq, Node.atom.injEq, Atom.funPtr.injEq] at h
      obtain ⟨rfl, rfl⟩ := eq_of_poolTargets cx cy (Prod.ext h.1 h.2)
      exact .inl rfl
  | rpc i s j t =>
      rw [inf_rpc, mk.injEq, Node.atom.injEq, Atom.rpc.injEq] at h
      obtain ⟨rfl, rfl⟩ := eq_of_poolTargets cx cy (Prod.ext h.1 h.2)
      exact .inl rfl
  | consts u v =>
      by_cases huv : u = v
      · exact .inl (by rw [huv])
      · rw [inf_consts huv] at h
        cases h
  | struct i fs j gs => exact .inr ((inf_struct_eq_iff hx.normal hy.normal).1 h)
  | tuple i es j ds => exact .inr (inf_tuple_eq_iff.1 h)

theorem eq_or_structural_of_inf (hx : x.Constant) (hy : y.Constant) (h : inf x y = y) :
    x = y ∨ x.node.Structural (fun x y => inf x y = y) y.node := by
  have hxc := hx.concrete
  rcases hy.classes with rfl | ⟨hcore, hoop⟩
  · exact .inl (eq_nil_of_inf hxc h)
  · rcases classes_of_inf hxc hy.concrete h hcore (hy.ne rfl) with ⟨rfl, hp⟩ | ⟨hpx, hpy⟩ | ⟨hwx, hwy⟩
    · rw [inf_nil_pointer hp] at h
      exact absurd (h ▸ rfl) hoop
    · exact eq_or_structural_of_alike (alike_of_pointers hxc h hpx hpy hoop) hx hy h
    · exact eq_or_structural_of_alike (alike_of_words hxc h hwx hwy) hx hy h

theorem inf_eq_iff_of_constant (hx : x.Constant) (hy : y.Constant) :
    inf x y = y ↔ x = y ∨ x.node.Structural (fun x y => inf x y = y) y.node := by
  refine ⟨eq_or_structural_of_inf hx hy, ?_⟩
  rintro (rfl | h)
  · exact inf_self x
  · have hxn := hx.normal
    have hyn := hy.normal
    cases hx with
    | atom => exact h.elim
    | tuple =>
        cases hy with
        | tuple => exact inf_tuple_eq_iff.2 h
        | _ => exact h.elim
    | struct =>
        cases hy with
        | struct => exact (inf_struct_eq_iff hxn hyn).2 h
        | _ => exact h.elim

theorem eq_of_inf_of_constant (hx : x.Constant) (hy : y.Constant) (hstruct : y.Of (· ≠ .struct))
    (h : inf x y = y) : x = y := by
  induction hy generalizing x with
  | atom ha =>
      rcases eq_or_structural_of_inf hx (.atom ha) h with h | h
      · exact h
      · cases hx <;> exact h.elim
  | @tuple ds hds ih =>
      rcases eq_or_structural_of_inf hx (.tuple hds) h with h | h
      · exact h
      · cases hx with
        | @tuple es hes =>
            have heq : List.Forall₂ (· = ·) es ds := by
              refine (forall₂_congr_of_mem fun e he d hd => ?_).1 h.1
              refine ⟨ih d hd (hes e he) (hstruct.parts d hd), ?_⟩
              rintro rfl
              exact inf_self e
            rw [List.forall₂_eq_eq_eq] at heq
            rw [heq]
        | _ => exact h.elim
  | struct => exact absurd rfl hstruct.layer

theorem exists_constant_of_struct (hy : y.Constant) (hstruct : ¬y.Of (· ≠ .struct)) :
    ∃ x : Ty, x.Constant ∧ inf x y = y ∧ x ≠ y := by
  induction hy with
  | @atom a ha =>
      have hatom : (ofAtom a).Of (· ≠ .struct) := .mk (by cases a <;> nofun) nofun
      exact absurd hatom hstruct
  | @tuple es hes ih =>
      have hpart : ∃ e ∈ es, ¬e.Of (· ≠ .struct) := by
        by_contra hall
        push Not at hall
        exact hstruct (.mk nofun hall)
      obtain ⟨e, he, hpart⟩ := hpart
      obtain ⟨d, hd, hde, hne⟩ := ih e he hpart
      obtain ⟨before, after, rfl⟩ := List.append_of_mem he
      refine ⟨mk (.tuple .bottom (before ++ d :: after)), .tuple ?_, inf_tuple_eq_iff.2 ⟨?_, id⟩, ?_⟩
      · simp only [List.forall_mem_append, List.forall_mem_cons] at hes ⊢
        exact ⟨hes.1, hd, hes.2.2⟩
      · have hself (xs : List Ty) : List.Forall₂ (fun x y => inf x y = y) xs xs :=
          List.forall₂_same.2 fun x _ => inf_self x
        exact List.rel_append (hself before) (.cons hde (hself after))
      · simpa using hne
  | @struct gs hne hsorted hgs ih =>
      obtain ⟨l, hl⟩ := exists_sorted_concat hsorted
      have hx : (mk (.struct .bottom (gs ++ [(l, nil)]))).Constant := by
        refine .struct (by simp) (by simpa using hl) (List.forall_mem_append.2 ⟨hgs, ?_⟩)
        exact List.forall_mem_singleton.2 (.atom rfl)
      refine ⟨_, hx, (inf_struct_eq_iff hx.normal (Constant.struct hne hsorted hgs).normal).2 ?_, ?_⟩
      · exact fun g hg => ⟨g, List.mem_append_left _ hg, rfl, inf_self g.2⟩
      · simp

end Ty

namespace Store

variable {s : Store} {a b : Handle}

structure HoldsConstant (s : Store) (a : Handle) : Prop extends s.HoldsOf (· ≠ .name) a where
  const : (s.tree a).isConst = true

theorem HoldsConstant.of_denotes {t : Ty} (ha : s.Denotes a t) (ht : t.Constant) :
    s.HoldsConstant a :=
  ⟨.of_denotes ha ht.unnamed, ha.2 ▸ ht.isConst⟩

theorem HoldsConstant.constant (hs : s.Sound) (ha : s.HoldsConstant a) : (s.tree a).Constant :=
  Ty.constant_iff.2 ⟨hs.normal a ha.holds, ha.kinds, ha.const⟩

theorem HoldsConstant.part (hs : s.Sound) (ha : s.HoldsConstant a) {x : Handle}
    (hx : x ∈ (s.node a).children) : s.HoldsConstant x := by
  refine ⟨ha.toHoldsOf.part hs hx, ?_⟩
  have hconst := ha.constant hs
  rw [tree_eq hs.descends ha.holds] at hconst
  apply (hconst.part _).isConst
  rw [Ty.node, Node.children_map]
  exact List.mem_map_of_mem hx

theorem isa_constant_iff (hs : s.Sound) (ha : s.HoldsConstant a) (hb : s.HoldsConstant b) :
    s.Isa a b ↔ (s.tree a).inf (s.tree b) = s.tree b :=
  isa_iff (fun _ h => h) hs ⟨ha.holds, (ha.constant hs).uncontrolled⟩
    ⟨hb.holds, (hb.constant hs).uncontrolled⟩

/-- A struct of two constants is above the one that lacks its second field. -/
theorem wide_struct_isa_narrow : ∃ (s : Store) (a b : Handle), s.Reachable ∧
    s.Denotes a (.mk (.struct .bottom
      [("x", .ofAtom (.int (.const 1))), ("y", .ofAtom (.int (.const 2)))])) ∧
    s.Denotes b (.mk (.struct .bottom [("x", .ofAtom (.int (.const 1)))])) ∧
    s.HoldsConstant a ∧ s.HoldsConstant b ∧ s.Isa a b ∧ a ≠ b := by
  have hone : (Ty.ofAtom (.int (.const 1))).Constant := .atom rfl
  have htwo : (Ty.ofAtom (.int (.const 2))).Constant := .atom rfl
  have hwide : (Ty.mk (.struct .bottom [("x", .ofAtom (.int (.const 1))),
      ("y", .ofAtom (.int (.const 2)))])).Constant :=
    .struct nofun (by decide) (List.forall_mem_cons.2 ⟨hone, List.forall_mem_singleton.2 htwo⟩)
  have hnarrow : (Ty.mk (.struct .bottom [("x", .ofAtom (.int (.const 1)))])).Constant :=
    .struct nofun (by decide) (List.forall_mem_singleton.2 hone)
  obtain ⟨s, a, b, hs, ha, hb⟩ := exists_two_stored hwide.normal hnarrow.normal
  have hca := HoldsConstant.of_denotes ha hwide
  have hcb := HoldsConstant.of_denotes hb hnarrow
  refine ⟨s, a, b, hs, ha, hb, hca, hcb, (isa_constant_iff hs.sound hca hcb).2 ?_, ?_⟩
  · rw [ha.2, hb.2, Ty.inf_struct_eq_iff hwide.normal hnarrow.normal]
    refine List.forall_mem_singleton.2 ⟨_, List.mem_cons_self, rfl, Ty.inf_self _⟩
  · rw [Ne, Denotes.eq_iff hs.sound ha hb]
    simp

/-- Between constants the order is equality, but for the fields of structs. A constant without
structs has none above it. Above every other one the store holds, sooner or later, a second one. -/
theorem constant_isa_only_through_structs (hs : s.Reachable) (ha : s.HoldsConstant a)
    (hb : s.HoldsConstant b) :
    (s.Isa a b ↔ a = b ∨ (s.node a).Structural s.Isa (s.node b)) ∧
    ((∀ s' c, s'.Reachable → s ≤ s' → s'.HoldsConstant c → s'.Isa c b → c = b) ↔
      (s.tree b).Of (· ≠ .struct)) := by
  have hsound := hs.sound
  have hcb := hb.constant hsound
  have hlater {s' : Store} (hle : s ≤ s') : s'.Denotes b (s.tree b) :=
    .of_holds hsound hle hb.holds
  refine ⟨?_, fun hall => ?_, fun hstruct s' c hs' hle hc hisa => ?_⟩
  · rw [isa_constant_iff hsound ha hb, Ty.inf_eq_iff_of_constant (ha.constant hsound) hcb,
      ← Denotes.eq_iff hsound ha.denotes hb.denotes, tree_eq hsound.descends ha.holds,
      tree_eq hsound.descends hb.holds]
    refine or_congr_right (Node.structural_map_iff fun x hx y hy => ?_)
    have hx' := ha.part hsound hx
    have hy' := hb.part hsound hy
    exact ⟨(isa_constant_iff hsound hx' hy').symm, (isa_constant_iff hsound hy' hx').symm⟩
  · by_contra hstruct
    obtain ⟨t, ht, hinf, hne⟩ := Ty.exists_constant_of_struct hcb hstruct
    obtain ⟨c, s', hs', hle, hc⟩ := storable_of_normal ht.normal s hs
    have hcc := HoldsConstant.of_denotes hc ht
    have hbc := HoldsConstant.of_denotes (hlater hle) hcb
    have hisa : s'.Isa c b := by
      rw [isa_constant_iff hs'.sound hcc hbc, hc.2, (hlater hle).2, hinf]
    exact hne ((Denotes.eq_iff hs'.sound hc (hlater hle)).1 (hall s' c hs' hle hcc hisa))
  · have hbc := HoldsConstant.of_denotes (hlater hle) hcb
    rw [isa_constant_iff hs'.sound hc hbc, (hlater hle).2] at hisa
    apply (Denotes.eq_iff hs'.sound hc.denotes (hlater hle)).2
    exact Ty.eq_of_inf_of_constant (hc.constant hs'.sound) hcb hstruct hisa

/-- Pairs of a number and nil are different constants if the numbers are. -/
theorem pairs_of_constants_unrelated : ∃ (s : Store) (a b : Handle), s.Reachable ∧
    s.Denotes a (.mk (.tuple .bottom [.ofAtom (.int (.const 1)), .nil])) ∧
    s.Denotes b (.mk (.tuple .bottom [.ofAtom (.int (.const 2)), .nil])) ∧
    s.HoldsConstant a ∧ s.HoldsConstant b ∧ ¬s.Isa a b := by
  have hpair (n : Int64) : (Ty.mk (.tuple .bottom [.ofAtom (.int (.const n)), .nil])).Constant :=
    .tuple (List.forall_mem_cons.2 ⟨.atom rfl, List.forall_mem_singleton.2 (.atom rfl)⟩)
  have hstruct (n : Int64) :
      (Ty.mk (.tuple .bottom [.ofAtom (.int (.const n)), .nil])).Of (· ≠ .struct) :=
    .mk nofun (List.forall_mem_cons.2 ⟨.mk nofun nofun, List.forall_mem_singleton.2 (.mk nofun nofun)⟩)
  obtain ⟨s, a, b, hs, ha, hb⟩ := exists_two_stored (hpair 1).normal (hpair 2).normal
  have hca := HoldsConstant.of_denotes ha (hpair 1)
  have hcb := HoldsConstant.of_denotes hb (hpair 2)
  obtain ⟨-, honly⟩ := constant_isa_only_through_structs hs hca hcb
  refine ⟨s, a, b, hs, ha, hb, hca, hcb, fun hisa => ?_⟩
  have heq := honly.2 (hb.2 ▸ hstruct 2) s a hs (le_refl s) hca hisa
  rw [Denotes.eq_iff hs.sound ha hb] at heq
  simp at heq

end Store

end TypeLattice
