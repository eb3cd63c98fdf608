import TypeLattice.Proofs.NilFreeLattice
import TypeLattice.Proofs.NormalForm

namespace TypeLattice

theorem Half.inf_eq_right_iff {h k : Half} : h.inf k = k ↔ (k = .top → h = .top) := by
  cases h <;> cases k <;> decide

theorem forall₂_imp_of_mem {α β : Type} {R S : α → β → Prop} {as : List α} {bs : List β}
    (h : ∀ a ∈ as, ∀ b ∈ bs, R a b → S a b) (hR : List.Forall₂ R as bs) : List.Forall₂ S as bs := by
  rw [List.forall₂_iff_zip] at hR ⊢
  refine ⟨hR.1, fun {a b} hmem => ?_⟩
  obtain ⟨ha, hb⟩ := List.of_mem_zip hmem
  exact h a ha b hb (hR.2 hmem)

theorem forall₂_congr_of_mem {α β : Type} {R S : α → β → Prop} {as : List α} {bs : List β}
    (h : ∀ a ∈ as, ∀ b ∈ bs, (R a b ↔ S a b)) : List.Forall₂ R as bs ↔ List.Forall₂ S as bs :=
  ⟨forall₂_imp_of_mem fun a ha b hb => (h a ha b hb).1,
    forall₂_imp_of_mem fun a ha b hb => (h a ha b hb).2⟩

namespace Node

variable {α β : Type}

/-- The rules of structural subtyping. Tuples and functions are compared place by place, with the
parameters the other way round. Of settled structs the second may lack fields of the first, and of
choices the first may lack fields of the second. -/
def Structural (R : α → α → Prop) : Node α → Node α → Prop
  | .tuple h es, .tuple k ds => List.Forall₂ R es ds ∧ (k = .top → h = .top)
  | .func h ps r, .func k qs q => List.Forall₂ R qs ps ∧ R r q ∧ (k = .top → h = .top)
  | .struct .bottom fs, .struct .bottom gs => ∀ g ∈ gs, ∃ f ∈ fs, f.1 = g.1 ∧ R f.2 g.2
  | .struct .top fs, .struct .top gs => ∀ f ∈ fs, ∃ g ∈ gs, f.1 = g.1 ∧ R f.2 g.2
  | .struct .top _, .struct .bottom _ => True
  | _, _ => False

theorem structural_map_iff {f : α → β} {R : α → α → Prop} {S : β → β → Prop} {n k : Node α}
    (h : ∀ x ∈ n.children, ∀ y ∈ k.children, (S (f x) (f y) ↔ R x y) ∧ (S (f y) (f x) ↔ R y x)) :
    (n.map f).Structural S (k.map f) ↔ n.Structural R k := by
  cases n with
  | tuple i es =>
      cases k with
      | tuple j ds =>
          simp only [map, Structural, List.forall₂_map_left_iff, List.forall₂_map_right_iff]
          exact and_congr_left' (forall₂_congr_of_mem fun x hx y hy => (h x hx y hy).1)
      | _ => exact Iff.rfl
  | func i ps r =>
      cases k with
      | func j qs q =>
          simp only [map, Structural, List.forall₂_map_left_iff, List.forall₂_map_right_iff]
          have hlast {xs : List α} {x : α} : x ∈ xs ++ [x] := by simp
          refine and_congr (forall₂_congr_of_mem fun y hy x hx => ?_) (and_congr_left' ?_)
          · exact (h x (List.mem_append_left _ hx) y (List.mem_append_left _ hy)).2
          · exact (h r hlast q hlast).1
      | _ => exact Iff.rfl
  | struct i fs =>
      cases k with
      | struct j gs =>
          have hfield {p q : String × α} (hp : p ∈ fs) (hq : q ∈ gs) :
              S (f p.2) (f q.2) ↔ R p.2 q.2 :=
            (h p.2 (List.mem_map_of_mem hp) q.2 (List.mem_map_of_mem hq)).1
          cases i <;> cases j
          case top.bottom | bottom.top => exact Iff.rfl
          case bottom.bottom =>
            simp only [map, Structural, List.mem_map, forall_exists_index, and_imp,
              forall_apply_eq_imp_iff₂, exists_exists_and_eq_and]
            refine forall₂_congr fun q hq => exists_congr fun p => and_congr_right fun hp => ?_
            exact and_congr_right fun _ => hfield hp hq
          case top.top =>
            simp only [map, Structural, List.mem_map, forall_exists_index, and_imp,
              forall_apply_eq_imp_iff₂, exists_exists_and_eq_and]
            refine forall₂_congr fun p hp => exists_congr fun q => and_congr_right fun hq => ?_
            exact and_congr_right fun _ => hfield hp hq
      | _ => cases i <;> exact Iff.rfl
  | atom | nullable | name => exact Iff.rfl

end Node

namespace Ty

variable {x y : Ty} {h k : Half}

theorem inf_tuple_eq_iff {es ds : List Ty} :
    inf (mk (.tuple h es)) (mk (.tuple k ds)) = mk (.tuple k ds) ↔
      List.Forall₂ (fun x y => inf x y = y) es ds ∧ (k = .top → h = .top) := by
  rw [inf_tuple]
  by_cases hlen : es.length = ds.length
  · rw [if_pos hlen, mk.injEq, Node.tuple.injEq, Half.inf_eq_right_iff, zipWith_eq_right_iff hlen,
      and_comm]
  · rw [if_neg hlen]
    exact iff_of_false nofun fun h => hlen h.1.length_eq

theorem sup_eq_right_iff (hx : x.Normal) (hy : y.Normal)
    (kx : x.Of fun k => k ≠ .name ∧ k ≠ .nil) (ky : y.Of fun k => k ≠ .name ∧ k ≠ .nil) :
    sup x y = y ↔ inf y x = x := by
  rw [inf_dual_iff hy hx ky kx, sup]
  constructor
  · intro h
    rw [← dual_dual (normal_inf (normal_dual hx) (normal_dual hy)), h]
  · intro h
    rw [h, dual_dual hy]

theorem inf_func_eq_iff {ps qs : List Ty} {r q : Ty} (hx : (mk (.func h ps r)).Normal)
    (hy : (mk (.func k qs q)).Normal)
    (kx : (mk (.func h ps r)).Of fun k => k ≠ .name ∧ k ≠ .nil)
    (ky : (mk (.func k qs q)).Of fun k => k ≠ .name ∧ k ≠ .nil) :
    inf (mk (.func h ps r)) (mk (.func k qs q)) = mk (.func k qs q) ↔
      List.Forall₂ (fun x y => inf x y = y) qs ps ∧ inf r q = q ∧ (k = .top → h = .top) := by
  have hmem {h : Half} {ps : List Ty} {r p : Ty} (hp : p ∈ ps) :
      p ∈ (mk (.func h ps r)).node.children := List.mem_append_left _ hp
  have hparams : List.Forall₂ (fun p q => sup p q = q) ps qs ↔
      List.Forall₂ (fun x y => inf x y = y) qs ps := by
    have hflip : List.Forall₂ (fun p q => sup p q = q) ps qs ↔
        List.Forall₂ (fun q p => sup p q = q) qs ps := ⟨List.Forall₂.flip, List.Forall₂.flip⟩
    rw [hflip]
    apply forall₂_congr_of_mem
    intro v hv u hu
    exact sup_eq_right_iff (hx.parts u (hmem hu)) (hy.parts v (hmem hv)) (kx.parts u (hmem hu))
      (ky.parts v (hmem hv))
  rw [inf_func fun p hp => hx.parts p (hmem hp)]
  by_cases hlen : ps.length = qs.length
  · rw [if_pos hlen, mk.injEq, Node.func.injEq, Half.inf_eq_right_iff, zipWith_eq_right_iff hlen,
      hparams]
    tauto
  · rw [if_neg hlen]
    exact iff_of_false nofun fun h => hlen h.1.length_eq.symm

theorem inf_struct_eq_iff {fs gs : List (String × Ty)} (hx : (mk (.struct h fs)).Normal)
    (hy : (mk (.struct k gs)).Normal) :
    inf (mk (.struct h fs)) (mk (.struct k gs)) = mk (.struct k gs) ↔
      (Node.struct h fs).Structural (fun x y => inf x y = y) (.struct k gs) := by
  have hlabel (f g : String × Ty) : (mergeField inf f g).1 = f.1 := rfl
  have hmerge {f g : String × Ty} :
      f.1 = g.1 ∧ mergeField inf f g = g ↔ f.1 = g.1 ∧ inf f.2 g.2 = g.2 := by
    rw [mergeField, Prod.ext_iff]
    tauto
  rw [inf_struct, mk.injEq, Node.struct.injEq]
  cases h <;> cases k <;> simp only [poolFields, Node.Structural, true_and, reduceCtorEq, false_and]
  case top.top =>
    rw [Ascending.unionBy_eq_right_iff hlabel hx.layer hy.layer]
    simp only [hmerge]
  case bottom.bottom =>
    rw [Ascending.interBy_eq_right_iff hlabel hx.layer hy.layer]
    simp only [hmerge]

theorem inf_eq_iff_structural (hx : x.Normal) (hy : y.Normal)
    (kx : x.Of fun k => k ≠ .name ∧ k ≠ .nil) (ky : y.Of fun k => k ≠ .name ∧ k ≠ .nil)
    (hkind : x.node.kind = y.node.kind)
    (hcompound : x.node.kind = .tuple ∨ x.node.kind = .func ∨ x.node.kind = .struct) :
    inf x y = y ↔ x.node.Structural (fun x y => inf x y = y) y.node := by
  obtain ⟨n⟩ := x
  obtain ⟨k⟩ := y
  cases n with
  | tuple i es =>
      cases k with
      | tuple j ds => exact inf_tuple_eq_iff
      | atom c => cases c <;> cases hkind
      | _ => cases hkind
  | func i ps r =>
      cases k with
      | func j qs q => exact inf_func_eq_iff hx hy kx ky
      | atom c => cases c <;> cases hkind
      | _ => cases hkind
  | struct i fs =>
      cases k with
      | struct j gs => exact inf_struct_eq_iff hx hy
      | atom c => cases c <;> cases hkind
      | _ => cases hkind
  | atom c => cases c <;> rcases hcompound with h | h | h <;> cases h
  | nullable | name => rcases hcompound with h | h | h <;> cases h

end Ty

namespace Store

variable {s : Store} {a b : Handle} {log : List (Record Handle)}

/-- On values other than nil the order of the store is structural subtyping. -/
theorem isa_iff_structural (h : s.History log) (ha : s.HoldsOf Kind.IsNilFree a)
    (hb : s.HoldsOf Kind.IsNilFree b) (hkind : (s.node a).kind = (s.node b).kind)
    (hcompound : (s.node a).kind = .tuple ∨ (s.node a).kind = .func ∨ (s.node a).kind = .struct) :
    s.Isa a b ↔ (s.node a).Structural s.Isa (s.node b) := by
  have hs := h.sound
  have hisa {x y : Handle} (hx : s.HoldsOf Kind.IsNilFree x) (hy : s.HoldsOf Kind.IsNilFree y) :
      s.Isa x y ↔ (s.tree x).inf (s.tree y) = s.tree y :=
    isa_iff (fun _ h => h.2.1) hs hx hy
  have hnil {x : Handle} (hx : s.HoldsOf Kind.IsNilFree x) :
      (s.tree x).Of fun k => k ≠ .name ∧ k ≠ .nil :=
    hx.kinds.mono fun _ h => ⟨h.1, h.2.2⟩
  rw [← kind_tree hs.descends ha.holds] at hkind hcompound
  rw [← kind_tree hs.descends hb.holds] at hkind
  rw [hisa ha hb, Ty.inf_eq_iff_structural (hs.normal a ha.holds) (hs.normal b hb.holds) (hnil ha)
    (hnil hb) hkind hcompound, tree_eq hs.descends ha.holds, tree_eq hs.descends hb.holds]
  apply Node.structural_map_iff
  intro x hx y hy
  have hx' := ha.part hs hx
  have hy' := hb.part hs hy
  exact ⟨(hisa hx' hy').symm, (hisa hy' hx').symm⟩

/-- A function that takes more and gives less is one that takes less and gives more, but not the
other way round. -/
theorem functions_compared_by_contravariance : ∃ (s : Store) (f g : Handle)
    (log : List (Record Handle)), s.History log ∧
    s.Denotes f (.mk (.func .bottom [.mk (.atom Preset.int64.atom)] (.mk (.atom Preset.int8.atom)))) ∧
    s.Denotes g (.mk (.func .bottom [.mk (.atom Preset.int8.atom)] (.mk (.atom Preset.int64.atom)))) ∧
    s.Isa f g ∧ ¬s.Isa g f := by
  have hfunc {P : Node Ty → Prop} {p q : Preset} (hp : P (.atom p.atom)) (hq : P (.atom q.atom))
      (hn : P (.func .bottom [.mk (.atom p.atom)] (.mk (.atom q.atom)))) :
      Ty.Everywhere P (.mk (.func .bottom [.mk (.atom p.atom)] (.mk (.atom q.atom)))) :=
    .mk hn (List.forall_mem_cons.2 ⟨.mk hp nofun, List.forall_mem_singleton.2 (.mk hq nofun)⟩)
  obtain ⟨s, f, g, hreach, hf, hg⟩ := exists_two_stored (hfunc (P := Ty.NormalLayer)
    (p := .int64) (q := .int8) trivial trivial trivial) (hfunc (p := .int8) (q := .int64)
    trivial trivial trivial)
  obtain ⟨log, h⟩ := hreach.exists_history
  have hs := h.sound
  have hheld (p : Preset) : s.Holds p.handle := (hs.preset p).1
  have hnode {x : Handle} {p q : Preset}
      (hx : s.Denotes x (.mk (.func .bottom [.mk (.atom p.atom)] (.mk (.atom q.atom))))) :
      s.node x = .func .bottom [p.handle] q.handle := by
    apply node_eq_of_denotes hs
    · simp [Node.children, hheld]
    · rw [← (tree_preset hs p).2, ← (tree_preset hs q).2] at hx
      exact hx
  have hof : s.HoldsOf Kind.IsNilFree f := .of_denotes hf (hfunc (by decide) (by decide) (by decide))
  have hog : s.HoldsOf Kind.IsNilFree g := .of_denotes hg (hfunc (by decide) (by decide) (by decide))
  have hint (p q : Preset) (hp : p.atom.kind = .int) (hq : q.atom.kind = .int) :
      s.Isa p.handle q.handle ↔ Ty.inf (.mk (.atom p.atom)) (.mk (.atom q.atom)) =
        .mk (.atom q.atom) := by
    have hp' : Kind.IsNilFree p.atom.kind := by rw [hp]; decide
    have hq' : Kind.IsNilFree q.atom.kind := by rw [hq]; decide
    rw [isa_iff (fun _ h => h.2.1) hs (holdsOf_preset hs p hp') (holdsOf_preset hs q hq'),
      (tree_preset hs p).2, (tree_preset hs q).2]
  have hwider : s.Isa Preset.int8.handle Preset.int64.handle :=
    (hint .int8 .int64 rfl rfl).2 (by decide +kernel)
  have hnarrower : ¬s.Isa Preset.int64.handle Preset.int8.handle := by
    rw [hint .int64 .int8 rfl rfl]
    decide +kernel
  have hfg := isa_iff_structural h hof hog (by rw [hnode hf, hnode hg]; rfl)
    (by rw [hnode hf]; exact .inr (.inl rfl))
  have hgf := isa_iff_structural h hog hof (by rw [hnode hf, hnode hg]; rfl)
    (by rw [hnode hg]; exact .inr (.inl rfl))
  rw [hnode hf, hnode hg] at hfg hgf
  refine ⟨s, f, g, log, h, hf, hg, hfg.2 ⟨.cons hwider .nil, hwider, nofun⟩, fun hcon => ?_⟩
  exact hnarrower (hgf.1 hcon).2.1

end Store

end TypeLattice
