import Mathlib.Data.List.Forall2
import TypeLattice.Proofs.ClassBounds

namespace TypeLattice

theorem Half.inf_flip_self (h k : Half) : h.inf (h.flip.inf k).flip = h := by
  cases h <;> cases k <;> rfl

theorem poolTargets_flip_self (h k : Half) (s t : OrdSet Nat) :
    poolTargets (h, s) ((poolTargets (h.flip, s) (k.flip, t)).1.flip,
      (poolTargets (h.flip, s) (k.flip, t)).2) = (h, s) := by
  cases h <;> cases k <;>
    simp only [poolTargets, Half.flip, OrdSet.inter_union_self, OrdSet.union_inter_self,
      OrdSet.inter_self]

theorem poolFields_flip_eq_iff {α : Type} {meet join : α → α → α} {h k : Half}
    {fs gs : List (String × α)} (hf : Ascending.Sorted (fs.map Prod.fst))
    (hg : Ascending.Sorted (gs.map Prod.fst)) (hself : ∀ f ∈ fs, meet f.2 f.2 = f.2) :
    poolFields meet (h, fs) ((poolFields join (h.flip, fs) (k.flip, gs)).1.flip,
        (poolFields join (h.flip, fs) (k.flip, gs)).2) = (h, fs) ↔
      (h = k → ∀ f ∈ fs, ∀ g ∈ gs, f.1 = g.1 → meet f.2 (join f.2 g.2) = f.2) := by
  have hkey (m : α → α → α) (f g : String × α) : (mergeField m f g).1 = f.1 := rfl
  have hmerge : ∀ f ∈ fs, mergeField meet f f = f := fun f hf => Prod.ext rfl (hself f hf)
  have habsorb (f g : String × α) :
      mergeField meet f (mergeField join f g) = f ↔ meet f.2 (join f.2 g.2) = f.2 :=
    ⟨fun h => congrArg Prod.snd h, fun h => Prod.ext rfl h⟩
  cases h <;> cases k <;>
    simp only [poolFields, Half.flip, Ascending.unionBy_self hmerge, Prod.mk.injEq, true_and,
      Ascending.unionBy_interBy_eq_iff (hkey meet) (hkey join) hf hg,
      Ascending.interBy_unionBy_eq_iff (hkey meet) (hkey join) hf hg hmerge, habsorb, forall_const,
      reduceCtorEq, false_imp_iff]

theorem zipWith_congr {α β γ : Type} {f g : α → β → γ} {as : List α} {bs : List β}
    (h : ∀ a ∈ as, ∀ b ∈ bs, f a b = g a b) : List.zipWith f as bs = List.zipWith g as bs := by
  rw [← List.map_uncurry_zip_eq_zipWith, ← List.map_uncurry_zip_eq_zipWith]
  apply List.map_congr_left
  intro p hp
  exact h p.1 (List.of_mem_zip hp).1 p.2 (List.of_mem_zip hp).2

theorem zipWith_eq_right_iff {α β : Type} {f : α → β → β} {as : List α} {bs : List β}
    (hlen : as.length = bs.length) :
    List.zipWith f as bs = bs ↔ List.Forall₂ (fun a b => f a b = b) as bs := by
  induction as generalizing bs with
  | nil =>
      cases bs with
      | nil => simp
      | cons => cases hlen
  | cons a as ih =>
      cases bs with
      | nil => cases hlen
      | cons b bs =>
          rw [List.zipWith_cons_cons, List.cons.injEq, ih (Nat.succ.inj hlen), List.forall₂_cons]

theorem zipWith_absorb_iff {α : Type} {f g : α → α → α} {as bs : List α}
    (hlen : as.length = bs.length) :
    List.zipWith f as (List.zipWith g as bs) = as ↔ ∀ p ∈ as.zip bs, f p.1 (g p.1 p.2) = p.1 := by
  induction as generalizing bs with
  | nil => simp
  | cons a as ih =>
      cases bs with
      | nil => cases hlen
      | cons b bs =>
          rw [List.zipWith_cons_cons, List.zipWith_cons_cons, List.cons.injEq, ih (Nat.succ.inj hlen),
            List.zip_cons_cons, List.forall_mem_cons]

namespace Node

variable {α : Type}

/-- The components of two layers that a join combines with each other: those in the same place,
and of structs only if both are of the same half. -/
inductive Faces : Node α → Node α → α → α → Prop
  | inner {h k : Half} {x y : α} : Faces (.nullable h x) (.nullable k y) x y
  | param {h k : Half} {ps qs : List α} {r q x y : α} (length : ps.length = qs.length)
      (mem : (x, y) ∈ ps.zip qs) : Faces (.func h ps r) (.func k qs q) x y
  | result {h k : Half} {ps qs : List α} {r q : α} (length : ps.length = qs.length) :
      Faces (.func h ps r) (.func k qs q) r q
  | field {h : Half} {fs gs : List (String × α)} {l : String} {x y : α} (left : (l, x) ∈ fs)
      (right : (l, y) ∈ gs) : Faces (.struct h fs) (.struct h gs) x y
  | elem {h k : Half} {es ds : List α} {x y : α} (length : es.length = ds.length)
      (mem : (x, y) ∈ es.zip ds) : Faces (.tuple h es) (.tuple k ds) x y

theorem Faces.mem {n k : Node α} {x y : α} (h : n.Faces k x y) :
    x ∈ n.children ∧ y ∈ k.children := by
  have hlast {xs : List α} {x : α} : x ∈ xs ++ [x] := by simp
  cases h with
  | inner => exact ⟨List.mem_singleton_self x, List.mem_singleton_self y⟩
  | param _ hmem =>
      obtain ⟨hx, hy⟩ := List.of_mem_zip hmem
      exact ⟨List.mem_append_left _ hx, List.mem_append_left _ hy⟩
  | result => exact ⟨hlast, hlast⟩
  | field hx hy => exact ⟨List.mem_map_of_mem hx, List.mem_map_of_mem hy⟩
  | elem _ hmem => exact List.of_mem_zip hmem

theorem Faces.alike {n k : Node α} {x y : α} (h : n.Faces k x y) (hnil : n.kind ≠ .nil) :
    n.Alike k := by
  cases h with
  | inner => exact absurd rfl hnil
  | param hlen | result hlen => exact .func _ _ _ _ _ _ hlen
  | field => exact .struct _ _ _ _
  | elem hlen => exact .tuple _ _ _ _ hlen

end Node

namespace Ty

variable {x y : Ty}

theorem dual_inf (hx : x.Normal) (hy : y.Normal) : (inf x y).dual = sup x.dual y.dual := by
  rw [sup, dual_dual hx, dual_dual hy]

theorem dual_sup (hx : x.Normal) (hy : y.Normal) : (sup x y).dual = inf x.dual y.dual :=
  dual_dual (normal_inf (normal_dual hx) (normal_dual hy))

theorem sup_inf_self_iff (hx : x.Normal) (hy : y.Normal) :
    sup x (inf x y) = x ↔ Absorbs x.dual y.dual := by
  rw [sup, dual_inf hx hy, Absorbs]
  have hinf := normal_inf (normal_dual hx) (normal_sup (normal_dual hx) (normal_dual hy))
  exact ⟨fun h => by rw [← dual_dual hinf, h], fun h => by rw [h, dual_dual hx]⟩

theorem dual_func (h : Half) (ps : List Ty) (r : Ty) :
    dual (mk (.func h ps r)) = mk (.func h.flip (ps.map dual) r.dual) := dual_mk _

theorem dual_tuple (h : Half) (es : List Ty) :
    dual (mk (.tuple h es)) = mk (.tuple h.flip (es.map dual)) := dual_mk _

def dualField (f : String × Ty) : String × Ty := (f.1, f.2.dual)

theorem dual_struct (h : Half) (fs : List (String × Ty)) :
    dual (mk (.struct h fs)) = mk (.struct h.flip (fs.map dualField)) := dual_mk _

theorem sup_func {h k : Half} {ps qs : List Ty} {r q : Ty} (hps : ∀ p ∈ ps, p.Normal)
    (hqs : ∀ p ∈ qs, p.Normal) (hlen : ps.length = qs.length) :
    sup (mk (.func h ps r)) (mk (.func k qs q)) =
      mk (.func (h.flip.inf k.flip).flip (List.zipWith inf ps qs) (sup r q)) := by
  have hnormal : ∀ p ∈ ps.map dual, p.Normal := by
    intro p hp
    obtain ⟨u, hu, rfl⟩ := List.mem_map.1 hp
    exact normal_dual (hps u hu)
  have hparams : (List.zipWith sup (ps.map dual) (qs.map dual)).map dual =
      List.zipWith inf ps qs := by
    rw [List.zipWith_map, List.map_zipWith]
    apply zipWith_congr
    intro p hp q hq
    have hp := hps p hp
    have hq := hqs q hq
    rw [dual_sup (normal_dual hp) (normal_dual hq), dual_dual hp, dual_dual hq]
  rw [sup, dual_func, dual_func, inf_func hnormal, if_pos (by simp [hlen]), dual_func, hparams]
  rfl

theorem sup_tuple {h k : Half} {es ds : List Ty} (hlen : es.length = ds.length) :
    sup (mk (.tuple h es)) (mk (.tuple k ds)) =
      mk (.tuple (h.flip.inf k.flip).flip (List.zipWith sup es ds)) := by
  rw [sup, dual_tuple, dual_tuple, inf_tuple, if_pos (by simp [hlen]), dual_tuple,
    List.zipWith_map, List.map_zipWith]
  rfl

theorem sup_struct {h k : Half} {fs gs : List (String × Ty)} (hfs : ∀ f ∈ fs, f.2.Normal)
    (hgs : ∀ g ∈ gs, g.2.Normal) :
    sup (mk (.struct h fs)) (mk (.struct k gs)) =
      mk (.struct (poolFields sup (h.flip, fs) (k.flip, gs)).1.flip
        (poolFields sup (h.flip, fs) (k.flip, gs)).2) := by
  have htwice {es : List (String × Ty)} (hes : ∀ e ∈ es, e.2.Normal) :
      ∀ e ∈ es, dualField (dualField e) = e := fun e he => Prod.ext rfl (dual_dual (hes e he))
  have hmap {es : List (String × Ty)} (hes : ∀ e ∈ es, e.2.Normal) :
      (es.map dualField).map dualField = es := by
    rw [List.map_map]
    exact (List.map_congr_left (g := id) (htwice hes)).trans (List.map_id es)
  have hunion : (Ascending.unionBy Prod.fst (mergeField inf) (fs.map dualField)
      (gs.map dualField)).map dualField = Ascending.unionBy Prod.fst (mergeField sup) fs gs :=
    Ascending.unionBy_conjugate (fun _ => rfl) (htwice hfs) (htwice hgs)
  have hinter : (Ascending.interBy Prod.fst (mergeField inf) (fs.map dualField)
      (gs.map dualField)).map dualField = Ascending.interBy Prod.fst (mergeField sup) fs gs :=
    Ascending.interBy_conjugate fun _ => rfl
  rw [sup, dual_struct, dual_struct, inf_struct, dual_struct]
  cases h <;> cases k <;>
    simp only [poolFields, Half.flip, hunion, hinter, hmap hfs, hmap hgs]

theorem absorbs_strings (hx : x.Normal) (hxk : x.node.kind = .str) (hyk : y.node.kind = .str) :
    Absorbs x y := by
  apply bounded_strings.absorbs (within_strings hxk) (within_strings hyk)
  intro _ _ hxy
  obtain rfl : x = y := hxy
  rw [Absorbs, sup_self hx, inf_self]

theorem absorbs_atoms (a b : Atom) {c : Atom}
    (hinf : inf (ofAtom a.dual) (ofAtom b.dual) = ofAtom c)
    (h : inf (ofAtom a) (ofAtom c.dual) = ofAtom a) : Absorbs (ofAtom a) (ofAtom b) := by
  rw [Absorbs, sup, dual_ofAtom, dual_ofAtom, hinf, dual_ofAtom, h]

theorem absorbs_iff_of_alike {G : Ty → Ty → Prop} (hxy : x.node.Alike y.node) (hx : x.Normal)
    (hy : y.Normal) (ih : ∀ u v, x.node.Faces y.node u v →
      (Absorbs u v ↔ G u v) ∧ (Absorbs u.dual v.dual ↔ G u v)) :
    Absorbs x y ↔ ∀ u v, x.node.Faces y.node u v → G u v := by
  obtain ⟨n⟩ := x
  obtain ⟨k⟩ := y
  cases hxy with
  | ctrl h k =>
      refine iff_of_true (absorbs_atoms (.ctrl h) (.ctrl k) (inf_ctrl _ _) ?_) nofun
      exact (inf_ctrl h _).trans (by rw [Half.inf_flip_self])
  | int c d =>
      refine iff_of_true (absorbs_atoms (.int c) (.int d) (inf_int _ _) ?_) nofun
      exact (inf_int c _).trans (by rw [Numeric.inf_sup_self])
  | flt c d =>
      refine iff_of_true (absorbs_atoms (.flt c) (.flt d) (inf_flt _ _) ?_) nofun
      exact (inf_flt c _).trans (by rw [Numeric.inf_sup_self])
  | funPtr h s k t =>
      refine iff_of_true (absorbs_atoms (.funPtr h s) (.funPtr k t) (inf_funPtr _ _ _ _) ?_) nofun
      exact (inf_funPtr h _ s _).trans (by rw [poolTargets_flip_self])
  | rpc h s k t =>
      refine iff_of_true (absorbs_atoms (.rpc h s) (.rpc k t) (inf_rpc _ _ _ _) ?_) nofun
      exact (inf_rpc h _ s _).trans (by rw [poolTargets_flip_self])
  | strs | strConst | constStr | consts => exact iff_of_true (absorbs_strings hx rfl rfl) nofun
  | func i ps r j qs q hpq =>
      have hps : ∀ p ∈ ps, p.Normal := fun p hp => hx.parts p (List.mem_append_left _ hp)
      have hqs : ∀ p ∈ qs, p.Normal := fun p hp => hy.parts p (List.mem_append_left _ hp)
      have hparams : List.zipWith sup ps (List.zipWith inf ps qs) = ps ↔
          ∀ p ∈ ps.zip qs, G p.1 p.2 := by
        rw [zipWith_absorb_iff hpq]
        refine forall₂_congr fun p hp => ?_
        obtain ⟨hl, hr⟩ := List.of_mem_zip hp
        rw [sup_inf_self_iff (hps _ hl) (hqs _ hr), (ih p.1 p.2 (.param hpq hp)).2]
      have hresult : inf r (sup r q) = r ↔ G r q := (ih r q (.result hpq)).1
      rw [Absorbs, sup_func hps hqs hpq, inf_func hps, if_pos (by simp [hpq]), Half.inf_flip_self,
        mk.injEq, Node.func.injEq, and_iff_right rfl, hparams, hresult]
      constructor
      · rintro ⟨hp, hr⟩ u v hface
        cases hface with
        | param _ hmem => exact hp (u, v) hmem
        | result => exact hr
      · exact fun h => ⟨fun p hp => h p.1 p.2 (.param hpq hp), h r q (.result hpq)⟩
  | struct i fs j gs =>
      have hparts {i : Half} {fs : List (String × Ty)} (hx : (mk (.struct i fs)).Normal) :
          ∀ f ∈ fs, f.2.Normal := fun f hf => hx.parts f.2 (List.mem_map_of_mem hf)
      have hself : ∀ f ∈ fs, inf f.2 f.2 = f.2 := fun f _ => inf_self f.2
      rw [Absorbs, sup_struct (hparts hx) (hparts hy), inf_struct, mk.injEq, Node.struct.injEq,
        ← Prod.mk.injEq, poolFields_flip_eq_iff hx.layer.tidy hy.layer.tidy hself]
      constructor
      · rintro h u v hface
        cases hface with
        | field hu hv => exact (ih u v (.field hu hv)).1.1 (h rfl _ hu _ hv rfl)
      · rintro h rfl ⟨l, u⟩ hu ⟨m, v⟩ hv hlabel
        obtain rfl : l = m := hlabel
        exact (ih u v (.field hu hv)).1.2 (h u v (.field hu hv))
  | tuple i es j ds hed =>
      rw [Absorbs, sup_tuple hed, inf_tuple, if_pos (by simp [hed]), Half.inf_flip_self, mk.injEq,
        Node.tuple.injEq, and_iff_right rfl, zipWith_absorb_iff hed]
      constructor
      · rintro h u v hface
        cases hface with
        | elem _ hmem => exact (ih u v (.elem hed hmem)).1.1 (h (u, v) hmem)
      · exact fun h p hp => (ih p.1 p.2 (.elem hed hp)).1.2 (h p.1 p.2 (.elem hed hp))

theorem absorbs_core_iff {G : Ty → Ty → Prop} (hx : x.Normal) (hy : y.Normal) (hcx : x.IsCore)
    (hcy : y.IsCore) (ih : ∀ u v, x.node.Faces y.node u v →
      (Absorbs u v ↔ G u v) ∧ (Absorbs u.dual v.dual ↔ G u v)) :
    Absorbs x y ↔ ∀ u v, x.node.Faces y.node u v → G u v := by
  by_cases halike : x.node.Alike y.node
  · exact absorbs_iff_of_alike halike hx hy ih
  · refine iff_of_true ?_ fun u v hface => ?_
    · apply bounded_cores.absorbs (within_cores hx hcx) (within_cores hy hcy)
      intro ⟨_, hpx⟩ ⟨_, hpy⟩ hxy
      rcases cases_of_coreClass_eq hpx hpy hxy with ⟨hxp, hyp⟩ | ⟨hxw, -, hshape⟩
      · apply bounded_pointers.absorbs (within_pointers hx hxp) (within_pointers hy hyp)
        intro ⟨_, _, hxo⟩ _ hshape
        exact absurd (Node.alike_of_isPointer hxp hxo hshape) halike
      · exact absurd (Node.alike_of_isWord hxw hshape) halike
    · exact absurd (hface.alike (Kind.isCore_iff.1 hcx).2.1) halike

end Ty

end TypeLattice
