import TypeLattice.Proofs.ClassBounds
import TypeLattice.Proofs.Nullability

namespace TypeLattice

theorem poolTargets_assoc (a b c : Half × OrdSet Nat) :
    poolTargets (poolTargets a b) c = poolTargets a (poolTargets b c) := by
  obtain ⟨h, s⟩ := a
  obtain ⟨k, t⟩ := b
  obtain ⟨l, u⟩ := c
  cases h <;> cases k <;> cases l <;>
    simp only [poolTargets, OrdSet.inter_assoc, OrdSet.union_assoc]

theorem zipWith_assoc {α : Type} {f : α → α → α} {as bs cs : List α}
    (h : ∀ a ∈ as, ∀ b ∈ bs, ∀ c ∈ cs, f (f a b) c = f a (f b c)) :
    List.zipWith f (List.zipWith f as bs) cs = List.zipWith f as (List.zipWith f bs cs) := by
  induction as generalizing bs cs with
  | nil => rfl
  | cons a as ih =>
      cases bs with
      | nil => rfl
      | cons b bs =>
          cases cs with
          | nil => rfl
          | cons c cs =>
              have hhead := h a List.mem_cons_self b List.mem_cons_self c List.mem_cons_self
              have htail := ih fun a ha b hb c hc => h a (List.mem_cons_of_mem _ ha) b
                (List.mem_cons_of_mem _ hb) c (List.mem_cons_of_mem _ hc)
              simp only [List.zipWith_cons_cons, hhead, htail]

theorem poolFields_assoc {α : Type} {meet : α → α → α} {h k l : Half}
    {fs gs es : List (String × α)} (hf : Ascending.Sorted (fs.map Prod.fst))
    (hg : Ascending.Sorted (gs.map Prod.fst)) (he : Ascending.Sorted (es.map Prod.fst))
    (hmeet : ∀ f ∈ fs, ∀ g ∈ gs, ∀ e ∈ es, meet (meet f.2 g.2) e.2 = meet f.2 (meet g.2 e.2)) :
    poolFields meet (poolFields meet (h, fs) (k, gs)) (l, es) =
      poolFields meet (h, fs) (poolFields meet (k, gs) (l, es)) := by
  have hkey (f g : String × α) : (mergeField meet f g).1 = f.1 := rfl
  have hmerge : ∀ f ∈ fs, ∀ g ∈ gs, ∀ e ∈ es,
      mergeField meet (mergeField meet f g) e = mergeField meet f (mergeField meet g e) :=
    fun f hf g hg e he => Prod.ext rfl (hmeet f hf g hg e he)
  cases h <;> cases k <;> cases l <;>
    simp only [poolFields, Ascending.unionBy_assoc hkey hf hg he hmerge,
      Ascending.interBy_assoc hkey hf hg he hmerge]

/-- The components with the half of the lattice whose bound is neutral for them: a meet of
functions joins the parameters. -/
def Node.sided {α : Type} (i : Half) : Node α → List (Half × α)
  | .func _ ps r => ps.map (i.flip, ·) ++ [(i, r)]
  | n => n.children.map (i, ·)

theorem Node.mem_children_of_mem_sided {α : Type} {i j : Half} {n : Node α} {x : α}
    (h : (j, x) ∈ n.sided i) : x ∈ n.children := by
  cases n with
  | func k ps r =>
      rcases List.mem_append.1 h with h | h
      · obtain ⟨p, hp, he⟩ := List.mem_map.1 h
        cases he
        exact List.mem_append_left _ hp
      · cases List.mem_singleton.1 h
        exact List.mem_append_right _ (List.mem_singleton_self x)
  | atom => exact absurd h List.not_mem_nil
  | nullable | name | struct | tuple =>
      obtain ⟨u, hu, he⟩ := List.mem_map.1 h
      cases he
      exact hu

theorem Node.sided_map_flip {α β : Type} (f : α → β) (i : Half) (n : Node α) :
    (n.flip.map f).sided i.flip = (n.sided i).map fun p => (p.1.flip, f p.2) := by
  cases n <;> simp [flip, map, sided, children, Function.comp_def]

namespace Ty

variable {x y z : Ty}

def AssocAt : Half → Ty → Ty → Ty → Prop
  | .top, u, v, w => Assoc u v w
  | .bottom, u, v, w => Assoc u.dual v.dual w.dual

theorem sup_assoc (hx : x.Normal) (hy : y.Normal) (hz : z.Normal)
    (h : Assoc x.dual y.dual z.dual) : sup (sup x y) z = sup x (sup y z) := by
  have hxy := normal_inf (normal_dual hx) (normal_dual hy)
  have hyz := normal_inf (normal_dual hy) (normal_dual hz)
  rw [sup, sup, dual_dual hxy, sup, sup, dual_dual hyz, h]

theorem assoc_strings (hx : x.node.kind = .str) (hy : y.node.kind = .str)
    (hz : z.node.kind = .str) : Assoc x y z := by
  apply bounded_strings.assoc (within_strings hx) (within_strings hy) (within_strings hz)
  intro _ _ _ hxy hyz
  obtain rfl : x = y := hxy
  obtain rfl : x = z := hyz
  rw [Assoc, inf_self]

theorem assoc_of_alike (hxy : x.node.Alike y.node) (hyz : y.node.Alike z.node) (hx : x.Normal)
    (hy : y.Normal) (hz : z.Normal)
    (ih : ∀ i u v w, (i, u) ∈ x.node.sided .top → (i, v) ∈ y.node.sided .top →
      (i, w) ∈ z.node.sided .top → AssocAt i u v w) : Assoc x y z := by
  obtain ⟨n⟩ := x
  obtain ⟨k⟩ := y
  obtain ⟨l⟩ := z
  cases hxy with
  | ctrl =>
      cases hyz
      rw [Assoc, inf_ctrl, inf_ctrl, inf_ctrl, inf_ctrl, Half.inf_assoc]
  | int =>
      cases hyz
      rw [Assoc, inf_int, inf_int, inf_int, inf_int, Numeric.inf_assoc]
  | flt =>
      cases hyz
      rw [Assoc, inf_flt, inf_flt, inf_flt, inf_flt, Numeric.inf_assoc]
  | funPtr =>
      cases hyz
      rw [Assoc, inf_funPtr, inf_funPtr, inf_funPtr, inf_funPtr]
      simp only [Prod.eta, poolTargets_assoc]
  | rpc =>
      cases hyz
      rw [Assoc, inf_rpc, inf_rpc, inf_rpc, inf_rpc]
      simp only [Prod.eta, poolTargets_assoc]
  | func i ps r j qs q hpq =>
      cases hyz with
      | func _ _ _ m ts t hqt =>
          have hps : ∀ p ∈ ps, p.Normal := fun p hp => hx.parts p (List.mem_append_left _ hp)
          have hqs : ∀ p ∈ qs, p.Normal := fun p hp => hy.parts p (List.mem_append_left _ hp)
          have hts : ∀ p ∈ ts, p.Normal := fun p hp => hz.parts p (List.mem_append_left _ hp)
          have hsup : ∀ p ∈ List.zipWith sup ps qs, p.Normal := by
            intro p hp
            obtain ⟨u, hu, v, hv, rfl⟩ := Plan.exists_of_mem_zipWith hp
            exact normal_sup (hps u hu) (hqs v hv)
          have hside {k : Half} {ts : List Ty} {t u : Ty} (hu : u ∈ ts) :
              (.bottom, u) ∈ (Node.func k ts t).sided .top :=
            List.mem_append_left _ (List.mem_map_of_mem hu)
          have hparams := zipWith_assoc fun u hu v hv w hw =>
            sup_assoc (hps u hu) (hqs v hv) (hts w hw)
              (ih .bottom u v w (hside hu) (hside hv) (hside hw))
          have hresult : Assoc r q t := by
            have hlast {k : Half} {ts : List Ty} {t : Ty} :
                (.top, t) ∈ (Node.func k ts t).sided .top :=
              List.mem_append_right _ (List.mem_singleton_self _)
            exact ih .top r q t hlast hlast hlast
          rw [Assoc, inf_func hps, if_pos hpq, inf_func hqs, if_pos hqt, inf_func hsup,
            if_pos (by simp [hpq, hqt]), inf_func hps, if_pos (by simp [hpq, hqt]), hparams,
            Half.inf_assoc, hresult]
  | strs | strConst | constStr | consts => cases hyz <;> exact assoc_strings rfl rfl rfl
  | struct i fs j gs =>
      cases hyz with
      | struct _ _ m es =>
          have hside {k : Half} {fs : List (String × Ty)} {f : String × Ty} (hf : f ∈ fs) :
              (.top, f.2) ∈ (Node.struct k fs).sided .top :=
            List.mem_map_of_mem (List.mem_map_of_mem hf)
          have hfields := poolFields_assoc (h := i) (k := j) (l := m) hx.layer.tidy hy.layer.tidy
            hz.layer.tidy fun f hf g hg e he => ih .top f.2 g.2 e.2 (hside hf) (hside hg) (hside he)
          rw [Assoc, inf_struct, inf_struct, inf_struct, inf_struct]
          simp only [Prod.eta, hfields]
  | tuple i es j ds hed =>
      cases hyz with
      | tuple _ _ m cs hdc =>
          have helems : List.zipWith inf (List.zipWith inf es ds) cs =
              List.zipWith inf es (List.zipWith inf ds cs) :=
            zipWith_assoc fun u hu v hv w hw => ih .top u v w (List.mem_map_of_mem hu)
              (List.mem_map_of_mem hv) (List.mem_map_of_mem hw)
          rw [Assoc, inf_tuple, if_pos hed, inf_tuple, if_pos (by simp [hed, hdc]), inf_tuple,
            if_pos hdc, inf_tuple, if_pos (by simp [hed, hdc]), helems, Half.inf_assoc]

theorem assoc_core (hx : x.Normal) (hy : y.Normal) (hz : z.Normal) (hcx : x.IsCore)
    (hcy : y.IsCore) (hcz : z.IsCore)
    (ih : ∀ i u v w, (i, u) ∈ x.node.sided .top → (i, v) ∈ y.node.sided .top →
      (i, w) ∈ z.node.sided .top → AssocAt i u v w) : Assoc x y z := by
  apply bounded_cores.assoc (within_cores hx hcx) (within_cores hy hcy) (within_cores hz hcz)
  intro ⟨_, hpx⟩ ⟨_, hpy⟩ ⟨_, hpz⟩ hxy hyz
  rcases cases_of_coreClass_eq hpx hpy hxy with ⟨hxp, hyp⟩ | ⟨hxw, hyw, hxy⟩
  · rcases cases_of_coreClass_eq hpy hpz hyz with ⟨-, hzp⟩ | ⟨hyw, -, -⟩
    · apply bounded_pointers.assoc (within_pointers hx hxp) (within_pointers hy hyp)
        (within_pointers hz hzp)
      intro ⟨_, _, hxo⟩ ⟨_, _, hyo⟩ _ hxy hyz
      exact assoc_of_alike (Node.alike_of_isPointer hxp hxo hxy)
        (Node.alike_of_isPointer hyp hyo hyz) hx hy hz ih
    · rw [(Kind.ne_of_isWord hyw).2.2.2] at hyp
      cases hyp
  · rw [coreClass_word hyw] at hyz
    rcases hpz with hzp | hzw
    · rw [coreClass_pointer hzp] at hyz
      cases hyz
    · rw [coreClass_word hzw] at hyz
      exact assoc_of_alike (Node.alike_of_isWord hxw hxy)
        (Node.alike_of_isWord hyw (Option.some.inj hyz)) hx hy hz ih

/-- Names stand neither over names nor over the universal type that is neutral, and below nil only
over control. -/
def SimplyNamedLayer (i : Half) : Node Ty → Prop
  | .name _ t => t ≠ ofAtom (.universal i) ∧ t.node.kind ≠ .name
  | .nullable _ t => t.node.kind = .name → t.unname.node.kind = .ctrl
  | _ => True

inductive SimplyNamed : Half → Ty → Prop
  | mk {i : Half} {n : Node Ty} (layer : SimplyNamedLayer i n)
      (parts : ∀ j u, (j, u) ∈ n.sided i → SimplyNamed j u) : SimplyNamed i (.mk n)

theorem SimplyNamed.layer {i : Half} {t : Ty} (h : t.SimplyNamed i) :
    SimplyNamedLayer i t.node := by
  cases h with
  | mk hn _ => exact hn

theorem SimplyNamed.parts {i : Half} {t : Ty} (h : SimplyNamed i t) :
    ∀ j u, (j, u) ∈ t.node.sided i → SimplyNamed j u := by
  cases h with
  | mk _ ht => exact ht

theorem simplyNamed_dual {i : Half} {t : Ty} (hn : t.Normal) (h : SimplyNamed i t) :
    SimplyNamed i.flip t.dual := by
  induction h with
  | mk hlayer _ ih =>
      rename_i i n _
      rw [dual_of_normal hn]
      refine .mk ?_ fun j u hu => ?_
      · have hkind (u : Ty) (hu : u ∈ n.children) := kind_dual (hn.parts u hu)
        cases n with
        | name l t =>
            have hmem : t ∈ (Node.name l t).children := List.mem_singleton_self t
            obtain ⟨hu, hname⟩ : t ≠ ofAtom (.universal i) ∧ t.node.kind ≠ .name := hlayer
            refine ⟨fun he => hu ?_, (hkind t hmem).trans_ne hname⟩
            rw [← dual_dual (hn.parts t hmem), he, dual_ofAtom]
            cases i <;> rfl
        | nullable k t =>
            have hmem : t ∈ (Node.nullable k t).children := List.mem_singleton_self t
            have hctrl : t.node.kind = .name → t.unname.node.kind = .ctrl := hlayer
            rw [← hkind t hmem, ← (dual_layers (hn.parts t hmem)).2] at hctrl
            exact hctrl
        | _ => trivial
      · rw [node, Node.sided_map_flip] at hu
        obtain ⟨⟨k, v⟩, hv, he⟩ := List.mem_map.1 hu
        cases he
        exact ih k v hv (hn.parts v (Node.mem_children_of_mem_sided hv))

theorem isValue_withNil (p : Option Mark) (hx : x.IsCore) : (withNil x p).IsValue := by
  have hnil {t : Ty} (h : t.node.kind = .nil) : t.IsValue :=
    isValue_of_kind (h.trans_ne (by decide)) (h.trans_ne (by decide))
  cases p with
  | none => exact isValue_of_isCore hx
  | some m =>
      rw [withNil]
      rcases core_cases hx with rfl | rfl | hp | hw
      · rw [orNil_anyScalar]; exact hnil rfl
      · rw [orNil_scalar]; exact isValue_of_isCore rfl
      · rw [orNil_pointer m hp]; exact isValue_of_isCore rfl
      · rw [orNil_word m hw]; exact hnil rfl

/-- A core to which nil may have been added in a simply named type. -/
structure Bears (x : Ty) (p : Option Mark) : Prop where
  core : x.IsCore
  normal : x.Normal
  simple : SimplyNamed .top x
  names : NamesControl (nilName p) x

theorem namesControl_none (x : Ty) : NamesControl none x := fun h => absurd rfl h

theorem exists_withNil {t : Ty} (hn : t.Normal) (hs : SimplyNamed .top t) (hv : t.IsValue)
    (hu : t.node.kind ≠ .universal) :
    ∃ x p, t = withNil x p ∧ Bears x p ∧ x.height ≤ t.height := by
  by_cases hnil : t.node.kind = .nil
  · obtain ⟨n⟩ := t
    cases n with
    | atom a =>
        cases a with
        | nil =>
            exact ⟨anyScalar, some ⟨.bottom, none⟩, (orNil_anyScalar _).symm,
              ⟨rfl, normal_ofAtom _, .mk trivial nofun, namesControl_none _⟩, height_pos _⟩
        | _ => cases hnil
    | nullable h z =>
        have hmem : z ∈ (Node.nullable h z).children := List.mem_singleton_self z
        have hnz := hn.parts z hmem
        have hsz := hs.parts .top z (List.mem_singleton_self _)
        have hlt := height_lt_of_mem hmem
        by_cases hname : z.node.kind = .name
        · have hctrl : z.unname.node.kind = .ctrl := (hs.layer : z.node.kind = .name → _) hname
          obtain ⟨k⟩ := z
          obtain ⟨l, w, rfl⟩ := Node.kind_eq_name.1 hname
          have hmem' : w ∈ (Node.name l w).children := List.mem_singleton_self w
          have hw : w.IsValue := hsz.layer
          have hlt' := height_lt_of_mem hmem'
          rw [unname_name, unname_of_ne hw.2] at hctrl
          have hword : w.node.kind.isWord = true := by rw [hctrl]; rfl
          exact ⟨w, some ⟨h, some l⟩, (orNil_word ⟨h, some l⟩ hword).symm,
            ⟨(Kind.ne_of_isWord hword).1, hnz.parts w hmem',
              hsz.parts .top w (List.mem_singleton_self _), fun _ => hctrl⟩, by omega⟩
        · have habsorbs : z.absorbsNil = false := hn.layer
          have hword : z.node.kind.isWord = true := by
            rw [absorbsNil_eq hname] at habsorbs
            simpa using habsorbs
          exact ⟨z, some ⟨h, none⟩, (orNil_word ⟨h, none⟩ hword).symm,
            ⟨(Kind.ne_of_isWord hword).1, hnz, hsz, namesControl_none z⟩, Nat.le_of_lt hlt⟩
    | _ => cases hnil
  · exact ⟨t, none, rfl, ⟨Kind.isCore_iff.2 ⟨hu, hnil, hv.2⟩, hn, hs, namesControl_none t⟩,
      Nat.le_refl _⟩

theorem assoc_of_universal (h : x.node.kind = .universal ∨ y.node.kind = .universal ∨
    z.node.kind = .universal) : Assoc x y z := by
  rw [Assoc]
  rcases h with h | h | h
  · rcases universal_cases h with rfl | rfl
    · rw [inf_any, inf_any]
    · rw [inf_all, inf_all, inf_all]
  · rcases universal_cases h with rfl | rfl
    · rw [inf_any, inf_comm x, inf_any]
    · rw [inf_comm x, inf_all, inf_all, inf_comm x, inf_all]
  · rcases universal_cases h with rfl | rfl
    · rw [inf_comm, inf_any, inf_comm y, inf_any]
    · rw [inf_comm, inf_all, inf_comm y, inf_all, inf_comm x, inf_all]

theorem assoc_values (hx : x.Normal) (hy : y.Normal) (hz : z.Normal) (sx : SimplyNamed .top x)
    (sy : SimplyNamed .top y) (sz : SimplyNamed .top z) (vx : x.IsValue) (vy : y.IsValue)
    (vz : z.IsValue)
    (ih : ∀ i u v w, u.height < x.height → v.height < y.height → w.height < z.height → u.Normal →
      v.Normal → w.Normal → SimplyNamed i u → SimplyNamed i v → SimplyNamed i w → AssocAt i u v w) :
    Assoc x y z := by
  by_cases hu : x.node.kind = .universal ∨ y.node.kind = .universal ∨ z.node.kind = .universal
  · exact assoc_of_universal hu
  · simp only [not_or] at hu
    obtain ⟨a, p, rfl, ha, hha⟩ := exists_withNil hx sx vx hu.1
    obtain ⟨b, q, rfl, hb, hhb⟩ := exists_withNil hy sy vy hu.2.1
    obtain ⟨c, r, rfl, hc, hhc⟩ := exists_withNil hz sz vz hu.2.2
    apply inf_withNil_assoc ha.core hb.core hc.core ha.normal hb.normal hc.normal ha.names hb.names
      hc.names
    apply assoc_core ha.normal hb.normal hc.normal ha.core hb.core hc.core
    intro i u v w hu hv hw
    have hmu := Node.mem_children_of_mem_sided hu
    have hmv := Node.mem_children_of_mem_sided hv
    have hmw := Node.mem_children_of_mem_sided hw
    exact ih i u v w (Nat.lt_of_lt_of_le (height_lt_of_mem_node hmu) hha)
      (Nat.lt_of_lt_of_le (height_lt_of_mem_node hmv) hhb)
      (Nat.lt_of_lt_of_le (height_lt_of_mem_node hmw) hhc) (ha.normal.parts u hmu)
      (hb.normal.parts v hmv) (hc.normal.parts w hmw) (ha.simple.parts i u hu)
      (hb.simple.parts i v hv) (hc.simple.parts i w hw)

theorem isValue_inf (hx : x.Normal) (hy : y.Normal) (sx : SimplyNamed .top x)
    (sy : SimplyNamed .top y) (vx : x.IsValue) (vy : y.IsValue) : (inf x y).IsValue := by
  have hall : (ofAtom (.universal .bottom)).IsValue := ⟨by simp, nofun⟩
  by_cases hux : x.node.kind = .universal
  · rw [(universal_cases hux).resolve_left vx.1, inf_all]
    exact hall
  · by_cases huy : y.node.kind = .universal
    · rw [(universal_cases huy).resolve_left vy.1, inf_comm, inf_all]
      exact hall
    · obtain ⟨a, p, rfl, ha, -⟩ := exists_withNil hx sx vx hux
      obtain ⟨b, q, rfl, hb, -⟩ := exists_withNil hy sy vy huy
      rw [inf_withNil ha.core hb.core ha.normal hb.normal ha.names hb.names]
      exact isValue_withNil _ (isCore_inf ha.core hb.core ha.normal)

theorem exists_withName {t : Ty} (hn : t.Normal) (hs : SimplyNamed .top t)
    (hany : t ≠ ofAtom (.universal .top)) :
    ∃ l v, t = withName l v ∧ v.IsValue ∧ v.Normal ∧ SimplyNamed .top v ∧ v.height ≤ t.height := by
  by_cases hname : t.node.kind = .name
  · obtain ⟨n⟩ := t
    obtain ⟨l, v, rfl⟩ := Node.kind_eq_name.1 hname
    have hmem : v ∈ (Node.name l v).children := List.mem_singleton_self v
    exact ⟨some l, v, rfl, hs.layer, hn.parts v hmem, hs.parts .top v (List.mem_singleton_self _),
      Nat.le_of_lt (height_lt_of_mem hmem)⟩
  · exact ⟨none, t, rfl, ⟨hany, hname⟩, hn, hs, Nat.le_refl _⟩

/-- Meets of simply named types are associative. -/
theorem inf_assoc (hx : x.Normal) (hy : y.Normal) (hz : z.Normal) (sx : SimplyNamed .top x)
    (sy : SimplyNamed .top y) (sz : SimplyNamed .top z) : inf (inf x y) z = inf x (inf y z) := by
  -- By height: parameters are met as their duals, which are as high but are no components.
  obtain ⟨n, hle⟩ : ∃ n, x.height + y.height + z.height ≤ n := ⟨_, Nat.le_refl _⟩
  induction n generalizing x y z with
  | zero => have := height_pos x; omega
  | succ n ih =>
      by_cases hu : x = ofAtom (.universal .top) ∨ y = ofAtom (.universal .top) ∨
          z = ofAtom (.universal .top)
      · apply assoc_of_universal
        rcases hu with rfl | rfl | rfl
        · exact .inl rfl
        · exact .inr (.inl rfl)
        · exact .inr (.inr rfl)
      · simp only [not_or] at hu
        obtain ⟨l, a, rfl, va, hna, hsa, hha⟩ := exists_withName hx sx hu.1
        obtain ⟨k, b, rfl, vb, hnb, hsb, hhb⟩ := exists_withName hy sy hu.2.1
        obtain ⟨m, c, rfl, vc, hnc, hsc, hhc⟩ := exists_withName hz sz hu.2.2
        have hvalues : Assoc a b c := by
          apply assoc_values hna hnb hnc hsa hsb hsc va vb vc
          intro i u v w hlu hlv hlw hnu hnv hnw hsu hsv hsw
          cases i with
          | top => exact ih hnu hnv hnw hsu hsv hsw (by omega)
          | bottom =>
              apply ih (normal_dual hnu) (normal_dual hnv) (normal_dual hnw)
                (simplyNamed_dual hnu hsu) (simplyNamed_dual hnv hsv) (simplyNamed_dual hnw hsw)
              rw [height_dual hnu, height_dual hnv, height_dual hnw]
              omega
        rw [inf_withName l k va vb, inf_withName k m vb vc,
          inf_withName _ m (isValue_inf hna hnb hsa hsb va vb) vc,
          inf_withName l _ va (isValue_inf hnb hnc hsb hsc vb vc), commonName_assoc, hvalues]

end Ty

end TypeLattice
