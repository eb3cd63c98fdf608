import TypeLattice.Proofs.Nullability

namespace TypeLattice

theorem Kind.lt_irrefl (k : Kind) : ¬k < k := Nat.lt_irrefl k.rank

theorem Plan.value_closed {Q : Ty → Prop} {meet join : Ty → Ty → Ty} {p : Plan Ty}
    (hfits : p.Fits Q fun u v => Q (meet u v) ∧ Q (join u v))
    (hbuild : ∀ l, p = .build l → ∀ f : Piece Ty → Ty, (∀ u ∈ (l.map f).children, Q u) →
      Q (Ty.build (l.map f))) : Q (p.value Ty.build meet join) := by
  cases p with
  | clash u v => exact hfits.1
  | keep u => exact hfits
  | meet u v => exact hfits.1
  | build l =>
      apply hbuild l rfl
      intro w hw
      rw [Node.children_map] at hw
      obtain ⟨q, hq, rfl⟩ := List.mem_map.1 hw
      have hq := hfits q hq
      cases q with
      | keep u => exact hq
      | meet u v => exact hq.1
      | join u v => exact hq.2

namespace Ty

theorem meet_name_name (l : String) (x y : Ty) :
    meet (mk (.name l x)) (mk (.name l y)) = (fun m => mk (.name l m)) <$> meet x y := by
  by_cases hxy : x = y
  · rw [hxy, meet_self, meet_self]
    rfl
  · have hplan : Plan.ofPair (mk (.name l x)) (.name l x) (mk (.name l y)) (.name l y) =
        .build (.name l (.meet x y)) := by
      rw [Plan.ofPair, if_neg (by exact Kind.lt_irrefl .name)]
      exact if_pos rfl
    rw [meet_eq, if_neg (by simpa using hxy), node, node, hplan]
    change (meet x y >>= fun m => _) >>= _ = _
    cases meet x y <;> rfl

theorem meet_name_ne {l k : String} (h : k ≠ l) (x y : Ty) :
    meet (mk (.name l x)) (mk (.name k y)) = meet x y := by
  have hplan : Plan.ofPair (mk (.name l x)) (.name l x) (mk (.name k y)) (.name k y) =
      .meet x y := by
    rw [Plan.ofPair, if_neg (by exact Kind.lt_irrefl .name)]
    exact if_neg h
  rw [meet_eq, if_neg (by simpa using fun he => absurd he.symm h), node, node, hplan]
  rfl

theorem meet_name_left {b : Ty} (hu : b.node.kind ≠ .universal) (hn : b.node.kind ≠ .name)
    (l : String) (x : Ty) : meet (mk (.name l x)) b = meet x b := by
  have hne : mk (.name l x) ≠ b := fun h => hn (h ▸ rfl)
  rw [meet_eq, if_neg hne, node]
  rcases ofPair_name hu hn l x with h | h
  · rw [h]
    rfl
  · rw [h]
    exact meet_comm b x

theorem meet_universal {a : Ty} (h : a.node.kind = .universal) (b : Ty) :
    meet a b = .ok (if a.node.half.isTop then b else a) := by
  have hlt (k : Kind) : ¬k < .universal := Nat.not_lt_zero _
  by_cases hab : a = b
  · rw [hab, meet_self, ite_self]
  · rw [meet_eq, if_neg hab, Plan.ofPair, if_neg (h ▸ hlt _)]
    rcases universal_cases h with rfl | rfl
    · rfl
    · rfl

theorem named_induction {C : Ty → Ty → Prop} (comm : ∀ a b, C b a → C a b)
    (universal : ∀ a b, a.node.kind = .universal → C a b)
    (names : ∀ l k x y, C x y → C (mk (.name l x)) (mk (.name k y)))
    (name : ∀ l x b, b.node.kind ≠ .universal → b.node.kind ≠ .name → C x b →
      C (mk (.name l x)) b)
    (bare : ∀ a b, a.node.kind ≠ .universal → b.node.kind ≠ .universal → a.node.kind ≠ .name →
      b.node.kind ≠ .name → (∀ u v, u.height + v.height < a.height + b.height → C u v) → C a b)
    (a b : Ty) : C a b := by
  induction a, b using pair_induction with
  | h a b ih =>
      by_cases hua : a.node.kind = .universal
      · exact universal a b hua
      · by_cases hub : b.node.kind = .universal
        · exact comm a b (universal b a hub)
        · have inner {l : String} {x : Ty} : x.height < (mk (.name l x)).height :=
            height_lt_of_mem (List.mem_singleton_self x)
          by_cases hna : a.node.kind = .name
          · obtain ⟨n⟩ := a
            obtain ⟨l, x, rfl⟩ := Node.kind_eq_name.1 hna
            have hx := inner (l := l) (x := x)
            by_cases hnb : b.node.kind = .name
            · obtain ⟨k⟩ := b
              obtain ⟨k, y, rfl⟩ := Node.kind_eq_name.1 hnb
              have hy := inner (l := k) (x := y)
              exact names l k x y (ih x y (by omega))
            · exact name l x b hub hnb (ih x b (by omega))
          · by_cases hnb : b.node.kind = .name
            · obtain ⟨k⟩ := b
              obtain ⟨k, y, rfl⟩ := Node.kind_eq_name.1 hnb
              have hy := inner (l := k) (x := y)
              exact comm _ _ (name k y a hua hna (comm _ _ (ih a y (by omega))))
            · exact bare a b hua hub hna hnb ih

def NamesValue : Node Ty → Prop
  | .name _ t => t.unname.node.kind ≠ .universal
  | _ => True

/-- No name stands over a universal type, be it behind further names. -/
def Decorated : Ty → Prop := Everywhere NamesValue

theorem decorated_build {n : Node Ty} (hn : n.kind ≠ .name) (ht : ∀ t ∈ n.children, t.Decorated) :
    (build n).Decorated := by
  cases n with
  | nullable h t =>
      simp only [build]
      split
      · exact ht t (List.mem_singleton_self t)
      · exact .mk trivial ht
  | name => exact absurd rfl hn
  | _ => exact .mk trivial ht

theorem decorated_dual {t : Ty} (hn : t.Normal) (hd : t.Decorated) : t.dual.Decorated := by
  induction t with
  | mk n ih =>
      have hparts (u : Ty) (hu : u ∈ n.children) : u.dual.Decorated :=
        ih u hu (hn.parts u hu) (hd.parts u hu)
      rw [dual_of_normal hn]
      refine .mk ?_ fun u hu => ?_
      · cases n with
        | name l t =>
            have hkind := (dual_layers (hn.parts t (List.mem_singleton_self t))).2
            exact hkind.trans_ne hd.layer
        | _ => trivial
      · rw [node, Node.children_map, Node.children_flip] at hu
        obtain ⟨v, hv, rfl⟩ := List.mem_map.1 hu
        exact hparts v hv

theorem kind_unname_ne_name (t : Ty) : t.unname.node.kind ≠ .name := by
  induction t using unname_induction with
  | bare t hname => rwa [unname_of_ne hname]
  | name l t ih => rwa [unname_name]

theorem isUniversal_unname {t : Ty} (hd : t.Decorated) :
    t.unname.node.isUniversal = t.node.isUniversal := by
  by_cases hname : t.node.kind = .name
  · obtain ⟨n⟩ := t
    obtain ⟨l, u, rfl⟩ := Node.kind_eq_name.1 hname
    rw [unname_name, Node.isUniversal_eq]
    exact decide_eq_false hd.layer
  · rw [unname_of_ne hname]

theorem unname_ne_universal {t : Ty} (hd : t.Decorated) (h : t.node.kind ≠ .universal) :
    t.unname.node.kind ≠ .universal := by
  have hu := isUniversal_unname hd
  rw [Node.isUniversal_eq, Node.isUniversal_eq] at hu
  exact fun he => h (of_decide_eq_true (hu ▸ decide_eq_true he))

theorem kind_build_nullable (h : Half) (x : Ty) :
    (build (.nullable h x)).unname.node.kind = .nil ∨ build (.nullable h x) = x := by
  simp only [build]
  split
  · exact .inr rfl
  · exact .inl rfl

theorem unname_part_of_nil {t : Ty} (hn : t.Normal) (hd : t.Decorated) (hk : t.node.kind = .nil) :
    ∀ x ∈ t.node.children, x.unname.node.kind ≠ .universal := by
  intro x hx
  obtain ⟨n⟩ := t
  cases n with
  | nullable h y =>
      cases List.mem_singleton.1 hx
      have hlacks : x.absorbsNil = false := hn.layer
      rw [absorbsNil, Bool.or_eq_false_iff, Node.isUniversal_eq] at hlacks
      exact unname_ne_universal (hd.parts x hx) (of_decide_eq_false hlacks.1)
  | atom => cases hx
  | _ => cases hk

theorem unname_nil_inf {b : Ty} (hb : b.Normal) (hub : b.node.kind ≠ .universal)
    (hnb : b.node.kind ≠ .name) : (inf nil b).unname.node.kind ≠ .universal := by
  rcases inf_nil_cases hb hub hnb with h | h | h | ⟨y, h⟩ <;> rw [h] <;> exact nofun

theorem unname_inf_nil {a b : Ty} (ha : a.Normal) (hb : b.Normal) (hka : a.node.kind = .nil)
    (hub : b.node.kind ≠ .universal) (hnb : b.node.kind ≠ .name)
    (hwhole : ∀ x ∈ a.node.children, (inf x b).unname.node.kind ≠ .universal)
    (hparts : b.node.kind = .nil → ∀ x ∈ a.node.children, ∀ y ∈ b.node.children,
      (inf x y).unname.node.kind ≠ .universal) : (inf a b).unname.node.kind ≠ .universal := by
  have hnullable {h : Half} {t : Ty} (ht : t.unname.node.kind ≠ .universal) :
      (build (.nullable h t)).unname.node.kind ≠ .universal := by
    rcases kind_build_nullable h t with hk | hk
    · exact hk.trans_ne nofun
    · rwa [hk]
  obtain ⟨n⟩ := a
  cases n with
  | atom c =>
      cases c with
      | nil => exact unname_nil_inf hb hub hnb
      | _ => cases hka
  | nullable h x =>
      have hx : x ∈ (Node.nullable h x).children := List.mem_singleton_self x
      by_cases hk : b.node.kind = .nil
      · obtain ⟨k⟩ := b
        cases k with
        | atom d =>
            cases d with
            | nil =>
                rw [inf_comm]
                exact unname_nil_inf ha nofun nofun
            | _ => cases hk
        | nullable j z =>
            rw [inf_nullable_nullable ha.layer]
            exact hnullable (hparts rfl x hx z (List.mem_singleton_self z))
        | _ => cases hk
      · have hcore : b.IsCore := Kind.isCore_iff.2 ⟨hub, hk, hnb⟩
        by_cases hstay : b = anyScalar ∧ x.unname.node.kind = .ctrl
        · rw [hstay.1, inf_nullable_anyScalar h hstay.2]
          exact nofun
        · rw [inf_nullable_core hcore fun hb hc => hstay ⟨hb, hc⟩]
          exact hnullable (hwhole x hx)
  | _ => cases hka

theorem unname_inf_ne_universal {a b : Ty} (ha : a.Normal) (hb : b.Normal) (da : a.Decorated)
    (db : b.Decorated) (ua : a.unname.node.kind ≠ .universal)
    (ub : b.unname.node.kind ≠ .universal) : (inf a b).unname.node.kind ≠ .universal := by
  revert ha hb da db ua ub
  induction a, b using named_induction with
  | comm a b h => exact fun ha hb da db ua ub => inf_comm a b ▸ h hb ha db da ub ua
  | universal a b h =>
      intro _ _ _ _ ua
      rw [unname_of_ne (h.trans_ne nofun)] at ua
      exact absurd h ua
  | names l k x y ih =>
      intro ha hb da db ua ub
      have hmem {l : String} {x : Ty} : x ∈ (Node.name l x).children := List.mem_singleton_self x
      rw [unname_name] at ua ub
      have hxy := ih (ha.parts x hmem) (hb.parts y hmem) (da.parts x hmem) (db.parts y hmem) ua ub
      by_cases hk : k = l
      · rw [hk, inf_name_name, unname_name]
        exact hxy
      · rw [inf_name_ne hk]
        exact hxy
  | name l x b hu hn ih =>
      intro ha hb da db ua ub
      have hmem : x ∈ (Node.name l x).children := List.mem_singleton_self x
      rw [unname_name] at ua
      rw [inf_name_left (isValue_of_kind hu hn)]
      exact ih (ha.parts x hmem) hb (da.parts x hmem) db ua ub
  | bare a b hua hub hna hnb ih =>
      intro ha hb da db _ _
      have whole {u v x : Ty} (hu : u.Normal) (hv : v.Normal) (du : u.Decorated) (dv : v.Decorated)
          (hk : u.node.kind = .nil) (hsum : u.height + v.height ≤ a.height + b.height)
          (hb : v.unname.node.kind ≠ .universal) (hx : x ∈ u.node.children) :
          (inf x v).unname.node.kind ≠ .universal :=
        ih x v (by have := height_lt_of_mem_node hx; omega) (hu.parts x hx) hv (du.parts x hx) dv
          (unname_part_of_nil hu du hk x hx) hb
      by_cases hka : a.node.kind = .nil
      · apply unname_inf_nil ha hb hka hub hnb
        · exact fun x => whole ha hb da db hka (Nat.le_refl _) (unname_ne_universal db hub)
        · exact fun hkb x hx y hy => whole ha (hb.parts y hy) da (db.parts y hy) hka
            (by have := height_lt_of_mem_node hy; omega) (unname_part_of_nil hb db hkb y hy) hx
      · by_cases hkb : b.node.kind = .nil
        · rw [inf_comm]
          apply unname_inf_nil hb ha hkb hua hna
          · exact fun x => whole hb ha db da hkb (by omega) (unname_ne_universal da hua)
          · exact fun hka' => absurd hka' hka
        · have hcore := isCore_inf (Kind.isCore_iff.2 ⟨hua, hka, hna⟩)
            (Kind.isCore_iff.2 ⟨hub, hkb, hnb⟩) ha
          obtain ⟨hu, -, hn⟩ := Kind.isCore_iff.1 hcore
          rwa [unname_of_ne hn]

theorem decorated_inf {a b : Ty} (ha : a.Normal) (hb : b.Normal) (da : a.Decorated)
    (db : b.Decorated) : (inf a b).Decorated := by
  have hmem {l : String} {x : Ty} : x ∈ (Node.name l x).children := List.mem_singleton_self x
  revert ha hb da db
  induction a, b using named_induction with
  | comm a b h => exact fun ha hb da db => inf_comm a b ▸ h hb ha db da
  | universal a b h =>
      intro _ _ da db
      rcases universal_cases h with rfl | rfl
      · rwa [inf_any]
      · rwa [inf_all]
  | names l k x y ih =>
      intro ha hb da db
      have hxy := ih (ha.parts x hmem) (hb.parts y hmem) (da.parts x hmem) (db.parts y hmem)
      by_cases hk : k = l
      · rw [hk, inf_name_name]
        refine .mk ?_ (List.forall_mem_singleton.2 hxy)
        exact unname_inf_ne_universal (ha.parts x hmem) (hb.parts y hmem) (da.parts x hmem)
          (db.parts y hmem) da.layer db.layer
      · rwa [inf_name_ne hk]
  | name l x b hu hn ih =>
      intro ha hb da db
      rw [inf_name_left (isValue_of_kind hu hn)]
      exact ih (ha.parts x hmem) hb (da.parts x hmem) db
  | bare a b hua hub hna hnb ih =>
      intro ha hb da db
      rw [inf_eq]
      split
      · exact da
      · have hfits := total_fits (Q := fun t => t.Normal ∧ t.Decorated)
          (fun t h u hu => ⟨h.1.parts u hu, h.2.parts u hu⟩) ⟨ha, da⟩ ⟨hb, db⟩
        have hends := Plan.ends_ofTotal (K := (· ≠ .name)) (x := a) (y := b) hna hnb nofun nofun
        apply Plan.value_closed
        · refine hfits.mono (fun _ h => h.2) fun u v ⟨hu, hv, hlt⟩ => ?_
          refine ⟨ih u v hlt hu.1 hv.1 hu.2 hv.2, ?_⟩
          have hu' := height_dual_le u
          have hv' := height_dual_le v
          have hdual := ih u.dual v.dual (by omega) (normal_dual hu.1) (normal_dual hv.1)
            (decorated_dual hu.1 hu.2) (decorated_dual hv.1 hv.2)
          exact decorated_dual (normal_inf (normal_dual hu.1) (normal_dual hv.1)) hdual
        · intro l hl f hparts
          rw [hl] at hends
          exact decorated_build (by rw [Node.kind_map]; exact hends) hparts

theorem decorated_sup {a b : Ty} (ha : a.Normal) (hb : b.Normal) (da : a.Decorated)
    (db : b.Decorated) : (sup a b).Decorated :=
  decorated_dual (normal_inf (normal_dual ha) (normal_dual hb))
    (decorated_inf (normal_dual ha) (normal_dual hb) (decorated_dual ha da) (decorated_dual hb db))

end Ty

end TypeLattice
