import TypeLattice.Proofs.Realization
import TypeLattice.Proofs.Regrouping

namespace TypeLattice

/-- The meet of three types in both groupings, one after the other. -/
def regroup {α : Type} {m : Type → Type} [Monad m] (meet : α → α → m α) (a b c : α) :
    m (α × α) := do
  let ab ← meet a b
  let left ← meet ab c
  let bc ← meet b c
  let right ← meet a bc
  return (left, right)

namespace Ty

variable {a b c : Ty}

theorem eq_inf_of_regroup {l r : Ty} (h : regroup meet a b c = .ok (l, r)) :
    l = inf (inf a b) c ∧ r = inf a (inf b c) := by
  obtain ⟨ab, hab, h⟩ := Node.exists_of_bind_eq_ok h
  obtain ⟨left, hleft, h⟩ := Node.exists_of_bind_eq_ok h
  obtain ⟨bc, hbc, h⟩ := Node.exists_of_bind_eq_ok h
  obtain ⟨right, hright, h⟩ := Node.exists_of_bind_eq_ok h
  cases h
  rw [inf_of_meet hab, inf_of_meet hleft, inf_of_meet hbc, inf_of_meet hright]
  exact ⟨rfl, rfl⟩

theorem regroup_eq (hab : Meets a b) (hleft : Meets (inf a b) c) (hbc : Meets b c)
    (hright : Meets a (inf b c)) :
    regroup meet a b c = .ok (inf (inf a b) c, inf a (inf b c)) := by
  rw [Meets] at hab hleft hbc hright
  rw [regroup, hab, hbc]
  change (meet (inf a b) c >>= fun l => meet a (inf b c) >>= fun r => .ok (l, r)) = _
  rw [hleft, hright]
  rfl

theorem regroup_names {l k m : String} (hk : k ≠ l) (hm : m ≠ k) (ha : a.IsValue) :
    regroup meet (mk (.name l a)) (mk (.name k a)) (mk (.name m a)) = .ok (a, a) := by
  have hleft : inf (mk (.name l a)) (mk (.name k a)) = a := by rw [inf_name_ne hk, inf_self]
  have hright : inf (mk (.name k a)) (mk (.name m a)) = a := by rw [inf_name_ne hm, inf_self]
  have hmeets (i : String) : Meets (mk (.name i a)) a := meets_name_left ha i (meets_self a)
  have houter : Meets (inf (mk (.name l a)) (mk (.name k a))) (mk (.name m a)) := by
    rw [hleft]
    exact (hmeets m).comm
  have houter' : Meets (mk (.name l a)) (inf (mk (.name k a)) (mk (.name m a))) := by
    rw [hright]
    exact hmeets l
  rw [regroup_eq (meets_name_ne hk (meets_self a)) houter (meets_name_ne hm (meets_self a)) houter',
    hleft, hright, inf_comm, inf_named_self ha, inf_named_self ha]

theorem Breaks.regroup_eq (h : Breaks a b c) :
    regroup meet a b c = .ok (inf (inf a b) c, inf a (inf b c)) :=
  Ty.regroup_eq h.left h.leftOuter h.right h.rightOuter

end Ty

namespace Store

variable {s : Store} {a b c : Handle}

/-- Where both groupings of the meet exist, they are the same. -/
def Associates (s : Store) (a b c : Handle) : Prop :=
  ∀ l r s', (regroup meet a b c).run.run s = (.ok (l, r), s') → l = r

theorem regroup_follows {t u v : Ty} (hs : s.Sound) (ha : s.Denotes a t) (hb : s.Denotes b u)
    (hc : s.Denotes c v) : leads.failing.Rel
      (fun s p q => s.Denotes p.1 q.1 ∧ s.Denotes p.2 q.2) s (regroup meet a b c)
      (regroup Ty.meet t u v) := by
  refine leads.failing.bind (meet_follows hs ha hb) fun s₁ ab _ hs₁ hle₁ _ hab => ?_
  have hc₁ := hc.mono hs hle₁
  refine leads.failing.bind (meet_follows hs₁ hab hc₁) fun s₂ l _ hs₂ hle₂ _ hl => ?_
  have hb₂ := hb.mono hs (le_trans hle₁ hle₂)
  have hc₂ := hc₁.mono hs₁ hle₂
  refine leads.failing.bind (meet_follows hs₂ hb₂ hc₂) fun s₃ bc _ hs₃ hle₃ _ hbc => ?_
  have ha₃ := ha.mono hs (le_trans (le_trans hle₁ hle₂) hle₃)
  refine leads.failing.bind (meet_follows hs₃ ha₃ hbc) fun s₄ r _ hs₄ hle₄ _ hr => ?_
  exact leads.failing.pure hs₄ ⟨hl.mono hs₂ (le_trans hle₃ hle₄), hr⟩

theorem regroup_run {t u v p q : Ty} (hs : s.Sound) (ha : s.Denotes a t) (hb : s.Denotes b u)
    (hc : s.Denotes c v) (h : regroup Ty.meet t u v = .ok (p, q)) :
    ∃ l r s', (regroup meet a b c).run.run s = (.ok (l, r), s') ∧ s'.Sound ∧ s'.Denotes l p ∧
      s'.Denotes r q := by
  obtain ⟨hs', -, hagree⟩ := regroup_follows hs ha hb hc
  rw [h] at hagree
  generalize (regroup meet a b c).run.run s = e at *
  obtain ⟨e, s'⟩ := e
  cases hagree with
  | ok h => exact ⟨_, _, s', rfl, hs', h⟩

theorem associates_iff {t u v : Ty} (hs : s.Sound) (ha : s.Denotes a t) (hb : s.Denotes b u)
    (hc : s.Denotes c v) :
    s.Associates a b c ↔ ∀ l r, regroup Ty.meet t u v = .ok (l, r) → l = r := by
  obtain ⟨hs', -, hagree⟩ := regroup_follows hs ha hb hc
  rw [Associates]
  generalize regroup Ty.meet t u v = y at *
  generalize (regroup meet a b c).run.run s = e at *
  obtain ⟨e, s'⟩ := e
  cases hagree with
  | error => exact ⟨fun _ => nofun, fun _ => nofun⟩
  | ok h =>
      rename_i p q
      obtain ⟨l, r⟩ := p
      obtain ⟨l', r'⟩ := q
      have hiff := Denotes.eq_iff hs' h.1 h.2
      constructor
      · intro hassoc t u he
        cases he
        exact hiff.1 (hassoc l r s' rfl)
      · intro hassoc t u s'' he
        cases he
        exact hiff.2 (hassoc l' r' rfl)

/-- Of the meets of an integer under two names, one grouping keeps the inner name and the other
does not. -/
theorem twice_named_groupings_differ : ∃ s a b c l r s', s.Reachable ∧
    s.Denotes a (.mk (.name "X" (.mk (.name "Y" (.mk (.atom Preset.int64.atom)))))) ∧
    s.Denotes b (.mk (.name "Z" (.mk (.name "Y" (.mk (.atom Preset.int64.atom)))))) ∧
    s.Denotes c (.mk (.name "Y" (.mk (.atom Preset.int64.atom)))) ∧
    (regroup meet a b c).run.run s = (.ok (l, r), s') ∧
    s'.Denotes l (.mk (.name "Y" (.mk (.atom Preset.int64.atom)))) ∧
    s'.Denotes r (.mk (.atom Preset.int64.atom)) ∧ l ≠ r := by
  have hvalue : (Ty.ofAtom Preset.int64.atom).IsValue := Ty.isValue_of_isCore rfl
  have hy := Ty.normal_name "Y" (Ty.normal_ofAtom Preset.int64.atom)
  obtain ⟨a, s₁, hs₁, -, ha⟩ := storable_of_normal (Ty.normal_name "X" hy) initial .initial
  obtain ⟨b, s₂, hs₂, hle₂, hb⟩ := storable_of_normal (Ty.normal_name "Z" hy) s₁ hs₁
  obtain ⟨c, s₃, hs₃, hle₃, hc⟩ := storable_of_normal hy s₂ hs₂
  replace ha := ha.mono hs₁.sound (le_trans hle₂ hle₃)
  replace hb := hb.mono hs₂.sound hle₃
  have hbreaks := Ty.breaks_of_named_twice (by decide : "Z" ≠ "X") (by decide : "Y" ≠ "Z") hvalue
  obtain ⟨l, r, s', hrun, hs', hl, hr⟩ := regroup_run hs₃.sound ha hb hc hbreaks.regroup_eq
  have hne : l ≠ r := fun h => hbreaks.ne ((Denotes.eq_iff hs' hl hr).1 h)
  rw [Ty.inf_named_twice (by decide), Ty.inf_self] at hl
  rw [Ty.inf_named_once (by decide) hvalue, Ty.inf_name_left hvalue, Ty.inf_named_self hvalue] at hr
  exact ⟨s₃, a, b, c, l, r, s', hs₃, ha, hb, hc, hrun, hl, hr, hne⟩

/-- Meets of simply named types do not depend on how they are grouped. Of any other type they do:
sooner or later the store holds two types with which both groupings exist and differ. -/
theorem meet_assoc_exactly_on_simple_names (hs : s.Reachable) (ha : s.Holds a) :
    (Ty.SimplyNamed .top (s.tree a) → ∀ b c, s.Holds b → s.Holds c →
      Ty.SimplyNamed .top (s.tree b) → Ty.SimplyNamed .top (s.tree c) → s.Associates a b c) ∧
    (¬Ty.SimplyNamed .top (s.tree a) → ∃ b c s', s'.Reachable ∧ s ≤ s' ∧ s'.Holds b ∧ s'.Holds c ∧
      ¬s'.Associates a b c) := by
  have hnormal := hs.sound.normal
  constructor
  · intro na b c hb hc nb nc
    refine (associates_iff hs.sound ⟨ha, rfl⟩ ⟨hb, rfl⟩ ⟨hc, rfl⟩).2 fun l r h => ?_
    obtain ⟨hl, hr⟩ := Ty.eq_inf_of_regroup h
    rw [hl, hr, Ty.inf_assoc (hnormal a ha) (hnormal b hb) (hnormal c hc) na nb nc]
  · intro na
    obtain ⟨t, u, h⟩ := Ty.exists_partners (hnormal a ha) na
    obtain ⟨b, s₁, hs₁, hle₁, hb⟩ := storable_of_normal h.second s hs
    obtain ⟨c, s₂, hs₂, hle₂, hc⟩ := storable_of_normal h.third s₁ hs₁
    have hle := le_trans hle₁ hle₂
    have hb₂ := hb.mono hs₁.sound hle₂
    refine ⟨b, c, s₂, hs₂, hle, hb₂.1, hc.1, fun hassoc => h.breaks.ne ?_⟩
    have ha₂ := Denotes.of_holds hs.sound hle ha
    exact (associates_iff hs₂.sound ha₂ hb₂ hc).1 hassoc _ _ h.breaks.regroup_eq

/-- Of an integer under three names in turn nothing but the integer is left, in either grouping.
Under two names at once it has partners with which the groupings differ. -/
theorem named_int64_groupings : ∃ s a b c d, s.Reachable ∧
    s.Denotes a (.mk (.name "X" (.mk (.atom Preset.int64.atom)))) ∧
    s.Denotes b (.mk (.name "Y" (.mk (.atom Preset.int64.atom)))) ∧
    s.Denotes c (.mk (.name "Z" (.mk (.atom Preset.int64.atom)))) ∧
    s.Denotes d (.mk (.name "X" (.mk (.name "Y" (.mk (.atom Preset.int64.atom)))))) ∧
    (∃ l s', (regroup meet a b c).run.run s = (.ok (l, l), s') ∧
      s'.Denotes l (.mk (.atom Preset.int64.atom))) ∧
    ∃ e f s', s'.Reachable ∧ s ≤ s' ∧ s'.Holds e ∧ s'.Holds f ∧ ¬s'.Associates d e f := by
  have hvalue : (Ty.ofAtom Preset.int64.atom).IsValue := Ty.isValue_of_isCore rfl
  have hnormal (l : String) := Ty.normal_name l (Ty.normal_ofAtom Preset.int64.atom)
  have hsimple (l : String) :
      Ty.SimplyNamed .top (.mk (.name l (.mk (.atom Preset.int64.atom)))) := by
    refine .mk hvalue fun j u hu => ?_
    cases List.mem_singleton.1 hu
    exact .mk trivial nofun
  obtain ⟨a, s₁, hs₁, -, ha⟩ := storable_of_normal (hnormal "X") initial .initial
  obtain ⟨b, s₂, hs₂, hle₂, hb⟩ := storable_of_normal (hnormal "Y") s₁ hs₁
  obtain ⟨c, s₃, hs₃, hle₃, hc⟩ := storable_of_normal (hnormal "Z") s₂ hs₂
  obtain ⟨d, s, hs, hle, hd⟩ := storable_of_normal (Ty.normal_name "X" (hnormal "Y")) s₃ hs₃
  replace ha := ha.mono hs₁.sound (le_trans hle₂ (le_trans hle₃ hle))
  replace hb := hb.mono hs₂.sound (le_trans hle₃ hle)
  replace hc := hc.mono hs₃.sound hle
  have hregroup := Ty.regroup_names (by decide : "Y" ≠ "X") (by decide : "Z" ≠ "Y") hvalue
  obtain ⟨l, r, s', hrun, -, hl, -⟩ := regroup_run hs.sound ha hb hc hregroup
  obtain ⟨hassoc, -⟩ := meet_assoc_exactly_on_simple_names hs ha.1
  obtain ⟨-, hbreaks⟩ := meet_assoc_exactly_on_simple_names hs hd.1
  rw [ha.2] at hassoc
  rw [hd.2] at hbreaks
  have hlr :=
    hassoc (hsimple "X") b c hb.1 hc.1 (hb.2 ▸ hsimple "Y") (hc.2 ▸ hsimple "Z") l r s' hrun
  refine ⟨s, a, b, c, d, hs, ha, hb, hc, hd, ⟨l, s', ?_, hl⟩, hbreaks fun h => h.layer.2 rfl⟩
  rw [hrun, hlr]

end Store

end TypeLattice
