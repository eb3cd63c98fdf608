import TypeLattice.Proofs.CanonicalStore

namespace TypeLattice.Store

variable {s s' : Store} {a b h : Handle}

def Recorded (s : Store) (h : Handle) : Prop := ∃ d, s.duals[h]? = some d

def Admits (s : Store) (a b : Handle) : Prop :=
  (∀ d, s.duals[a]? = some d → d = b) ∧ ∀ d, s.duals[b]? = some d → d = a

/-- Run in the store, the program records pairs of duals without ever replacing a dual by another
one. -/
inductive OnlyAdds : {α : Type} → StoreM α → Store → Prop
  | pure {α : Type} (a : α) (s : Store) : OnlyAdds (pure a) s
  | get (s : Store) : OnlyAdds get s
  | intern (r : Record Handle) (s : Store) : OnlyAdds (intern r) s
  | recordDual (a b : Handle) (s : Store) (h : s.Admits a b) : OnlyAdds (recordDual a b) s
  | bind {α β : Type} {x : StoreM α} {f : α → StoreM β} {s : Store} (hx : OnlyAdds x s)
      (hf : OnlyAdds (f (x.run s).1) (x.run s).2) : OnlyAdds (x >>= f) s

theorem duals_intern (r : Record Handle) (s : Store) : ((intern r).run s).2.duals = s.duals := by
  cases hl : s.lookup? r with
  | some h => rw [intern_of_lookup hl]
  | none =>
      rw [intern_of_none hl]
      rfl

theorem duals_recordDual (hab : s.Admits a b) (x y : Handle) :
    ((recordDual a b).run s).2.duals[x]? = some y ↔
      s.duals[x]? = some y ∨ x = a ∧ y = b ∨ x = b ∧ y = a := by
  change ((s.duals.insert a b).insert b a)[x]? = some y ↔ _
  obtain ⟨ha, hb⟩ := hab
  simp only [Std.HashMap.getElem?_insert, beq_iff_eq]
  split
  · next hx =>
      subst hx
      grind
  · next hx =>
      split
      · next hx' =>
          subst hx'
          grind
      · next hx' => grind

theorem OnlyAdds.kept {α : Type} {x : StoreM α} (hx : OnlyAdds x s) (hab : s.duals[a]? = some b) :
    (x.run s).2.duals[a]? = some b := by
  induction hx with
  | pure | get => exact hab
  | intern r s => rwa [duals_intern]
  | recordDual c d s hcd => exact (duals_recordDual hcd a b).2 (.inl hab)
  | bind _ _ ihx ihf => exact ihf (ihx hab)

theorem admits_of_dual (hs : s.Sound) (ha : s.Holds a) (hb : s.Holds b)
    (hdual : s.tree b = (s.tree a).dual) : s.Admits a b := by
  refine ⟨fun d hd => ?_, fun d hd => ?_⟩
  · obtain ⟨-, hholds, ht⟩ := hs.cached a d hd
    exact tree_injective hs.toIndexed hholds hb (ht.trans hdual.symm)
  · obtain ⟨-, hholds, ht⟩ := hs.cached b d hd
    rw [hdual, Ty.dual_dual (hs.normal a ha)] at ht
    exact tree_injective hs.toIndexed hholds ha ht

/-- The record goes both ways, and down to the components. -/
structure Coherent (s : Store) : Prop extends Sound s where
  symmetric : ∀ a b : Handle, s.duals[a]? = some b → s.duals[b]? = some a
  closed : ∀ h, s.Recorded h → ∀ x ∈ (s.node h).children, s.Recorded x

theorem Coherent.of_duals_eq (hs : s.Coherent) (hs' : s'.Sound) (hle : s ≤ s')
    (hduals : s'.duals = s.duals) : s'.Coherent where
  toSound := hs'
  symmetric a b hab := by
    rw [hduals] at hab ⊢
    exact hs.symmetric a b hab
  closed h hh x hx := by
    rw [Recorded, hduals] at hh ⊢
    obtain ⟨d, hd⟩ := hh
    rw [node_mono hle (hs.cached h d hd).1] at hx
    exact hs.closed h ⟨d, hd⟩ x hx

theorem recorded_parts_of_dual (hs : s.Coherent) (ha : s.Holds a) (hb : s.Holds b)
    (hdual : s.tree b = (s.tree a).dual) (hparts : ∀ x ∈ (s.node a).children, s.Recorded x) :
    ∀ y ∈ (s.node b).children, s.Recorded y := by
  intro y hy
  have hmap : (s.node b).map s.tree = ((s.node a).map s.tree).flip.map Ty.dual := by
    rw [Ty.dual_of_normal (hs.normal a ha), tree_eq hs.descends hb, tree_eq hs.descends ha,
      Ty.mk.injEq] at hdual
    exact hdual
  have hmem : s.tree y ∈ ((s.node b).map s.tree).children := by
    rw [Node.children_map]
    exact List.mem_map_of_mem hy
  rw [hmap, Node.children_map, Node.children_flip, Node.children_map, List.map_map] at hmem
  obtain ⟨x, hx, hxy⟩ := List.mem_map.1 hmem
  obtain ⟨d, hd⟩ := hparts x hx
  obtain ⟨-, hholds, ht⟩ := hs.cached x d hd
  have hyd : y = d :=
    tree_injective hs.toIndexed (hs.descends.holds hb hy) hholds (hxy.symm.trans ht.symm)
  exact ⟨x, hyd ▸ hs.symmetric x d hd⟩

theorem coherent_recordDual (hs : s.Coherent) (ha : s.Holds a) (hb : s.Holds b)
    (hdual : s.tree b = (s.tree a).dual) (hparts : ∀ x ∈ (s.node a).children, s.Recorded x) :
    ((recordDual a b).run s).2.Coherent where
  toSound := (recordDual_leads hs.toSound ha hb hdual).1
  symmetric x y hxy := by
    have hab := admits_of_dual hs.toSound ha hb hdual
    rw [duals_recordDual hab] at hxy ⊢
    rcases hxy with hxy | ⟨rfl, rfl⟩ | ⟨rfl, rfl⟩
    · exact .inl (hs.symmetric x y hxy)
    · exact .inr (.inr ⟨rfl, rfl⟩)
    · exact .inr (.inl ⟨rfl, rfl⟩)
  closed x hx y hy := by
    have hab := admits_of_dual hs.toSound ha hb hdual
    have hkept {y : Handle} (h : s.Recorded y) : ((recordDual a b).run s).2.Recorded y := by
      obtain ⟨d, hd⟩ := h
      exact ⟨d, (duals_recordDual hab y d).2 (.inl hd)⟩
    obtain ⟨d, hd⟩ := hx
    rcases (duals_recordDual hab x d).1 hd with hd | ⟨rfl, -⟩ | ⟨rfl, -⟩
    · exact hkept (hs.closed x ⟨d, hd⟩ y hy)
    · exact hkept (hparts y hy)
    · exact hkept (recorded_parts_of_dual hs ha hb hdual hparts y hy)

/-- Run in the store, the program only adds to a record that stays coherent, and its answer is as
described. -/
def Keeps {α : Type} (s : Store) (x : StoreM α) (Q : Store → α → Prop) : Prop :=
  OnlyAdds x s ∧ (x.run s).2.Coherent ∧ s.Leads x Q

structure Later (s s' : Store) : Prop where
  sound : s'.Sound
  le : s ≤ s'
  duals : ∀ a b : Handle, s.duals[a]? = some b → s'.duals[a]? = some b

theorem Later.recorded (hl : s.Later s') (hh : s.Recorded h) : s'.Recorded h := by
  obtain ⟨d, hd⟩ := hh
  exact ⟨d, hl.duals h d hd⟩

section keeps

variable {α β : Type} {x : StoreM α} {Q : Store → α → Prop} {R : Store → β → Prop}

theorem Keeps.later (hx : s.Keeps x Q) : s.Later (x.run s).2 where
  sound := hx.2.2.1
  le := hx.2.2.2.1
  duals _ _ := hx.1.kept

theorem Keeps.pure {a : α} (hs : s.Coherent) (h : Q s a) : s.Keeps (pure a) Q :=
  ⟨.pure a s, hs, Leads.pure hs.toSound h⟩

theorem Keeps.bind {f : α → StoreM β} (hx : s.Keeps x Q)
    (hf : ∀ s' a, s'.Coherent → s.Later s' → Q s' a → s'.Keeps (f a) R) : s.Keeps (x >>= f) R := by
  have hl := hx.later
  obtain ⟨hadds, hs', -, -, hq⟩ := hx
  obtain ⟨hadds', hs'', hsound, hle', hr⟩ := hf _ _ hs' hl hq
  exact ⟨hadds.bind hadds', hs'', hsound, le_trans hl.le hle', hr⟩

theorem Keeps.get_bind {f : Store → StoreM α} (h : s.Keeps (f s) Q) : s.Keeps (get >>= f) Q :=
  ⟨.bind (.get s) h.1, h.2⟩

theorem Keeps.and {Q' : Store → α → Prop} (h : s.Keeps x Q) (h' : s.Leads x Q') :
    s.Keeps x (fun s' a => Q s' a ∧ Q' s' a) :=
  ⟨h.1, h.2.1, h.2.2.1, h.2.2.2.1, h.2.2.2.2, h'.2.2⟩

theorem Keeps.mono {Q' : Store → α → Prop} (hx : s.Keeps x Q)
    (h : ∀ s' a, s.Later s' → Q s' a → Q' s' a) : s.Keeps x Q' :=
  ⟨hx.1, hx.2.1, hx.2.2.1, hx.2.2.2.1, h _ _ hx.later hx.2.2.2.2⟩

theorem keeps_intern {n : Node Handle} (hs : s.Coherent) (hn : ∀ x ∈ n.children, s.Holds x)
    (hnormal : (Ty.mk (n.map s.tree)).Normal) :
    s.Keeps (intern n.record) (fun s' h => s'.Denotes h (.mk (n.map s.tree))) := by
  have hleads := intern_leads hs.toSound hn hnormal
  exact ⟨.intern _ s, hs.of_duals_eq hleads.1 hleads.2.1 (duals_intern _ s), hleads⟩

def Keeps.judgement : Judgement where
  Holds s x Q := s.Coherent → s.Keeps x Q
  pure _ h hs := Keeps.pure hs h
  bind hx hf hs := Keeps.bind (hx hs) fun s' a hs' hl h => hf s' a hl.sound hl.le h hs'
  get_bind h hs := Keeps.get_bind (h hs)
  holds_intern _ hn hnormal hs := keeps_intern hs hn hnormal

end keeps

theorem keeps_recordDual (hs : s.Coherent) (ha : s.Holds a) (hb : s.Holds b)
    (hdual : s.tree b = (s.tree a).dual) (hparts : ∀ x ∈ (s.node a).children, s.Recorded x) :
    s.Keeps (recordDual a b) (fun s' _ => s'.duals[a]? = some b) := by
  have hab := admits_of_dual hs.toSound ha hb hdual
  obtain ⟨hsound, hle, -⟩ := recordDual_leads hs.toSound ha hb hdual
  refine ⟨.recordDual a b s hab, coherent_recordDual hs ha hb hdual hparts, hsound, hle, ?_⟩
  exact (duals_recordDual hab a b).2 (.inr (.inl ⟨rfl, rfl⟩))

theorem keeps_remember {d : Handle} (hs : s.Sound) (hle : s ≤ s') (hs' : s'.Coherent)
    (hh : s.Holds h) (hd : s'.Denotes d (s.tree h).dual)
    (hparts : ∀ x ∈ (s.node h).children, s'.Recorded x) :
    s'.Keeps (do recordDual h d; pure d) (fun s'' d => s''.duals[h]? = some d) := by
  obtain ⟨hh', ht⟩ := Denotes.of_holds hs hle hh
  have hdual : s'.tree d = (s'.tree h).dual := by rw [hd.2, ht]
  have hparts' : ∀ x ∈ (s'.node h).children, s'.Recorded x := by rwa [node_mono hle hh]
  refine Keeps.bind (keeps_recordDual hs' hh' hd.1 hdual hparts') fun s'' _ hs'' _ hrec => ?_
  exact Keeps.pure hs'' hrec

section parts

variable {f : Handle → StoreM Handle}

theorem keeps_list {xs : List Handle} (hs : s.Coherent)
    (hf : ∀ x ∈ xs, ∀ s', s'.Coherent → s ≤ s' → s'.Keeps (f x) (fun s'' _ => s''.Recorded x)) :
    s.Keeps (xs.mapM f) (fun s' _ => ∀ x ∈ xs, s'.Recorded x) := by
  induction xs generalizing s with
  | nil => exact Keeps.pure hs (by simp)
  | cons x xs ih =>
      rw [List.forall_mem_cons] at hf
      rw [List.mapM_cons]
      refine Keeps.bind (hf.1 s hs (le_refl s)) fun s₁ y hs₁ hl₁ hx => ?_
      have htail := ih hs₁ fun z hz s' hs' hle => hf.2 z hz s' hs' (le_trans hl₁.le hle)
      refine Keeps.bind htail fun s₂ ys hs₂ hl₂ hxs => ?_
      exact Keeps.pure hs₂ (List.forall_mem_cons.2 ⟨hl₂.recorded hx, hxs⟩)

theorem keeps_node {n : Node Handle} (hs : s.Coherent)
    (hf : ∀ x ∈ n.children, ∀ s', s'.Coherent → s ≤ s' →
      s'.Keeps (f x) (fun s'' _ => s''.Recorded x)) :
    s.Keeps (n.mapM f) (fun s' _ => ∀ x ∈ n.children, s'.Recorded x) := by
  obtain ⟨g, hg⟩ := Node.exists_mapM_eq (m := StoreM) n
  rw [hg f, map_eq_pure_bind]
  refine Keeps.bind (keeps_list hs hf) fun s' ys hs' _ hrec => ?_
  exact Keeps.pure hs' hrec

end parts

theorem keeps_dualLayer {f : Handle → StoreM Handle} (hs : s.Coherent) (hh : s.Holds h)
    (hleads : ∀ (s' : Store) x, s'.Sound → s'.Holds x → x.index < h.index →
      s'.Leads (f x) (fun s'' d => s''.Denotes d (s'.tree x).dual))
    (hf : ∀ (s' : Store) x, s'.Coherent → s'.Holds x → x.index < h.index →
      s'.Keeps (f x) (fun s'' _ => s''.Recorded x)) :
    s.Keeps (maker.dualLayer f h (s.node h)) (fun s' d =>
      (∀ x ∈ (s.node h).children, s'.Recorded x) ∧ s'.Denotes d (s.tree h).dual) := by
  refine Keeps.and ?_ (Leads.judgement.holds_dualLayer hs.toSound hh hleads)
  have hrec : s.Keeps ((s.node h).mapM f) (fun s' _ => ∀ x ∈ (s.node h).children, s'.Recorded x) :=
    keeps_node hs fun x hx s' hs' hle =>
      hf s' x hs' ((hs.descends.holds hh hx).mono hle) (hs.descends h hh x hx)
  have hparts : s.Leads ((s.node h).mapM f)
      (fun s' k => s'.NodeDenotes k ((s.node h).map fun x => (s.tree x).dual)) :=
    Leads.judgement.holds_parts hs.toSound hh hleads
  have hlayer : s.Keeps (do maker.build (← (s.node h).mapM f).flip)
      (fun s' _ => ∀ x ∈ (s.node h).children, s'.Recorded x) := by
    refine Keeps.bind (hrec.and hparts) fun s₁ k hs₁ hl₁ hboth => ?_
    have hbuild := Keeps.judgement.holds_build_flip hs.toSound hh hs₁.toSound hboth.2 hs₁
    exact hbuild.mono fun s₂ d hl₂ _ x hx => hl₂.recorded (hboth.1 x hx)
  rw [Maker.dualLayer.eq_def]
  split
  · next v hv => exact Keeps.pure hs (by simp [hv, Node.children])
  · exact hlayer

theorem keeps_dualWithin {n : Nat} (hs : s.Coherent) (hh : s.Holds h) (hn : h.index < n) :
    s.Keeps (dualWithin n h) (fun s' d => s'.duals[h]? = some d) := by
  induction n generalizing s h with
  | zero => omega
  | succ n ih =>
      rw [dualWithin]
      apply Keeps.get_bind
      split
      · next d hd => exact Keeps.pure hs hd
      · apply Keeps.get_bind
        rw [dual_layer hs.toSound]
        have hlayer := keeps_dualLayer (f := dualWithin n) hs hh
          (fun s' x hs' hx hlt => dualWithin_leads hs' hx (by omega))
          fun s' x hs' hx hlt => (ih hs' hx (by omega)).mono fun _ d _ hd => ⟨d, hd⟩
        refine Keeps.bind hlayer fun s₁ d hs₁ hl₁ hboth => ?_
        exact keeps_remember hs.toSound hl₁.le hs₁ hh hboth.2 hboth.1

theorem keeps_dual (hs : s.Coherent) (hh : s.Holds h) :
    s.Keeps (dual h) (fun s' d => s'.duals[h]? = some d) :=
  keeps_dualWithin hs hh (Nat.lt_succ_self _)

theorem dual_of_recorded (hab : s.duals[a]? = some b) : (dual a).run s = (b, s) := by
  rw [dual, dualWithin, StateT.run_bind, StateT.run_get]
  simp only [pure_bind, hab]
  rfl

def keeps : LatticeJudgement where
  toJudgement := Keeps.judgement
  holds_dual {s h t} hs hh hc := by
    obtain ⟨hh, rfl⟩ := hh
    refine (keeps_dual hc hh).mono fun s' d hl hd => ?_
    obtain ⟨-, hholds, ht⟩ := hl.sound.cached h d hd
    exact ⟨hholds, by rw [ht, tree_mono hs.descends hl.le hh]⟩

theorem onlyAdds_forM_intern (ps : List Preset) (s : Store) :
    OnlyAdds (ps.forM fun p => discard (intern p.record)) s := by
  induction ps generalizing s with
  | nil => exact .pure () s
  | cons p ps ih =>
      have hintern : OnlyAdds (intern p.record >>= fun _ => pure ()) s :=
        .bind (.intern _ s) (.pure () _)
      exact hintern.bind (ih _)

theorem keeps_dualPairs (hs : s.Coherent) :
    s.Keeps (Preset.dualPairs.forM fun p => recordDual p.1.handle p.2.handle)
      (fun _ _ => True) := by
  refine Keeps.judgement.forM hs.toSound ?_ hs
  intro p hp s' hs' _ hc
  obtain ⟨ha, hnode⟩ := hs'.preset p.1
  have hparts : ∀ x ∈ (s'.node p.1.handle).children, s'.Recorded x := by simp [hnode, Node.children]
  have hkeeps := keeps_recordDual hc ha (hs'.preset p.2).1 (tree_dualPair hs' hp) hparts
  exact hkeeps.mono fun _ _ _ _ => trivial

theorem coherent_initial : OnlyAdds addPresets empty ∧ initial.Coherent := by
  obtain ⟨s, hs, hsound, hduals⟩ := exists_interned
  have hnone (h d : Handle) : s.duals[h]? ≠ some d := by simp [hduals]
  have hcoherent : s.Coherent := {
    toSound := hsound
    symmetric := fun a b hab => absurd hab (hnone a b)
    closed := fun h ⟨d, hd⟩ => absurd hd (hnone h d) }
  obtain ⟨hadds, hinitial, -⟩ := keeps_dualPairs hcoherent
  refine ⟨.bind (onlyAdds_forM_intern Preset.list empty) ?_, ?_⟩
  · rw [hs]
    exact hadds
  · rw [initial_eq, hs]
    exact hinitial

variable {log new : List (Record Handle)}

theorem Step.coherent (h : s.Step s' new) (hs : s.Coherent) :
    s'.Coherent ∧ ∀ a b : Handle, s.duals[a]? = some b → s'.duals[a]? = some b := by
  cases h with
  | call c hc =>
      obtain ⟨hadds, hs', -⟩ := keeps.holds_call hs.toSound c hc hs
      exact ⟨hs', fun _ _ => hadds.kept⟩
  | sample =>
      obtain ⟨hadds, hs', -⟩ := keeps.holds_standardSample hs.toSound hs
      exact ⟨hs', fun _ _ => hadds.kept⟩

theorem History.coherent (h : s.History log) : s.Coherent := by
  induction h with
  | start => exact coherent_initial.2
  | step _ h ih => exact (h.coherent ih).1

/-- Duals are remembered in both directions and for all components, as they are on trees. What is
remembered is what `dual` answers, and no operation ever replaces it. -/
structure RemembersDuals (s : Store) : Prop where
  symmetric : ∀ a b : Handle, s.duals[a]? = some b → s.duals[b]? = some a
  structural : ∀ a b : Handle, s.duals[a]? = some b →
    s.Holds a ∧ s.Holds b ∧ s.tree b = (s.tree a).dual
  closed : ∀ a, s.Recorded a → ∀ x ∈ (s.node a).children, s.Recorded x
  recalled : ∀ a b : Handle, s.duals[a]? = some b → (dual a).run s = (b, s)
  remembered : ∀ a, s.Holds a → ∃ d s', (dual a).run s = (d, s') ∧ s'.duals[a]? = some d
  started : OnlyAdds addPresets empty
  calls : ∀ c : Call, (∀ x ∈ c.operands, s.Holds x) → OnlyAdds c.run s
  sample : OnlyAdds standardSample s
  kept : ∀ s' new, s.Step s' new → ∀ a b : Handle, s.duals[a]? = some b → s'.duals[a]? = some b

theorem history_remembers_duals (h : s.History log) : s.RemembersDuals where
  symmetric := h.coherent.symmetric
  structural := h.sound.cached
  closed := h.coherent.closed
  recalled _ _ hab := dual_of_recorded hab
  remembered _ ha := ⟨_, _, rfl, (keeps_dual h.coherent ha).2.2.2.2⟩
  started := coherent_initial.1
  calls c hc := (keeps.holds_call h.sound c hc h.coherent).1
  sample := (keeps.holds_standardSample h.sound h.coherent).1
  kept _ _ hstep := (hstep.coherent h.coherent).2

/-- The dual of a pair leaves the dual of its first part on record, which no store starts with. -/
theorem pair_dual_remembers_parts : ∃ (s : Store) (a : Handle) (log : List (Record Handle)),
    s.History log ∧
    s.Denotes a (.mk (.tuple .bottom
      [.mk (.atom Preset.int8.atom), .mk (.atom Preset.flt32.atom)])) ∧
    s.Recorded a ∧ s.Recorded Preset.int8.handle ∧ s.RemembersDuals := by
  have hnormal : (Ty.mk (.tuple .bottom
      [.mk (.atom Preset.int8.atom), .mk (.atom Preset.flt32.atom)])).Normal :=
    .mk trivial (List.forall_mem_cons.2 ⟨.mk trivial nofun, List.forall_mem_singleton.2
      (.mk trivial nofun)⟩)
  obtain ⟨a, s, hs, -, ha⟩ := storable_of_normal hnormal initial .initial
  obtain ⟨log, hlog⟩ := hs.exists_history
  have hoperands : ∀ x ∈ (Call.dual a).operands, s.Holds x := by simp [Call.operands, ha.1]
  obtain ⟨new, hnew⟩ := Step.of_call (.dual a) hoperands
  obtain ⟨d, s', hrun, hd⟩ := (history_remembers_duals hlog).remembered a ha.1
  have hstore : ((Call.dual a).run.run s).2 = s' := congrArg Prod.snd hrun
  rw [hstore] at hnew
  have hlog' := hlog.step hnew
  obtain ⟨hs', hle⟩ := hnew.sound hs.sound
  have ha' := ha.mono hs.sound hle
  have hduals := history_remembers_duals hlog'
  have hmem : Ty.mk (.atom Preset.int8.atom) ∈ ((s'.node a).map s'.tree).children := by
    have htree := tree_eq hs'.descends ha'.1
    rw [ha'.2, Ty.mk.injEq] at htree
    rw [← htree]
    exact List.mem_cons_self
  rw [Node.children_map] at hmem
  obtain ⟨x, hx, ht⟩ := List.mem_map.1 hmem
  have hint : x = Preset.int8.handle :=
    (Denotes.eq_iff hs' ⟨hs'.descends.holds ha'.1 hx, ht⟩ (tree_preset hs' .int8)).2 rfl
  exact ⟨s', a, log ++ new, hlog', ha', ⟨d, hd⟩, hint ▸ hduals.closed a ⟨d, hd⟩ x hx, hduals⟩

end TypeLattice.Store
