import TypeLattice.Proofs.CallTrace
import TypeLattice.Proofs.ConversionRules
import TypeLattice.Proofs.Repetition

namespace TypeLattice.Store

variable {s : Store} {a b h : Handle} {log : List (Record Handle)}

theorem endsAs_unnameWithin {m : Nat} (hs : s.Descends) (hh : s.Holds h) (hm : h.index < m) :
    s.EndsAs (fun n => unnameRun n h) (pure (s.unnameWithin m h)) := by
  induction m generalizing h with
  | zero => omega
  | succ m ih =>
      apply EndsAs.of_succ
      apply (EndsAs.perform get).bind_of_pure
      rw [unnameWithin]
      cases hn : s.node h with
      | name l x =>
          have hmem : x ∈ (s.node h).children := by simp [hn, Node.children]
          have hlt := hs h hh x hmem
          exact ih (hs.holds hh hmem) (by omega)
      | _ => exact EndsAs.pure h

theorem endsAs_unname (hs : s.Descends) (hh : s.Holds h) :
    s.EndsAs (fun n => unnameRun n h) (pure (s.unname h)) :=
  endsAs_unnameWithin hs hh (Nat.lt_succ_self _)

theorem endsAs_build {k : Node Handle} (hs : s.Descends) (hk : ∀ x ∈ k.children, s.Holds x) :
    s.EndsAs (fun n => (makerRun n).build k) (maker.build k) := by
  cases k with
  | atom a =>
      simp only [Maker.build]
      split
      · exact EndsAs.pure _
      · exact EndsAs.perform _
  | nullable i x =>
      have hx := hk x (List.mem_singleton_self x)
      rw [maker_eq_round]
      apply EndsAs.get_bind
      refine EndsAs.bind (endsAs_unname hs hx) ?_
      split
      · exact EndsAs.pure x
      · exact EndsAs.perform _
  | _ => exact EndsAs.perform _

theorem endsAs_dualWithin {m : Nat} (hs : s.Sound) (hh : s.Holds h) (hm : h.index < m) :
    s.EndsAs (fun n => dualRun n h) (dualWithin m h) := by
  induction m generalizing s h with
  | zero => omega
  | succ m ih =>
      apply EndsAs.of_succ
      rw [dualWithin_succ]
      apply EndsAs.get_bind
      cases s.duals[h]? with
      | some d => exact EndsAs.pure d
      | none =>
          have hparts : tracks.Rel s (fun n => (s.node h).mapM (dualRun n))
              ((s.node h).mapM (dualWithin m)) (fun s' k => ∀ x ∈ k.children, s'.Holds x) := by
            refine tracks.mapM_node hs fun x hx s' hs' hle => ?_
            have hlt := hs.descends h hh x hx
            have hx' := (hs.descends.holds hh hx).mono hle
            refine ⟨ih hs' hx' (by omega), ?_⟩
            exact (dualWithin_leads hs' hx' (by omega)).mono fun _ _ _ _ hd => hd.1
          have hlayer : s.EndsAs
              (fun n => do (makerRun n).build (← (s.node h).mapM (dualRun n)).flip)
              (do maker.build (← (s.node h).mapM (dualWithin m)).flip) := by
            refine EndsAs.bind hparts.1 ?_
            obtain ⟨hs', -, hheld⟩ := hparts.2
            refine endsAs_build hs'.descends ?_
            rwa [Node.children_flip]
          have hdual : s.EndsAs (fun n => (makerRun n).dual (dualRun n) h (s.record h))
              (maker.dual (dualWithin m) h (s.record h)) := by
            simp only [record_eq hs.toIndexed, Maker.dual_record, Maker.dualLayer.eq_def]
            split
            · exact EndsAs.pure h
            · exact hlayer
          apply EndsAs.get_bind
          exact EndsAs.bind hdual (EndsAs.perform _)

theorem endsAs_dual (hs : s.Sound) (hh : s.Holds h) :
    s.EndsAs (fun n => dualRun n h) (dual h) :=
  endsAs_dualWithin hs hh (Nat.lt_succ_self _)

theorem tracks_joinRound {meet : Nat → Handle → Handle → MeetTraceM Handle}
    {meet' : Handle → Handle → MeetM Handle} (hs : s.Sound) (ha : s.Holds a) (hb : s.Holds b)
    (hmeet : ∀ s' c d, s'.Sound → s'.Denotes c (s.tree a).dual → s'.Denotes d (s.tree b).dual →
      tracksMeet.Rel s' (fun n => meet n c d) (meet' c d) Holds) :
    tracksMeet.Rel s (fun n => joinRound (fun h => liftM (dualRun n h)) (meet n) a b)
      (joinRound (fun h => liftM (dual h)) meet' a b) Holds := by
  have hdual {s : Store} {h : Handle} (hs : s.Sound) (hh : s.Holds h) :
      tracksMeet.Rel s (fun n => liftM (dualRun n h)) (liftM (dual h))
        (fun s' d => s'.Denotes d (s.tree h).dual) :=
    tracksMeet_lift ⟨endsAs_dual hs hh, dual_leads hs hh⟩
  refine tracksMeet.bind (hdual hs ha) fun s₁ c hs₁ hle₁ hc => ?_
  refine tracksMeet.bind (hdual hs₁ (hb.mono hle₁)) fun s₂ d hs₂ hle₂ hd => ?_
  rw [tree_mono hs.descends hle₁ hb] at hd
  refine tracksMeet.bind (hmeet s₂ c d hs₂ (hc.mono hs₁ hle₂) hd) fun s₃ z hs₃ _ hz => ?_
  refine tracksMeet_lift ⟨endsAs_dual hs₃ hz, ?_⟩
  exact (dual_leads hs₃ hz).mono fun _ _ _ _ hw => hw.1

theorem endsAs_run {p : Plan Handle} {meet join : Nat → Handle → Handle → MeetTraceM Handle}
    {meet' join' : Handle → Handle → MeetM Handle} (hs : s.Sound)
    (hp : p.Fits s.Holds fun x y => ∀ s', s'.Sound → s ≤ s' →
      tracksMeet.Rel s' (fun n => meet n x y) (meet' x y) Holds ∧
        tracksMeet.Rel s' (fun n => join n x y) (join' x y) Holds) :
    s.EndsAs
      (fun n => (p.run (fun k => liftM ((makerRun n).build k)) (meet n) (join n)
        fun x y => throw ⟨x, y⟩).run)
      (p.run (fun k => liftM (maker.build k)) meet' join' fun x y => throw ⟨x, y⟩).run := by
  cases p with
  | clash x y => exact EndsAs.pure _
  | keep x => exact EndsAs.pure _
  | meet x y => exact (hp s hs (le_refl s)).1.1
  | build k =>
      have hparts : tracksMeet.Rel s (fun n => k.mapM (Piece.run (meet n) (join n)))
          (k.mapM (Piece.run meet' join')) (fun s' k => ∀ x ∈ k.children, s'.Holds x) := by
        refine tracksMeet.mapM_node hs fun q hq s' hs' hle => ?_
        have hq := hp q hq
        cases q with
        | keep x => exact tracksMeet.pure hs' (hq.mono hle)
        | meet x y => exact (hq s' hs' hle).1
        | join x y => exact (hq s' hs' hle).2
      simp only [Plan.run, ExceptT.run_bind]
      refine EndsAs.bind hparts.1 ?_
      obtain ⟨hs', -, hheld⟩ := hparts.2
      cases he : ((k.mapM (Piece.run meet' join')).run.run s).1 with
      | error c => exact EndsAs.pure _
      | ok k' => exact (endsAs_build hs'.descends (hheld k' he)).lift

/-- The calls of a plan are on fewer layers than its operands, so they end if all lower pairs do. -/
theorem tracks_operands {m : Nat} (hs : s.Sound) (ha : s.Holds a) (hb : s.Holds b)
    (hm : (s.tree a).height + (s.tree b).height ≤ m + 1)
    (hmeet : ∀ (t : Store) x y, t.Sound → t.Holds x → t.Holds y →
      (t.tree x).height + (t.tree y).height ≤ m →
        tracksMeet.Rel t (fun n => meetRun n x y) (meetWithin m x y) Holds) :
    (Plan.ofPair a (s.node a) b (s.node b)).Fits s.Holds fun x y => ∀ t, t.Sound → s ≤ t →
      tracksMeet.Rel t (fun n => TraceM.noting ⟨s, a, b⟩ (meetRun n) x y) (meetWithin m x y) Holds ∧
        tracksMeet.Rel t
          (fun n => joinRound (fun h => liftM (dualRun n h))
            (TraceM.noting ⟨s, a, b⟩ (meetRun n)) x y)
          (joinRound (fun h => liftM (dual h)) (meetWithin m) x y) Holds := by
  have noted {t : Store} {x y : Handle} (ht : t.Sound) (hx : t.Holds x) (hy : t.Holds y)
      (hheight : (t.tree x).height + (t.tree y).height ≤ m)
      (hsize : (t.tree x).size + (t.tree y).size < (s.tree a).size + (s.tree b).size) :
      tracksMeet.Rel t (fun n => TraceM.noting ⟨s, a, b⟩ (meetRun n) x y) (meetWithin m x y)
        Holds := by
    obtain ⟨hends, hleads⟩ := hmeet t x y ht hx hy hheight
    exact ⟨hends.note ⟨hx, hy, hsize⟩, hleads⟩
  have hheight := plan_held (fun _ _ => Ty.height_lt_of_mem) hs ha hb
  have hsize := plan_held (fun _ _ => Ty.size_lt_of_mem) hs ha hb
  refine (hheight.and hsize).mono (fun _ h => h.1) fun x y ⟨hlower, hsmaller⟩ t ht hle => ?_
  obtain ⟨hx, hy, hlower⟩ := hlower
  replace hsmaller := hsmaller.2.2
  have htx := tree_mono hs.descends hle hx
  have hty := tree_mono hs.descends hle hy
  rw [← htx, ← hty] at hlower hsmaller
  refine ⟨noted ht (hx.mono hle) (hy.mono hle) (by omega) hsmaller, ?_⟩
  refine tracks_joinRound ht (hx.mono hle) (hy.mono hle) fun t' c d ht' hc hd => ?_
  refine noted ht' hc.1 hd.1 ?_ ?_
  · have hcle := Ty.height_dual_le (t.tree x)
    have hdle := Ty.height_dual_le (t.tree y)
    rw [hc.2, hd.2]
    omega
  · rwa [hc.2, hd.2, Ty.size_dual (ht.normal x (hx.mono hle)),
      Ty.size_dual (ht.normal y (hy.mono hle))]

theorem tracks_meetWithin {m : Nat} (hs : s.Sound) (ha : s.Holds a) (hb : s.Holds b)
    (hm : (s.tree a).height + (s.tree b).height ≤ m) :
    tracksMeet.Rel s (fun n => meetRun n a b) (meetWithin m a b) Holds := by
  induction m generalizing s a b with
  | zero => have := Ty.height_pos (s.tree a); omega
  | succ m ih =>
      have hheld := holds_of_agree (leads.follows_meetWithin hs ⟨ha, rfl⟩ ⟨hb, rfl⟩ hm)
      have hplan := endsAs_run hs
        (tracks_operands hs ha hb hm fun _ _ _ ht hx hy hle => ih ht hx hy hle)
      refine ⟨EndsAs.of_succ ?_, hheld⟩
      rw [meetWithin_succ]
      simp only [meetRun, meetRound]
      by_cases hab : a = b
      · simp only [if_pos hab]
        exact EndsAs.pure _
      · simp only [if_neg hab]
        simp only [← meet_layers (N := makerRun _) hs rfl ha hb,
          ← meet_layers (N := maker) hs rfl ha hb] at hplan
        exact hplan

theorem tracks_meet (hs : s.Sound) (ha : s.Holds a) (hb : s.Holds b) :
    tracksMeet.Rel s (fun n => meetRun n a b) (meet a b) Holds := by
  have hta := height_tree_le hs.descends ha
  have htb := height_tree_le hs.descends hb
  exact tracks_meetWithin hs ha hb (by omega)

theorem tracks_join (hs : s.Sound) (ha : s.Holds a) (hb : s.Holds b) :
    tracksMeet.Rel s (fun n => joinRun n a b) (join a b) Holds := by
  rw [join_eq_round]
  exact tracks_joinRound hs ha hb fun t c d ht hc hd => tracks_meet ht hc.1 hd.1

theorem endsAs_isa (hs : s.Sound) (ha : s.Holds a) (hb : s.Holds b) :
    s.EndsAs (fun n => isaRun n a b) (isa a b) := by
  rw [isa_eq_round]
  refine EndsAs.bind (tracks_meet hs ha hb).1 ?_
  split <;> exact EndsAs.pure _

theorem endsAs_answerM {q : Inquiry Handle} {convert : Nat → Handle → Handle → TraceM Verdict}
    {c : Handle → Handle → Verdict}
    (h : q.Asks fun x y => s.EndsAs (fun n => convert n x y) (pure (c x y))) :
    s.EndsAs (fun n => q.answerM (convert n)) (pure (q.answer c)) := by
  cases q with
  | settled v => exact EndsAs.pure v
  | through x y => exact h
  | worstOf ps =>
      simp only [Inquiry.answerM, Inquiry.answer]
      generalize Verdict.free = v
      induction ps generalizing v with
      | nil => exact EndsAs.pure v
      | cons p ps ih =>
          obtain ⟨hp, hps⟩ := List.forall_mem_cons.1 h
          simp only [List.foldlM_cons, List.foldl_cons]
          refine EndsAs.bind_of_pure ?_ (ih hps _)
          cases hx : p.1 with
          | none => exact EndsAs.pure _
          | some x => exact (hp x hx).bind_of_pure (EndsAs.pure _)

theorem asks_held {μ : Ty → Nat} (hμ : ∀ n : Node Ty, ∀ t ∈ n.children, μ t < μ (.mk n))
    (hs : s.Sound) (ha : s.Holds a) (hb : s.Holds b) :
    (Inquiry.ofNodes (s.unname a) (s.node (s.unname a)) (s.node (s.unname b))).Asks fun x y =>
      s.Holds x ∧ s.Holds y ∧ μ (s.tree x) + μ (s.tree y) < μ (s.tree a) + μ (s.tree b) := by
  have whole {h : Handle} (hh : s.Holds h) :
      s.Holds (s.unname h) ∧ μ (s.tree (s.unname h)) ≤ μ (s.tree h) := by
    obtain ⟨hu, ht⟩ := unname_spec hs.descends hh
    rw [ht]
    exact ⟨hu, Ty.unname_le hμ _⟩
  have part {h x : Handle} (hh : s.Holds h) (hx : x ∈ (s.node (s.unname h)).openParts) :
      s.Holds x ∧ μ (s.tree x) < μ (s.tree h) := by
    obtain ⟨hu, hle⟩ := whole hh
    obtain ⟨hx, hlt⟩ := part_held hμ hs hu (Node.openParts_subset _ hx)
    exact ⟨hx, Nat.lt_of_lt_of_le hlt hle⟩
  obtain ⟨hu, hle⟩ := whole ha
  apply Inquiry.asks_ofNodes
  · intro y hy
    obtain ⟨hy, hlt⟩ := part hb hy
    exact ⟨hu, hy, by omega⟩
  · intro x hx y hy
    obtain ⟨hx, hlt⟩ := part ha hx
    obtain ⟨hy, hlt'⟩ := part hb hy
    exact ⟨hx, hy, by omega⟩

theorem endsAs_classifyWithin {m : Nat} (hs : s.Sound) (ha : s.Holds a) (hb : s.Holds b)
    (hm : (s.tree a).height + (s.tree b).height ≤ m) :
    s.EndsAs (fun n => classifyRun n a b) (pure (s.reader.classifyWithin m a b)) := by
  induction m generalizing a b with
  | zero => have := Ty.height_pos (s.tree a); omega
  | succ m ih =>
      apply EndsAs.of_succ
      apply (EndsAs.perform get).bind_of_pure
      apply (EndsAs.perform get).bind_of_pure
      apply (endsAs_unname hs.descends ha).bind_of_pure
      apply (endsAs_unname hs.descends hb).bind_of_pure
      have hrule : s.reader.classifyWithin (m + 1) a b =
          if (s.node (s.unname a)).half.isTop || (s.node (s.unname b)).half.isTop then .unknown
          else if s.unname a = s.unname b then .free
          else (Inquiry.ofNodes (s.unname a) (s.node (s.unname a)) (s.node (s.unname b))).answer
            (s.reader.classifyWithin m) := rfl
      rw [hrule]
      split
      · exact EndsAs.pure _
      · split
        · exact EndsAs.pure _
        · apply endsAs_answerM
          have hlower := asks_held (fun _ _ => Ty.height_lt_of_mem) hs ha hb
          have hsmaller := asks_held (fun _ _ => Ty.size_lt_of_mem) hs ha hb
          refine (hlower.and hsmaller).mono fun x y hboth => ?_
          obtain ⟨⟨hx, hy, hlower⟩, hsmaller⟩ := hboth
          exact (ih hx hy (by omega)).note ⟨hx, hy, hsmaller.2.2⟩

theorem endsAs_classify (hs : s.Sound) (ha : s.Holds a) (hb : s.Holds b) :
    s.EndsAs (fun n => classifyRun n a b) (pure (s.classify a b)) := by
  have hta := height_tree_le hs.descends ha
  have htb := height_tree_le hs.descends hb
  exact endsAs_classifyWithin hs ha hb (by omega)

/-- Every call is on fewer layers than its caller, since duals have as many as the type itself. So
all operations on two stored types end. -/
theorem calls_shrink_until_end (h : s.History log) (ha : s.Holds a) (hb : s.Holds b) :
    (∃ d s', (dual a).run s = (d, s') ∧ s'.Holds d ∧ (s'.tree d).size = (s.tree a).size) ∧
    s.EndsAs (fun n => dualRun n a) (dual a) ∧
    s.EndsAs (fun n => (meetRun n a b).run) (meet a b).run ∧
    s.EndsAs (fun n => (joinRun n a b).run) (join a b).run ∧
    s.EndsAs (fun n => isaRun n a b) (isa a b) ∧
    s.EndsAs (fun n => classifyRun n a b) (pure (s.classify a b)) := by
  have hs := h.sound
  obtain ⟨-, -, hheld, htree⟩ := dual_leads hs ha
  have hsize := congrArg Ty.size htree
  rw [Ty.size_dual (hs.normal a ha)] at hsize
  exact ⟨⟨_, _, rfl, hheld, hsize⟩, endsAs_dual hs ha, (tracks_meet hs ha hb).1,
    (tracks_join hs ha hb).1, endsAs_isa hs ha hb, endsAs_classify hs ha hb⟩

/-- A nullable function under a name, with another function. -/
theorem functions_shrink_until_end : ∃ (s : Store) (a b : Handle) (log : List (Record Handle)),
    s.History log ∧
    s.Denotes a (.mk (.nullable .bottom (.mk (.name "F" (.mk (.func .bottom
      [.mk (.atom Preset.int8.atom)] (.mk (.atom Preset.str.atom)))))))) ∧
    s.Denotes b (.mk (.func .bottom [.mk (.atom Preset.nil.atom)] (.mk (.atom Preset.str.atom)))) ∧
    (∃ d s', (dual a).run s = (d, s') ∧ s'.Holds d ∧ (s'.tree d).size = 5) ∧
    s.EndsAs (fun n => dualRun n a) (dual a) ∧
    s.EndsAs (fun n => (meetRun n a b).run) (meet a b).run ∧
    s.EndsAs (fun n => (joinRun n a b).run) (join a b).run ∧
    s.EndsAs (fun n => isaRun n a b) (isa a b) ∧
    s.EndsAs (fun n => classifyRun n a b) (pure (s.classify a b)) := by
  have hatom (p : Preset) : (Ty.mk (.atom p.atom)).Normal := .mk trivial nofun
  have hfunc (p q : Preset) :
      (Ty.mk (.func .bottom [.mk (.atom p.atom)] (.mk (.atom q.atom)))).Normal :=
    .mk trivial (List.forall_mem_cons.2 ⟨hatom p, List.forall_mem_singleton.2 (hatom q)⟩)
  have hnullable : (Ty.mk (.nullable .bottom (.mk (.name "F" (.mk (.func .bottom
      [.mk (.atom Preset.int8.atom)] (.mk (.atom Preset.str.atom)))))))).Normal :=
    .mk rfl (List.forall_mem_singleton.2 (Ty.normal_name "F" (hfunc .int8 .str)))
  obtain ⟨s, a, b, hs, ha, hb⟩ := exists_two_stored hnullable (hfunc .nil .str)
  obtain ⟨log, hlog⟩ := hs.exists_history
  obtain ⟨⟨d, s', hrun, hheld, hsize⟩, hends⟩ := calls_shrink_until_end hlog ha.1 hb.1
  refine ⟨s, a, b, log, hlog, ha, hb, ⟨d, s', hrun, hheld, ?_⟩, hends⟩
  rw [hsize, ha.2]
  simp [Ty.size_mk, Node.children]

end TypeLattice.Store
