import TypeLattice.Proofs.CanonicalStore

namespace TypeLattice.Store

variable {s s' : Store} {a b : Handle} {log : List (Record Handle)}

/-- The report gives a handle of the type, or names the types of the clash. -/
inductive Reports (s : Store) : Except Failure Handle → Except (Clash Ty) Ty → Prop
  | ok {h : Handle} {t : Ty} (hd : s.Denotes h t) : Reports s (.ok h) (.ok t)
  | error (c : Clash Ty) : Reports s (.error (.noMeet c.left c.right)) (.error c)

section reports

variable {e e' : Except Failure Handle} {y : Except (Clash Ty) Ty}

theorem Reports.mono (hs : s.Sound) (hle : s ≤ s') (h : s.Reports e y) : s'.Reports e y := by
  cases h with
  | ok hd => exact .ok (hd.mono hs hle)
  | error c => exact .error c

theorem Reports.unique (hs : s.Sound) (h : s.Reports e y) (h' : s.Reports e' y) : e = e' := by
  cases h with
  | ok hd =>
      cases h' with
      | ok hd' => exact congrArg Except.ok ((Denotes.eq_iff hs hd hd').2 rfl)
  | error c =>
      cases h'
      rfl

theorem reported_leads {x : MeetM Handle} (h : s.Leads x.run (fun s' e => Agree Denotes s' e y)) :
    s.Leads (reported x) (fun s' e => s'.Reports e y) := by
  refine Leads.bind h fun s' e hs' _ he => ?_
  cases he with
  | ok hd => exact Leads.pure hs' (.ok hd)
  | @error c d hl hr =>
      apply Leads.get_bind
      rw [hl.2, hr.2]
      exact Leads.pure hs' (.error d)

theorem reported_same {x x' : MeetM Handle}
    (hx : s.Leads x.run (fun s' e => Agree Denotes s' e y))
    (hx' : ∀ s', s'.Sound → s ≤ s' → s'.Leads x'.run (fun s'' e => Agree Denotes s'' e y)) :
    s.SameAnswer (reported x) (reported x') :=
  SameAnswer.of_leads (R := Reports) (fun _ _ _ hs hle h => h.mono hs hle)
    (fun _ _ _ hs h h' => h.unique hs h') (reported_leads hx)
    fun s' hs' hle => reported_leads (hx' s' hs' hle)

end reports

/-- A meet or a join and the same with its operands exchanged, one after the other, give the same
type or fail alike: the same two types clash, and each is named in the same place. -/
theorem order_of_operands_irrelevant (h : s.History log) (ha : s.Holds a) (hb : s.Holds b) :
    s.SameAnswer (reported (meet a b)) (reported (meet b a)) ∧
    s.SameAnswer (reported (join a b)) (reported (join b a)) := by
  have hs := h.sound
  constructor
  · refine reported_same (meet_leads hs ha hb) fun s' hs' hle => ?_
    rw [Ty.meet_comm]
    exact meet_follows hs' (Denotes.of_holds hs hle hb) (Denotes.of_holds hs hle ha)
  · refine reported_same (join_leads hs ha hb) fun s' hs' hle => ?_
    rw [Ty.join_comm]
    exact join_follows hs' (Denotes.of_holds hs hle hb) (Denotes.of_holds hs hle ha)

/-- Two pairs clash in both places. The clash in the first place is reported from either side, with
control on the left. -/
theorem clashing_pairs_report_alike : ∃ (s : Store) (a b : Handle) (log : List (Record Handle)),
    s.History log ∧
    s.Denotes a (.mk (.tuple .bottom [.mk (.atom Preset.ctrl.atom), .mk (.atom Preset.str.atom)])) ∧
    s.Denotes b (.mk (.tuple .bottom [.mk (.atom Preset.int8.atom), .mk (.atom Preset.ctrl.atom)])) ∧
    ((reported (meet a b)).run s).1 =
      .error (.noMeet (.mk (.atom Preset.ctrl.atom)) (.mk (.atom Preset.int8.atom))) ∧
    s.SameAnswer (reported (meet a b)) (reported (meet b a)) ∧
    s.SameAnswer (reported (join a b)) (reported (join b a)) := by
  have hnormal (p q : Preset) :
      (Ty.mk (.tuple .bottom [.mk (.atom p.atom), .mk (.atom q.atom)])).Normal :=
    .mk trivial (List.forall_mem_cons.2 ⟨.mk trivial nofun, List.forall_mem_singleton.2
      (.mk trivial nofun)⟩)
  obtain ⟨s, a, b, hs, ha, hb⟩ := exists_two_stored (hnormal .ctrl .str) (hnormal .int8 .ctrl)
  obtain ⟨log, hlog⟩ := hs.exists_history
  have hclash : Ty.meet (s.tree a) (s.tree b) =
      .error ⟨.mk (.atom Preset.ctrl.atom), .mk (.atom Preset.int8.atom)⟩ := by
    rw [ha.2, hb.2]
    decide +kernel
  have hreport := (reported_leads (meet_leads hs.sound ha.1 hb.1)).2.2
  rw [hclash] at hreport
  refine ⟨s, a, b, log, hlog, ha, hb, ?_, order_of_operands_irrelevant hlog ha.1 hb.1⟩
  generalize ((reported (meet a b)).run s).1 = e at hreport
  cases hreport
  rfl

end TypeLattice.Store
