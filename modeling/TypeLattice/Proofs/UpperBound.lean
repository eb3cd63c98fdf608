import TypeLattice.Proofs.ControlClash
import TypeLattice.Proofs.GreatestLowerBound
import TypeLattice.Proofs.NilGap

namespace TypeLattice.Store

variable {s : Store} {a b : Handle} {log : List (Record Handle)}

section join

variable (hs : s.Sound) (ha : s.HoldsOf Kind.IsPlain a) (hb : s.HoldsOf Kind.IsPlain b)

include hs ha hb

theorem join_plain : ∃ j s', (join a b).run.run s = (.ok j, s') ∧ s'.Sound ∧ s ≤ s' ∧
    s'.HoldsOf Kind.IsPlain j ∧ s'.tree j = (s.tree a).sup (s.tree b) := by
  have hvalue {h : Handle} (hh : s.HoldsOf Kind.IsPlain h) : (s.tree h).Of (· ≠ .ctrl) :=
    hh.kinds.mono fun _ h => h.2
  obtain ⟨j, s', hrun, hs', hle, hj⟩ := run_eq_ok_of_leads (join_leads hs ha.holds hb.holds)
    (Ty.join_eq_ok (hvalue ha) (hvalue hb))
  have hkinds := Ty.of_sup (by decide) (by decide) ha.kinds hb.kinds
  exact ⟨j, s', hrun, hs', hle, .of_denotes hj hkinds, hj.2⟩

theorem isa_join_iff {s' : Store} {j : Handle} (hs' : s'.Sound) (hle : s ≤ s')
    (hj : s'.HoldsOf Kind.IsPlain j) (hsup : s'.tree j = (s.tree a).sup (s.tree b)) :
    s'.Isa j a ↔ ¬Ty.NilGap (s.tree a) (s.tree b) := by
  have hname {h : Handle} (hh : s.HoldsOf Kind.IsPlain h) : (s.tree h).Of (· ≠ .name) :=
    hh.kinds.mono fun _ h => h.1
  have habsorbs :=
    Ty.absorbs_iff (hs.normal a ha.holds) (hs.normal b hb.holds) (hname ha) (hname hb)
  rw [isa_iff (fun _ h => h.2) hs' hj (ha.mono hs hle), hsup, (Denotes.of_holds hs hle ha.holds).2,
    Ty.inf_comm, ← habsorbs, Ty.Absorbs]

end join

/-- The join of nil and a byte is a nullable byte, above neither of them. -/
theorem nil_int8_join_above_neither :
    initial.History startRequests ∧ initial.HoldsOf Kind.IsPlain Preset.nil.handle ∧
    initial.HoldsOf Kind.IsPlain Preset.int8.handle ∧
    ∃ j s', (join Preset.nil.handle Preset.int8.handle).run.run initial = (.ok j, s') ∧
      s'.tree j = .mk (.nullable .top (.mk (.atom Preset.int8.atom))) ∧
      ¬s'.Isa j Preset.nil.handle ∧ ¬s'.Isa j Preset.int8.handle := by
  have ha := holdsOf_preset sound_initial .nil (by decide : Kind.IsPlain .nil)
  have hb := holdsOf_preset sound_initial .int8 (by decide : Kind.IsPlain .int)
  obtain ⟨j, s', hrun, hs', hle, hj, hsup⟩ := join_plain sound_initial ha hb
  have hnil := isa_join_iff sound_initial ha hb hs' hle hj hsup
  have hint := isa_join_iff sound_initial hb ha hs' hle hj (hsup.trans (Ty.sup_comm _ _))
  rw [(tree_preset sound_initial .nil).2, (tree_preset sound_initial .int8).2] at hsup hnil hint
  refine ⟨.start (requests_addPresets empty), ha, hb, j, s', hrun, ?_, ?_, ?_⟩
  · rw [hsup]
    exact Ty.sup_nil_word (Ty.normal_ofAtom _) rfl
  · rw [hnil]
    exact not_not_intro (.nil nofun (by decide))
  · rw [hint]
    exact not_not_intro (.word rfl)

/-- Of plain types the join always exists. It is above an operand exactly if nil leaves no gap
between that operand and the other one. -/
theorem join_above_operands_without_gap (h : s.History log) (ha : s.HoldsOf Kind.IsPlain a)
    (hb : s.HoldsOf Kind.IsPlain b) :
    ∃ j s', (join a b).run.run s = (.ok j, s') ∧ s'.HoldsOf Kind.IsPlain j ∧
      (s'.Isa j a ↔ ¬Ty.NilGap (s.tree a) (s.tree b)) ∧
      (s'.Isa j b ↔ ¬Ty.NilGap (s.tree b) (s.tree a)) := by
  have hs := h.sound
  obtain ⟨j, s', hrun, hs', hle, hj, hsup⟩ := join_plain hs ha hb
  refine ⟨j, s', hrun, hj, isa_join_iff hs ha hb hs' hle hj hsup, ?_⟩
  exact isa_join_iff hs hb ha hs' hle hj (hsup.trans (Ty.sup_comm _ _))

/-- The join of a nullable byte and an integer is above the nullable byte, but not above the
integer. -/
theorem nullable_int8_int32_join : ∃ (s : Store) (a b : Handle) (log : List (Record Handle)),
    s.History log ∧ s.HoldsOf Kind.IsPlain a ∧ s.HoldsOf Kind.IsPlain b ∧
    s.tree a = .mk (.nullable .bottom (.mk (.atom Preset.int8.atom))) ∧
    s.tree b = .mk (.atom Preset.int32.atom) ∧
    ∃ j s', (join a b).run.run s = (.ok j, s') ∧ s'.Isa j a ∧ ¬s'.Isa j b := by
  have hnullable : (Ty.mk (.nullable .bottom (.mk (.atom Preset.int8.atom)))).Normal :=
    Ty.normal_nullable .bottom (Ty.normal_ofAtom _) rfl
  obtain ⟨s, a, b, hs, ha, hb⟩ := exists_two_stored hnullable (Ty.normal_ofAtom Preset.int32.atom)
  obtain ⟨log, hlog⟩ := hs.exists_history
  have hpa : s.HoldsOf Kind.IsPlain a :=
    .of_denotes ha (.mk (by decide) (List.forall_mem_singleton.2 (.mk (by decide) nofun)))
  have hpb : s.HoldsOf Kind.IsPlain b := .of_denotes hb (.mk (by decide) nofun)
  obtain ⟨j, s', hrun, -, hisa, hisa'⟩ := join_above_operands_without_gap hlog hpa hpb
  rw [ha.2, hb.2] at hisa hisa'
  refine ⟨s, a, b, log, hlog, hpa, hpb, ha.2, hb.2, j, s', hrun, hisa.2 ?_, ?_⟩
  · have hbyte : (Ty.mk (.atom Preset.int8.atom)).IsCore := rfl
    have hint : (Ty.mk (.atom Preset.int32.atom)).IsCore := rfl
    rw [Ty.NilGap.marked_iff rfl, Ty.NilGap.core_iff hbyte hint]
    nofun
  · rw [hisa']
    exact not_not_intro (.unmarked rfl rfl)

end TypeLattice.Store
