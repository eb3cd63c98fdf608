import TypeLattice.Proofs.Reachable

namespace TypeLattice.Store

variable {s : Store} {a b : Handle}

/-- The program's answer stands for the given one in the store that it leaves behind. -/
def Answers (s : Store) (x : MeetM Handle) (y : Except (Clash Ty) Ty) : Prop :=
  Agree Denotes (x.run.run s).2 (x.run.run s).1 y

def outcome (s : Store) (x : MeetM Handle) : Except (Clash Ty) Ty :=
  let s' := (x.run.run s).2
  match (x.run.run s).1 with
  | .ok h => .ok (s'.tree h)
  | .error c => .error ⟨s'.tree c.left, s'.tree c.right⟩

theorem Answers.outcome_eq {x : MeetM Handle} {y : Except (Clash Ty) Ty} (h : s.Answers x y) :
    s.outcome x = y := by
  rw [Answers] at h
  rw [outcome]
  generalize (x.run.run s).1 = e at h
  cases h with
  | ok h => simp only [h.2]
  | error hl hr => simp only [hl.2, hr.2]

/-- Every operation answers as its rules on trees do (`Ty.dual_mk` and `Ty.meet_eq`), which know
neither handles nor a memory of duals: equal trees in whatever stores give equal outcomes. -/
theorem operations_answer_as_on_trees (hs : s.Reachable) (ha : s.Holds a) (hb : s.Holds b) :
    s.Answers (liftM (dual a)) (.ok (s.tree a).dual) ∧
    s.Answers (meet a b) (Ty.meet (s.tree a) (s.tree b)) ∧
    s.Answers (join a b) (Ty.join (s.tree a) (s.tree b)) ∧
    ∀ (s' : Store) (a' b' : Handle), s'.Reachable → s'.Denotes a' (s.tree a) →
      s'.Denotes b' (s.tree b) →
        s'.outcome (liftM (dual a')) = s.outcome (liftM (dual a)) ∧
        s'.outcome (meet a' b') = s.outcome (meet a b) ∧
        s'.outcome (join a' b') = s.outcome (join a b) := by
  have answers {s : Store} {a b : Handle} (hs : s.Reachable) (ha : s.Holds a) (hb : s.Holds b) :
      s.Answers (liftM (dual a)) (.ok (s.tree a).dual) ∧
      s.Answers (meet a b) (Ty.meet (s.tree a) (s.tree b)) ∧
      s.Answers (join a b) (Ty.join (s.tree a) (s.tree b)) :=
    ⟨(dual_follows hs.sound ⟨ha, rfl⟩).2.2, (meet_leads hs.sound ha hb).2.2,
      (join_leads hs.sound ha hb).2.2⟩
  obtain ⟨hdual, hmeet, hjoin⟩ := answers hs ha hb
  refine ⟨hdual, hmeet, hjoin, ?_⟩
  intro s' a' b' hs' ha' hb'
  obtain ⟨hdual', hmeet', hjoin'⟩ := answers hs' ha'.1 hb'.1
  rw [ha'.2] at hdual' hmeet' hjoin'
  rw [hb'.2] at hmeet' hjoin'
  exact ⟨hdual'.outcome_eq.trans hdual.outcome_eq.symm,
    hmeet'.outcome_eq.trans hmeet.outcome_eq.symm,
    hjoin'.outcome_eq.trans hjoin.outcome_eq.symm⟩

/-- A byte and a float have no common class but the scalars, before and after their join has been
asked for once. -/
theorem int8_flt64_answers :
    initial.Reachable ∧ initial.Holds Preset.int8.handle ∧ initial.Holds Preset.flt64.handle ∧
    initial.Answers (liftM (dual Preset.int8.handle)) (.ok (.mk (.atom (.int (.range .top .w8))))) ∧
    initial.Answers (meet Preset.int8.handle Preset.flt64.handle)
      (.ok (.mk (.atom (.scalar .bottom)))) ∧
    initial.Answers (join Preset.int8.handle Preset.flt64.handle)
      (.ok (.mk (.atom (.scalar .top)))) ∧
    ((Call.join Preset.int8.handle Preset.flt64.handle).run.run initial).2.outcome
        (join Preset.int8.handle Preset.flt64.handle) =
      initial.outcome (join Preset.int8.handle Preset.flt64.handle) := by
  obtain ⟨ha, hta⟩ := tree_preset sound_initial .int8
  obtain ⟨hb, htb⟩ := tree_preset sound_initial .flt64
  generalize Preset.int8.handle = a at *
  generalize Preset.flt64.handle = b at *
  have hheld : ∀ x ∈ (Call.join a b).operands, initial.Holds x := by
    simp only [Call.operands, List.forall_mem_cons]
    exact ⟨ha, hb, by simp⟩
  have hlater := Reachable.call (.join a b) .initial hheld
  have hle := Reachable.initial.le_call (.join a b) hheld
  obtain ⟨hdual, hmeet, hjoin, hagain⟩ := operations_answer_as_on_trees .initial ha hb
  have hsame := hagain _ a b hlater (Denotes.of_holds sound_initial hle ha)
    (Denotes.of_holds sound_initial hle hb)
  rw [hta] at hdual hmeet hjoin
  rw [htb] at hmeet hjoin
  exact ⟨.initial, ha, hb, hdual, hmeet, hjoin, hsame.2.2⟩

end TypeLattice.Store
