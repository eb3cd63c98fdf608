import TypeLattice.Proofs.NilGap
import TypeLattice.Proofs.StoreOrder

namespace TypeLattice

def Kind.IsNilFree (k : Kind) : Prop := k ≠ .name ∧ k ≠ .ctrl ∧ k ≠ .nil

instance : DecidablePred Kind.IsNilFree := fun k =>
  inferInstanceAs (Decidable (k ≠ .name ∧ k ≠ .ctrl ∧ k ≠ .nil))

namespace Ty

variable {x y : Ty}

theorem inf_dual_of_inf (hx : x.Normal) (hy : y.Normal)
    (kx : x.Of fun k => k ≠ .name ∧ k ≠ .nil) (ky : y.Of fun k => k ≠ .name ∧ k ≠ .nil)
    (h : inf x y = y) : inf y.dual x.dual = x.dual := by
  have hsup : sup x (inf x y) = x := (sup_inf_self_iff hx hy).2
    (inf_sup_self (normal_dual hx) (normal_dual hy) (of_dual kx) (of_dual ky))
  rw [h] at hsup
  rw [inf_comm, ← dual_sup hx hy, hsup]

theorem inf_dual_iff (hx : x.Normal) (hy : y.Normal)
    (kx : x.Of fun k => k ≠ .name ∧ k ≠ .nil) (ky : y.Of fun k => k ≠ .name ∧ k ≠ .nil) :
    inf x y = y ↔ inf y.dual x.dual = x.dual := by
  constructor
  · exact inf_dual_of_inf hx hy kx ky
  · intro h
    have h' := inf_dual_of_inf (normal_dual hy) (normal_dual hx) (of_dual ky) (of_dual kx) h
    rwa [dual_dual hx, dual_dual hy] at h'

end Ty

namespace Store

variable {s : Store} {a b : Handle}

section laws

variable (hs : s.Reachable) (ha : s.HoldsOf Kind.IsNilFree a) (hb : s.HoldsOf Kind.IsNilFree b)

include hs ha

theorem dual_nilFree : ∃ d s', (dual a).run s = (d, s') ∧ s'.Reachable ∧ s ≤ s' ∧
    s'.HoldsOf Kind.IsNilFree d ∧ s'.tree d = (s.tree a).dual := by
  obtain ⟨d, s', hrun, hs', hle, hd⟩ := dual_run hs ha.holds
  exact ⟨d, s', hrun, hs', hle, .of_denotes hd (Ty.of_dual ha.kinds), hd.2⟩

include hb

theorem meet_nilFree : ∃ m s', (meet a b).run.run s = (.ok m, s') ∧ s'.Reachable ∧ s ≤ s' ∧
    s'.HoldsOf Kind.IsNilFree m ∧ s'.tree m = (s.tree a).inf (s.tree b) := by
  obtain ⟨m, s', hrun, hs', hle, hm⟩ := meet_run (fun _ h => h.2.1) hs ha hb
  have hkinds := Ty.of_inf (by decide) (by decide) ha.kinds hb.kinds
  exact ⟨m, s', hrun, hs', hle, .of_denotes hm hkinds, hm.2⟩

theorem join_nilFree : ∃ j s', (join a b).run.run s = (.ok j, s') ∧ s'.Reachable ∧ s ≤ s' ∧
    s'.HoldsOf Kind.IsNilFree j ∧ s'.tree j = (s.tree a).sup (s.tree b) := by
  obtain ⟨j, s', hrun, hs', hle, hj⟩ := join_run (fun _ h => h.2.1) hs ha hb
  have hkinds := Ty.of_sup (by decide) (by decide) ha.kinds hb.kinds
  exact ⟨j, s', hrun, hs', hle, .of_denotes hj hkinds, hj.2⟩

theorem tree_absorbs : (s.tree a).inf ((s.tree a).sup (s.tree b)) = s.tree a ∧
    (s.tree a).sup ((s.tree a).inf (s.tree b)) = s.tree a := by
  have hkinds {h : Handle} (hh : s.HoldsOf Kind.IsNilFree h) :
      (s.tree h).Of fun k => k ≠ .name ∧ k ≠ .nil := hh.kinds.mono fun _ h => ⟨h.1, h.2.2⟩
  have hnormal {h : Handle} (hh : s.HoldsOf Kind.IsNilFree h) := hs.sound.normal h hh.holds
  constructor
  · exact Ty.inf_sup_self (hnormal ha) (hnormal hb) (hkinds ha) (hkinds hb)
  · apply (Ty.sup_inf_self_iff (hnormal ha) (hnormal hb)).2
    exact Ty.inf_sup_self (Ty.normal_dual (hnormal ha)) (Ty.normal_dual (hnormal hb))
      (Ty.of_dual (hkinds ha)) (Ty.of_dual (hkinds hb))

theorem meet_join_run : ((do let j ← join a b; meet a j : MeetM Handle).run.run s).1 = .ok a := by
  obtain ⟨j, s', hrun, hs', hle, hj, htj⟩ := join_nilFree hs ha hb
  obtain ⟨ha', hta⟩ := Denotes.of_holds hs.sound hle ha.holds
  obtain ⟨m, s'', hrun', hs'', hle', hm, htm⟩ := meet_nilFree hs' (ha.mono hs.sound hle) hj
  rw [run_bind_ok hrun, hrun']
  apply congrArg Except.ok
  apply (hm.denotes.eq_iff hs''.sound (Denotes.of_holds hs'.sound hle' ha')).2
  rw [htm, htj, hta, (tree_absorbs hs ha hb).1]

theorem join_meet_run : ((do let m ← meet a b; join a m : MeetM Handle).run.run s).1 = .ok a := by
  obtain ⟨m, s', hrun, hs', hle, hm, htm⟩ := meet_nilFree hs ha hb
  obtain ⟨ha', hta⟩ := Denotes.of_holds hs.sound hle ha.holds
  obtain ⟨j, s'', hrun', hs'', hle', hj, htj⟩ := join_nilFree hs' (ha.mono hs.sound hle) hm
  rw [run_bind_ok hrun, hrun']
  apply congrArg Except.ok
  apply (hj.denotes.eq_iff hs''.sound (Denotes.of_holds hs'.sound hle' ha')).2
  rw [htj, htm, hta, (tree_absorbs hs ha hb).2]

theorem isa_dual_run :
    s.Isa a b ↔ ((do let b' ← dual b; let a' ← dual a; isa b' a').run s).1 = true := by
  obtain ⟨d, s₁, hrun₁, hs₁, hle₁, hd, htd⟩ := dual_nilFree hs hb
  obtain ⟨e, s₂, hrun₂, hs₂, hle₂, he, hte⟩ := dual_nilFree hs₁ (ha.mono hs.sound hle₁)
  have hprogram : (do let b' ← dual b; let a' ← dual a; isa b' a').run s = (isa d e).run s₂ := by
    rw [StateT.run_bind, hrun₁]
    exact congrArg (fun r => (isa d r.1).run r.2) hrun₂
  have hctrl : ∀ k : Kind, k.IsNilFree → k ≠ .ctrl := fun _ h => h.2.1
  have hkinds {h : Handle} (hh : s.HoldsOf Kind.IsNilFree h) :
      (s.tree h).Of fun k => k ≠ .name ∧ k ≠ .nil := hh.kinds.mono fun _ h => ⟨h.1, h.2.2⟩
  have hlater : s₂.Isa d e ↔ (s.tree b).dual.inf (s.tree a).dual = (s.tree a).dual := by
    rw [isa_iff hctrl hs₂.sound (hd.mono hs₁.sound hle₂) he, hte,
      (Denotes.of_holds hs₁.sound hle₂ hd.holds).2, htd,
      (Denotes.of_holds hs.sound hle₁ ha.holds).2]
  rw [hprogram, isa_iff hctrl hs.sound ha hb, Ty.inf_dual_iff (hs.sound.normal a ha.holds)
    (hs.sound.normal b hb.holds) (hkinds ha) (hkinds hb)]
  exact hlater.symm

end laws

/-- On types without names, control and nil, meet and join always exist, absorb each other, and
are exchanged by the dual. -/
theorem nil_free_types_form_lattice (hs : s.Reachable) (ha : s.HoldsOf Kind.IsNilFree a)
    (hb : s.HoldsOf Kind.IsNilFree b) :
    (∃ d s', (dual a).run s = (d, s') ∧ s'.HoldsOf Kind.IsNilFree d) ∧
    (∃ m s', (meet a b).run.run s = (.ok m, s') ∧ s'.HoldsOf Kind.IsNilFree m) ∧
    (∃ j s', (join a b).run.run s = (.ok j, s') ∧ s'.HoldsOf Kind.IsNilFree j) ∧
    ((do let j ← join a b; meet a j : MeetM Handle).run.run s).1 = .ok a ∧
    ((do let m ← meet a b; join a m : MeetM Handle).run.run s).1 = .ok a ∧
    (s.Isa a b ↔ ((do let b' ← dual b; let a' ← dual a; isa b' a').run s).1 = true) := by
  refine ⟨?_, ?_, ?_, meet_join_run hs ha hb, join_meet_run hs ha hb, isa_dual_run hs ha hb⟩
  · obtain ⟨d, s', hrun, -, -, hd, -⟩ := dual_nilFree hs ha
    exact ⟨d, s', hrun, hd⟩
  · obtain ⟨m, s', hrun, -, -, hm, -⟩ := meet_nilFree hs ha hb
    exact ⟨m, s', hrun, hm⟩
  · obtain ⟨j, s', hrun, -, -, hj, -⟩ := join_nilFree hs ha hb
    exact ⟨j, s', hrun, hj⟩

/-- A byte and a float absorb each other, though they have no class in common. -/
theorem int8_flt64_absorb :
    initial.Reachable ∧ initial.HoldsOf Kind.IsNilFree Preset.int8.handle ∧
    initial.HoldsOf Kind.IsNilFree Preset.flt64.handle ∧
    ((do let j ← join Preset.int8.handle Preset.flt64.handle; meet Preset.int8.handle j :
      MeetM Handle).run.run initial).1 = .ok Preset.int8.handle ∧
    ((do let m ← meet Preset.int8.handle Preset.flt64.handle; join Preset.int8.handle m :
      MeetM Handle).run.run initial).1 = .ok Preset.int8.handle := by
  have ha := holdsOf_preset sound_initial .int8 (by decide : Kind.IsNilFree .int)
  have hb := holdsOf_preset sound_initial .flt64 (by decide : Kind.IsNilFree .flt)
  obtain ⟨-, -, -, hmeet, hjoin, -⟩ := nil_free_types_form_lattice .initial ha hb
  exact ⟨.initial, ha, hb, hmeet, hjoin⟩

end Store

end TypeLattice
