import TypeLattice.Proofs.StoreOrder

namespace TypeLattice

def Kind.IsPlain (k : Kind) : Prop := k ≠ .name ∧ k ≠ .ctrl

instance : DecidablePred Kind.IsPlain := fun k =>
  inferInstanceAs (Decidable (k ≠ .name ∧ k ≠ .ctrl))

namespace Store

variable {s : Store} {a b c : Handle}

theorem tree_inf_assoc (hs : s.Reachable) (ha : s.HoldsOf Kind.IsPlain a)
    (hb : s.HoldsOf Kind.IsPlain b) (hc : s.HoldsOf Kind.IsPlain c) :
    ((s.tree a).inf (s.tree b)).inf (s.tree c) = (s.tree a).inf ((s.tree b).inf (s.tree c)) := by
  have hnamed {h : Handle} (hh : s.HoldsOf Kind.IsPlain h) : Ty.SimplyNamed .top (s.tree h) :=
    Ty.simplyNamed_of_unnamed (hh.kinds.mono fun _ h => h.1) .top
  have hnormal {h : Handle} (hh : s.HoldsOf Kind.IsPlain h) := hs.sound.normal h hh.holds
  exact Ty.inf_assoc (hnormal ha) (hnormal hb) (hnormal hc) (hnamed ha) (hnamed hb) (hnamed hc)

theorem isa_iff_of_plain (hs : s.Reachable) (ha : s.HoldsOf Kind.IsPlain a)
    (hb : s.HoldsOf Kind.IsPlain b) : s.Isa a b ↔ (s.tree a).inf (s.tree b) = s.tree b :=
  isa_iff (fun _ h => h.2) hs.sound ha hb

theorem isa_refl (hs : s.Reachable) (ha : s.HoldsOf Kind.IsPlain a) : s.Isa a a := by
  rw [isa_iff_of_plain hs ha ha, Ty.inf_self]

theorem isa_antisymm (hs : s.Reachable) (ha : s.HoldsOf Kind.IsPlain a)
    (hb : s.HoldsOf Kind.IsPlain b) (hab : s.Isa a b) (hba : s.Isa b a) : a = b := by
  rw [isa_iff_of_plain hs ha hb] at hab
  rw [isa_iff_of_plain hs hb ha, Ty.inf_comm] at hba
  exact (ha.denotes.eq_iff hs.sound hb.denotes).2 (hba.symm.trans hab)

theorem isa_trans (hs : s.Reachable) (ha : s.HoldsOf Kind.IsPlain a)
    (hb : s.HoldsOf Kind.IsPlain b) (hc : s.HoldsOf Kind.IsPlain c) (hab : s.Isa a b)
    (hbc : s.Isa b c) : s.Isa a c := by
  rw [isa_iff_of_plain hs ha hb] at hab
  rw [isa_iff_of_plain hs hb hc] at hbc
  rw [isa_iff_of_plain hs ha hc]
  calc (s.tree a).inf (s.tree c)
      = (s.tree a).inf ((s.tree b).inf (s.tree c)) := by rw [hbc]
    _ = ((s.tree a).inf (s.tree b)).inf (s.tree c) := (tree_inf_assoc hs ha hb hc).symm
    _ = s.tree c := by rw [hab, hbc]

section bound

variable {m : Handle} (hs : s.Reachable) (ha : s.HoldsOf Kind.IsPlain a)
  (hb : s.HoldsOf Kind.IsPlain b) (hm : s.HoldsOf Kind.IsPlain m)
  (hinf : s.tree m = (s.tree a).inf (s.tree b))

include hs ha hb hm hinf

theorem isa_inf : s.Isa a m ∧ s.Isa b m := by
  rw [isa_iff_of_plain hs ha hm, isa_iff_of_plain hs hb hm, hinf]
  constructor
  · rw [← tree_inf_assoc hs ha ha hb, Ty.inf_self]
  · rw [Ty.inf_comm (s.tree a), ← tree_inf_assoc hs hb hb ha, Ty.inf_self]

theorem inf_isa (hc : s.HoldsOf Kind.IsPlain c) (hac : s.Isa a c) (hbc : s.Isa b c) :
    s.Isa m c := by
  rw [isa_iff_of_plain hs ha hc] at hac
  rw [isa_iff_of_plain hs hb hc] at hbc
  rw [isa_iff_of_plain hs hm hc, hinf, tree_inf_assoc hs ha hb hc, hbc, hac]

end bound

/-- On plain types the order is a partial order, and the meet always exists and is the greatest
type below both, among those of the store and all that are ever added to it. -/
theorem meet_greatest_lower_bound (hs : s.Reachable) (ha : s.HoldsOf Kind.IsPlain a)
    (hb : s.HoldsOf Kind.IsPlain b) :
    (∃ m s', (meet a b).run.run s = (.ok m, s') ∧ s'.Reachable ∧ s ≤ s' ∧
      s'.HoldsOf Kind.IsPlain m ∧ s'.Isa a m ∧ s'.Isa b m ∧
      ∀ s'' c, s''.Reachable → s' ≤ s'' → s''.HoldsOf Kind.IsPlain c →
        s''.Isa a c → s''.Isa b c → s''.Isa m c) ∧
    s.Isa a a ∧ (s.Isa a b → s.Isa b a → a = b) ∧
    ∀ c, s.HoldsOf Kind.IsPlain c → s.Isa a b → s.Isa b c → s.Isa a c := by
  obtain ⟨m, s', hrun, hs', hle, hm⟩ := meet_run (fun _ h => h.2) hs ha hb
  have hkinds := Ty.of_inf (by decide) (by decide) ha.kinds hb.kinds
  have hplain : s'.HoldsOf Kind.IsPlain m := .of_denotes hm hkinds
  have hlater {s'' : Store} (hle' : s' ≤ s'') : s''.HoldsOf Kind.IsPlain a ∧
      s''.HoldsOf Kind.IsPlain b ∧ s''.tree m = (s''.tree a).inf (s''.tree b) := by
    have hle'' := le_trans hle hle'
    refine ⟨ha.mono hs.sound hle'', hb.mono hs.sound hle'', ?_⟩
    rw [(hm.mono hs'.sound hle').2, (Denotes.of_holds hs.sound hle'' ha.holds).2,
      (Denotes.of_holds hs.sound hle'' hb.holds).2]
  obtain ⟨ha', hb', hinf⟩ := hlater (le_refl s')
  obtain ⟨ham, hbm⟩ := isa_inf hs' ha' hb' hplain hinf
  refine ⟨⟨m, s', hrun, hs', hle, hplain, ham, hbm, ?_⟩, isa_refl hs ha, isa_antisymm hs ha hb,
    fun c hc => isa_trans hs ha hb hc⟩
  intro s'' c hs'' hle' hc
  obtain ⟨ha'', hb'', hinf'⟩ := hlater hle'
  exact inf_isa hs'' ha'' hb'' (hplain.mono hs'.sound hle') hinf' hc

/-- The greatest type below both a byte and nil is the nullable byte. -/
theorem int8_nil_greatest_lower_bound :
    initial.Reachable ∧ initial.HoldsOf Kind.IsPlain Preset.int8.handle ∧
    initial.HoldsOf Kind.IsPlain Preset.nil.handle ∧
    ∃ m s', (meet Preset.int8.handle Preset.nil.handle).run.run initial = (.ok m, s') ∧
      s'.tree m = .mk (.nullable .bottom (.mk (.atom Preset.int8.atom))) ∧
      s'.Isa Preset.int8.handle m ∧ s'.Isa Preset.nil.handle m := by
  have ha := holdsOf_preset sound_initial .int8 (by decide : Kind.IsPlain .int)
  have hb := holdsOf_preset sound_initial .nil (by decide : Kind.IsPlain .nil)
  obtain ⟨m, s', hrun, -, -, hm⟩ := meet_run (fun _ h => h.2) .initial ha hb
  obtain ⟨⟨m', s'', hrun', -, -, -, ham, hbm, -⟩, -⟩ := meet_greatest_lower_bound .initial ha hb
  cases hrun.symm.trans hrun'
  refine ⟨.initial, ha, hb, m, s', hrun, ?_, ham, hbm⟩
  rw [hm.2, (tree_preset sound_initial .int8).2, (tree_preset sound_initial .nil).2, Ty.inf_comm]
  exact Ty.inf_nil_word rfl

end Store

end TypeLattice
