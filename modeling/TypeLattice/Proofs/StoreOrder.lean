import TypeLattice.Proofs.Associativity
import TypeLattice.Proofs.Reachable

namespace TypeLattice

namespace Ty

variable {K : Kind → Prop} {a b : Ty}

theorem Of.mono {K' : Kind → Prop} (h : ∀ k, K k → K' k) (ha : a.Of K) : a.Of K' :=
  Everywhere.mono (fun n hn => h n.kind hn) ha

theorem simplyNamed_of_unnamed (h : a.Of (· ≠ .name)) (i : Half) : SimplyNamed i a := by
  induction h generalizing i with
  | mk hn ht ih =>
      refine .mk ?_ fun j u hu => ih u (Node.mem_children_of_mem_sided hu) j
      rename_i n
      cases n with
      | name => exact absurd rfl hn
      | nullable i t => exact fun h => absurd h (ht t (List.mem_singleton_self t)).layer
      | _ => trivial

theorem isa_iff (ha : a.Of (· ≠ .ctrl)) (hb : b.Of (· ≠ .ctrl)) :
    isa a b = true ↔ inf a b = b := by
  rw [isa, meet_eq_ok ha hb]
  exact decide_eq_true_iff

end Ty

namespace Store

variable {K : Kind → Prop} {s : Store} {a b : Handle}

def Isa (s : Store) (a b : Handle) : Prop := ((isa a b).run s).1 = true

/-- A handle of the store with layers of the given kinds only. -/
structure HoldsOf (s : Store) (K : Kind → Prop) (a : Handle) : Prop where
  holds : s.Holds a
  kinds : (s.tree a).Of K

theorem HoldsOf.denotes (ha : s.HoldsOf K a) : s.Denotes a (s.tree a) := ⟨ha.holds, rfl⟩

theorem HoldsOf.of_denotes {t : Ty} (h : s.Denotes a t) (ht : t.Of K) : s.HoldsOf K a :=
  ⟨h.1, h.2 ▸ ht⟩

theorem HoldsOf.mono {s' : Store} (hs : s.Sound) (hle : s ≤ s') (ha : s.HoldsOf K a) :
    s'.HoldsOf K a :=
  .of_denotes (Denotes.of_holds hs hle ha.holds) ha.kinds

theorem HoldsOf.part (hs : s.Sound) (ha : s.HoldsOf K a) {x : Handle}
    (hx : x ∈ (s.node a).children) : s.HoldsOf K x := by
  refine ⟨hs.descends.holds ha.holds hx, ?_⟩
  have hkinds := ha.kinds
  rw [tree_eq hs.descends ha.holds] at hkinds
  apply hkinds.parts
  rw [Ty.node, Node.children_map]
  exact List.mem_map_of_mem hx

theorem holdsOf_preset (hs : s.Sound) (p : Preset) (hp : K p.atom.kind) : s.HoldsOf K p.handle :=
  .of_denotes (tree_preset hs p) (.mk hp nofun)

theorem isa_iff (hK : ∀ k, K k → k ≠ .ctrl) (hs : s.Sound) (ha : s.HoldsOf K a)
    (hb : s.HoldsOf K b) : s.Isa a b ↔ Ty.inf (s.tree a) (s.tree b) = s.tree b := by
  have hanswer : ((isa a b).run s).1 = Ty.isa (s.tree a) (s.tree b) :=
    (isa_leads hs ha.holds hb.holds).2.2
  rw [Isa, hanswer]
  exact Ty.isa_iff (ha.kinds.mono hK) (hb.kinds.mono hK)

theorem Reachable.of_meet (hs : s.Reachable) (ha : s.Holds a) (hb : s.Holds b) :
    ((meet a b).run.run s).2.Reachable :=
  Reachable.call (.meet a b) hs (by simp [Call.operands, ha, hb])

theorem Reachable.of_join (hs : s.Reachable) (ha : s.Holds a) (hb : s.Holds b) :
    ((join a b).run.run s).2.Reachable :=
  Reachable.call (.join a b) hs (by simp [Call.operands, ha, hb])

theorem Reachable.of_dual (hs : s.Reachable) (ha : s.Holds a) : ((dual a).run s).2.Reachable :=
  Reachable.call (.dual a) hs (by simp [Call.operands, ha])

theorem meet_run (hK : ∀ k, K k → k ≠ .ctrl) (hs : s.Reachable) (ha : s.HoldsOf K a)
    (hb : s.HoldsOf K b) : ∃ m s', (meet a b).run.run s = (.ok m, s') ∧ s'.Reachable ∧ s ≤ s' ∧
      s'.Denotes m (Ty.inf (s.tree a) (s.tree b)) := by
  obtain ⟨-, hle, hagree⟩ := meet_leads hs.sound ha.holds hb.holds
  have hreach := hs.of_meet ha.holds hb.holds
  rw [Ty.meet_eq_ok (ha.kinds.mono hK) (hb.kinds.mono hK)] at hagree
  generalize (meet a b).run.run s = r at *
  obtain ⟨e, s'⟩ := r
  cases hagree with
  | ok h => exact ⟨_, s', rfl, hreach, hle, h⟩

theorem join_run (hK : ∀ k, K k → k ≠ .ctrl) (hs : s.Reachable) (ha : s.HoldsOf K a)
    (hb : s.HoldsOf K b) : ∃ j s', (join a b).run.run s = (.ok j, s') ∧ s'.Reachable ∧ s ≤ s' ∧
      s'.Denotes j (Ty.sup (s.tree a) (s.tree b)) := by
  obtain ⟨-, hle, hagree⟩ := join_leads hs.sound ha.holds hb.holds
  have hreach := hs.of_join ha.holds hb.holds
  rw [Ty.join_eq_ok (ha.kinds.mono hK) (hb.kinds.mono hK)] at hagree
  generalize (join a b).run.run s = r at *
  obtain ⟨e, s'⟩ := r
  cases hagree with
  | ok h => exact ⟨_, s', rfl, hreach, hle, h⟩

theorem dual_run (hs : s.Reachable) (ha : s.Holds a) : ∃ d s', (dual a).run s = (d, s') ∧
    s'.Reachable ∧ s ≤ s' ∧ s'.Denotes d (s.tree a).dual := by
  obtain ⟨-, hle, hd⟩ := dual_leads hs.sound ha
  exact ⟨_, _, rfl, hs.of_dual ha, hle, hd⟩

end Store

end TypeLattice
