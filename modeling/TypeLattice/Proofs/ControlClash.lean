import TypeLattice.Proofs.OperandOrder
import TypeLattice.Proofs.StoreOrder

namespace TypeLattice

variable {α : Type}

namespace Kind

/-- The kinds that exclude control. A universal type or a name leaves the answer to the other
operand. -/
def HasValues (k : Kind) : Prop := k ≠ .universal ∧ k ≠ .name ∧ k ≠ .ctrl

instance : DecidablePred HasValues := fun k =>
  inferInstanceAs (Decidable (k ≠ .universal ∧ k ≠ .name ∧ k ≠ .ctrl))

theorem clashes_iff {j k : Kind} :
    j.Clashes k ↔ j < k ∧ (j = .ctrl ∧ k.HasValues ∨ k = .ctrl ∧ j.HasValues) := by
  constructor
  · rintro (⟨rfl, rfl | rfl⟩ | ⟨rfl, hk⟩)
    · decide
    · decide
    · revert hk
      cases k <;> decide
  · rintro ⟨hlt, ⟨rfl, -⟩ | ⟨rfl, hj⟩⟩
    · refine .inr ⟨rfl, ?_⟩
      revert hlt
      cases k <;> decide
    · refine .inl ⟨rfl, ?_⟩
      revert hlt hj
      cases j <;> decide

theorem clashes_of_hasValues {k : Kind} (h : k.HasValues) : ctrl.Clashes k ∨ k.Clashes .ctrl := by
  rw [clashes_iff, clashes_iff]
  revert h
  cases k <;> decide

end Kind

def Failure.IsControlClash : Failure → Prop
  | noMeet l r =>
    l.node.kind < r.node.kind ∧
      (l.node.kind = .ctrl ∧ r.node.kind.HasValues ∨ r.node.kind = .ctrl ∧ l.node.kind.HasValues)
  | noConversion _ _ => False

namespace Plan

variable {x y : α} {n k : Node α}

/-- A plan fails where it clashes, or where one of the meets and joins that it asks for fails. -/
theorem error_of_run {ε : Type} {Q : ε → Prop} {make : Node α → α}
    {meet join clash : α → α → Except ε α} {K : Kind → Prop} {p : Plan α} {e : ε}
    (h : p.run (fun l => .ok (make l)) meet join clash = .error e)
    (hends : p.Ends (fun u v => ∀ e, clash u v = .error e → Q e) K)
    (hp : p.Fits (fun _ => True) (fun u v => (∀ e, meet u v = .error e → Q e) ∧
      ∀ e, join u v = .error e → Q e)) : Q e := by
  cases p with
  | clash u v => exact hends e h
  | keep u => cases h
  | meet u v => exact hp.1 e h
  | build l =>
      rcases Node.exists_of_bind_eq_error h with h | ⟨l', -, h⟩
      · obtain ⟨q, hq, h⟩ := Node.exists_of_mapM_eq_error h
        have hq := hp q hq
        cases q with
        | keep u => cases h
        | meet u v => exact hq.1 e h
        | join u v => exact hq.2 e h
      · cases h

theorem ofPair_eq_clash (h : n.kind.Clashes k.kind) : ofPair x n y k = clash x y := by
  have hgt : ¬k.kind < n.kind := Nat.lt_asymm (Kind.clashes_iff.1 h).1
  rw [ofPair, if_neg hgt]
  rcases h with ⟨hk, hn⟩ | ⟨hn, hk⟩
  · obtain ⟨i, rfl⟩ := Node.kind_eq_ctrl hk
    cases n with
    | atom a =>
        cases a with
        | nil | scalar => rfl
        | _ => rcases hn with hn | hn <;> cases hn
    | nullable => rfl
    | _ => rcases hn with hn | hn <;> cases hn
  · obtain ⟨i, rfl⟩ := Node.kind_eq_ctrl hn
    rw [ofOrdered]
    unfold ofCtrl
    split
    · cases hk
    · rfl

end Plan

namespace Ty

variable {a b : Ty} {c : Clash Ty}

theorem meet_of_join_eq_error (h : join a b = .error c) : meet a.dual b.dual = .error c := by
  rw [join] at h
  cases hm : meet a.dual b.dual with
  | ok m => rw [hm] at h; cases h
  | error d =>
      rw [hm] at h
      cases h
      rfl

theorem clashes_of_meet (h : meet a b = .error c) : c.left.node.kind.Clashes c.right.node.kind := by
  induction a, b using pair_induction generalizing c with
  | h a b ih =>
      rw [meet_eq] at h
      split at h
      · cases h
      · refine Plan.error_of_run (Q := fun c => c.left.node.kind.Clashes c.right.node.kind)
          (K := fun _ => True) h ?_ ?_
        · apply Plan.ends_ofPair trivial trivial trivial trivial
          · rintro hclash _ ⟨⟩
            exact hclash
          · rintro hclash _ ⟨⟩
            exact hclash
        · refine (plan_fits_height a b).mono (fun _ _ => trivial) fun u v huv => ⟨?_, ?_⟩
          · exact fun e he => ih u v huv he
          · intro e he
            have hu := height_dual_le u
            have hv := height_dual_le v
            exact ih u.dual v.dual (by omega) (meet_of_join_eq_error he)

theorem clashes_of_join (h : join a b = .error c) : c.left.node.kind.Clashes c.right.node.kind :=
  clashes_of_meet (meet_of_join_eq_error h)

theorem meet_eq_error (h : a.node.kind.Clashes b.node.kind) : meet a b = .error ⟨a, b⟩ := by
  rw [meet_eq, if_neg, Plan.ofPair_eq_clash h]
  · rfl
  · rintro rfl
    exact Kind.not_clashes_self _ h

theorem exists_meet_eq_error (ha : a.node.kind = .ctrl) (hb : b.node.kind.HasValues) :
    ∃ c, meet a b = .error c := by
  rcases Kind.clashes_of_hasValues hb with h | h
  · exact ⟨_, meet_eq_error (ha ▸ h)⟩
  · exact ⟨_, meet_comm a b ▸ meet_eq_error (ha ▸ h)⟩

theorem exists_join_eq_error (ha : a.Normal) (hb : b.Normal) (hkind : a.node.kind = .ctrl)
    (hvalues : b.node.kind.HasValues) : ∃ c, join a b = .error c := by
  rw [← kind_dual ha] at hkind
  rw [← kind_dual hb] at hvalues
  obtain ⟨c, hc⟩ := exists_meet_eq_error hkind hvalues
  exact ⟨c, by rw [join, hc]; rfl⟩

end Ty

namespace Store

variable {s : Store} {a b : Handle} {log : List (Record Handle)}

section reported

variable {x : MeetM Handle} {y : Except (Clash Ty) Ty}
  (hx : s.Leads x.run (fun s' e => Agree Denotes s' e y))

include hx

theorem isControlClash_of_reported (hy : ∀ c, y = .error c → c.left.node.kind.Clashes c.right.node.kind)
    {f : Failure} (hf : ((reported x).run s).1 = .error f) : f.IsControlClash := by
  have hreport := (reported_leads hx).2.2
  rw [hf] at hreport
  cases hreport with
  | error c => exact Kind.clashes_iff.1 (hy c rfl)

theorem exists_failure_of_reported {c : Clash Ty} (hy : y = .error c) :
    ∃ f, ((reported x).run s).1 = .error f := by
  have hreport := (reported_leads hx).2.2
  rw [hy] at hreport
  generalize ((reported x).run s).1 = e at hreport
  cases hreport with
  | error => exact ⟨_, rfl⟩

theorem run_eq_ok_of_leads {t : Ty} (hy : y = .ok t) :
    ∃ h s', x.run.run s = (.ok h, s') ∧ s'.Sound ∧ s ≤ s' ∧ s'.Denotes h t := by
  obtain ⟨hs', hle, hagree⟩ := hx
  rw [hy] at hagree
  generalize x.run.run s = r at *
  obtain ⟨e, s'⟩ := r
  cases hagree with
  | ok hd => exact ⟨_, s', rfl, hs', hle, hd⟩

end reported

/-- A meet or a join fails only between control and a value, and there it does fail. Types without
control have a meet and a join, which are without control again. -/
theorem fails_only_at_control_against_value (h : s.History log) (ha : s.Holds a) (hb : s.Holds b) :
    (∀ x ∈ [meet a b, join a b], ∀ f, ((reported x).run s).1 = .error f → f.IsControlClash) ∧
    (s.HoldsOf (· ≠ .ctrl) a → s.HoldsOf (· ≠ .ctrl) b →
      ∀ x ∈ [meet a b, join a b], ∃ m s', x.run.run s = (.ok m, s') ∧ s'.HoldsOf (· ≠ .ctrl) m) ∧
    ((s.node a).kind = .ctrl → (s.node b).kind.HasValues →
      ∀ x ∈ [meet a b, join a b, meet b a, join b a], ∃ f, ((reported x).run s).1 = .error f) := by
  have hs := h.sound
  have hmeet := meet_leads hs ha hb
  have hjoin := join_leads hs ha hb
  refine ⟨?_, fun hka hkb => ?_, fun hctrl hvalues => ?_⟩
  · rw [List.forall_mem_cons, List.forall_mem_singleton]
    exact ⟨fun f => isControlClash_of_reported hmeet fun _ => Ty.clashes_of_meet,
      fun f => isControlClash_of_reported hjoin fun _ => Ty.clashes_of_join⟩
  · rw [List.forall_mem_cons, List.forall_mem_singleton]
    constructor
    · obtain ⟨m, s', hrun, -, -, hm⟩ := run_eq_ok_of_leads hmeet (Ty.meet_eq_ok hka.kinds hkb.kinds)
      exact ⟨m, s', hrun, .of_denotes hm (Ty.of_inf nofun nofun hka.kinds hkb.kinds)⟩
    · obtain ⟨m, s', hrun, -, -, hm⟩ := run_eq_ok_of_leads hjoin (Ty.join_eq_ok hka.kinds hkb.kinds)
      exact ⟨m, s', hrun, .of_denotes hm (Ty.of_sup nofun nofun hka.kinds hkb.kinds)⟩
  · rw [← kind_tree hs.descends ha] at hctrl
    rw [← kind_tree hs.descends hb] at hvalues
    obtain ⟨c, hc⟩ := Ty.exists_meet_eq_error hctrl hvalues
    obtain ⟨d, hd⟩ := Ty.exists_join_eq_error (hs.normal a ha) (hs.normal b hb) hctrl hvalues
    rw [List.forall_mem_cons, List.forall_mem_cons, List.forall_mem_cons, List.forall_mem_singleton]
    exact ⟨exists_failure_of_reported hmeet hc, exists_failure_of_reported hjoin hd,
      exists_failure_of_reported (meet_leads hs hb ha) (Ty.meet_comm _ _ ▸ hc),
      exists_failure_of_reported (join_leads hs hb ha) (Ty.join_comm _ _ ▸ hd)⟩

/-- A function on control and one on bytes clash in their parameters, where their duals meet. -/
theorem functions_clash_in_parameters : ∃ (s : Store) (a b : Handle) (log : List (Record Handle)),
    s.History log ∧
    s.Denotes a (.mk (.func .bottom [.mk (.atom Preset.ctrl.atom)] (.mk (.atom Preset.int8.atom)))) ∧
    s.Denotes b (.mk (.func .bottom [.mk (.atom Preset.int8.atom)] (.mk (.atom Preset.nil.atom)))) ∧
    (∃ f, ((reported (meet a b)).run s).1 = .error f ∧ f.IsControlClash) ∧
    (∃ m s', (join Preset.nil.handle b).run.run s = (.ok m, s') ∧ s'.HoldsOf (· ≠ .ctrl) m) ∧
    ∃ f, ((reported (join a Preset.ctrl.handle)).run s).1 = .error f := by
  have hatom (p : Preset) : (Ty.mk (.atom p.atom)).Normal := .mk trivial nofun
  have hnormal (p q : Preset) :
      (Ty.mk (.func .bottom [.mk (.atom p.atom)] (.mk (.atom q.atom)))).Normal :=
    .mk trivial (List.forall_mem_cons.2 ⟨hatom p, List.forall_mem_singleton.2 (hatom q)⟩)
  obtain ⟨s, a, b, hs, ha, hb⟩ := exists_two_stored (hnormal .ctrl .int8) (hnormal .int8 .nil)
  obtain ⟨log, hlog⟩ := hs.exists_history
  have hctrl := tree_preset hs.sound .ctrl
  have hnil := tree_preset hs.sound .nil
  have hclash : Ty.meet (s.tree a) (s.tree b) =
      .error ⟨.mk (.atom (.ctrl .top)), .mk (.atom (.int (.range .top .w8)))⟩ := by
    rw [ha.2, hb.2]
    decide +kernel
  obtain ⟨f, hf⟩ := exists_failure_of_reported (meet_leads hs.sound ha.1 hb.1) hclash
  have hvalues : s.HoldsOf (· ≠ .ctrl) b :=
    .of_denotes hb (.mk nofun (List.forall_mem_cons.2 ⟨.mk nofun nofun,
      List.forall_mem_singleton.2 (.mk nofun nofun)⟩))
  have hkind : (s.node a).kind = .func := by
    rw [← kind_tree hs.sound.descends ha.1, ha.2]
    rfl
  refine ⟨s, a, b, log, hlog, ha, hb, ⟨f, hf, ?_⟩, ?_, ?_⟩
  · exact (fails_only_at_control_against_value hlog ha.1 hb.1).1 _ (by simp) f hf
  · exact (fails_only_at_control_against_value hlog hnil.1 hb.1).2.1
      (holdsOf_preset hs.sound .nil nofun) hvalues _ (by simp)
  · refine (fails_only_at_control_against_value hlog hctrl.1 ha.1).2.2 ?_ ?_ _ (by simp)
    · rw [(hs.sound.preset .ctrl).2]
      rfl
    · rw [hkind]
      decide

end Store

end TypeLattice
