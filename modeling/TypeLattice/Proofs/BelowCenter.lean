import TypeLattice.Proofs.ControlClash
import TypeLattice.Proofs.DualInvolution
import TypeLattice.Proofs.NamedTypes

namespace TypeLattice

theorem Half.inf_eq_top {h k : Half} : h.inf k = .top ↔ h = .top ∧ k = .top := by
  cases h <;> cases k <;> decide

namespace Ty

variable {x y a b : Ty}

theorem half_inf_pointers (hx : x.node.kind.isPointer = true) (hy : y.node.kind.isPointer = true)
    (hn : x.Normal) (h : (inf x y).node.half = .top) :
    x.node.half = .top ∧ y.node.half = .top := by
  by_cases hxo : x.node.kind = .oop
  · rcases oop_cases hxo with rfl | rfl
    · rw [inf_anyOop hy] at h
      exact ⟨rfl, h⟩
    · rw [inf_oop hy] at h
      cases h
  · by_cases hyo : y.node.kind = .oop
    · rw [inf_comm] at h
      rcases oop_cases hyo with rfl | rfl
      · rw [inf_anyOop hx] at h
        exact ⟨h, rfl⟩
      · rw [inf_oop hx] at h
        cases h
    · by_cases hshape : x.node.shape = y.node.shape
      · rw [(alike_inf (Node.alike_of_isPointer hx hxo hshape) hn).2] at h
        exact Half.inf_eq_top.1 h
      · rw [inf_pointers_of_ne hx hy hxo hyo hshape] at h
        cases h

theorem half_inf_word (hx : x.node.kind.isWord = true) (hy : y.IsCore) (hn : x.Normal)
    (h : (inf x y).node.half = .top) : x.node.half = .top ∧ y.node.half = .top := by
  have hcore : x.IsCore := (Kind.ne_of_isWord hx).1
  rcases core_cases hy with rfl | rfl | hyp | hyw
  · rw [inf_comm, inf_anyScalar hcore] at h
    exact ⟨h, rfl⟩
  · rw [inf_comm, inf_scalar hcore] at h
    cases h
  · rw [inf_word_pointer hx hyp] at h
    cases h
  · rcases inf_word_word hx hyw hn with hs | ⟨-, hhalf⟩
    · rw [hs] at h
      cases h
    · rw [hhalf] at h
      exact Half.inf_eq_top.1 h

theorem half_inf_cores (hx : x.IsCore) (hy : y.IsCore) (hn : x.Normal) (hm : y.Normal)
    (h : (inf x y).node.half = .top) : x.node.half = .top ∧ y.node.half = .top := by
  rcases core_cases hx with rfl | rfl | hxp | hxw
  · rw [inf_anyScalar hy] at h
    exact ⟨rfl, h⟩
  · rw [inf_scalar hy] at h
    cases h
  · rcases core_cases hy with rfl | rfl | hyp | hyw
    · rw [inf_comm, inf_anyScalar hx] at h
      exact ⟨h, rfl⟩
    · rw [inf_comm, inf_scalar hx] at h
      cases h
    · exact half_inf_pointers hxp hyp hn h
    · rw [inf_comm] at h
      exact (half_inf_word hyw hx hm h).symm
  · exact half_inf_word hxw hy hn h

theorem wordy_of_lacks_nil (hd : x.Decorated) (hnil : x.absorbsNil = false) : x.Wordy := by
  rw [absorbsNil, Bool.or_eq_false_iff, Node.isUniversal_eq] at hnil
  have hu := unname_ne_universal hd (of_decide_eq_false hnil.1)
  have hname := kind_unname_ne_name x
  have hadmits := hnil.2
  rw [Node.admitsNil] at hadmits
  rw [Wordy]
  revert hu hname hadmits
  cases x.unname.node.kind <;> decide

theorem wordy_inf (hx : x.unname.IsCore) (hy : y.unname.IsCore) (hword : x.Wordy ∨ y.Wordy)
    (hn : x.Normal) (hm : y.Normal) : (inf x y).unname = scalar ∨ (inf x y).Wordy := by
  revert hx hy hword hn hm
  have hmem {l : String} {z : Ty} : z ∈ (Node.name l z).children := List.mem_singleton_self z
  induction x, y using named_induction with
  | comm x y h => exact fun hx hy hword hn hm => inf_comm x y ▸ h hy hx hword.symm hm hn
  | universal x y h =>
      intro hx
      rw [unname_of_ne (h.trans_ne nofun)] at hx
      exact absurd h (Kind.isCore_iff.1 hx).1
  | names l k x y ih =>
      intro hx hy hword hn hm
      rw [Wordy, Wordy, unname_name, unname_name] at hword
      have hxy := ih hx hy hword (hn.parts x hmem) (hm.parts y hmem)
      by_cases hk : k = l
      · rwa [hk, inf_name_name, Wordy, unname_name]
      · rwa [inf_name_ne hk]
  | name l x y hu hname ih =>
      intro hx hy hword hn hm
      rw [Wordy, unname_name] at hword
      rw [inf_name_left (isValue_of_kind hu hname)]
      exact ih hx hy hword (hn.parts x hmem) hm
  | bare x y _ _ hnx hny =>
      intro hx hy hword hn hm
      have hbare : inf x y = scalar ∨ (inf x y).node.kind.isWord = true := by
        rw [Wordy, Wordy, unname_of_ne hnx, unname_of_ne hny] at hword
        rw [unname_of_ne hnx] at hx
        rw [unname_of_ne hny] at hy
        rcases hword with hw | hw
        · exact inf_word_core hw hy hn
        · rw [inf_comm]
          exact inf_word_core hw hx hm
      rcases hbare with hs | hw
      · left
        rw [hs]
        rfl
      · right
        rwa [Wordy, unname_of_ne (Kind.isCore_iff.1 (Kind.ne_of_isWord hw).1).2.2]

theorem half_build_nullable {h : Half} (hx : x.unname = scalar ∨ x.Wordy)
    (htop : (build (.nullable h x)).half = .top) : h = .top := by
  rcases hx with hs | hw
  · have hnil : x.absorbsNil = true := by
      rw [absorbsNil, hs, Bool.or_eq_true]
      exact .inr rfl
    simp only [build, hnil, if_true, half, hs] at htop
    cases htop
  · rw [build_nullable h (absorbsNil_of_wordy hw)] at htop
    exact htop

theorem half_nil_inf (hb : b.Normal) (hub : b.node.kind ≠ .universal) (hnb : b.node.kind ≠ .name) :
    (inf nil b).half ≠ .top := by
  rcases inf_nil_cases hb hub hnb with h | h | h | ⟨y, h⟩ <;> rw [h] <;> exact nofun

theorem half_inf_nil (ha : a.Normal) (hb : b.Normal) (da : a.Decorated) (db : b.Decorated)
    (hka : a.node.kind = .nil) (hub : b.node.kind ≠ .universal) (hnb : b.node.kind ≠ .name)
    (h : (inf a b).half = .top) : a.half = .top ∧ b.half = .top := by
  obtain ⟨n⟩ := a
  cases n with
  | atom c =>
      cases c with
      | nil => exact absurd h (half_nil_inf hb hub hnb)
      | _ => cases hka
  | nullable i x =>
      have hmem {j : Half} {z : Ty} : z ∈ (Node.nullable j z).children := List.mem_singleton_self z
      have hx := wordy_of_lacks_nil (da.parts x hmem) ha.layer
      have hcore : x.unname.IsCore := (Kind.ne_of_isWord hx).1
      by_cases hkb : b.node.kind = .nil
      · obtain ⟨k⟩ := b
        cases k with
        | atom d =>
            cases d with
            | nil =>
                rw [inf_comm] at h
                exact absurd h (half_nil_inf ha nofun nofun)
            | _ => cases hkb
        | nullable j z =>
            have hz := wordy_of_lacks_nil (db.parts z hmem) hb.layer
            have hxz := wordy_inf hcore (Kind.ne_of_isWord hz).1 (.inl hx) (ha.parts x hmem)
              (hb.parts z hmem)
            rw [inf_nullable_nullable ha.layer] at h
            exact Half.inf_eq_top.1 (half_build_nullable hxz h)
        | _ => cases hkb
      · have hb' : b.IsCore := Kind.isCore_iff.2 ⟨hub, hkb, hnb⟩
        have hhalf : b.half = b.node.half := by rw [half, unname_of_ne hnb]
        by_cases hstay : b = anyScalar ∧ x.unname.node.kind = .ctrl
        · rw [hstay.1, inf_nullable_anyScalar i hstay.2] at h
          rw [hstay.1]
          exact ⟨h, rfl⟩
        · rw [inf_nullable_core hb' fun hb hc => hstay ⟨hb, hc⟩] at h
          have hxb := wordy_inf hcore (by rwa [unname_of_ne hnb]) (.inl hx) (ha.parts x hmem) hb
          rw [hhalf]
          exact Half.inf_eq_top.1 (half_build_nullable hxb h)
  | _ => cases hka

theorem half_inf_eq_top (ha : a.Normal) (hb : b.Normal) (da : a.Decorated) (db : b.Decorated)
    (h : (inf a b).half = .top) : a.half = .top ∧ b.half = .top := by
  revert ha hb da db h
  have hmem {l : String} {z : Ty} : z ∈ (Node.name l z).children := List.mem_singleton_self z
  induction a, b using named_induction with
  | comm a b ih =>
      intro ha hb da db h
      rw [inf_comm] at h
      exact (ih hb ha db da h).symm
  | universal a b hu =>
      intro _ _ _ _ h
      rcases universal_cases hu with rfl | rfl
      · rw [inf_any] at h
        exact ⟨rfl, h⟩
      · rw [inf_all] at h
        cases h
  | names l k x y ih =>
      intro ha hb da db h
      have hxy := ih (ha.parts x hmem) (hb.parts y hmem) (da.parts x hmem) (db.parts y hmem)
      rw [half_name, half_name]
      by_cases hk : k = l
      · rw [hk, inf_name_name, half_name] at h
        exact hxy h
      · rw [inf_name_ne hk] at h
        exact hxy h
  | name l x b hu hn ih =>
      intro ha hb da db h
      rw [inf_name_left (isValue_of_kind hu hn)] at h
      rw [half_name]
      exact ih (ha.parts x hmem) hb (da.parts x hmem) db h
  | bare a b hua hub hna hnb =>
      intro ha hb da db h
      by_cases hka : a.node.kind = .nil
      · exact half_inf_nil ha hb da db hka hub hnb h
      · by_cases hkb : b.node.kind = .nil
        · rw [inf_comm] at h
          exact (half_inf_nil hb ha db da hkb hua hna h).symm
        · have ha' : a.IsCore := Kind.isCore_iff.2 ⟨hua, hka, hna⟩
          have hb' : b.IsCore := Kind.isCore_iff.2 ⟨hub, hkb, hnb⟩
          have hcore := Kind.isCore_iff.1 (isCore_inf ha' hb' ha)
          rw [half, unname_of_ne hcore.2.2] at h
          rw [half, half, unname_of_ne hna, unname_of_ne hnb]
          exact half_inf_cores ha' hb' ha hb h

/-- A name over a universal type hides that nil is there already. -/
example : meet (mk (.nullable .bottom (mk (.name "T" (ofAtom (.universal .top)))))) anyScalar =
    .ok anyScalar := by
  decide +kernel

end Ty

namespace Store

variable {s s' : Store} {a b m : Handle} {log : List (Record Handle)}

/-- No meet leads back above the center: if its answer is a choice, both operands were choices. -/
theorem meet_stays_below_center (h : s.History log) (ha : s.Holds a) (hb : s.Holds b)
    (da : (s.tree a).Decorated) (db : (s.tree b).Decorated)
    (hrun : (meet a b).run.run s = (.ok m, s')) (htop : s'.half m = .top) :
    s.half a = .top ∧ s.half b = .top := by
  have hs := h.sound
  obtain ⟨hs', -, hagree⟩ := meet_leads hs ha hb
  rw [hrun] at hs' hagree
  generalize ht : Ty.meet (s.tree a) (s.tree b) = t at hagree
  cases hagree with
  | ok hm =>
      rw [half_eq hs' hm.1, hm.2, ← Ty.inf_of_meet ht] at htop
      rw [half_eq hs ha, half_eq hs hb]
      exact Ty.half_inf_eq_top (hs.normal a ha) (hs.normal b hb) da db htop

/-- A named choice that may be nil meets a choice of integers in a choice. -/
theorem named_nullable_meets_above_center : ∃ (s s' : Store) (a m : Handle) (log : List (Record Handle)),
    s.History log ∧
    s.Denotes a (.mk (.name "T" (.mk (.nullable .top (.mk (.atom Preset.anyInt64.atom)))))) ∧
    (meet a Preset.anyInt64.handle).run.run s = (.ok m, s') ∧ s'.half m = .top ∧
    s.half a = .top ∧ s.half Preset.anyInt64.handle = .top := by
  have hnullable : (Ty.mk (.nullable .top (.mk (.atom Preset.anyInt64.atom)))).Normal :=
    .mk rfl (List.forall_mem_singleton.2 (.mk trivial nofun))
  have hdecorated : (Ty.mk (.name "T" (.mk (.nullable .top
      (.mk (.atom Preset.anyInt64.atom)))))).Decorated :=
    .mk nofun (List.forall_mem_singleton.2 (.mk trivial (List.forall_mem_singleton.2
      (.mk trivial nofun))))
  obtain ⟨a, s, hs, -, ha⟩ := storable_of_normal (Ty.normal_name "T" hnullable) initial .initial
  obtain ⟨log, hlog⟩ := hs.exists_history
  have hb := tree_preset hs.sound .anyInt64
  have hmeet : Ty.meet (s.tree a) (s.tree Preset.anyInt64.handle) =
      .ok (.mk (.nullable .top (.mk (.atom Preset.anyInt64.atom)))) := by
    rw [ha.2, hb.2]
    decide +kernel
  obtain ⟨m, s', hrun, hs', -, hm⟩ := run_eq_ok_of_leads (meet_leads hs.sound ha.1 hb.1) hmeet
  have htop : s'.half m = .top := by
    rw [half_eq hs' hm.1, hm.2]
    rfl
  exact ⟨s, s', a, m, log, hlog, ha, hrun, htop, meet_stays_below_center hlog ha.1 hb.1
    (ha.2 ▸ hdecorated) (hb.2 ▸ .mk trivial nofun) hrun htop⟩

end Store

end TypeLattice
