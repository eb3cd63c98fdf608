import TypeLattice.Proofs.CanonicalStore
import TypeLattice.Proofs.ConversionRules

namespace TypeLattice

theorem Half.flip_ne (h : Half) : h.flip ≠ h := by
  cases h <;> nofun

namespace Atom

inductive Central : Atom → Prop
  | nil : Central .nil
  | int (c : Int64) : Central (.int (.const c))
  | flt (c : Binary64) : Central (.flt (.const c))
  | str (v : String) : Central (.strConst v)

theorem dual_eq_self_iff {a : Atom} : a.dual = a ↔ a.Central := by
  constructor
  · intro h
    cases a with
    | nil => exact .nil
    | strConst v => exact .str v
    | int n =>
        cases n with
        | const c => exact .int c
        | range i w => simp [dual, Numeric.dual, Half.flip_ne] at h
    | flt n =>
        cases n with
        | const c => exact .flt c
        | range i w => simp [dual, Numeric.dual, Half.flip_ne] at h
    | _ => simp [dual, Half.flip_ne] at h
  · intro h
    cases h <;> rfl

theorem half_dual {a : Atom} (h : ¬a.Central) : a.dual.half = a.half.flip := by
  cases a with
  | nil => exact absurd .nil h
  | strConst v => exact absurd (.str v) h
  | int n =>
      cases n with
      | const c => exact absurd (.int c) h
      | range => rfl
  | flt n =>
      cases n with
      | const c => exact absurd (.flt c) h
      | range => rfl
  | _ => rfl

end Atom

namespace Ty

variable {t : Ty}

def AtCenter (t : Ty) : Prop := ∃ a, t.unname.node = .atom a ∧ a.Central

theorem dual_name {l : String} (h : (mk (.name l t)).Normal) :
    (mk (.name l t)).dual = mk (.name l t.dual) :=
  dual_of_normal h

theorem half_name (l : String) (t : Ty) : (mk (.name l t)).half = t.half := by
  rw [half, unname_name, half]

theorem atCenter_name (l : String) (t : Ty) : (mk (.name l t)).AtCenter ↔ t.AtCenter := by
  rw [AtCenter, unname_name, AtCenter]

/-- A dual either is the type itself or lies in the other half. -/
theorem dual_cases (h : t.Normal) :
    t.AtCenter ∧ t.dual = t ∨ ¬t.AtCenter ∧ t.dual.half = t.half.flip := by
  induction t using unname_induction with
  | name l t ih =>
      rw [atCenter_name, dual_name h, half_name, half_name, mk.injEq, Node.name.injEq,
        and_iff_right rfl]
      exact ih (h.parts t (List.mem_singleton_self t))
  | bare t hname =>
      have hd := dual_of_normal h
      have hname' : t.dual.node.kind ≠ .name := by rwa [kind_dual h]
      rw [AtCenter, half, half, unname_of_ne hname, unname_of_ne hname', hd]
      obtain ⟨n⟩ := t
      cases n with
      | atom a =>
          by_cases ha : a.Central
          · exact .inl ⟨⟨a, rfl, ha⟩, congrArg (fun b => mk (.atom b)) (Atom.dual_eq_self_iff.2 ha)⟩
          · refine .inr ⟨?_, Atom.half_dual ha⟩
            rintro ⟨b, hb, hc⟩
            cases hb
            exact ha hc
      | name => exact absurd rfl hname
      | _ => exact .inr ⟨nofun, rfl⟩

theorem dual_eq_self_iff (h : t.Normal) : t.dual = t ↔ t.AtCenter := by
  rcases dual_cases h with ⟨hc, heq⟩ | ⟨hc, hhalf⟩
  · exact iff_of_true heq hc
  · refine iff_of_false (fun heq => ?_) hc
    rw [heq] at hhalf
    exact Half.flip_ne _ hhalf.symm

theorem half_dual (h : t.Normal) (hne : t.dual ≠ t) : t.dual.half = t.half.flip := by
  rcases dual_cases h with ⟨-, heq⟩ | ⟨-, hhalf⟩
  · exact absurd heq hne
  · exact hhalf

end Ty

namespace Store

variable {s : Store} {t : Handle} {log : List (Record Handle)}

def AtCenter (s : Store) (h : Handle) : Prop :=
  h = Preset.nil.handle ∨ (∃ c, s.node h = .atom (.int (.const c))) ∨
    (∃ c, s.node h = .atom (.flt (.const c))) ∨ ∃ v, s.node h = .atom (.strConst v)

theorem atCenter_iff (hs : s.Sound) {h : Handle} (hh : s.Holds h) :
    s.AtCenter h ↔ ∃ a, s.node h = .atom a ∧ a.Central := by
  rw [AtCenter, ← node_eq_preset_iff hs hh .nil]
  constructor
  · rintro (h | ⟨c, h⟩ | ⟨c, h⟩ | ⟨v, h⟩)
    · exact ⟨_, h, .nil⟩
    · exact ⟨_, h, .int c⟩
    · exact ⟨_, h, .flt c⟩
    · exact ⟨_, h, .str v⟩
  · rintro ⟨a, h, ha⟩
    cases ha with
    | nil => exact .inl h
    | int c => exact .inr (.inl ⟨c, h⟩)
    | flt c => exact .inr (.inr (.inl ⟨c, h⟩))
    | str v => exact .inr (.inr (.inr ⟨v, h⟩))

theorem atCenter_unname_iff (hs : s.Sound) (ht : s.Holds t) :
    s.AtCenter (s.unname t) ↔ (s.tree t).AtCenter := by
  obtain ⟨hu, htree⟩ := unname_spec hs.descends ht
  rw [atCenter_iff hs hu, Ty.AtCenter, ← htree, tree_eq hs.descends hu]
  refine exists_congr fun a => and_congr_left fun _ => ⟨fun h => ?_, Node.eq_atom_of_map⟩
  rw [Ty.node, h, Node.map]

theorem half_eq (hs : s.Sound) (ht : s.Holds t) : s.half t = (s.tree t).half :=
  half_tree hs.descends ht

/-- Asking for a dual twice leads back, also where the first dual was never asked for but stored in
some other way. The dual is of the same kind, in the other half, and is the type itself exactly if
that is nil or a constant, under whatever names. -/
theorem dual_involution_fixing_constants (h : s.History log) (ht : s.Holds t) :
    ∃ d s₁, (dual t).run s = (d, s₁) ∧ s₁.Holds d ∧ ((dual d).run s₁).1 = t ∧
      (∀ (s' : Store) log' d', s'.History log' → s'.Denotes d' (s₁.tree d) →
        ∃ t' s₂, (dual d').run s' = (t', s₂) ∧ s₂.Denotes t' (s.tree t)) ∧
      (s₁.node d).kind = (s.node t).kind ∧
      (d = t ↔ s.AtCenter (s.unname t)) ∧
      (d ≠ t → (s₁.half d).isTop = !(s.half t).isTop) := by
  have hs := h.sound
  have hn := hs.normal t ht
  obtain ⟨hs₁, hle, hd⟩ := dual_leads hs ht
  have ht₁ := Denotes.of_holds hs hle ht
  generalize (dual t).run s = r at *
  obtain ⟨d, s₁⟩ := r
  have hsame : d = t ↔ (s.tree t).dual = s.tree t := Denotes.eq_iff hs₁ hd ht₁
  refine ⟨d, s₁, rfl, hd.1, ?_, ?_, ?_, ?_, ?_⟩
  · obtain ⟨hs₂, hle₂, hb⟩ := dual_denotes hs₁ hd
    rw [Ty.dual_dual hn] at hb
    exact (Denotes.eq_iff hs₂ hb (ht₁.mono hs₁ hle₂)).2 rfl
  · intro s' log' d' h' hd'
    rw [hd.2] at hd'
    obtain ⟨-, -, hb⟩ := dual_denotes h'.sound hd'
    rw [Ty.dual_dual hn] at hb
    exact ⟨_, _, rfl, hb⟩
  · rw [← kind_tree hs₁.descends hd.1, hd.2, Ty.kind_dual hn, kind_tree hs.descends ht]
  · rw [hsame, Ty.dual_eq_self_iff hn, atCenter_unname_iff hs ht]
  · intro hne
    rw [half_eq hs₁ hd.1, half_eq hs ht, hd.2, Ty.half_dual hn (mt hsame.2 hne), Half.isTop_flip]

/-- A nullable function under a name has a dual in the top half; a named constant is its own. -/
theorem named_function_and_constant_duals :
    ∃ (s : Store) (t c : Handle) (log : List (Record Handle)), s.History log ∧
    s.Denotes t (.mk (.nullable .bottom (.mk (.name "F" (.mk (.func .bottom
      [.mk (.atom Preset.int8.atom)] (.mk (.atom Preset.str.atom)))))))) ∧
    s.Denotes c (.mk (.name "K" (.mk (.atom (.int (.const 5)))))) ∧
    (∃ d s₁, (dual t).run s = (d, s₁) ∧ ((dual d).run s₁).1 = t ∧ (s₁.node d).kind = .nil ∧
      d ≠ t ∧ (s₁.half d).isTop = true) ∧
    ∃ d s₁, (dual c).run s = (d, s₁) ∧ d = c := by
  have hatom (a : Atom) : (Ty.mk (.atom a)).Normal := .mk trivial nofun
  have hfunc : (Ty.mk (.func .bottom [.mk (.atom Preset.int8.atom)]
      (.mk (.atom Preset.str.atom)))).Normal :=
    .mk trivial (List.forall_mem_cons.2 ⟨hatom _, List.forall_mem_singleton.2 (hatom _)⟩)
  have hnullable : (Ty.mk (.nullable .bottom (.mk (.name "F" (.mk (.func .bottom
      [.mk (.atom Preset.int8.atom)] (.mk (.atom Preset.str.atom)))))))).Normal :=
    .mk rfl (List.forall_mem_singleton.2 (Ty.normal_name "F" hfunc))
  obtain ⟨s, t, c, hs, ht, hc⟩ :=
    exists_two_stored hnullable (Ty.normal_name "K" (hatom (.int (.const 5))))
  obtain ⟨log, hlog⟩ := hs.exists_history
  have hbottom : s.half t = .bottom := by
    rw [half_eq hs.sound ht.1, ht.2, Ty.half, Ty.unname_of_ne (by decide)]
    rfl
  have hkind : (s.node t).kind = .nil := by
    rw [← kind_tree hs.sound.descends ht.1, ht.2]
    rfl
  have hoff : ¬s.AtCenter (s.unname t) := by
    rw [atCenter_unname_iff hs.sound ht.1, ht.2, Ty.AtCenter, Ty.unname_of_ne (by decide)]
    nofun
  have hat : s.AtCenter (s.unname c) := by
    rw [atCenter_unname_iff hs.sound hc.1, hc.2, Ty.atCenter_name, Ty.AtCenter,
      Ty.unname_of_ne (by decide)]
    exact ⟨_, rfl, .int 5⟩
  obtain ⟨d, s₁, hrun, -, hback, -, hsame, hfix, hflip⟩ :=
    dual_involution_fixing_constants hlog ht.1
  obtain ⟨e, s₂, hrun', -, -, -, -, hfix', -⟩ := dual_involution_fixing_constants hlog hc.1
  have hne : d ≠ t := mt hfix.1 hoff
  refine ⟨s, t, c, log, hlog, ht, hc, ⟨d, s₁, hrun, hback, hsame.trans hkind, hne, ?_⟩,
    e, s₂, hrun', hfix'.2 hat⟩
  rw [hflip hne, hbottom]
  rfl

end Store

end TypeLattice
