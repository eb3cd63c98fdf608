import Mathlib.Logic.Relation
import TypeLattice.Proofs.DualInvolution
import TypeLattice.Proofs.NormalForm
import TypeLattice.Proofs.Nullability

namespace TypeLattice

@[simp] theorem Verdict.freeIf_ne_unknown (p : Bool) : freeIf p ≠ .unknown := by
  cases p <;> nofun

theorem Verdict.worst_ne_unknown {u v : Verdict} (hu : u ≠ .unknown) (hv : v ≠ .unknown) :
    u.worst v ≠ .unknown := by
  rw [worst]
  split
  · exact hv
  · exact hu

namespace Inquiry

variable {α : Type}

@[simp] theorem ofIntToFlt_ne_unknown (a : Numeric IntWidth Int64)
    (b : Numeric FltWidth Binary64) : ofIntToFlt a b ≠ .unknown := by
  fun_cases ofIntToFlt a b <;> nofun

@[simp] theorem ofFlts_ne_unknown (a b : Numeric FltWidth Binary64) : ofFlts a b ≠ .unknown := by
  fun_cases ofFlts a b <;> simp

theorem toAtom_ne_unknown (n : Node α) (a : Atom) : toAtom n a ≠ .unknown := by
  fun_cases toAtom n a <;> simp [ofInts]

theorem ofNodes_ne_unknown (x : α) (n k : Node α) : ofNodes x n k ≠ settled .unknown := by
  rw [ofNodes_eq]
  split
  · nofun
  · cases k with
    | atom a =>
        cases a with
        | nil =>
            cases n with
            | atom b => cases b <;> nofun
            | _ => nofun
        | _ => exact fun h => toAtom_ne_unknown n _ (settled.inj h)
    | nullable i y =>
        cases n with
        | atom b => cases b <;> nofun
        | _ => nofun
    | func | name => nofun
    | struct i gs =>
        cases n with
        | atom b => cases b <;> nofun
        | _ => nofun
    | tuple i ds =>
        cases n with
        | atom b => cases b <;> nofun
        | tuple j es =>
            simp only [toTarget, toTuple]
            split <;>
            · intro h
              cases h
        | _ =>
            intro h
            cases h

theorem answer_ne_unknown {c : α → α → Verdict} {q : Inquiry α} (hq : q ≠ settled .unknown)
    (h : q.Asks fun x y => c x y ≠ .unknown) : q.answer c ≠ .unknown := by
  cases q with
  | settled v => exact fun hv => hq (congrArg settled hv)
  | through => exact h
  | worstOf ps =>
      have hfree : Verdict.free ≠ .unknown := nofun
      apply List.foldlRecOn (motive := (· ≠ Verdict.unknown)) ps _ hfree
      intro v hv p hp
      apply Verdict.worst_ne_unknown hv
      cases hx : p.1 with
      | none => nofun
      | some x => exact h p hp x hx

end Inquiry

namespace Reader

variable {α : Type} {r : Reader α} {x y a b : α}

/-- The one type is the other or a part of it that a conversion may come to, at any depth. -/
def Opens (r : Reader α) : α → α → Prop :=
  Relation.ReflTransGen fun x y => y ∈ (r.node x).openParts

/-- Neither the type nor any part that a conversion may come to is a choice. Inside of functions
there may be some. -/
def Settled (r : Reader α) (x : α) : Prop := ∀ y, r.Opens x y → r.half y = .bottom

namespace Settled

theorem half (h : r.Settled x) : r.half x = .bottom := h x .refl

theorem opens (h : r.Settled x) (hy : r.Opens x y) : r.Settled y := fun z hz => h z (hy.trans hz)

theorem part (h : r.Settled x) (hy : y ∈ (r.node x).openParts) : r.Settled y := h.opens (.single hy)

end Settled

theorem settled_iff :
    r.Settled x ↔ r.half x = .bottom ∧ ∀ y ∈ (r.node x).openParts, r.Settled y := by
  refine ⟨fun h => ⟨h.half, fun y => h.part⟩, ?_⟩
  rintro ⟨hhalf, hparts⟩ y hy
  rcases hy.cases_head with rfl | ⟨z, hz, hzy⟩
  · exact hhalf
  · exact hparts z hz y hzy

variable [DecidableEq α]

/-- Names are opened like other parts, so that settled operands stay settled on the whole way down,
and an open verdict never enters. -/
theorem classifyWithin_ne_unknown (hunname : ∀ x, r.Opens x (r.unname x)) (n : Nat)
    (ha : r.Settled a) (hb : r.Settled b) : r.classifyWithin n a b ≠ .unknown := by
  induction n generalizing a b with
  | zero => nofun
  | succ n ih =>
      have hu : r.Settled (r.unname a) := ha.opens (hunname a)
      have hv : r.Settled (r.unname b) := hb.opens (hunname b)
      simp only [classifyWithin, ha.half, hb.half, Half.isTop, Bool.or_self, Bool.false_eq_true,
        if_false]
      split
      · decide
      · apply Inquiry.answer_ne_unknown (Inquiry.ofNodes_ne_unknown _ _ _)
        apply Inquiry.asks_ofNodes
        · exact fun y hy => ih hu (hv.part hy)
        · exact fun x hx y hy => ih (hu.part hx) (hv.part hy)

end Reader

namespace Ty

def optionAndHandler (a : Atom) : Ty :=
  mk (.tuple .bottom [mk (.nullable .bottom (ofAtom a)),
    mk (.func .bottom [ofAtom (.universal .top)] nil)])

theorem settled_mk {n : Node Ty} (hhalf : (mk n).half = .bottom)
    (hparts : ∀ t ∈ n.openParts, reader.Settled t) : reader.Settled (mk n) :=
  Reader.settled_iff.2 ⟨hhalf, hparts⟩

theorem settled_optionAndHandler {a : Atom} (ha : a.half = .bottom) :
    reader.Settled (optionAndHandler a) := by
  have hoption : reader.Settled (mk (.nullable .bottom (ofAtom a))) :=
    settled_mk rfl (List.forall_mem_singleton.2 (settled_mk ha nofun))
  exact settled_mk rfl (List.forall_mem_cons.2
    ⟨hoption, List.forall_mem_singleton.2 (settled_mk rfl nofun)⟩)

theorem normal_optionAndHandler {a : Atom} (ha : (ofAtom a).absorbsNil = false) :
    (optionAndHandler a).Normal := by
  have hoption : (mk (.nullable .bottom (ofAtom a))).Normal :=
    .mk ha (List.forall_mem_singleton.2 (normal_ofAtom a))
  have hhandler : (mk (.func .bottom [ofAtom (.universal .top)] nil)).Normal :=
    .mk trivial (List.forall_mem_cons.2
      ⟨normal_ofAtom _, List.forall_mem_singleton.2 (normal_ofAtom _)⟩)
  exact .mk trivial (List.forall_mem_cons.2 ⟨hoption, List.forall_mem_singleton.2 hhandler⟩)

end Ty

namespace Store

variable {s : Store} {a b x y : Handle} {log : List (Record Handle)}

theorem Under.opens (h : s.Under x y) : s.reader.Opens x y := by
  induction h with
  | self => exact .refl
  | @name x y z l hx _ ih =>
      have hy : y ∈ (s.node x).openParts := by
        rw [hx]
        exact List.mem_singleton_self y
      exact .head hy ih

theorem settled_tree (hs : s.Descends) (ha : s.Holds a) :
    s.reader.Settled a ↔ Ty.reader.Settled (s.tree a) := by
  obtain ⟨i⟩ := a
  -- the parts of a handle lie below it, and so the induction is on the index and not on the tree
  induction i using Nat.strongRecOn with
  | _ i ih =>
      have hparts : (Ty.reader.node (s.tree ⟨i⟩)).openParts =
          (s.reader.node ⟨i⟩).openParts.map s.tree := by
        rw [tree_eq hs ha]
        exact Node.openParts_map s.tree _
      rw [Reader.settled_iff, Reader.settled_iff, half_tree hs ha, hparts, List.forall_mem_map]
      refine and_congr_right fun _ => forall₂_congr fun x hx => ?_
      have hmem := Node.openParts_subset _ hx
      exact ih x.index (hs _ ha x hmem) (hs.holds ha hmem)

theorem classifyWithin_eq_classify (hs : s.Sound) (ha : s.Holds a) (hb : s.Holds b) {n : Nat}
    (hn : a.index + b.index + 2 ≤ n) : s.reader.classifyWithin n a b = s.classify a b := by
  have hta := height_tree_le hs.descends ha
  have htb := height_tree_le hs.descends hb
  rw [classifyWithin_tree hs ha hb, classify_tree hs ha hb]
  exact Ty.classifyWithin_congr (by omega) (Nat.le_refl _)

/-- Conversions between settled types are always decided, and a settled type is its own free
target. Nothing is decided while a side is a choice. The verdict is that of the whole types: it is
the same at any greater depth. -/
theorem settled_conversions_decided (h : s.History log) (ha : s.Holds a) (hb : s.Holds b) :
    (s.reader.Settled a → s.reader.Settled b →
      s.classify a b = .free ∨ s.classify a b = .bitChanging ∨ s.classify a b = .incompatible) ∧
    (s.reader.Settled a → s.classify a a = .free) ∧
    (s.half a = .top ∨ s.half b = .top → s.classify a b = .unknown) ∧
    ∀ n, a.index + b.index + 2 ≤ n → s.reader.classifyWithin n a b = s.classify a b := by
  refine ⟨fun hsa hsb => ?_, fun hsa => ?_, fun htop => ?_, ?_⟩
  · have hknown : s.classify a b ≠ .unknown :=
      Reader.classifyWithin_ne_unknown (fun x => (under_unname s x).opens) _ hsa hsb
    revert hknown
    cases s.classify a b <;> simp
  · have htest : ¬((s.half a).isTop || (s.half a).isTop) = true := by
      simp [show s.half a = .bottom from hsa.half, Half.isTop]
    exact (if_neg htest).trans (if_pos rfl)
  · have htest : ((s.half a).isTop || (s.half b).isTop) = true := by
      rcases htop with htop | htop <;> simp [htop, Half.isTop]
    exact if_pos htest
  · exact fun n hn => classifyWithin_eq_classify h.sound ha hb hn

/-- A choice inside of a function does no harm, and one at either end does. -/
theorem handlers_converted : ∃ (s : Store) (a b : Handle) (log : List (Record Handle)),
    s.History log ∧
    s.Denotes a (.mk (.name "T" (.optionAndHandler (.int (.range .bottom .w8))))) ∧
    s.Denotes b (.optionAndHandler (.flt (.range .bottom .w64))) ∧
    s.reader.Settled a ∧ s.reader.Settled b ∧
    (s.classify a b = .free ∨ s.classify a b = .bitChanging ∨ s.classify a b = .incompatible) ∧
    s.classify a a = .free ∧ s.classify a Preset.any.handle = .unknown := by
  have hint := Ty.settled_optionAndHandler (a := .int (.range .bottom .w8)) rfl
  have hflt := Ty.settled_optionAndHandler (a := .flt (.range .bottom .w64)) rfl
  have hnamed := Ty.settled_mk (n := .name "T" _) rfl (List.forall_mem_singleton.2 hint)
  obtain ⟨s, a, b, hs, ha, hb⟩ := exists_two_stored
    (Ty.normal_name "T" (Ty.normal_optionAndHandler (a := .int (.range .bottom .w8)) rfl))
    (Ty.normal_optionAndHandler (a := .flt (.range .bottom .w64)) rfl)
  obtain ⟨log, hlog⟩ := hs.exists_history
  have hsound := hs.sound
  have hsa : s.reader.Settled a := by rwa [settled_tree hsound.descends ha.1, ha.2]
  have hsb : s.reader.Settled b := by rwa [settled_tree hsound.descends hb.1, hb.2]
  obtain ⟨hany, htree⟩ := tree_preset hsound .any
  have htop : s.half Preset.any.handle = .top := by
    rw [half_eq hsound hany, htree]
    rfl
  obtain ⟨hdecided, hself, -, -⟩ := settled_conversions_decided hlog ha.1 hb.1
  obtain ⟨-, -, hunknown, -⟩ := settled_conversions_decided hlog ha.1 hany
  exact ⟨s, a, b, log, hlog, ha, hb, hsa, hsb, hdecided hsa hsb, hself hsa, hunknown (.inr htop)⟩

end Store

end TypeLattice
