import TypeLattice.Proofs.NamedTypes
import TypeLattice.Proofs.NormalForm

namespace TypeLattice

/-- The kinds that nil is a value of. -/
def Kind.HoldsNil (k : Kind) : Prop :=
  k = .universal ∨ k = .scalar ∨ k = .nil ∨ k.isPointer = true

instance : DecidablePred Kind.HoldsNil := fun k =>
  inferInstanceAs (Decidable (k = .universal ∨ k = .scalar ∨ k = .nil ∨ k.isPointer = true))

theorem Node.admitsNil_iff {α : Type} {n : Node α} :
    n.admitsNil = true ↔ n.kind.HoldsNil ∧ n.kind ≠ .universal := by
  rw [admitsNil]
  cases n.kind <;> decide

namespace Store

variable {s : Store} {t x y : Handle} {f : Half} {log : List (Record Handle)}

def Bare (s : Store) (x y : Handle) : Prop := s.Under x y ∧ (s.node y).kind ≠ .name

theorem bare_iff (hs : s.Sound) (hx : s.Holds x) : s.Bare x y ↔ y = s.unname x := by
  obtain ⟨hu, hunname⟩ := unname_spec hs.descends hx
  constructor
  · rintro ⟨hunder, hname⟩
    obtain ⟨hy, htree⟩ := hunder.unname_tree hs.descends hx
    rw [Ty.unname_of_ne (by rwa [kind_tree hs.descends hy]), ← hunname] at htree
    exact tree_injective hs.toIndexed hy hu htree
  · rintro rfl
    refine ⟨under_unname s x, ?_⟩
    rw [← kind_tree hs.descends hu, hunname]
    exact Ty.kind_unname_ne_name _

theorem unname_of_ne (hx : (s.node x).kind ≠ .name) : s.unname x = x := by
  rw [unname, unnameWithin]
  split
  · next l y hnode =>
      rw [hnode] at hx
      exact absurd rfl hx
  · rfl

theorem absorbsNil_iff : s.absorbsNil t = true ↔ (s.node (s.unname t)).kind.HoldsNil ∧
    ((s.node (s.unname t)).kind = .universal → s.unname t = t) := by
  rw [absorbsNil, Bool.or_eq_true, Node.isUniversal_eq, decide_eq_true_eq, Node.admitsNil_iff]
  constructor
  · rintro (hu | ⟨hnil, hu⟩)
    · have hbare : s.unname t = t := unname_of_ne (by rw [hu]; decide)
      rw [hbare]
      exact ⟨.inl hu, fun _ => rfl⟩
    · exact ⟨hnil, fun h => absurd h hu⟩
  · rintro ⟨hnil, hname⟩
    by_cases hu : (s.node (s.unname t)).kind = .universal
    · rw [hname hu] at hu
      exact .inl hu
    · exact .inr ⟨hnil, hu⟩

theorem nullable_run (s : Store) (f : Half) (t : Handle) : (nullable f t).run s =
    if s.absorbsNil t = true then (t, s) else (intern (Node.nullable f t).record).run s := by
  have hrun : (nullable f t).run s = (if s.absorbsNil t = true then pure t
      else intern (Node.nullable f t).record : StoreM Handle).run s := rfl
  rw [hrun]
  split <;> rfl

theorem nullable_of_lacks (hs : s.Sound) (ht : s.Holds t) (h : ¬s.absorbsNil t = true) (f : Half) :
    ∃ x s', (nullable f t).run s = (x, s') ∧ x ≠ t ∧ s ≤ s' ∧
      ∀ z, s'.Holds z ∧ s'.node z = .nullable f t ↔ z = x := by
  have hheld : ∀ y ∈ (Node.nullable f t).children, s.Holds y := List.forall_mem_singleton.2 ht
  have hnormal : (Ty.mk ((Node.nullable f t).map s.tree)).Normal := by
    refine .mk ?_ (List.forall_mem_singleton.2 (hs.normal t ht))
    rw [absorbsNil_eq hs.descends ht] at h
    exact Bool.eq_false_of_not_eq_true h
  obtain ⟨hs', hle, hx⟩ := intern_leads hs hheld hnormal
  rw [nullable_run, if_neg h]
  generalize (intern (Node.nullable f t).record).run s = r at *
  obtain ⟨x, s'⟩ := r
  rw [← map_tree_mono hs.descends hle hheld] at hx
  have hnode : s'.node x = .nullable f t :=
    node_eq_of_denotes hs' (fun y hy => (hheld y hy).mono hle) hx
  refine ⟨x, s', rfl, ?_, hle, fun z => ⟨fun hz => ?_, ?_⟩⟩
  · -- what a layer is made of is stored before it
    rintro rfl
    have hlt := hs'.descends x hx.1 x (by rw [hnode]; exact List.mem_singleton_self x)
    exact absurd hlt (Nat.lt_irrefl _)
  · rw [← lookup_record_iff hs'.toIndexed, (lookup_record_iff hs'.toIndexed).2 ⟨hx.1, hnode⟩] at hz
    exact (Option.some.inj hz).symm
  · rintro rfl
    exact ⟨hx.1, hnode⟩

/-- A name over a universal type is not seen through: it gets nil a second time. -/
theorem named_any_made_nullable : ∃ (s : Store) (t : Handle) (log : List (Record Handle)),
    s.History log ∧ s.Denotes t (.mk (.name "T" (.ofAtom (.universal .top)))) ∧
    s.Bare t Preset.any.handle ∧ (s.node Preset.any.handle).kind.HoldsNil ∧
    ∃ x s', (nullable .bottom t).run s = (x, s') ∧ x ≠ t ∧ s'.node x = .nullable .bottom t := by
  obtain ⟨t, s, hs, -, ht⟩ := storable_of_normal
    (Ty.normal_name "T" (Ty.normal_ofAtom (.universal .top))) initial .initial
  obtain ⟨log, hlog⟩ := hs.exists_history
  have hsound := hs.sound
  obtain ⟨hany, hkind⟩ := hsound.preset .any
  have hnode : s.node t = .name "T" Preset.any.handle := by
    have hheld : ∀ y ∈ (Node.name "T" Preset.any.handle).children, s.Holds y :=
      List.forall_mem_singleton.2 hany
    apply node_eq_of_denotes hsound hheld
    rw [Node.map, (tree_preset hsound .any).2]
    exact ht
  have hbare : s.Bare t Preset.any.handle := ⟨.name hnode (.self _), by rw [hkind]; decide⟩
  have hlacks : ¬s.absorbsNil t = true := by
    rw [absorbsNil_eq hsound.descends ht.1, ht.2]
    decide
  obtain ⟨x, s', hrun, hne, -, hx⟩ := nullable_of_lacks hsound ht.1 hlacks .bottom
  exact ⟨s, t, log, hlog, ht, hbare, .inl (by rw [hkind]; rfl), x, s', hrun, hne, ((hx x).2 rfl).2⟩

/-- Making a type nullable leaves it alone exactly if nil is a value of what is under its names,
unless that is universal and there are names. Then nothing is stored or counted. Any other type is
wrapped, in the one layer that there is for it. -/
theorem nullable_wraps_what_lacks_nil (h : s.History log) (ht : s.Holds t) (f : Half) :
    ∃ y x s', (∀ z, s.Bare t z ↔ z = y) ∧ (nullable f t).run s = (x, s') ∧
      (x = t ↔ (s.node y).kind.HoldsNil ∧ ((s.node y).kind = .universal → y = t)) ∧
      (x = t → s' = s) ∧
      (x ≠ t → s ≤ s' ∧ ∀ z, s'.Holds z ∧ s'.node z = .nullable f t ↔ z = x) := by
  have hs := h.sound
  have hbare (z : Handle) : s.Bare t z ↔ z = s.unname t := bare_iff hs ht
  by_cases habsorbs : s.absorbsNil t = true
  · have hrun : (nullable f t).run s = (t, s) := by rw [nullable_run, if_pos habsorbs]
    exact ⟨_, t, s, hbare, hrun, iff_of_true rfl (absorbsNil_iff.1 habsorbs), fun _ => rfl,
      fun hne => absurd rfl hne⟩
  · obtain ⟨x, s', hrun, hne, hle, hx⟩ := nullable_of_lacks hs ht habsorbs f
    exact ⟨_, x, s', hbare, hrun, iff_of_false hne (mt absorbsNil_iff.2 habsorbs),
      fun heq => absurd heq hne, fun _ => ⟨hle, hx⟩⟩

/-- Text under two names stays as it is, and a named byte is wrapped. -/
theorem named_text_and_byte_made_nullable :
    ∃ (s : Store) (t u : Handle) (log : List (Record Handle)), s.History log ∧
    s.Denotes t (.mk (.name "A" (.mk (.name "B" (.ofAtom (.str .bottom)))))) ∧
    s.Denotes u (.mk (.name "C" (.ofAtom (.int (.range .bottom .w8))))) ∧
    (nullable .top t).run s = (t, s) ∧
    ∃ x s', (nullable .top u).run s = (x, s') ∧ s'.node x = .nullable .top u := by
  obtain ⟨s, t, u, hs, ht, hu⟩ := exists_two_stored
    (Ty.normal_name "A" (Ty.normal_name "B" (Ty.normal_ofAtom (.str .bottom))))
    (Ty.normal_name "C" (Ty.normal_ofAtom (.int (.range .bottom .w8))))
  obtain ⟨log, hlog⟩ := hs.exists_history
  have hsound := hs.sound
  have hkind {a : Handle} {v : Ty} (ha : s.Denotes a v) :
      (s.node (s.unname a)).kind = v.unname.node.kind := by
    obtain ⟨hheld, htree⟩ := unname_spec hsound.descends ha.1
    rw [← kind_tree hsound.descends hheld, htree, ha.2]
  obtain ⟨y, x, s', hbare, hrun, hsame, hkept, -⟩ := nullable_wraps_what_lacks_nil hlog ht.1 .top
  have hx : x = t := by
    rw [hsame, ← (hbare _).1 ((bare_iff hsound ht.1).2 rfl), hkind ht]
    exact ⟨by decide, nofun⟩
  obtain ⟨z, w, s'', hbare', hrun', hsame', -, hwrapped⟩ :=
    nullable_wraps_what_lacks_nil hlog hu.1 .top
  have hw : w ≠ u := by
    rw [ne_eq, hsame', ← (hbare' _).1 ((bare_iff hsound hu.1).2 rfl), hkind hu]
    exact fun hnil => absurd hnil.1 (by decide)
  refine ⟨s, t, u, log, hlog, ht, hu, ?_, w, s'', hrun', (((hwrapped hw).2 w).2 rfl).2⟩
  rw [hrun, hkept hx, hx]

end Store

end TypeLattice
