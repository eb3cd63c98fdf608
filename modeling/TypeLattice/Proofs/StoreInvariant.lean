import TypeLattice.Proofs.NormalTree
import TypeLattice.Proofs.RecordRules
import TypeLattice.Store.Lattice

namespace TypeLattice.Store

def Holds (s : Store) (h : Handle) : Prop := h.index < s.size

/-- A later store: what was stored of a handle stays. -/
instance : LE Store := ⟨fun s s' => ∀ h, s.Holds h → s'.Holds h ∧ s'.record h = s.record h⟩

theorem le_refl (s : Store) : s ≤ s := fun _ hh => ⟨hh, rfl⟩

theorem le_trans {s t u : Store} (h : s ≤ t) (h' : t ≤ u) : s ≤ u := fun a ha => by
  obtain ⟨hb, hn⟩ := h a ha
  obtain ⟨hc, hm⟩ := h' a hb
  exact ⟨hc, hm.trans hn⟩

theorem Holds.mono {s s' : Store} {h : Handle} (hh : s.Holds h) (hle : s ≤ s') : s'.Holds h :=
  (hle h hh).1

theorem node_mono {s s' : Store} {h : Handle} (hle : s ≤ s') (hh : s.Holds h) :
    s'.node h = s.node h :=
  congrArg Record.node (hle h hh).2

/-- Components are stored before the types they are components of. -/
def Descends (s : Store) : Prop :=
  ∀ h, s.Holds h → ∀ x ∈ (s.node h).children, x.index < h.index

section tree

variable {s s' : Store} (hs : s.Descends) {h : Handle}

include hs

theorem Descends.holds (hh : s.Holds h) {x : Handle} (hx : x ∈ (s.node h).children) : s.Holds x :=
  Nat.lt_trans (hs h hh x hx) hh

theorem treeWithin_congr {n m : Nat} (hh : s.Holds h) (hn : h.index < n) (hm : h.index < m) :
    s.treeWithin n h = s.treeWithin m h := by
  induction n generalizing m h with
  | zero => omega
  | succ n ih =>
      cases m with
      | zero => omega
      | succ m =>
          rw [treeWithin, treeWithin, Ty.mk.injEq]
          apply Node.map_congr
          intro x hx
          have hlt := hs h hh x hx
          exact ih (hs.holds hh hx) (by omega) (by omega)

theorem tree_eq (hh : s.Holds h) : s.tree h = .mk ((s.node h).map s.tree) := by
  rw [tree, treeWithin, Ty.mk.injEq]
  apply Node.map_congr
  intro x hx
  exact treeWithin_congr hs (hs.holds hh hx) (hs h hh x hx) (Nat.lt_succ_self _)

theorem kind_tree (hh : s.Holds h) : (s.tree h).node.kind = (s.node h).kind := by
  rw [tree_eq hs hh, Ty.node, Node.kind_map]

theorem tree_mono (hle : s ≤ s') (hh : s.Holds h) : s'.tree h = s.tree h := by
  have hw (n : Nat) : ∀ x, s.Holds x → s'.treeWithin n x = s.treeWithin n x := by
    induction n with
    | zero => exact fun _ _ => rfl
    | succ n ih =>
        intro x hx
        rw [treeWithin, treeWithin, node_mono hle hx, Ty.mk.injEq]
        exact Node.map_congr fun y hy => ih y (hs.holds hx hy)
  exact hw _ h hh

theorem map_tree_mono (hle : s ≤ s') {n : Node Handle} (hn : ∀ x ∈ n.children, s.Holds x) :
    n.map s'.tree = n.map s.tree :=
  Node.map_congr fun x hx => tree_mono hs hle (hn x hx)

theorem height_tree_le (hh : s.Holds h) : (s.tree h).height ≤ h.index + 1 := by
  obtain ⟨i⟩ := h
  induction i using Nat.strongRecOn with
  | _ i ih =>
      rw [tree_eq hs hh]
      apply Ty.height_le_of_forall
      intro t ht
      rw [Node.children_map] at ht
      obtain ⟨x, hx, rfl⟩ := List.mem_map.1 ht
      have hlt := hs _ hh x hx
      exact Nat.le_trans (ih x.index hlt (hs.holds hh hx)) hlt

theorem unnameWithin_spec (n : Nat) (hh : s.Holds h) (hn : h.index < n) :
    s.Holds (s.unnameWithin n h) ∧ s.tree (s.unnameWithin n h) = (s.tree h).unname := by
  induction n generalizing h with
  | zero => omega
  | succ n ih =>
      rw [unnameWithin]
      split
      · next l x hx =>
          have hmem : x ∈ (s.node h).children := by simp [hx, Node.children]
          have hlt := hs h hh x hmem
          rw [tree_eq hs hh, hx, Node.map, Ty.unname_name]
          exact ih (hs.holds hh hmem) (by omega)
      · next hx =>
          refine ⟨hh, (Ty.unname_of_ne ?_).symm⟩
          rw [kind_tree hs hh]
          intro hk
          obtain ⟨l, x, hlx⟩ := Node.kind_eq_name.1 hk
          exact hx l x hlx

theorem unname_spec (hh : s.Holds h) :
    s.Holds (s.unname h) ∧ s.tree (s.unname h) = (s.tree h).unname :=
  unnameWithin_spec hs (h.index + 1) hh (Nat.lt_succ_self _)

theorem absorbsNil_eq (hh : s.Holds h) : s.absorbsNil h = (s.tree h).absorbsNil := by
  obtain ⟨hu, ht⟩ := unname_spec hs hh
  simp only [absorbsNil, Ty.absorbsNil, Node.isUniversal_eq, Node.admitsNil, ← ht, kind_tree hs hh,
    kind_tree hs hu]

end tree

/-- The arena and its index are inverse to each other, and everything in it is a finite tree in
normal form, stored in normal form. -/
structure Indexed (s : Store) : Prop where
  lookup_iff : ∀ r h, s.lookup? r = some h ↔ s.Holds h ∧ s.record h = r
  encoded : ∀ h, s.Holds h → s.record h = (s.node h).record
  descends : s.Descends
  normal : ∀ h, s.Holds h → (s.tree h).Normal

structure Sound (s : Store) : Prop extends Indexed s where
  preset : ∀ p : Preset, s.Holds p.handle ∧ s.node p.handle = .atom p.atom
  cached : ∀ h d, s.duals[h]? = some d → s.Holds h ∧ s.Holds d ∧ s.tree d = (s.tree h).dual

section indexed

variable {s : Store} (hs : s.Indexed)

include hs

theorem record_eq (h : Handle) : s.record h = (s.node h).record := by
  by_cases hh : s.Holds h
  · exact hs.encoded h hh
  · have hbottom : s.record h = .universal .bottom := dif_neg hh
    rw [node, hbottom]
    rfl

theorem record_eq_iff {h : Handle} {n : Node Handle} : s.record h = n.record ↔ s.node h = n := by
  rw [record_eq hs, Node.record_inj]

theorem lookup_record_iff {h : Handle} {n : Node Handle} :
    s.lookup? n.record = some h ↔ s.Holds h ∧ s.node h = n := by
  rw [hs.lookup_iff, record_eq_iff hs]

theorem tree_injective {a b : Handle} (ha : s.Holds a) (hb : s.Holds b)
    (h : s.tree a = s.tree b) : a = b := by
  obtain ⟨i⟩ := a
  induction i using Nat.strongRecOn generalizing b with
  | _ i ih =>
      rw [tree_eq hs.descends ha, tree_eq hs.descends hb, Ty.mk.injEq] at h
      have hn : s.node ⟨i⟩ = s.node b := by
        apply Node.map_injective_on h
        intro x hx y hy hxy
        exact ih x.index (hs.descends _ ha x hx) (hs.descends.holds hb hy) (hs.descends.holds ha hx) hxy
      have hl := (lookup_record_iff hs).2 ⟨ha, hn⟩
      rw [(lookup_record_iff hs).2 ⟨hb, rfl⟩] at hl
      exact (Option.some.inj hl).symm

end indexed

def added (s : Store) (r : Record Handle) : Store :=
  { s with
    records := s.records.push r
    index := s.index.insert r ⟨s.size⟩
    misses := s.misses + 1 }

theorem intern_of_lookup {s : Store} {r : Record Handle} {h : Handle} (hl : s.lookup? r = some h) :
    (intern r).run s = (h, { s with hits := s.hits + 1 }) := by
  simp only [intern, StateT.run, hl]

theorem intern_of_none {s : Store} {r : Record Handle} (hl : s.lookup? r = none) :
    (intern r).run s = (⟨s.size⟩, s.added r) := by
  simp only [intern, StateT.run, hl]
  rfl

section added

variable {s : Store} {r : Record Handle} {n : Node Handle} {h : Handle}

theorem holds_added : (s.added r).Holds h ↔ s.Holds h ∨ h = ⟨s.size⟩ := by
  obtain ⟨i⟩ := h
  simp only [Holds, added, size, Array.size_push, Handle.mk.injEq]
  omega

theorem record_added_last : (s.added r).record ⟨s.size⟩ = r := by
  simp [record, added, size]

theorem record_added (hh : s.Holds h) : (s.added r).record h = s.record h := by
  have hlt : h.index < s.records.size := hh
  simp [record, added, Array.getD_eq_getD_getElem?, Array.getElem?_push_lt hlt, hlt]

theorem le_added : s ≤ s.added r := fun _ hh => ⟨holds_added.2 (.inl hh), record_added hh⟩

theorem node_added_last : (s.added n.record).node ⟨s.size⟩ = n := by
  rw [node, record_added_last, Node.node_record]

theorem lookup_added (q : Record Handle) :
    (s.added r).lookup? q = if r = q then some ⟨s.size⟩ else s.lookup? q := by
  simp only [lookup?, added, Std.HashMap.getElem?_insert, beq_iff_eq]

variable (hs : s.Indexed) (hn : ∀ x ∈ n.children, s.Holds x)

include hs hn

theorem descends_added : (s.added n.record).Descends := by
  intro h hh x hx
  rcases holds_added.1 hh with hh | rfl
  · rw [node_mono le_added hh] at hx
    exact hs.descends h hh x hx
  · rw [node_added_last] at hx
    exact hn x hx

theorem tree_added_last : (s.added n.record).tree ⟨s.size⟩ = .mk (n.map s.tree) := by
  rw [tree_eq (descends_added hs hn) (holds_added.2 (.inr rfl)), node_added_last,
    map_tree_mono hs.descends le_added hn]

theorem indexed_added (hl : s.lookup? n.record = none) (hnormal : (Ty.mk (n.map s.tree)).Normal) :
    (s.added n.record).Indexed where
  lookup_iff q h := by
    rw [lookup_added, holds_added]
    have hold := hs.lookup_iff q h
    have hsize : ¬s.Holds ⟨s.size⟩ := Nat.lt_irrefl _
    split
    next hnq =>
      subst hnq
      constructor
      · rintro ⟨⟩
        exact ⟨.inr rfl, record_added_last⟩
      · rintro ⟨hh | rfl, hrecord⟩
        · rw [record_added hh] at hrecord
          rw [hold.2 ⟨hh, hrecord⟩] at hl
          cases hl
        · rfl
    next hnq =>
      rw [hold]
      constructor
      · rintro ⟨hh, hrecord⟩
        exact ⟨.inl hh, (record_added hh).trans hrecord⟩
      · rintro ⟨hh | rfl, hrecord⟩
        · exact ⟨hh, (record_added hh).symm.trans hrecord⟩
        · exact absurd (record_added_last.symm.trans hrecord) hnq
  encoded h hh := by
    rcases holds_added.1 hh with hh | rfl
    · rw [record_added hh, node_mono le_added hh]
      exact hs.encoded h hh
    · rw [record_added_last, node_added_last]
  descends := descends_added hs hn
  normal h hh := by
    rcases holds_added.1 hh with hh | rfl
    · rw [tree_mono hs.descends le_added hh]
      exact hs.normal h hh
    · rw [tree_added_last hs hn]
      exact hnormal

end added

end TypeLattice.Store
