import TypeLattice.Proofs.PlanShape
import TypeLattice.Ty.Lattice

namespace TypeLattice

namespace Atom

@[simp] theorem dual_dual (a : Atom) : a.dual.dual = a := by
  cases a with
  | int n | flt n => cases n <;> simp [dual, Numeric.dual]
  | _ => simp [dual]

@[simp] theorem kind_dual (a : Atom) : a.dual.kind = a.kind := by
  cases a <;> rfl

end Atom

namespace Node

variable {α : Type}

@[simp] theorem flip_flip (n : Node α) : n.flip.flip = n := by
  cases n <;> simp [flip]

@[simp] theorem kind_flip (n : Node α) : n.flip.kind = n.kind := by
  cases n <;> simp [flip, kind]

@[simp] theorem children_flip (n : Node α) : n.flip.children = n.children := by
  cases n <;> rfl

theorem eq_atom_of_map {β : Type} {f : α → β} {n : Node α} {c : Atom} (h : n.map f = .atom c) :
    n = .atom c := by
  cases n with
  | atom => exact congrArg Node.atom (Node.atom.inj h)
  | _ => cases h

theorem kind_eq_name {n : Node α} : n.kind = .name ↔ ∃ l x, n = .name l x := by
  cases n with
  | atom a => cases a <;> simp [kind, Atom.kind]
  | _ => simp [kind]

theorem isUniversal_eq (n : Node α) : n.isUniversal = decide (n.kind = .universal) := by
  cases n with
  | atom a => cases a <;> rfl
  | _ => rfl

end Node

namespace Ty

theorem eq_of_node {a b : Ty} (h : a.node = b.node) : a = b := by
  obtain ⟨n⟩ := a
  obtain ⟨k⟩ := b
  exact congrArg mk h

inductive Everywhere (P : Node Ty → Prop) : Ty → Prop
  | mk {n : Node Ty} (layer : P n) (parts : ∀ t ∈ n.children, Everywhere P t) : Everywhere P (.mk n)

namespace Everywhere

variable {P Q : Node Ty → Prop} {n : Node Ty} {t : Ty}

theorem layer (h : Everywhere P t) : P t.node := by
  cases h with
  | mk hn _ => exact hn

theorem parts (h : Everywhere P t) : ∀ u ∈ t.node.children, Everywhere P u := by
  cases h with
  | mk _ ht => exact ht

theorem mono (hPQ : ∀ n, P n → Q n) (h : Everywhere P t) : Everywhere Q t := by
  induction h with
  | mk hn _ ih => exact .mk (hPQ _ hn) ih

end Everywhere

/-- A layer as the store keeps it: fields in order, and nil added only where it is missing. -/
def NormalLayer : Node Ty → Prop
  | .nullable _ t => t.absorbsNil = false
  | n => n.Tidy

def Normal : Ty → Prop := Everywhere NormalLayer

theorem NormalLayer.tidy {n : Node Ty} (h : NormalLayer n) : n.Tidy := by
  cases n with
  | nullable => trivial
  | _ => exact h

theorem normal_name (l : String) {t : Ty} (h : t.Normal) : (mk (.name l t)).Normal :=
  .mk trivial (List.forall_mem_singleton.2 h)

theorem build_nullable (h : Half) {t : Ty} (ht : t.absorbsNil = false) :
    build (.nullable h t) = mk (.nullable h t) := by
  simp only [build, ht, Bool.false_eq_true, if_false]

theorem build_of_normal {n : Node Ty} (h : (mk n).Normal) : build n = mk n := by
  cases n with
  | nullable i t => exact build_nullable i h.layer
  | _ => rfl

theorem normal_build {n : Node Ty} (hn : n.Tidy) (ht : ∀ t ∈ n.children, t.Normal) :
    (build n).Normal := by
  cases n with
  | nullable h t =>
      simp only [build]
      split
      · exact ht t (List.mem_singleton_self t)
      · next ha => exact .mk (by simpa [NormalLayer] using ha) ht
  | _ => exact .mk hn ht

theorem le_foldr_max {x : Nat} {xs : List Nat} (h : x ∈ xs) : x ≤ xs.foldr max 0 := by
  induction xs with
  | nil => simp at h
  | cons y ys ih =>
      rw [List.foldr_cons]
      rcases List.mem_cons.1 h with rfl | h
      · exact Nat.le_max_left _ _
      · exact Nat.le_trans (ih h) (Nat.le_max_right _ _)

theorem foldr_max_le {b : Nat} {xs : List Nat} (h : ∀ x ∈ xs, x ≤ b) : xs.foldr max 0 ≤ b := by
  induction xs with
  | nil => exact Nat.zero_le b
  | cons y ys ih =>
      rw [List.forall_mem_cons] at h
      exact Nat.max_le.2 ⟨h.1, ih h.2⟩

theorem height_mk (n : Node Ty) : (mk n).height = (n.children.map height).foldr max 0 + 1 := by
  rw [height, fold_mk, Node.height, Node.children_map]

theorem height_lt_of_mem {n : Node Ty} {t : Ty} (h : t ∈ n.children) :
    t.height < (mk n).height := by
  rw [height_mk]
  exact Nat.lt_succ_of_le (le_foldr_max (List.mem_map_of_mem h))

theorem height_lt_of_mem_node {t u : Ty} (h : u ∈ t.node.children) : u.height < t.height := by
  cases t
  exact height_lt_of_mem h

theorem height_le_of_forall {n : Node Ty} {b : Nat} (h : ∀ t ∈ n.children, t.height ≤ b) :
    (mk n).height ≤ b + 1 := by
  rw [height_mk]
  apply Nat.succ_le_succ
  apply foldr_max_le
  intro x hx
  obtain ⟨t, ht, rfl⟩ := List.mem_map.1 hx
  exact h t ht

theorem height_pos (t : Ty) : 0 < t.height := by
  obtain ⟨n⟩ := t
  rw [height_mk]
  exact Nat.succ_pos _

theorem height_build_le (n : Node Ty) : (build n).height ≤ (mk n).height := by
  cases n with
  | nullable h t =>
      simp only [build]
      split
      · have ht : t ∈ (Node.nullable h t).children := List.mem_singleton_self t
        exact Nat.le_of_lt (height_lt_of_mem ht)
      · exact Nat.le_refl _
  | _ => exact Nat.le_refl _

/-- A dual may lose a layer where nil becomes redundant, but never gains one. -/
theorem height_dual_le (t : Ty) : t.dual.height ≤ t.height := by
  induction t with
  | mk n ih =>
      rw [dual_mk]
      refine Nat.le_trans (height_build_le _) ?_
      rw [height_mk, height_mk, Node.children_map, Node.children_flip, List.map_map]
      apply Nat.succ_le_succ
      apply foldr_max_le
      intro x hx
      obtain ⟨u, hu, rfl⟩ := List.mem_map.1 hx
      exact Nat.le_trans (ih u hu) (le_foldr_max (List.mem_map_of_mem hu))

theorem unname_name (l : String) (t : Ty) : unname (mk (.name l t)) = unname t := by
  rw [unname]

theorem unname_of_ne {t : Ty} (h : t.node.kind ≠ .name) : unname t = t := by
  obtain ⟨n⟩ := t
  cases n with
  | name => exact absurd rfl h
  | _ => rw [unname]; simp

theorem unname_induction {C : Ty → Prop} (bare : ∀ t, t.node.kind ≠ .name → C t)
    (name : ∀ l t, C t → C (mk (.name l t))) (t : Ty) : C t := by
  induction t with
  | mk n ih =>
      by_cases hname : (mk n).node.kind = .name
      · obtain ⟨l, u, rfl⟩ := Node.kind_eq_name.1 hname
        exact name l u (ih u (List.mem_singleton_self u))
      · exact bare (mk n) hname

theorem absorbsNil_congr {t u : Ty} (h : t.node.kind = u.node.kind)
    (h' : t.unname.node.kind = u.unname.node.kind) : t.absorbsNil = u.absorbsNil := by
  simp only [absorbsNil, Node.isUniversal_eq, Node.admitsNil, h, h']

theorem dual_layers {t : Ty} (h : t.Normal) :
    t.dual = mk (t.node.flip.map dual) ∧ t.dual.unname.node.kind = t.unname.node.kind := by
  induction t with
  | mk n ih =>
      have parts (u : Ty) (hu : u ∈ n.children) := ih u hu (h.parts u hu)
      have hd : (mk n).dual = mk (n.flip.map dual) := by
        rw [dual_mk]
        cases n with
        | nullable i t =>
            obtain ⟨ht, hk⟩ := parts t (List.mem_singleton_self t)
            have ha : t.dual.absorbsNil = t.absorbsNil :=
              absorbsNil_congr (by rw [ht]; simp [node]) hk
            have hn : t.absorbsNil = false := h.layer
            simp [Node.flip, Node.map, build, ha, hn]
        | _ => rfl
      refine ⟨hd, ?_⟩
      rw [hd]
      by_cases hk : n.kind = .name
      · obtain ⟨l, t, rfl⟩ := Node.kind_eq_name.1 hk
        simp only [Node.flip, Node.map, unname_name]
        exact (parts t (List.mem_singleton_self t)).2
      · have hf : (n.flip.map dual).kind = n.kind := by rw [Node.kind_map, Node.kind_flip]
        have hk' : (mk (n.flip.map dual)).node.kind ≠ .name := by rwa [node, hf]
        have hn : (mk n).node.kind ≠ .name := hk
        rw [unname_of_ne hk', unname_of_ne hn]
        exact hf

theorem dual_of_normal {t : Ty} (h : t.Normal) : t.dual = mk (t.node.flip.map dual) :=
  (dual_layers h).1

theorem kind_dual {t : Ty} (h : t.Normal) : t.dual.node.kind = t.node.kind := by
  rw [dual_of_normal h]
  simp [node]

theorem normal_dual {t : Ty} (h : t.Normal) : t.dual.Normal := by
  induction t with
  | mk n ih =>
      rw [dual_mk]
      apply normal_build
      · rw [Node.tidy_map, Node.tidy_flip]
        exact NormalLayer.tidy h.layer
      · intro u hu
        rw [Node.children_map, Node.children_flip] at hu
        obtain ⟨v, hv, rfl⟩ := List.mem_map.1 hu
        exact ih v hv (h.parts v hv)

theorem dual_dual {t : Ty} (h : t.Normal) : t.dual.dual = t := by
  induction t with
  | mk n ih =>
      rw [dual_of_normal (normal_dual h), dual_of_normal h]
      simp only [node, Node.flip_map, Node.flip_flip, Node.map_map, mk.injEq]
      have hid : n.map (fun u => u.dual.dual) = n.map (fun u => u) :=
        Node.map_congr fun u hu => ih u hu (h.parts u hu)
      rw [hid, Node.map_id]

theorem height_dual {t : Ty} (h : t.Normal) : t.dual.height = t.height := by
  apply Nat.le_antisymm (height_dual_le t)
  have := height_dual_le t.dual
  rwa [dual_dual h] at this

theorem operands_lt_height (a b : Ty) : Plan.Operands (fun _ => True)
    (fun u v => u.height + v.height < a.height + b.height) a a.node b b.node := by
  obtain ⟨n⟩ := a
  obtain ⟨k⟩ := b
  have hn (u : Ty) (hu : u ∈ n.children) := height_lt_of_mem hu
  have hk (v : Ty) (hv : v ∈ k.children) := height_lt_of_mem hv
  exact {
    left := trivial
    right := trivial
    leftParts := fun _ _ => trivial
    rightParts := fun _ _ => trivial
    leftWhole := fun v hv => Nat.add_lt_add_left (hk v hv) _
    rightWhole := fun u hu => Nat.add_lt_add_right (hn u hu) _
    parts := fun u hu v hv => Nat.add_lt_add (hn u hu) (hk v hv) }

theorem plan_fits_height (a b : Ty) : (Plan.ofPair a a.node b b.node).Fits (fun _ => True)
    (fun u v => u.height + v.height < a.height + b.height) :=
  Plan.fits_ofPair (fun u v h => by omega) (operands_lt_height a b)

theorem meetWithin_congr {n m : Nat} {a b : Ty} (hn : a.height + b.height ≤ n)
    (hm : a.height + b.height ≤ m) : meetWithin n a b = meetWithin m a b := by
  induction n generalizing m a b with
  | zero => have := height_pos a; omega
  | succ n ih =>
      cases m with
      | zero => have := height_pos a; omega
      | succ m =>
          rw [meetWithin, meetWithin]
          split
          · rfl
          · apply Plan.run_congr
            refine (plan_fits_height a b).mono (fun _ h => h) fun u v huv => ⟨?_, ?_⟩
            · exact ih (by omega) (by omega)
            · have hu := height_dual_le u
              have hv := height_dual_le v
              rw [ih (a := u.dual) (b := v.dual) (m := m) (by omega) (by omega)]

/-- The rules of the meet, with no bound on the depth. -/
theorem meet_eq (a b : Ty) : meet a b =
    if a = b then .ok a
    else (Plan.ofPair a a.node b b.node).run (fun k => .ok (build k)) meet join
      (fun x y => .error ⟨x, y⟩) := by
  have ha := height_pos a
  obtain ⟨n, hn⟩ : ∃ n, a.height + b.height = n + 1 := ⟨a.height + b.height - 1, by omega⟩
  rw [meet, hn, meetWithin]
  split
  · rfl
  · apply Plan.run_congr
    refine (plan_fits_height a b).mono (fun _ h => h) fun u v huv => ⟨?_, ?_⟩
    · exact meetWithin_congr (by omega) (Nat.le_refl _)
    · have hu := height_dual_le u
      have hv := height_dual_le v
      rw [join, meet, meetWithin_congr (by omega) (Nat.le_refl _)]

theorem meet_self (a : Ty) : meet a a = .ok a := by
  rw [meet_eq, if_pos rfl]

theorem join_dual {a b : Ty} (ha : a.Normal) (hb : b.Normal) :
    join a.dual b.dual = dual <$> meet a b := by
  rw [join, dual_dual ha, dual_dual hb]

theorem toOption_map (f : Ty → Ty) (x : Except (Clash Ty) Ty) :
    (f <$> x).toOption = x.toOption.map f := by
  cases x <;> rfl

end Ty

end TypeLattice
