import TypeLattice.Proofs.Reachable
import TypeLattice.Proofs.SortedSearch

namespace TypeLattice

namespace Store

variable {s : Store}

def Call.ofAtom : Atom → Call
  | .universal h => .preset (.universalOf h)
  | .nil => .preset .nil
  | .scalar h => .preset (.scalarOf h)
  | .ctrl h => .preset (.ctrlOf h)
  | .int (.const c) => .intConst c
  | .int (.range h w) => .int h w.bits
  | .flt (.const c) => .fltConst c.bits
  | .flt (.range h w) => .flt h w.bits
  | .funPtr h s => .funPtr h s.toList
  | .rpc h s => .rpc h s.toList
  | .oop h => .preset (.oopOf h)
  | .str h => .preset (.strOf h)
  | .strConst v => .strConst v

theorem Call.operands_ofAtom (a : Atom) : (ofAtom a).operands = [] := by
  cases a with
  | int a | flt a => cases a <;> rfl
  | _ => rfl

theorem Call.run_ofAtom (a : Atom) : (ofAtom a).run = discard (maker.build (.atom a)) := by
  cases a with
  | int a =>
      cases a with
      | const c => rfl
      | range h w =>
          simp only [ofAtom, run, Store.int, Maker.int, IntWidth.roundUp_bits]
          rfl
  | flt a =>
      cases a with
      | const c =>
          simp only [ofAtom, run, Store.fltConst, Maker.fltConst, Binary64.ofBits_bits]
          rfl
      | range h w =>
          simp only [ofAtom, run, Store.flt, Maker.flt, FltWidth.roundUp_bits]
          rfl
  | funPtr h s | rpc h s =>
      simp only [ofAtom, run, Store.funPtr, Store.rpc, OrdSet.ofList_toList]
      rfl
  | _ => rfl

/-- A layer over handles of the store can be added to it by one call. -/
theorem exists_call_storing (hs : s.Sound) {k : Node Handle} (hk : ∀ x ∈ k.children, s.Holds x)
    (hn : (Ty.mk (k.map s.tree)).Normal) :
    ∃ c : Call, (∀ x ∈ c.operands, s.Holds x) ∧
      ∃ h, (c.run.run s).2.Denotes h (.mk (k.map s.tree)) := by
  have htidy : k.Tidy := (Node.tidy_map _ _).1 hn.layer.tidy
  have made (c : Call) (hc : c.operands = k.children) (hrun : c.run = discard (maker.build k)) :
      ∃ c : Call, (∀ x ∈ c.operands, s.Holds x) ∧
        ∃ h, (c.run.run s).2.Denotes h (.mk (k.map s.tree)) := by
    obtain ⟨-, -, hd⟩ := build_denotes hs hk htidy
    rw [Ty.build_of_normal hn] at hd
    refine ⟨c, hc ▸ hk, ((maker.build k).run s).1, ?_⟩
    rw [hrun]
    exact hd
  cases k with
  | atom a => exact made (.ofAtom a) (Call.operands_ofAtom a) (Call.run_ofAtom a)
  | nullable i x => exact made (.nullable i x) rfl rfl
  | name l x => exact made (.name l x) rfl rfl
  | func i ps r => exact made (.func i ps r) rfl rfl
  | tuple i es => exact made (.tuple i es) rfl rfl
  | struct i fs =>
      apply made (.struct i fs) rfl
      rw [Call.run, Store.struct, Fields.ofList, Ascending.arrange_of_sorted htidy]
      rfl

theorem exists_stored_layer (hs : s.Reachable) {k : Node Handle} (hk : ∀ x ∈ k.children, s.Holds x)
    (hn : (Ty.mk (k.map s.tree)).Normal) :
    ∃ h s', s'.Reachable ∧ s ≤ s' ∧ s'.Denotes h (.mk (k.map s.tree)) := by
  obtain ⟨c, hc, h, hh⟩ := exists_call_storing hs.sound hk hn
  exact ⟨h, _, .call c hs hc, hs.le_call c hc, hh⟩

def Storable (t : Ty) : Prop :=
  ∀ s : Store, s.Reachable → ∃ h s', s'.Reachable ∧ s ≤ s' ∧ s'.Denotes h t

theorem Storable.all {ts : List Ty} (h : ∀ t ∈ ts, Storable t) (hs : s.Reachable) :
    ∃ s', s'.Reachable ∧ s ≤ s' ∧ ∀ t ∈ ts, ∃ h, s'.Denotes h t := by
  induction ts with
  | nil => exact ⟨s, hs, le_refl s, nofun⟩
  | cons t ts ih =>
      rw [List.forall_mem_cons] at h
      obtain ⟨s₁, hs₁, hle₁, hall⟩ := ih h.2
      obtain ⟨x, s₂, hs₂, hle₂, hx⟩ := h.1 s₁ hs₁
      refine ⟨s₂, hs₂, le_trans hle₁ hle₂, List.forall_mem_cons.2 ⟨⟨x, hx⟩, fun u hu => ?_⟩⟩
      obtain ⟨y, hy⟩ := hall u hu
      exact ⟨y, hy.mono hs₁.sound hle₂⟩

theorem storable_of_normal {t : Ty} (ht : t.Normal) : Storable t := by
  induction t with
  | mk n ih =>
      intro s hs
      obtain ⟨s₁, hs₁, hle₁, hall⟩ := Storable.all (fun t hmem => ih t hmem (ht.parts t hmem)) hs
      have hchoice (t : Ty) : ∃ h, t ∈ n.children → s₁.Denotes h t := by
        by_cases hmem : t ∈ n.children
        · obtain ⟨h, hh⟩ := hall t hmem
          exact ⟨h, fun _ => hh⟩
        · exact ⟨Preset.nil.handle, fun h => absurd h hmem⟩
      choose g hg using hchoice
      have hmap : (n.map g).map s₁.tree = n := by
        rw [Node.map_map]
        exact (Node.map_congr fun t ht => (hg t ht).2).trans (Node.map_id n)
      have hk : ∀ x ∈ (n.map g).children, s₁.Holds x := by
        rw [Node.children_map]
        exact List.forall_mem_map.2 fun t ht => (hg t ht).1
      obtain ⟨h, s₂, hs₂, hle₂, hh⟩ := exists_stored_layer hs₁ hk (by rw [hmap]; exact ht)
      rw [hmap] at hh
      exact ⟨h, s₂, hs₂, le_trans hle₁ hle₂, hh⟩

theorem exists_two_stored {t u : Ty} (ht : t.Normal) (hu : u.Normal) :
    ∃ (s : Store) (a b : Handle), s.Reachable ∧ s.Denotes a t ∧ s.Denotes b u := by
  obtain ⟨a, s₁, hs₁, -, ha⟩ := storable_of_normal ht initial .initial
  obtain ⟨b, s, hs, hle, hb⟩ := storable_of_normal hu s₁ hs₁
  exact ⟨s, a, b, hs, ha.mono hs₁.sound hle, hb⟩

end Store

end TypeLattice
