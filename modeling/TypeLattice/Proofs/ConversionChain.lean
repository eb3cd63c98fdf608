import Mathlib.Algebra.Group.Nat.Defs
import TypeLattice.Proofs.ConversionRules
import TypeLattice.Proofs.NumericLattice
import TypeLattice.Proofs.Realization

namespace TypeLattice

theorem Numeric.toNat_abs (c : Int64) : c.abs.toUInt64.toNat = c.toInt.natAbs := by
  change c.abs.toBitVec.toNat = c.toBitVec.toInt.natAbs
  rw [Int64.toBitVec_abs, BitVec.toNat_abs, BitVec.toInt_eq_msb_cond]
  have := c.toBitVec.isLt
  split <;> omega

theorem FltWidth.toNat_shift (w : FltWidth) :
    ((1 : UInt64) <<< w.precision.toUInt64).toNat = 2 ^ w.precision := by
  cases w <;> decide

theorem IntWidth.natAbs_le_of_between {c low high : Int64} {b : Nat} (h : low ≤ c ∧ c ≤ high)
    (hlow : -(b : Int) ≤ low.toInt) (hhigh : high.toInt ≤ b) : c.toInt.natAbs ≤ b := by
  rw [Int64.le_iff_toInt_le, Int64.le_iff_toInt_le] at h
  omega

theorem IntWidth.natAbs_le_ofConst (c : Int64) : c.toInt.natAbs ≤ 2 ^ (ofConst c).bits := by
  rw [ofConst]
  split
  · next h => rcases h with rfl | rfl <;> decide
  · split
    · next h => exact natAbs_le_of_between h (by decide) (by decide)
    · split
      · next h => exact natAbs_le_of_between h (by decide) (by decide)
      · split
        · next h => exact natAbs_le_of_between h (by decide) (by decide)
        · have hlow := c.le_toInt
          have hhigh := c.toInt_lt
          simp only [bits]
          omega

namespace Numeric

variable {a : Numeric IntWidth Int64} {v w : FltWidth}

theorem isExactAt_const {c : Int64} :
    isExactAt w (const c) = true ↔ c.toInt.natAbs ≤ 2 ^ w.precision := by
  rw [isExactAt, decide_eq_true_iff, UInt64.le_iff_toNat_le, FltWidth.toNat_shift, toNat_abs]

theorem isExactAt_of_le {b : Nat} (ha : a.width.bits ≤ b) (hb : b ≤ w.precision) :
    a.isExactAt w = true := by
  cases a with
  | const c =>
      have hpow := Nat.pow_le_pow_right (Nat.succ_pos 1) (ha.trans hb)
      exact isExactAt_const.2 ((IntWidth.natAbs_le_ofConst c).trans hpow)
  | range h u => exact decide_eq_true (ha.trans hb)

theorem isExactAt_mono (hvw : v ≤ w) (h : a.isExactAt v = true) : a.isExactAt w = true := by
  have hle : v.precision ≤ w.precision := by
    revert hvw
    cases v <;> cases w <;> decide
  cases a with
  | const c =>
      exact isExactAt_const.2 ((isExactAt_const.1 h).trans (Nat.pow_le_pow_right (Nat.succ_pos 1) hle))
  | range i u => exact decide_eq_true ((of_decide_eq_true h).trans hle)

end Numeric

theorem forall₂_trans_of_mem {α : Type} {R : α → α → Prop} {es ds cs : List α}
    (h : ∀ u ∈ es, ∀ v ∈ ds, ∀ w ∈ cs, R u v → R v w → R u w) (hed : List.Forall₂ R es ds)
    (hdc : List.Forall₂ R ds cs) : List.Forall₂ R es cs := by
  induction hed generalizing cs with
  | nil => exact hdc
  | cons huv _ ih =>
      cases hdc with
      | cons hvw hdc =>
          refine .cons (h _ List.mem_cons_self _ List.mem_cons_self _ List.mem_cons_self huv hvw) ?_
          exact ih (fun u hu v hv w hw => h u (List.mem_cons_of_mem _ hu) v
            (List.mem_cons_of_mem _ hv) w (List.mem_cons_of_mem _ hw)) hdc

namespace Inquiry.Rule

variable {α : Type} {r : Nat} {R : α → α → Prop} {x y : α} {n m k : Node α}

theorem source_isValue (h : Rule r R x n m) : n.kind ≠ .universal ∧ n.kind ≠ .ctrl := by
  have hpointer {j : Kind} (hj : j.isPointer = true) : j ≠ .universal ∧ j ≠ .ctrl := by
    revert hj
    cases j <;> decide
  cases h with
  | scalar hu hc | toNullable hu hc => exact ⟨hu, hc⟩
  | oop hn => exact hpointer hn
  | str hn => exact hpointer (hn ▸ rfl)
  | _ => exact ⟨nofun, nofun⟩

theorem source_isPointer (h : Rule r R x n m) (hm : m.kind.isPointer = true) :
    n = .atom .nil ∨ n.kind.isPointer = true := by
  cases h with
  | nilToPointer => exact .inl rfl
  | oop hn => exact .inr hn
  | str hn => exact .inr (hn ▸ rfl)
  | struct | tuple => exact .inr rfl
  | _ => cases hm

theorem source_str (h : Rule r R x n m) (hm : m.kind = .str) :
    n = .atom .nil ∨ n.kind = .str := by
  cases h with
  | nilToPointer => exact .inl rfl
  | str hn => exact .inr hn
  | _ => cases hm

theorem target_of_nullable {i : Half} {u : α} (h : Rule r R x (.nullable i u) m)
    (hm : m.kind ≠ .nil) : ∃ j, m = .atom (.scalar j) := by
  cases h with
  | scalar => exact ⟨_, rfl⟩
  | nullables | toNullable => exact absurd rfl hm
  | oop hn | str hn => cases hn

/-- Two layer rules compose if the conversions of components do and nothing scalar is converted
to a type that lacks nil. -/
theorem trans (hnm : Rule r R x n m) (hmk : Rule r R y m k)
    (hparts : ∀ u ∈ n.children, ∀ v ∈ m.children, ∀ w ∈ k.children, R u v → R v w → R u w)
    (hleft : ∀ v ∈ m.children, ∀ w ∈ k.children, R x v → R v w → R x w)
    (hmiddle : ∀ w ∈ k.children, R y w → R x w)
    (hscalar : ∀ i j w, m = .atom (.scalar i) → k = .nullable j w → ¬R y w) :
    Rule r R x n k := by
  have inner {i : Half} {z : α} : z ∈ (Node.nullable i z).children := List.mem_singleton_self z
  cases hmk with
  | scalar => exact .scalar hnm.source_isValue.1 hnm.source_isValue.2
  | ints hw =>
      cases hnm with
      | nilToPointer hm => cases hm
      | ints hv => exact .ints (le_trans hv hw)
  | intToFlt hr hw =>
      cases hnm with
      | nilToPointer hm => cases hm
      | ints hv => exact .intToFlt hr (Numeric.isExactAt_of_le hv (of_decide_eq_true hw))
  | fltConst =>
      cases hnm with
      | nilToPointer hm => cases hm
  | flts hw =>
      have hle := hw.elim le_of_eq And.right
      cases hnm with
      | nilToPointer hm => cases hm
      | intToFlt hr hv => exact .intToFlt hr (Numeric.isExactAt_mono hle hv)
      | fltConst hv => exact .fltConst (le_trans hv hle)
      | flts hv =>
          rcases hv with rfl | ⟨hr, hv⟩
          · exact .flts hw
          · exact .flts (.inr ⟨hr, le_trans hv hle⟩)
  | funPtr htu =>
      cases hnm with
      | nilToPointer hm => cases hm
      | funPtr hst => exact .funPtr (OrdSet.isSubset_trans hst htu)
  | rpc htu =>
      cases hnm with
      | nilToPointer hm => cases hm
      | rpc hst => exact .rpc (OrdSet.isSubset_trans hst htu)
  | nilToPointer hk =>
      cases hnm with
      | nilToPointer hm => cases hm
  | nilToNullable =>
      cases hnm with
      | nilToPointer hm => cases hm
  | nullables hvw =>
      cases hnm with
      | nilToPointer hm => cases hm
      | nilToNullable => exact .nilToNullable
      | nullables huv => exact .nullables (hparts _ inner _ inner _ inner huv hvw)
      | toNullable hu hc hn hxv => exact .toNullable hu hc hn (hleft _ inner _ inner hxv hvw)
  | toNullable hu hc hm hyw =>
      obtain ⟨hu, hc⟩ := hnm.source_isValue
      cases n with
      | atom a =>
          cases a with
          | nil => exact .nilToNullable
          | _ => exact .toNullable hu hc nofun (hmiddle _ inner hyw)
      | nullable i u =>
          obtain ⟨j, rfl⟩ := target_of_nullable hnm hm
          exact absurd hyw (hscalar _ _ _ rfl rfl)
      | _ => exact .toNullable hu hc nofun (hmiddle _ inner hyw)
  | oop hm =>
      rcases hnm.source_isPointer hm with rfl | hn
      · exact .nilToPointer rfl
      · exact .oop hn
  | str hm =>
      rcases hnm.source_str hm with rfl | hn
      · exact .nilToPointer rfl
      · exact .str hn
  | struct hgs =>
      cases hnm with
      | nilToPointer => exact .nilToPointer rfl
      | struct hfs =>
          refine .struct fun g hg => ?_
          obtain ⟨v, hv, hvw⟩ := hgs g hg
          have hmem := Fields.mem_of_find? hv
          obtain ⟨u, hu, huv⟩ := hfs (g.1, v) hmem
          refine ⟨u, hu, hparts u ?_ v (List.mem_map_of_mem hmem) g.2 (List.mem_map_of_mem hg) huv hvw⟩
          exact List.mem_map_of_mem (Fields.mem_of_find? hu)
  | tuple hds =>
      cases hnm with
      | nilToPointer => exact .nilToPointer rfl
      | tuple hes => exact .tuple (forall₂_trans_of_mem hparts hes hds)

end Inquiry.Rule

namespace Ty

variable {r : Nat} {a b c : Ty}

theorem Everywhere.unname {P : Node Ty → Prop} {t : Ty} (h : Everywhere P t) :
    Everywhere P t.unname := by
  induction t using unname_induction with
  | bare t hname => rwa [unname_of_ne hname]
  | name l t ih =>
      rw [unname_name]
      exact ih (h.parts t (List.mem_singleton_self t))

theorem converts_unname (hr : r ≤ 1) : Converts r a.unname b ↔ Converts r a b := by
  rw [converts_iff hr, converts_iff hr, half, unname_unname]
  rfl

theorem not_converts_scalar (hr : r ≤ 1) {h : Half} (ha : a.node = .atom (.scalar h))
    (hb : b.absorbsNil = false) : ¬Converts r a b := by
  have hadmits : b.unname.node.admitsNil = false := (Bool.or_eq_false_iff.1 hb).2
  have hname : a.node.kind ≠ .name := by rw [ha]; exact nofun
  rw [converts_iff hr, unname_of_ne hname, ha]
  rintro ⟨-, -, hsame | hrule⟩
  · rw [← hsame, ha] at hadmits
    cases hadmits
  · generalize b.unname.node = k at *
    cases hrule with
    | scalar | toNullable => cases hadmits
    | oop hn | str hn => cases hn

theorem converts_trans (hr : r ≤ 1) (ha : a.Normal) (hb : b.Normal) (hc : c.Normal)
    (hab : Converts r a b) (hbc : Converts r b c) : Converts r a c := by
  obtain ⟨N, hN⟩ : ∃ N, a.height + b.height + c.height ≤ N := ⟨_, Nat.le_refl _⟩
  induction N generalizing a b c with
  | zero => have := height_pos a; omega
  | succ N ih =>
      obtain ⟨ta, tb, hab'⟩ := (converts_iff hr).1 hab
      obtain ⟨-, tc, hbc'⟩ := (converts_iff hr).1 hbc
      rw [converts_iff hr]
      refine ⟨ta, tc, ?_⟩
      rcases hab' with hsame | hab'
      · rwa [hsame]
      · rcases hbc' with hsame | hbc'
        · exact .inr (hsame ▸ hab')
        · have na := ha.unname
          have nb := hb.unname
          have nc := hc.unname
          have hua := height_unname_le a
          right
          apply hab'.trans hbc'
          · intro u hu v hv w hw
            have := height_lt_of_mem_unname hu
            have := height_lt_of_mem_unname hv
            have := height_lt_of_mem_unname hw
            exact fun huv hvw => ih (na.parts u hu) (nb.parts v hv) (nc.parts w hw) huv hvw (by omega)
          · intro v hv w hw
            have := height_lt_of_mem_unname hv
            have := height_lt_of_mem_unname hw
            exact fun hav hvw => ih na (nb.parts v hv) (nc.parts w hw) hav hvw (by omega)
          · intro w hw hbw
            have := height_lt_of_mem_unname hw
            exact (converts_unname hr).2
              (ih ha hb (nc.parts w hw) hab ((converts_unname hr).1 hbw) (by omega))
          · intro i j w hm hk
            have hw : w.absorbsNil = false := by
              have hlayer := nc.layer
              rwa [hk] at hlayer
            exact not_converts_scalar hr hm hw

end Ty

theorem Verdict.rank_le_zero_iff {v : Verdict} : v.rank ≤ 0 ↔ v = free := by
  cases v <;> decide

theorem Verdict.rank_le_one_iff {v : Verdict} : v.rank ≤ 1 ↔ v = free ∨ v = bitChanging := by
  cases v <;> decide

namespace Store

variable {s : Store} {a b c : Handle}

/-- Two conversions in turn make one, of no worse a verdict than the worse of the two. -/
theorem conversions_compose (hs : s.Reachable) (ha : s.Holds a) (hb : s.Holds b) (hc : s.Holds c)
    (hab : s.classify a b = .free ∨ s.classify a b = .bitChanging)
    (hbc : s.classify b c = .free ∨ s.classify b c = .bitChanging) :
    (s.classify a c = .free ∨ s.classify a c = .bitChanging) ∧
    (s.classify a c).rank ≤ ((s.classify a b).worst (s.classify b c)).rank ∧
    (s.classify a b = .free → s.classify b c = .free → s.classify a c = .free) := by
  have hnormal := hs.sound.normal
  have hone : ((s.classify a b).worst (s.classify b c)).rank ≤ 1 := by
    rw [Verdict.rank_worst]
    exact Nat.max_le.2 ⟨Verdict.rank_le_one_iff.2 hab, Verdict.rank_le_one_iff.2 hbc⟩
  have hcomposed : (s.classify a c).rank ≤ ((s.classify a b).worst (s.classify b c)).rank := by
    have hleft : (s.classify a b).rank ≤ ((s.classify a b).worst (s.classify b c)).rank := by
      rw [Verdict.rank_worst]
      exact Nat.le_max_left _ _
    have hright : (s.classify b c).rank ≤ ((s.classify a b).worst (s.classify b c)).rank := by
      rw [Verdict.rank_worst]
      exact Nat.le_max_right _ _
    generalize ((s.classify a b).worst (s.classify b c)).rank = r at *
    rw [classify_tree hs.sound ha hb] at hleft
    rw [classify_tree hs.sound hb hc] at hright
    rw [classify_tree hs.sound ha hc]
    exact Ty.converts_trans hone (hnormal a ha) (hnormal b hb) (hnormal c hc) hleft hright
  refine ⟨Verdict.rank_le_one_iff.1 (hcomposed.trans hone), hcomposed, fun hfree hfree' => ?_⟩
  rw [hfree, hfree'] at hcomposed
  exact Verdict.rank_le_zero_iff.1 hcomposed

/-- A point with an integer is handed on where one with a float is asked for, which changes bits,
and that one where any object is asked for. At once this is free. -/
theorem point_conversions_compose : ∃ (s : Store) (a b c : Handle), s.Reachable ∧
    s.Denotes a (.mk (.struct .bottom [("x", .mk (.atom Preset.int8.atom)),
      ("y", .mk (.atom Preset.str.atom))])) ∧
    s.Denotes b (.mk (.struct .bottom [("x", .mk (.atom Preset.flt64.atom))])) ∧
    s.Denotes c (.mk (.atom Preset.oop.atom)) ∧
    s.classify a b = .bitChanging ∧ s.classify b c = .free ∧
    (s.classify a c = .free ∨ s.classify a c = .bitChanging) := by
  have hatom (p : Preset) : (Ty.mk (.atom p.atom)).Normal := .mk trivial nofun
  have na : (Ty.mk (.struct .bottom [("x", .mk (.atom Preset.int8.atom)),
      ("y", .mk (.atom Preset.str.atom))])).Normal :=
    .mk (by decide : Ascending.Sorted ["x", "y"])
      (List.forall_mem_cons.2 ⟨hatom _, List.forall_mem_singleton.2 (hatom _)⟩)
  have nb : (Ty.mk (.struct .bottom [("x", .mk (.atom Preset.flt64.atom))])).Normal :=
    .mk (by decide : Ascending.Sorted ["x"]) (List.forall_mem_singleton.2 (hatom _))
  obtain ⟨a, s₁, hs₁, -, ha⟩ := storable_of_normal na initial .initial
  obtain ⟨b, s, hs, hle, hb⟩ := storable_of_normal nb s₁ hs₁
  replace ha := ha.mono hs₁.sound hle
  have hc := tree_preset hs.sound .oop
  have hab : s.classify a b = .bitChanging := by
    rw [classify_tree hs.sound ha.1 hb.1, ha.2, hb.2]
    decide +kernel
  have hbc : s.classify b Preset.oop.handle = .free := by
    rw [classify_tree hs.sound hb.1 hc.1, hb.2, hc.2]
    decide
  exact ⟨s, a, b, _, hs, ha, hb, hc, hab, hbc,
    (conversions_compose hs ha.1 hb.1 hc.1 (.inr hab) (.inl hbc)).1⟩

end Store

end TypeLattice
