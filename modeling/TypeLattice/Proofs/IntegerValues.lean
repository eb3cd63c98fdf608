import Mathlib.Data.Int.ConditionallyCompleteOrder
import Mathlib.Data.Set.Subsingleton
import Mathlib.Order.Interval.Set.Defs
import TypeLattice.Proofs.ConstantWidth
import TypeLattice.Proofs.ControlClash
import TypeLattice.Proofs.ConversionOrder

namespace TypeLattice

namespace IntWidth

variable {v w : IntWidth} {c : Int64} {x : ℤ}

def values : IntWidth → Set ℤ
  | .w1 => {0, 1}
  | w => Set.Ico (-2 ^ (w.bits - 1)) (2 ^ (w.bits - 1))

theorem toInt_mem_values : c.toInt ∈ w.values ↔ ofConst c ≤ w := by
  rw [← holds_iff]
  cases w with
  | w1 =>
      simp only [values, Holds, Set.mem_insert_iff, Set.mem_singleton_iff]
      omega
  | _ => rfl

theorem exists_of_mem_values (h : x ∈ w.values) : ∃ c : Int64, c.toInt = x := by
  have hrange : -2 ^ 63 ≤ x ∧ x < 2 ^ 63 := by
    cases w with
    | w1 =>
        simp only [values, Set.mem_insert_iff, Set.mem_singleton_iff] at h
        omega
    | _ =>
        simp only [values, bits, Set.mem_Ico] at h
        omega
  exact ⟨Int64.ofInt x, Int64.toInt_ofInt_of_le hrange.1 hrange.2⟩

theorem exists_ofConst_eq (w : IntWidth) : ∃ c, ofConst c = w := by
  cases w with
  | w1 => exact ⟨0, by decide⟩
  | w8 => exact ⟨-1, by decide⟩
  | w16 => exact ⟨128, by decide⟩
  | w32 => exact ⟨32768, by decide⟩
  | w64 => exact ⟨2147483648, by decide⟩

theorem values_subset_iff : v.values ⊆ w.values ↔ v ≤ w := by
  constructor
  · intro h
    obtain ⟨c, rfl⟩ := exists_ofConst_eq v
    exact toInt_mem_values.1 (h (toInt_mem_values.2 le_rfl))
  · intro h x hx
    obtain ⟨c, rfl⟩ := exists_of_mem_values hx
    exact toInt_mem_values.2 ((toInt_mem_values.1 hx).trans h)

theorem values_nontrivial (w : IntWidth) : w.values.Nontrivial := by
  have hbit {c : Int64} (hc : ofConst c = .w1) : c.toInt ∈ w.values := by
    rw [toInt_mem_values, hc]
    cases w <;> decide
  exact ⟨_, hbit (c := 0) (by decide), _, hbit (c := 1) (by decide), by decide⟩

end IntWidth

namespace Numeric

section inf

variable {ω ν : Type} [LinearOrder ω] [Sized ν ω] [DecidableEq ν] {a b : Numeric ω ν}

theorem inf_comm (a b : Numeric ω ν) : a.inf b = b.inf a := by
  by_cases hab : a = b
  · rw [hab]
  · rw [inf, inf, meet_swap hab]
    cases a.meet b <;> rfl

theorem inf_eq_right_iff (ha : a.half = .bottom) (hb : b.half = .bottom) :
    a.inf b = b ↔ a = b ∨ ∃ w, b = range .bottom w ∧ a.width ≤ w := by
  refine ⟨width_le_of_inf ha hb, ?_⟩
  rintro (rfl | ⟨w, rfl, hw⟩)
  · exact inf_self a
  · cases a with
    | const c =>
        rw [inf_eq]
        exact congrArg (range .bottom) (max_eq_right hw)
    | range i v =>
        obtain rfl : i = .bottom := ha
        rw [inf_eq]
        exact congrArg (range .bottom) (max_eq_right hw)

end inf

variable {m n l : Numeric IntWidth Int64}

def values : Numeric IntWidth Int64 → Set ℤ
  | const c => {c.toInt}
  | range _ w => w.values

theorem values_subset_iff (hm : m.half = .bottom) (hn : n.half = .bottom) :
    m.values ⊆ n.values ↔ m = n ∨ ∃ w, n = range .bottom w ∧ m.width ≤ w := by
  cases n with
  | const d =>
      cases m with
      | const c => simp [values, Int64.toInt_inj]
      | range i v =>
          simp only [reduceCtorEq, false_and, exists_false, or_self, iff_false]
          exact (IntWidth.values_nontrivial v).not_subset_singleton
  | range j w =>
      obtain rfl : j = .bottom := hn
      simp only [range.injEq, true_and, exists_eq_left']
      cases m with
      | const c =>
          rw [or_iff_right nofun]
          exact Set.singleton_subset_iff.trans IntWidth.toInt_mem_values
      | range i v =>
          obtain rfl : i = .bottom := hm
          refine IntWidth.values_subset_iff.trans (or_iff_right_of_imp ?_).symm
          rintro ⟨⟩
          exact le_rfl

/-- The order between settled integer types is that of their integers. -/
theorem inf_eq_right_iff_subset (hm : m.half = .bottom) (hn : n.half = .bottom) :
    m.inf n = n ↔ m.values ⊆ n.values :=
  (inf_eq_right_iff hm hn).trans (values_subset_iff hm hn).symm

section least

variable (hm : m.half = .bottom) (hn : n.half = .bottom)

include hm hn

theorem half_inf_bottom : (m.inf n).half = .bottom := by
  rw [half_inf, hm, hn]
  rfl

theorem values_subset_inf : m.values ⊆ (m.inf n).values := by
  rw [← inf_eq_right_iff_subset hm (half_inf_bottom hm hn), ← inf_assoc, inf_self]

theorem values_inf_subset (hl : l.half = .bottom) (hml : m.values ⊆ l.values)
    (hnl : n.values ⊆ l.values) : (m.inf n).values ⊆ l.values := by
  rw [← inf_eq_right_iff_subset hm hl] at hml
  rw [← inf_eq_right_iff_subset hn hl] at hnl
  rw [← inf_eq_right_iff_subset (half_inf_bottom hm hn) hl, inf_assoc, hnl, hml]

end least

end Numeric

namespace Ty

theorem classify_atoms {a b : Atom} (ha : a.half = .bottom) (hb : b.half = .bottom) :
    classify (ofAtom a) (ofAtom b) =
      if a = b then .free
      else (Inquiry.ofNodes (ofAtom a) (.atom a) (.atom b)).answer classify := by
  have hbare (c : Atom) : (ofAtom c).unname = ofAtom c := unname_of_ne (by cases c <;> nofun)
  have hhalf {c : Atom} (hc : c.half = .bottom) : (ofAtom c).half.isTop = false := by
    rw [half, hbare]
    exact congrArg Half.isTop hc
  rw [classify_eq, hhalf ha, hhalf hb, hbare, hbare]
  simp [node]

variable {m n : Numeric IntWidth Int64}

theorem classify_ints (hm : m.half = .bottom) (hn : n.half = .bottom) :
    (m.values ⊆ n.values ∧ classify (ofAtom (.int m)) (ofAtom (.int n)) = .free) ∨
      (¬m.values ⊆ n.values ∧ classify (ofAtom (.int m)) (ofAtom (.int n)) = .incompatible) := by
  rw [Numeric.values_subset_iff hm hn, classify_atoms (a := .int m) (b := .int n) hm hn]
  by_cases hmn : m = n
  · exact .inl ⟨.inl hmn, if_pos (congrArg Atom.int hmn)⟩
  · rw [if_neg fun h => hmn (Atom.int.inj h), or_iff_right hmn]
    cases n with
    | const d => exact .inr ⟨nofun, rfl⟩
    | range j w =>
        obtain rfl : j = .bottom := hn
        simp only [Numeric.range.injEq, true_and, exists_eq_left']
        by_cases hw : m.width ≤ w
        · exact .inl ⟨hw, if_pos (decide_eq_true hw)⟩
        · exact .inr ⟨hw, if_neg (mt of_decide_eq_true hw)⟩

end Ty

namespace Store

variable {s : Store} {a b : Handle} {m n : Numeric IntWidth Int64} {log : List (Record Handle)}

theorem denotes_of_node {x : Atom} (hs : s.Descends) (ha : s.Holds a) (hx : s.node a = .atom x) :
    s.Denotes a (.ofAtom x) := by
  refine ⟨ha, ?_⟩
  rw [tree_eq hs ha, hx]
  rfl

structure HoldsInt (s : Store) (a : Handle) (m : Numeric IntWidth Int64) : Prop where
  holds : s.Holds a
  node : s.node a = .atom (.int m)
  settled : m.half = .bottom

theorem HoldsInt.denotes (hs : s.Sound) (ha : s.HoldsInt a m) : s.Denotes a (.ofAtom (.int m)) :=
  denotes_of_node hs.descends ha.holds ha.node

theorem HoldsInt.of_denotes (hs : s.Sound) (ha : s.Denotes a (.ofAtom (.int m)))
    (hm : m.half = .bottom) : s.HoldsInt a m :=
  ⟨ha.1, node_eq_of_denotes hs nofun ha, hm⟩

theorem HoldsInt.value (hs : s.Sound) (ha : s.HoldsInt a m) : s.HoldsOf (· ≠ .ctrl) a :=
  .of_denotes (ha.denotes hs) (.mk nofun nofun)

/-- Settled integer types are what integers they have: the order and the classifier compare these,
and the meet is the least type that has those of both. -/
theorem integer_types_are_their_values (h : s.History log) (ha : s.HoldsInt a m)
    (hb : s.HoldsInt b n) :
    (s.Isa a b ↔ m.values ⊆ n.values) ∧ (s.classify a b = .free ↔ m.values ⊆ n.values) ∧
    (¬m.values ⊆ n.values → s.classify a b = .incompatible) ∧
    ∃ c s' k, (meet a b).run.run s = (.ok c, s') ∧ s'.HoldsInt c k ∧
      m.values ⊆ k.values ∧ n.values ⊆ k.values ∧
      ∀ l : Numeric IntWidth Int64, l.half = .bottom → m.values ⊆ l.values → n.values ⊆ l.values →
        k.values ⊆ l.values := by
  have hs := h.sound
  have hta := ha.denotes hs
  have htb := hb.denotes hs
  have hm := ha.settled
  have hn := hb.settled
  have hclassify := Ty.classify_ints hm hn
  rw [← hta.2, ← htb.2, ← classify_tree hs ha.holds hb.holds] at hclassify
  have hmeet := Ty.meet_eq_ok (ha.value hs).kinds (hb.value hs).kinds
  obtain ⟨c, s', hrun, hs', -, hc⟩ := run_eq_ok_of_leads (meet_leads hs ha.holds hb.holds) hmeet
  rw [hta.2, htb.2, Ty.inf_int] at hc
  refine ⟨?_, ?_, ?_, c, s', m.inf n, hrun, .of_denotes hs' hc (Numeric.half_inf_bottom hm hn),
    Numeric.values_subset_inf hm hn, ?_, fun l hl => Numeric.values_inf_subset hm hn hl⟩
  · rw [isa_iff (fun _ h => h) hs (ha.value hs) (hb.value hs), hta.2, htb.2, Ty.inf_int,
      ← Numeric.inf_eq_right_iff_subset hm hn]
    simp
  · rcases hclassify with ⟨hsub, hfree⟩ | ⟨hsub, hno⟩
    · exact iff_of_true hfree hsub
    · rw [hno]
      exact iff_of_false nofun hsub
  · intro hsub
    exact (hclassify.resolve_left fun hfree => hsub hfree.1).2
  · rw [Numeric.inf_comm]
    exact Numeric.values_subset_inf hn hm

/-- The constant 128 is no byte: it meets the bytes in sixteen bits. -/
theorem int8_lacks_128 : ∃ (s : Store) (a : Handle) (log : List (Record Handle)), s.History log ∧
    s.HoldsInt a (.const 128) ∧ s.HoldsInt Preset.int8.handle (.range .bottom .w8) ∧
    ¬s.Isa a Preset.int8.handle ∧ s.classify a Preset.int8.handle = .incompatible ∧
    ∃ c s' k, (meet a Preset.int8.handle).run.run s = (.ok c, s') ∧ s'.HoldsInt c k ∧
      128 ∈ k.values ∧ k.values ⊆ IntWidth.w16.values := by
  obtain ⟨a, s, hs, -, ha⟩ :=
    storable_of_normal (Ty.normal_ofAtom (.int (.const 128))) initial .initial
  obtain ⟨log, hlog⟩ := hs.exists_history
  have hconst := HoldsInt.of_denotes hs.sound ha rfl
  have hbyte := HoldsInt.of_denotes hs.sound (tree_preset hs.sound .int8) rfl
  obtain ⟨hisa, -, hno, c, s', k, hrun, hk, hconst', -, hleast⟩ :=
    integer_types_are_their_values hlog hconst hbyte
  have hlacks : ¬(Numeric.const 128).values ⊆ (Numeric.range .bottom .w8).values := by
    intro hsub
    have hmem : Int64.toInt 128 ∈ IntWidth.w8.values := hsub rfl
    exact absurd (IntWidth.toInt_mem_values.1 hmem) (by decide)
  have hwide {l : Numeric IntWidth Int64} (hl : l.half = .bottom) (hw : l.width ≤ .w16) :
      l.values ⊆ (Numeric.range .bottom .w16).values :=
    (Numeric.values_subset_iff hl rfl).2 (.inr ⟨_, rfl, hw⟩)
  refine ⟨s, a, log, hlog, hconst, hbyte, mt hisa.1 hlacks, hno hlacks, c, s', k, hrun, hk,
    hconst' rfl, hleast _ rfl (hwide rfl (by decide)) (hwide rfl (by decide))⟩

end Store

end TypeLattice
