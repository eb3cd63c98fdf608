import TypeLattice.Proofs.ConversionOrder
import TypeLattice.Proofs.NameErasure
import TypeLattice.Proofs.SettledTypes

namespace TypeLattice

theorem Inquiry.answer_ofNodes_self {α : Type} {c : α → α → Verdict} {n : Node α}
    (hatom : ∀ a, n ≠ .atom a) (hname : n.kind ≠ .name) (hfunc : n.kind ≠ .func) (htidy : n.Tidy)
    (hparts : ∀ y ∈ n.openParts, c y y = .free) (x : α) : (ofNodes x n n).answer c = .free := by
  have hrank (y : α) (hy : y ∈ n.openParts) : (c y y).rank ≤ 0 := by
    rw [hparts y hy]
    exact Nat.le_refl 0
  have hrule : Rule 0 (fun u v => (c u v).rank ≤ 0) x n n := by
    cases n with
    | atom a => exact absurd rfl (hatom a)
    | nullable i y => exact .nullables (hrank y (List.mem_singleton_self y))
    | name => exact absurd rfl hname
    | func => exact absurd rfl hfunc
    | struct i fs =>
        apply Rule.struct
        intro f hf
        exact ⟨f.2, Fields.find?_of_mem htidy hf,
          hrank f.2 (List.mem_map_of_mem hf)⟩
    | tuple i es => exact .tuple (List.forall₂_same.2 hrank)
  have hle := (rank_answer_le (Nat.zero_le 1)).2 (grants_of_rule (Nat.zero_le 1) hrule)
  exact Verdict.rank_le_zero_iff.1 hle

namespace Ty

variable {t u a b : Ty}

theorem opens_unname (t : Ty) : reader.Opens t t.unname := by
  induction t using unname_induction with
  | bare t hname =>
      rw [unname_of_ne hname]
      exact .refl
  | name l t ih =>
      rw [unname_name]
      exact .head (List.mem_singleton_self t) ih

theorem erase_unname (t : Ty) : t.unname.erase = t.erase := by
  induction t using unname_induction with
  | bare t hname => rw [unname_of_ne hname]
  | name l t ih => rw [unname_name, erase_name, ih]

/-- A type whose names a conversion sees through: no part that it comes to is a choice, names stand
over values only, and there is no function, which would be compared with its names. -/
structure Lucid (t : Ty) : Prop where
  normal : t.Normal
  decorated : t.Decorated
  settled : reader.Settled t
  kinds : t.Of (· ≠ .func)

namespace Lucid

theorem unname (h : t.Lucid) : t.unname.Lucid where
  normal := h.normal.unname
  decorated := h.decorated.unname
  settled := h.settled.opens (opens_unname t)
  kinds := h.kinds.unname

theorem part (h : t.Lucid) (hu : u ∈ t.node.openParts) : u.Lucid where
  normal := h.normal.parts u (Node.openParts_subset _ hu)
  decorated := h.decorated.parts u (Node.openParts_subset _ hu)
  settled := h.settled.part hu
  kinds := h.kinds.parts u (Node.openParts_subset _ hu)

theorem half (h : t.Lucid) : t.half = .bottom := h.settled.half

theorem erase_eq (h : t.Lucid) : t.erase = Ty.mk (t.unname.node.map erase) := by
  rw [← erase_unname]
  exact erase_eq_mk h.unname.normal h.unname.decorated (kind_unname_ne_name t)

theorem unname_erase (h : t.Lucid) : t.erase.unname = t.erase := by
  apply unname_of_ne
  rw [kind_erase h.normal h.decorated]
  exact kind_unname_ne_name t

theorem half_erase (h : t.Lucid) : t.erase.half = .bottom := by
  rw [Ty.half, h.unname_erase, h.erase_eq, node, Node.half_map]
  exact h.half

theorem classify_erase_self (h : t.Lucid) : classify t.erase t.erase = .free := by
  rw [classify_eq, h.half_erase, if_neg (by decide), if_pos rfl]

end Lucid

/-- Types that differ in inner names only are told apart and compared part by part. The rules then
answer what equal types would have been given at once. -/
theorem classify_erase (ha : a.Lucid) (hb : b.Lucid) :
    classify a.erase b.erase = classify a b := by
  induction a, b using pair_induction with
  | h a b ih =>
      have hau := height_unname_le a
      have hbu := height_unname_le b
      have hanswer : (Inquiry.ofNodes a.erase a.erase.node b.erase.node).answer classify =
          (Inquiry.ofNodes a.unname a.unname.node b.unname.node).answer classify := by
        have hmap : Inquiry.ofNodes a.erase a.erase.node b.erase.node =
            (Inquiry.ofNodes a.unname a.unname.node b.unname.node).map erase := by
          rw [Inquiry.map_ofNodes, erase_unname, ha.erase_eq, hb.erase_eq]
          rfl
        rw [hmap, Inquiry.answer_map]
        apply Inquiry.answer_congr
        apply Inquiry.asks_ofNodes
        · intro v hv
          have hlt := height_lt_of_mem_node (Node.openParts_subset _ hv)
          exact ih a.unname v (by omega) ha.unname (hb.unname.part hv)
        · intro u hu v hv
          have hlt := height_lt_of_mem_node (Node.openParts_subset _ hu)
          have hlt' := height_lt_of_mem_node (Node.openParts_subset _ hv)
          exact ih u v (by omega) (ha.unname.part hu) (hb.unname.part hv)
      rw [classify_eq, classify_eq a b, ha.half_erase, hb.half_erase, ha.half, hb.half,
        ha.unname_erase, hb.unname_erase, hanswer]
      simp only [Half.isTop, Bool.or_self, Bool.false_eq_true, if_false]
      by_cases hab : a.unname = b.unname
      · rw [if_pos hab, if_pos]
        rw [← erase_unname a, hab, erase_unname]
      · rw [if_neg hab]
        split
        · next he =>
            symm
            rw [← hanswer, ← he]
            apply Inquiry.answer_ofNodes_self
            · intro c hc
              -- an atom has no names inside, and so the two would have been equal
              have hc' : b.erase.node = .atom c := he ▸ hc
              rw [ha.erase_eq, node] at hc
              rw [hb.erase_eq, node] at hc'
              exact hab (eq_of_node ((Node.eq_atom_of_map hc).trans (Node.eq_atom_of_map hc').symm))
            · exact (of_erase a).layer
            · rw [ha.erase_eq, node, Node.kind_map]
              exact ha.unname.kinds.layer
            · exact (normal_erase ha.normal).layer.tidy
            · rw [ha.erase_eq, node, Node.openParts_map]
              exact List.forall_mem_map.2 fun u hu => (ha.unname.part hu).classify_erase_self
        · rfl

theorem lucid_mk {n : Node Ty} (hn : NormalLayer n) (hd : NamesValue n)
    (hhalf : (mk n).half = .bottom) (hfunc : n.kind ≠ .func) (hparts : ∀ t ∈ n.children, t.Lucid) :
    (mk n).Lucid where
  normal := .mk hn fun t ht => (hparts t ht).normal
  decorated := .mk hd fun t ht => (hparts t ht).decorated
  settled := settled_mk hhalf fun t ht => (hparts t (Node.openParts_subset n ht)).settled
  kinds := .mk hfunc fun t ht => (hparts t ht).kinds

theorem lucid_ofAtom {c : Atom} (hc : c.half = .bottom) : (ofAtom c).Lucid :=
  lucid_mk trivial trivial hc (by cases c <;> nofun) nofun

theorem lucid_name (l : String) (h : t.Lucid) (hu : t.unname.node.kind ≠ .universal) :
    (mk (.name l t)).Lucid :=
  lucid_mk trivial hu ((half_name l t).trans h.half) nofun (List.forall_mem_singleton.2 h)

def reading (decorate : Ty → Ty) : Ty :=
  mk (.struct .bottom [("at", mk (.nullable .bottom (decorate (ofAtom Preset.int8.atom)))),
    ("by", mk (.tuple .bottom [decorate (ofAtom Preset.str.atom)]))])

theorem lucid_reading {decorate : Ty → Ty} (hint : (decorate (ofAtom Preset.int8.atom)).Lucid)
    (hlacks : (decorate (ofAtom Preset.int8.atom)).absorbsNil = false)
    (hstr : (decorate (ofAtom Preset.str.atom)).Lucid) : (reading decorate).Lucid := by
  have hlabels : Ascending.Sorted ["at", "by"] := by decide
  have hoption : (mk (.nullable .bottom (decorate (ofAtom Preset.int8.atom)))).Lucid :=
    lucid_mk hlacks trivial rfl nofun (List.forall_mem_singleton.2 hint)
  have htuple : (mk (.tuple .bottom [decorate (ofAtom Preset.str.atom)])).Lucid :=
    lucid_mk trivial trivial rfl nofun (List.forall_mem_singleton.2 hstr)
  exact lucid_mk hlabels trivial rfl nofun (List.forall_mem_cons.2
    ⟨hoption, List.forall_mem_singleton.2 htuple⟩)

end Ty

namespace Store

variable {s : Store} {a b : Handle} {log : List (Record Handle)}

theorem lucid_tree (hs : s.Sound) (ha : s.HoldsOf (· ≠ .func) a) (sa : s.reader.Settled a)
    (da : (s.tree a).Decorated) : (s.tree a).Lucid where
  normal := hs.normal a ha.holds
  decorated := da
  settled := (settled_tree hs.descends ha.holds).1 sa
  kinds := ha.kinds

/-- Names do not matter to a conversion, however deep they stand: between settled types without
functions, in which no name stands over a universal type, the verdict is that of the types without
their names. -/
theorem names_transparent_to_conversions (h : s.History log) (ha : s.HoldsOf (· ≠ .func) a)
    (hb : s.HoldsOf (· ≠ .func) b) (sa : s.reader.Settled a) (sb : s.reader.Settled b)
    (da : (s.tree a).Decorated) (db : (s.tree b).Decorated) :
    ∃ a' b' s₁ s₂, (erase a).run s = (a', s₁) ∧ (erase b).run s₁ = (b', s₂) ∧
      s₂.HoldsOf (· ≠ .name) a' ∧ s₂.HoldsOf (· ≠ .name) b' ∧
      s₂.Denotes a' (s.tree a).erase ∧ s₂.Denotes b' (s.tree b).erase ∧
      s₂.classify a b = s.classify a b ∧ s₂.classify a' b' = s.classify a b := by
  have hs := h.sound
  obtain ⟨hs₁, hle₁, ha'⟩ := erase_leads hs ha.holds
  obtain ⟨hb₁, htb⟩ := Denotes.of_holds hs hle₁ hb.holds
  obtain ⟨hs₂, hle₂, hb'⟩ := erase_leads hs₁ hb₁
  rw [htb] at hb'
  replace ha' := ha'.mono hs₁ hle₂
  refine ⟨_, _, _, _, Prod.mk.eta.symm, Prod.mk.eta.symm, .of_denotes ha' (Ty.of_erase _),
    .of_denotes hb' (Ty.of_erase _), ha', hb', ?_, ?_⟩
  · have hle := le_trans hle₁ hle₂
    obtain ⟨ha₂, hta⟩ := Denotes.of_holds hs hle ha.holds
    obtain ⟨hb₂, htb⟩ := Denotes.of_holds hs hle hb.holds
    rw [classify_tree hs₂ ha₂ hb₂, hta, htb, classify_tree hs ha.holds hb.holds]
  · rw [classify_tree hs₂ ha'.1 hb'.1, ha'.2, hb'.2, classify_tree hs ha.holds hb.holds]
    exact Ty.classify_erase (lucid_tree hs ha sa da) (lucid_tree hs hb sb db)

theorem HoldsOf.of_lucid {t : Ty} (hs : s.Sound) (ha : s.Denotes a t) (ht : t.Lucid) :
    s.HoldsOf (· ≠ .func) a ∧ s.reader.Settled a ∧ (s.tree a).Decorated := by
  obtain ⟨ha, rfl⟩ := ha
  exact ⟨⟨ha, ht.kinds⟩, (settled_tree hs.descends ha).2 ht.settled, ht.decorated⟩

/-- Two records that are told apart by the names of their parts convert for free, as the one type
without names converts to itself. -/
theorem named_readings_convert : ∃ (s : Store) (a b : Handle) (log : List (Record Handle)),
    s.History log ∧
    s.Denotes a (.mk (.name "R" (.reading fun t => .mk (.name "X" t)))) ∧
    s.Denotes b (.reading fun t => .mk (.name "Y" (.mk (.name "Z" t)))) ∧
    s.HoldsOf (· ≠ .func) a ∧ s.HoldsOf (· ≠ .func) b ∧ s.reader.Settled a ∧ s.reader.Settled b ∧
    (s.tree a).Decorated ∧ (s.tree b).Decorated ∧
    s.unname a ≠ s.unname b ∧ s.classify a b = .free ∧
    ∃ a' b' s₁ s₂, (erase a).run s = (a', s₁) ∧ (erase b).run s₁ = (b', s₂) ∧
      s₂.Denotes a' (.reading id) ∧ s₂.Denotes b' (.reading id) ∧
      s₂.classify a' b' = s.classify a b := by
  have hint := Ty.lucid_ofAtom (c := Preset.int8.atom) rfl
  have hstr := Ty.lucid_ofAtom (c := Preset.str.atom) rfl
  have la : (Ty.mk (.name "R" (.reading fun t => .mk (.name "X" t)))).Lucid :=
    Ty.lucid_name "R" (Ty.lucid_reading (Ty.lucid_name "X" hint nofun) rfl
      (Ty.lucid_name "X" hstr nofun)) nofun
  have lb : (Ty.reading fun t => .mk (.name "Y" (.mk (.name "Z" t)))).Lucid :=
    Ty.lucid_reading (Ty.lucid_name "Y" (Ty.lucid_name "Z" hint nofun) nofun) rfl
      (Ty.lucid_name "Y" (Ty.lucid_name "Z" hstr nofun) nofun)
  obtain ⟨s, a, b, hs, ha, hb⟩ := exists_two_stored la.normal lb.normal
  obtain ⟨log, hlog⟩ := hs.exists_history
  obtain ⟨ka, sa, da⟩ := HoldsOf.of_lucid hs.sound ha la
  obtain ⟨kb, sb, db⟩ := HoldsOf.of_lucid hs.sound hb lb
  obtain ⟨a', b', s₁, s₂, ha', hb', -, -, hta, htb, -, hsame⟩ :=
    names_transparent_to_conversions hlog ka kb sa sb da db
  have hea : (s.tree a).erase = .reading id := by
    rw [ha.2]
    decide +kernel
  have heb : (s.tree b).erase = .reading id := by
    rw [hb.2]
    decide +kernel
  have hapart : s.unname a ≠ s.unname b := by
    intro h
    have hunname : (s.tree a).unname = (s.tree b).unname := by
      rw [← (unname_spec hs.sound.descends ha.1).2, h, (unname_spec hs.sound.descends hb.1).2]
    rw [ha.2, hb.2] at hunname
    revert hunname
    decide +kernel
  have hfree : s.classify a b = .free := by
    rw [classify_tree hs.sound ha.1 hb.1, ha.2, hb.2]
    decide +kernel
  exact ⟨s, a, b, log, hlog, ha, hb, ka, kb, sa, sb, da, db, hapart, hfree, a', b', s₁, s₂, ha',
    hb', hea ▸ hta, heb ▸ htb, hsame⟩

end Store

end TypeLattice
