import TypeLattice.Proofs.ByteOrder
import TypeLattice.Proofs.CanonicalStore
import TypeLattice.Proofs.ConstantWidth

namespace TypeLattice

theorem Node.tidy_struct_iff {α : Type} {i : Half} {fs : List (String × α)} :
    (Node.struct i fs).Tidy ↔ fs.Pairwise fun f g => Text.bytes f.1 < Text.bytes g.1 := by
  simp only [Tidy, Ascending.Sorted, List.pairwise_map, Text.bytes_lt_iff]

theorem Node.admitsNil_eq_false_iff {α : Type} {n : Node α} :
    n.admitsNil = false ↔ n.kind ≠ .scalar ∧ n.kind ≠ .nil ∧ n.kind.isPointer = false := by
  rw [admitsNil]
  cases n.kind <;> decide

theorem NumberRecord.record_view_iff {ω ν μ : Type} [Sized ν ω] {width : Nat → ω} {bits : ω → Nat}
    {value : μ → ν} {code : ν → μ} (hround : ∀ w, width (bits w) = w) (a : NumberRecord μ) :
    (a.view width value).record bits code = a ↔ bits (width a.bits) = a.bits ∧
      ∀ c, a.const? = some c →
        a.half = .bottom ∧ bits (Sized.width (value c)) = a.bits ∧ code (value c) = c := by
  obtain ⟨h, n, c⟩ := a
  cases c with
  | none => simp [view, Numeric.record]
  | some c =>
      simp only [view, Numeric.record, mk.injEq, Option.some.injEq, forall_eq']
      constructor
      · rintro ⟨rfl, rfl, hcode⟩
        exact ⟨by rw [hround], rfl, rfl, hcode⟩
      · rintro ⟨-, rfl, hbits, hcode⟩
        exact ⟨rfl, hbits, hcode⟩

theorem OrdSet.toList_ofList_iff {ts : List Nat} :
    (ofList ts).toList = ts ↔ ts.Pairwise (· < ·) := by
  constructor
  · intro h
    rw [← h]
    exact (ofList ts).sorted.imp Nat.compare_eq_lt.1
  · intro h
    apply Ascending.arrange_of_sorted
    rw [List.map_id]
    exact h.imp Nat.compare_eq_lt.2

namespace Record

variable {α : Type}

/-- The fields of a record are as they have to be, whatever its components are. -/
def Formed : Record α → Prop
  | int a => a.bits ∈ [1, 8, 16, 32, 64] ∧ ∀ c, a.const? = some c →
      a.half = .bottom ∧ IsLeast (IntWidth.bits '' {w | w.Holds c}) a.bits
  | flt a => a.bits ∈ [32, 64] ∧ ∀ pattern, a.const? = some pattern →
      a.half = .bottom ∧ IsLeast (FltWidth.bits '' {w | w.Holds (.ofBits pattern)}) a.bits ∧
        (Binary64.IsNan pattern → pattern = 0x7FF8000000000000)
  | str h c => c.isSome → h = .bottom
  | nil h inner => inner = none → h = .bottom
  | funPtr _ ts | rpc _ ts => ts.Pairwise (· < ·)
  | struct _ fs => fs.Pairwise fun f g => Text.bytes f.1 < Text.bytes g.1
  | universal _ | name _ _ | scalar _ | ctrl _ | func _ _ _ | oop _ | tuple _ _ => True

theorem int_formed_iff (a : NumberRecord Int64) : (int a : Record α).Formed ↔
    (a.view IntWidth.roundUp id).record IntWidth.bits id = a := by
  have hleast (c : Int64) := isLeast_image_iff (f := IntWidth.bits) (n := a.bits) (fun _ _ h => h)
    (IntWidth.isLeast_ofConst c)
  rw [NumberRecord.record_view_iff IntWidth.roundUp_bits, IntWidth.bits_roundUp_iff, Formed]
  simp only [hleast, id_eq, and_true]
  rfl

theorem flt_formed_iff (a : NumberRecord UInt64) : (flt a : Record α).Formed ↔
    (a.view FltWidth.roundUp .ofBits).record FltWidth.bits Binary64.bits = a := by
  have hleast (c : Binary64) := isLeast_image_iff (f := FltWidth.bits) (n := a.bits) (fun _ _ h => h)
    (FltWidth.isLeast_ofConst c)
  rw [NumberRecord.record_view_iff FltWidth.roundUp_bits, FltWidth.bits_roundUp_iff, Formed]
  simp only [hleast, Binary64.bits_ofBits_eq_iff]
  rfl

/-- A record is well formed exactly if it is the record of its layer. -/
theorem formed_iff (r : Record α) : r.Formed ↔ r.node.record = r ∧ r.node.Tidy := by
  cases r with
  | int a => simp [int_formed_iff, node, Node.record, Atom.record, Node.Tidy]
  | flt a => simp [flt_formed_iff, node, Node.record, Atom.record, Node.Tidy]
  | nil h inner => cases inner <;> simp [Formed, node, Node.record, Atom.record, Node.Tidy, eq_comm]
  | str h c => cases c <;> simp [Formed, node, Node.record, Atom.record, Node.Tidy, eq_comm]
  | funPtr h ts | rpc h ts =>
      simp [Formed, node, Node.record, Atom.record, Node.Tidy, OrdSet.toList_ofList_iff]
  | struct h fs => simpa [Formed, node, Node.record] using Node.tidy_struct_iff.symm
  | _ => exact iff_of_true trivial ⟨rfl, trivial⟩

end Record

namespace Store

variable {s : Store} {x y : Handle} {log : List (Record Handle)}

inductive Under (s : Store) : Handle → Handle → Prop
  | self (x : Handle) : Under s x x
  | name {x y z : Handle} {l : String} (hx : s.node x = .name l y) (h : Under s y z) : Under s x z

theorem under_unname (s : Store) (x : Handle) : s.Under x (s.unname x) := by
  have within (n : Nat) (x : Handle) : s.Under x (s.unnameWithin n x) := by
    induction n generalizing x with
    | zero => exact .self x
    | succ n ih =>
        rw [unnameWithin]
        split
        · next l y hx => exact .name hx (ih y)
        · exact .self x
  exact within _ x

theorem Under.unname_tree (h : s.Under x y) (hs : s.Descends) (hx : s.Holds x) :
    s.Holds y ∧ (s.tree y).unname = (s.tree x).unname := by
  induction h with
  | self => exact ⟨hx, rfl⟩
  | @name x y z l hnode _ ih =>
      have hy : s.Holds y := hs.holds hx (by simp [hnode, Node.children])
      obtain ⟨hz, htree⟩ := ih hy
      rw [tree_eq hs hx, hnode, Node.map, Ty.unname_name]
      exact ⟨hz, htree⟩

theorem Under.kind_eq (h : s.Under x y) (hs : s.Descends) (hx : s.Holds x)
    (hname : (s.node y).kind ≠ .name) : (s.node y).kind = (s.node (s.unname x)).kind := by
  obtain ⟨hy, htree⟩ := h.unname_tree hs hx
  obtain ⟨hu, hunname⟩ := unname_spec hs hx
  rw [Ty.unname_of_ne (by rwa [kind_tree hs hy]), ← hunname] at htree
  rw [← kind_tree hs hy, ← kind_tree hs hu, htree]

/-- The type is not universal, and neither it nor what its names stand for has nil as a value. -/
def Nilless (s : Store) (x : Handle) : Prop :=
  (s.node x).kind ≠ .universal ∧
    ∀ y, s.Under x y → (s.node y).kind ≠ .scalar ∧ (s.node y).kind ≠ .nil ∧
      (s.node y).kind.isPointer = false

theorem nilless_iff (hs : s.Descends) (hx : s.Holds x) :
    s.Nilless x ↔ (s.tree x).absorbsNil = false := by
  rw [← absorbsNil_eq hs hx, absorbsNil, Bool.or_eq_false_iff, Node.isUniversal_eq,
    decide_eq_false_iff_not, Nilless, and_congr_right_iff]
  intro _
  simp only [← Node.admitsNil_eq_false_iff]
  refine ⟨fun h => h _ (under_unname s x), fun h y hy => ?_⟩
  by_cases hname : (s.node y).kind = .name
  · rw [Node.admitsNil, hname]
    rfl
  · rw [Node.admitsNil, hy.kind_eq hs hx hname]
    exact h

structure InNormalForm (s : Store) (r : Record Handle) : Prop where
  formed : r.Formed
  nilless : ∀ i x, r = .nil i (some x) → s.Nilless x

theorem inNormalForm_iff (hs : s.Descends) {r : Record Handle}
    (hr : ∀ x ∈ r.node.children, s.Holds x) :
    s.InNormalForm r ↔ r.node.record = r ∧ Ty.NormalLayer (r.node.map s.tree) := by
  constructor
  · intro h
    obtain ⟨hrecord, htidy⟩ := (Record.formed_iff r).1 h.formed
    refine ⟨hrecord, ?_⟩
    cases r with
    | nil i inner =>
        cases inner with
        | none => trivial
        | some x =>
            exact (nilless_iff hs (hr x (List.mem_singleton_self x))).1 (h.nilless i x rfl)
    | struct i fs => exact (Node.tidy_map _ _).2 htidy
    | str i c => cases c <;> trivial
    | _ => trivial
  · rintro ⟨hrecord, hlayer⟩
    refine ⟨(Record.formed_iff r).2 ⟨hrecord, (Node.tidy_map _ _).1 hlayer.tidy⟩, ?_⟩
    rintro i x rfl
    exact (nilless_iff hs (hr x (List.mem_singleton_self x))).2 hlayer

theorem node_eq_of_denotes (hs : s.Sound) {n : Node Handle} (hn : ∀ y ∈ n.children, s.Holds y)
    (hx : s.Denotes x (.mk (n.map s.tree))) : s.node x = n := by
  obtain ⟨hx, htree⟩ := hx
  rw [tree_eq hs.descends hx, Ty.mk.injEq] at htree
  apply Node.map_injective_on htree
  intro y hy z hz
  exact tree_injective hs.toIndexed (hs.descends.holds hx hy) (hn z hz)

theorem Sound.inNormalForm (hs : s.Sound) (hx : s.Holds x) : s.InNormalForm (s.record x) := by
  have hn := (hs.normal x hx).layer
  rw [tree_eq hs.descends hx] at hn
  rw [inNormalForm_iff hs.descends fun y hy => hs.descends.holds hx hy]
  exact ⟨(hs.encoded x hx).symm, hn⟩

theorem Sound.normal_layer (hs : s.Sound) {n : Node Handle} (hn : ∀ x ∈ n.children, s.Holds x)
    (h : Ty.NormalLayer (n.map s.tree)) : (Ty.mk (n.map s.tree)).Normal := by
  refine .mk h ?_
  rw [Node.children_map, List.forall_mem_map]
  exact fun x hx => hs.normal x (hn x hx)

theorem record_nil_iff (hs : s.Sound) (hx : s.Holds x) :
    (∃ i, s.record x = .nil i none) ↔ x = Preset.nil.handle := by
  rw [← node_eq_preset_iff hs hx .nil]
  constructor
  · rintro ⟨i, hi⟩
    rw [node, hi]
    rfl
  · intro hn
    exact ⟨.bottom, by rw [hs.encoded x hx, hn]; rfl⟩

/-- Whatever was done to a store, its records are in normal form, and only one of them is a nil without
a type inside. Nothing more is true of them: any other record in normal form, over types that are
stored, is stored by a call. -/
theorem stored_records_normal (h : s.History log) :
    (∀ x, s.Holds x → s.InNormalForm (s.record x) ∧
      ((∃ i, s.record x = .nil i none) ↔ x = Preset.nil.handle)) ∧
    ∀ r, (∀ x ∈ r.node.children, s.Holds x) → s.InNormalForm r →
      ∃ c : Call, (∀ x ∈ c.operands, s.Holds x) ∧
        ∃ x, (c.run.run s).2.Holds x ∧ (c.run.run s).2.record x = r := by
  have hs := h.sound
  refine ⟨fun x hx => ⟨hs.inNormalForm hx, record_nil_iff hs hx⟩, fun r hr hform => ?_⟩
  obtain ⟨hrecord, hlayer⟩ := (inNormalForm_iff hs.descends hr).1 hform
  -- the layer of the record is stored by some call, and its record is the one given
  obtain ⟨c, hc, x, hx⟩ := exists_call_storing hs hr (hs.normal_layer hr hlayer)
  obtain ⟨hs', hle, -⟩ := call_leads hs c hc
  refine ⟨c, hc, x, hx.1, ?_⟩
  rw [← map_tree_mono hs.descends hle hr] at hx
  rw [hs'.encoded x hx.1, node_eq_of_denotes hs' (fun y hy => (hr y hy).mono hle) hx, hrecord]

theorem struct_leads (hs : s.Sound) (i : Half) {fs : List (String × Handle)}
    (hfs : ∀ f ∈ fs, s.Holds f.2) :
    s.Leads (struct i fs) (fun s' x => s'.Holds x ∧ s'.record x = .struct i (Fields.ofList fs)) := by
  have hheld : ∀ y ∈ (Node.struct i (Fields.ofList fs)).children, s.Holds y :=
    Fields.forall_mem_ofList hfs
  refine (build_denotes hs hheld (Fields.ofList_spec fs).1).mono fun s' x hs' hle hx => ?_
  rw [← map_tree_mono hs.descends hle hheld] at hx
  refine ⟨hx.1, ?_⟩
  rw [hs'.encoded x hx.1, node_eq_of_denotes hs' (fun y hy => (hheld y hy).mono hle) hx]
  rfl

/-- Fields that are given out of order, with a name twice and a name beyond the first alphabet. -/
theorem shuffled_fields_stored_in_order :
    ∃ (s : Store) (x : Handle) (log : List (Record Handle)), s.History log ∧ s.Holds x ∧
    s.record x = .struct .bottom
      [("Z", Preset.int64.handle), ("z", Preset.str.handle), ("é", Preset.int8.handle)] ∧
    s.InNormalForm (s.record x) ∧ x ≠ Preset.nil.handle ∧
    ∃ c : Call, (∀ y ∈ c.operands, s.Holds y) ∧ ∃ y, (c.run.run s).2.Holds y ∧
      (c.run.run s).2.record y = .nil .bottom (some Preset.int8.handle) := by
  have later {s : Store} {log : List (Record Handle)} (h : s.History log) :
      ∃ (s' : Store) (x : Handle) (log' : List (Record Handle)), s'.History log' ∧ s'.Holds x ∧
        s'.record x = .struct .bottom (Fields.ofList [("é", Preset.int8.handle),
          ("z", Preset.str.handle), ("z", Preset.nil.handle), ("Z", Preset.int64.handle)]) := by
    have hheld : ∀ f ∈ [("é", Preset.int8.handle), ("z", Preset.str.handle),
        ("z", Preset.nil.handle), ("Z", Preset.int64.handle)], s.Holds f.2 := by
      simp [(h.sound.preset _).1]
    obtain ⟨-, -, hx⟩ := struct_leads h.sound .bottom hheld
    obtain ⟨new, hstep⟩ := Step.of_call (.struct .bottom _) (List.forall_mem_map.2 hheld)
    exact ⟨_, _, _, h.step hstep, hx⟩
  obtain ⟨s, x, log, hlog, hx, hrecord⟩ := later (.start (requests_addPresets empty))
  have hsorted : Fields.ofList [("é", Preset.int8.handle), ("z", Preset.str.handle),
      ("z", Preset.nil.handle), ("Z", Preset.int64.handle)] =
      [("Z", Preset.int64.handle), ("z", Preset.str.handle), ("é", Preset.int8.handle)] := by
    rw [Fields.ofList, Ascending.arrange_eq_foldl_insertLinear]
    decide +kernel
  rw [hsorted] at hrecord
  obtain ⟨hforms, hcalls⟩ := stored_records_normal hlog
  obtain ⟨hform, hnil⟩ := hforms x hx
  have hint : ∀ y ∈ (Record.nil .bottom (some Preset.int8.handle)).node.children, s.Holds y :=
    List.forall_mem_singleton.2 (hlog.sound.preset .int8).1
  refine ⟨s, x, log, hlog, hx, hrecord, hform, fun hx => ?_, hcalls _ hint ?_⟩
  · obtain ⟨i, hi⟩ := hnil.2 hx
    rw [hrecord] at hi
    cases hi
  · rw [inNormalForm_iff hlog.sound.descends hint, Record.node, Node.map,
      (tree_preset hlog.sound .int8).2]
    exact ⟨rfl, rfl⟩

end Store

end TypeLattice
