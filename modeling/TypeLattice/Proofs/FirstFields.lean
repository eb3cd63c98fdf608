import TypeLattice.Proofs.NormalForm
import TypeLattice.Proofs.Repetition

namespace TypeLattice

namespace Fields

open Ascending

variable {α : Type} {fs gs : List (String × α)}

/-- What a list of fields has under a name: what the first field of this name has. -/
def first (fs : List (String × α)) (n : String) : Option α :=
  (fs.find? fun f => f.1 = n).map Prod.snd

theorem get_eq_first (fs : List (String × α)) (n : String) :
    get Prod.fst fs n = (first fs n).map (Prod.mk n) := by
  change get Prod.fst fs n = ((get Prod.fst fs n).map Prod.snd).map (Prod.mk n)
  cases h : get Prod.fst fs n with
  | none => rfl
  | some f =>
      rw [← key_of_get h]
      rfl

theorem find?_ofList (fs : List (String × α)) (n : String) : find? (ofList fs) n = first fs n := by
  rw [find?, find?_eq_get (ofList_spec fs).1, ofList, get_arrange]
  rfl

theorem ofList_eq_iff : ofList fs = ofList gs ↔ ∀ n, first fs n = first gs n := by
  constructor
  · intro h n
    rw [← find?_ofList, h, find?_ofList]
  · intro h
    refine ext_get (ofList_spec fs).1 (ofList_spec gs).1 fun n => ?_
    rw [ofList, ofList, get_arrange, get_arrange, get_eq_first, get_eq_first, h]

end Fields

namespace Store

variable {s : Store} {log : List (Record Handle)}

/-- A struct has the fields of its list in ascending order of their names, of fields with one name
the first, and two lists make one struct exactly if they agree in this. -/
theorem struct_keeps_first_of_each_name (h : s.History log) (i : Half)
    {fields : List (String × Handle)} (hfields : ∀ f ∈ fields, s.Holds f.2) :
    ∃ x s' fs, (struct i fields).run s = (x, s') ∧
      (fs.Pairwise fun f g => Text.bytes f.1 < Text.bytes g.1) ∧
      (∀ n, (Node.struct i fs).field? n = Fields.first fields n) ∧
      ∀ s₁, Relation.ReflTransGen (fun t t' => ∃ new, t.Step t' new) s' s₁ →
        s₁.Holds x ∧ s₁.node x = .struct i fs ∧
        ∀ j fields', (∀ f ∈ fields', s₁.Holds f.2) → (((struct j fields').run s₁).1 = x ↔
          i = j ∧ ∀ n, Fields.first fields n = Fields.first fields' n) := by
  obtain ⟨-, hle, hx, hrecord⟩ := struct_leads h.sound i hfields
  refine ⟨_, _, Fields.ofList fields, Prod.mk.eta.symm, ?_, Fields.find?_ofList fields, ?_⟩
  · exact (Node.tidy_struct_iff (i := i)).1 (Fields.ofList_spec fields).1
  · intro s₁ hsteps
    obtain ⟨new, hstep⟩ := Step.of_call (.struct i fields) (List.forall_mem_map.2 hfields)
    have hlater := (later_of_steps (h.step hstep).coherent hsteps).2
    obtain ⟨hx₁, hkept⟩ := hlater.le _ hx
    refine ⟨hx₁, congrArg Record.node (hkept.trans hrecord), fun j fields' hfields' => ?_⟩
    obtain ⟨hs₂, hle₂, hy, hrecord'⟩ := struct_leads hlater.sound j hfields'
    obtain ⟨hx₂, hkept₂⟩ := hle₂ _ hx₁
    replace hrecord := (hkept₂.trans hkept).trans hrecord
    rw [← Fields.ofList_eq_iff]
    constructor
    · intro heq
      rw [heq, hrecord] at hrecord'
      exact Record.struct.inj hrecord'
    · rintro ⟨rfl, heq⟩
      exact eq_of_node_eq hs₂ hy hx₂ (by rw [node, node, hrecord, hrecord', heq])

/-- Fields with repeated names are given twice, in another order and with other repeats. -/
theorem shuffled_fields_make_one_struct :
    let fields := [("é", Preset.int8.handle), ("z", Preset.str.handle), ("z", Preset.nil.handle),
      ("Z", Preset.int64.handle), ("é", Preset.str.handle)]
    let fields' := [("z", Preset.str.handle), ("Z", Preset.int64.handle), ("Z", Preset.nil.handle),
      ("é", Preset.int8.handle)]
    ∃ x s', (struct .bottom fields).run initial = (x, s') ∧
      (s'.node x).field? "z" = some Preset.str.handle ∧ (s'.node x).field? "y" = none ∧
      ((struct .bottom fields').run s').1 = x ∧ ((struct .top fields').run s').1 ≠ x := by
  intro fields fields'
  have hstart : initial.History _ := .start (requests_addPresets empty)
  have hpreset (p : Preset) : initial.Holds p.handle := (hstart.sound.preset p).1
  have hfields : ∀ f ∈ fields, initial.Holds f.2 := by simp [fields, hpreset]
  have hle := (struct_leads hstart.sound .bottom hfields).2.1
  obtain ⟨x, s', fs, hrun, -, hfirst, hlater⟩ :=
    struct_keeps_first_of_each_name hstart .bottom hfields
  rw [hrun] at hle
  obtain ⟨-, hnode, hsame⟩ := hlater s' .refl
  have hfields' : ∀ f ∈ fields', s'.Holds f.2 := by simp [fields', (hpreset _).mono hle]
  refine ⟨x, s', hrun, ?_, ?_, ?_, ?_⟩
  · rw [hnode, hfirst]
    rfl
  · rw [hnode, hfirst]
    rfl
  · have hlist : Fields.ofList fields = Fields.ofList fields' := by
      rw [Fields.ofList, Fields.ofList, Ascending.arrange_eq_foldl_insertLinear,
        Ascending.arrange_eq_foldl_insertLinear]
      decide +kernel
    exact (hsame .bottom fields' hfields').2 ⟨rfl, Fields.ofList_eq_iff.1 hlist⟩
  · intro heq
    cases ((hsame .top fields' hfields').1 heq).1

end Store

end TypeLattice
