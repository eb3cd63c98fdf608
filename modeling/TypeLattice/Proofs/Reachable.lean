import TypeLattice.Proofs.Commutativity
import TypeLattice.Proofs.Refinement
import TypeLattice.Store.Laws

namespace TypeLattice

namespace Fields

theorem ofList_spec {α : Type} (fs : List (String × α)) :
    Ascending.Sorted ((ofList fs).map Prod.fst) ∧ ∀ f ∈ ofList fs, f ∈ fs :=
  ⟨Ascending.arrange_sorted Prod.fst fs, fun _ => Ascending.mem_of_mem_arrange⟩

theorem forall_mem_ofList {α : Type} {P : α → Prop} {fs : List (String × α)} (h : ∀ f ∈ fs, P f.2) :
    ∀ x ∈ (ofList fs).map (·.2), P x := by
  intro x hx
  obtain ⟨f, hf, rfl⟩ := List.mem_map.1 hx
  exact h f ((ofList_spec fs).2 f hf)

end Fields

namespace Store

/-- The calls that may change a store. -/
inductive Call where
  | preset (p : Preset)
  | int (half : Half) (bits : Nat)
  | intConst (value : Int64)
  | flt (half : Half) (bits : Nat)
  | fltConst (pattern : UInt64)
  | strConst (value : String)
  | funPtr (half : Half) (targets : List Nat)
  | funPtrConst (target : Nat)
  | rpc (half : Half) (targets : List Nat)
  | rpcConst (target : Nat)
  | func (half : Half) (params : List Handle) (result : Handle)
  | tuple (half : Half) (elems : List Handle)
  | struct (half : Half) (fields : List (String × Handle))
  | nullable (half : Half) (inner : Handle)
  | name (label : String) (inner : Handle)
  | dual (a : Handle)
  | meet (a b : Handle)
  | join (a b : Handle)
  | isa (a b : Handle)
  /-- A record that is stored already. -/
  | intern (a : Handle)
  | internPreset (p : Preset)
  | breaches (samples : List Handle)

namespace Call

def operands : Call → List Handle
  | preset _ | int _ _ | intConst _ | flt _ _ | fltConst _ | strConst _ | funPtr _ _ | funPtrConst _
  | rpc _ _ | rpcConst _ | internPreset _ => []
  | func _ ps r => ps ++ [r]
  | tuple _ es => es
  | struct _ fs => fs.map (·.2)
  | nullable _ a | name _ a | dual a | intern a => [a]
  | meet a b | join a b | isa a b => [a, b]
  | breaches as => as

def run : Call → StoreM Unit
  | preset p => discard (Store.preset p)
  | int h bits => discard (Store.int h bits)
  | intConst c => discard (Store.intConst c)
  | flt h bits => discard (Store.flt h bits)
  | fltConst pattern => discard (Store.fltConst pattern)
  | strConst v => discard (Store.strConst v)
  | funPtr h ts => discard (Store.funPtr h ts)
  | funPtrConst i => discard (Store.funPtrConst i)
  | rpc h ts => discard (Store.rpc h ts)
  | rpcConst i => discard (Store.rpcConst i)
  | func h ps r => discard (Store.func h ps r)
  | tuple h es => discard (Store.tuple h es)
  | struct h fs => discard (Store.struct h fs)
  | nullable h a => discard (Store.nullable h a)
  | name l a => discard (Store.name l a)
  | dual a => discard (Store.dual a)
  | meet a b => discard (Store.meet a b).run
  | join a b => discard (Store.join a b).run
  | isa a b => discard (Store.isa a b)
  | intern a => do discard (Store.intern ((← get).record a))
  | internPreset p => discard (Store.intern p.record)
  | breaches as => discard (Store.breaches as)

end Call

/-- What the calls make of the initial store, on handles that were given out before. -/
inductive Reachable : Store → Prop
  | initial : Reachable initial
  | call {s : Store} (c : Call) (hs : Reachable s) (hc : ∀ x ∈ c.operands, s.Holds x) :
      Reachable (c.run.run s).2

theorem indexed_empty : empty.Indexed where
  lookup_iff r h := by
    simp [lookup?, empty, Holds, size]
  encoded h hh := absurd hh (Nat.not_lt_zero _)
  descends h hh := absurd hh (Nat.not_lt_zero _)
  normal h hh := absurd hh (Nat.not_lt_zero _)

theorem forM_intern_presets {s : Store} (hs : s.Indexed) (ps : List Preset)
    (hnew : ∀ p ∈ ps, s.lookup? p.record = none) (hnd : (ps.map Preset.atom).Nodup) :
    ∃ s', ((ps.forM fun p => discard (intern p.record)).run s).2 = s' ∧ s'.Indexed ∧
      s'.duals = s.duals ∧ s'.records.toList = s.records.toList ++ ps.map Preset.record := by
  induction ps generalizing s with
  | nil => exact ⟨s, rfl, hs, rfl, by simp⟩
  | cons p ps ih =>
      rw [List.forall_mem_cons] at hnew
      rw [List.map_cons, List.nodup_cons] at hnd
      have hrun : ((discard (intern p.record)).run s).2 = s.added p.record :=
        congrArg Prod.snd (intern_of_none hnew.1)
      have hadded : (s.added p.record).Indexed := by
        rw [Preset.record_eq] at hnew ⊢
        exact indexed_added hs (by simp [Node.children]) hnew.1
          (.mk trivial (by simp [Node.map, Node.children]))
      have hnew' : ∀ q ∈ ps, (s.added p.record).lookup? q.record = none := by
        intro q hq
        have hne : p.atom ≠ q.atom := fun h => hnd.1 (h ▸ List.mem_map_of_mem hq)
        rw [lookup_added, if_neg]
        · exact hnew.2 q hq
        · rw [Preset.record_eq, Preset.record_eq, Node.record_inj]
          simpa using hne
      obtain ⟨s', hs', hi, hd, hn⟩ := ih hadded hnew' hnd.2
      refine ⟨s', ?_, hi, hd, ?_⟩
      · rw [← hs', ← hrun]
        rfl
      · rw [hn]
        simp [added]

theorem tree_preset {s : Store} (hs : s.Sound) (p : Preset) :
    s.Denotes p.handle (.mk (.atom p.atom)) := by
  obtain ⟨hh, hn⟩ := hs.preset p
  refine ⟨hh, ?_⟩
  rw [tree_eq hs.descends hh, hn]
  rfl

theorem exists_interned : ∃ s,
    ((Preset.list.forM fun p => discard (intern p.record)).run empty).2 = s ∧ s.Sound ∧
      s.duals = ∅ := by
  obtain ⟨s, hs, hi, hd, hn⟩ := forM_intern_presets indexed_empty Preset.list
    (by simp [lookup?, empty]) (by decide)
  have hrecords : s.records.toList = Preset.list.map Preset.record := by
    rw [hn]
    rfl
  refine ⟨s, hs, ?_, hd⟩
  exact {
    toIndexed := hi
    preset := fun p => by
      have hsize : s.records.size = 19 := by
        rw [← Array.length_toList, hrecords]
        rfl
      refine ⟨?_, ?_⟩
      · rw [Holds, size, hsize]
        cases p <;> decide
      · rw [node, record, Array.getD_eq_getD_getElem?, ← Array.getElem?_toList, hrecords]
        cases p <;> rfl
    cached := fun h d hd' => by simp [hd, empty] at hd' }

theorem tree_dualPair {s : Store} (hs : s.Sound) {p : Preset × Preset} (hp : p ∈ Preset.dualPairs) :
    s.tree p.2.handle = (s.tree p.1.handle).dual := by
  have hdual : ∀ p ∈ Preset.dualPairs, p.2.atom = p.1.atom.dual := by decide
  rw [(tree_preset hs p.1).2, (tree_preset hs p.2).2, Ty.dual_mk, hdual p hp]
  rfl

theorem initial_eq : initial = ((Preset.dualPairs.forM fun p =>
    recordDual p.1.handle p.2.handle).run
      ((Preset.list.forM fun p => discard (intern p.record)).run empty).2).2 := by
  have hseq (x y : StoreM Unit) (s : Store) :
      ((x >>= fun _ => y).run s).2 = (y.run (x.run s).2).2 := rfl
  rw [initial, addPresets, hseq]

theorem sound_initial : initial.Sound := by
  obtain ⟨s, hs, hsound, -⟩ := exists_interned
  have hduals : s.Leads (Preset.dualPairs.forM fun p => recordDual p.1.handle p.2.handle)
      (fun _ _ => True) := by
    apply leads.forM hsound
    intro p hp s' hs' _
    exact recordDual_leads hs' (hs'.preset p.1).1 (hs'.preset p.2).1 (tree_dualPair hs' hp)
  rw [initial_eq, hs]
  exact hduals.1

theorem mem_of_mem_pairsOf {α : Type} {p : α × α} {as : List α} (h : p ∈ pairsOf as) :
    p.1 ∈ as ∧ p.2 ∈ as := by
  induction as with
  | nil => exact absurd h List.not_mem_nil
  | cons a as ih =>
      rcases List.mem_append.1 h with h | h
      · obtain ⟨b, hb, rfl⟩ := List.mem_map.1 h
        exact ⟨List.mem_cons_self, List.mem_cons_of_mem a hb⟩
      · exact ⟨List.mem_cons_of_mem a (ih h).1, List.mem_cons_of_mem a (ih h).2⟩

namespace LatticeJudgement

variable (J : LatticeJudgement) {s : Store}

theorem holds_make (hs : s.Sound) {k : Node Handle} (hk : ∀ x ∈ k.children, s.Holds x)
    (htidy : k.Tidy) :
    J.Holds s (maker.build k) (fun s' h => s'.Denotes h (Ty.build (k.map s.tree))) :=
  J.holds_build hs ⟨hk, rfl⟩ ((Node.tidy_map _ _).2 htidy)

theorem holds_meet? (hs : s.Sound) {a b : Handle} {t u : Ty} (ha : s.Denotes a t)
    (hb : s.Denotes b u) :
    J.Holds s (meet? a b) (fun s' m => Option.Rel s'.Denotes m (Ty.meet t u).toOption) :=
  J.attempt (J.follows_meet hs ha hb)

theorem holds_join? (hs : s.Sound) {a b : Handle} {t u : Ty} (ha : s.Denotes a t)
    (hb : s.Denotes b u) :
    J.Holds s (join? a b) (fun s' m => Option.Rel s'.Denotes m (Ty.join t u).toOption) :=
  J.attempt (J.follows_join hs ha hb)

theorem holds_breachesAt (hs : s.Sound) {a : Handle} (ha : s.Holds a) :
    J.Holds s (breachesAt a) (fun _ bs => bs = []) := by
  have hta : s.Denotes a (s.tree a) := ⟨ha, rfl⟩
  refine J.bind (J.holds_meet? hs hta hta) fun s₁ m hs₁ hle₁ hm => ?_
  refine J.bind (J.holds_dual hs₁ (hta.mono hs hle₁)) fun s₂ d hs₂ hle₂ hd => ?_
  refine J.bind (J.holds_dual hs₂ hd) fun s₃ b hs₃ hle₃ hb => ?_
  have hmeet : m = some a := by
    rw [Ty.meet_self] at hm
    exact Denotes.option_unique hs₁ hm (.some (hta.mono hs hle₁))
  have hback : b = a := by
    have ha₃ := hta.mono hs (le_trans (le_trans hle₁ hle₂) hle₃)
    exact (Denotes.eq_iff hs₃ hb ha₃).2 (Ty.dual_dual (hs.normal a ha))
  refine J.pure hs₃ ?_
  rw [if_pos hmeet, if_pos hback, List.append_nil]

theorem holds_breachesBetween (hs : s.Sound) {a b : Handle} (ha : s.Holds a) (hb : s.Holds b) :
    J.Holds s (breachesBetween a b) (fun _ bs => bs = []) := by
  have hta : s.Denotes a (s.tree a) := ⟨ha, rfl⟩
  have htb : s.Denotes b (s.tree b) := ⟨hb, rfl⟩
  refine J.bind (J.holds_meet? hs hta htb) fun s₁ ab hs₁ hle₁ hab => ?_
  refine J.bind (J.holds_meet? hs₁ (htb.mono hs hle₁) (hta.mono hs hle₁))
    fun s₂ ba hs₂ hle₂ hba => ?_
  have hab₂ := Denotes.option_mono hs₁ hle₂ hab
  refine J.bind (J.mapM_option hs₂ (fun _ _ => J.holds_dual hs₂) hab₂)
    fun s₃ d hs₃ hle₃ hd => ?_
  have hle := le_trans (le_trans hle₁ hle₂) hle₃
  refine J.bind (J.holds_dual hs₃ (hta.mono hs hle)) fun s₄ a' hs₄ hle₄ ha' => ?_
  refine J.bind (J.holds_dual hs₄ (htb.mono hs (le_trans hle hle₄)))
    fun s₅ b' hs₅ hle₅ hb' => ?_
  refine J.bind (J.holds_join? hs₅ (ha'.mono hs₄ hle₅) hb') fun s₆ j hs₆ hle₆ hj => ?_
  have hcomm : ab = ba := by
    rw [Ty.meet_comm] at hba
    exact Denotes.option_unique hs₂ hab₂ hba
  have hdual : d = j := by
    rw [Ty.join_dual (hs.normal a ha) (hs.normal b hb), Ty.toOption_map] at hj
    have hle' := le_trans (le_trans hle₄ hle₅) hle₆
    exact Denotes.option_unique hs₆ (Denotes.option_mono hs₃ hle' hd) hj
  refine J.pure hs₆ ?_
  rw [if_pos hcomm, if_pos hdual, List.append_nil]

theorem holds_breaches (hs : s.Sound) {as : List Handle} (has : ∀ a ∈ as, s.Holds a) :
    J.Holds s (breaches as) (fun _ bs => bs = []) := by
  have hsingle : J.Holds s (as.mapM breachesAt) (fun _ bss => ∀ bs ∈ bss, bs = []) :=
    J.mapM (fun _ _ _ _ h => h) hs fun a ha s' hs' hle =>
      J.holds_breachesAt hs' ((has a ha).mono hle)
  refine J.bind hsingle fun s₁ single hs₁ hle₁ hnone => ?_
  have hdouble : J.Holds s₁ ((pairsOf as).mapM fun p => breachesBetween p.1 p.2)
      (fun _ bss => ∀ bs ∈ bss, bs = []) := by
    refine J.mapM (fun _ _ _ _ h => h) hs₁ fun p hp s' hs' hle => ?_
    obtain ⟨h₁, h₂⟩ := mem_of_mem_pairsOf hp
    have hle' := le_trans hle₁ hle
    exact J.holds_breachesBetween hs' ((has _ h₁).mono hle') ((has _ h₂).mono hle')
  refine J.bind hdouble fun s₂ double hs₂ _ hnone' => ?_
  refine J.pure hs₂ ?_
  rw [List.flatten_eq_nil_iff.2 hnone, List.flatten_eq_nil_iff.2 hnone', List.append_nil]

theorem holds_call (hs : s.Sound) (c : Call) (hc : ∀ x ∈ c.operands, s.Holds x) :
    J.Holds s c.run (fun _ _ => True) := by
  have made (k : Node Handle) (hk : ∀ x ∈ k.children, s.Holds x) (htidy : k.Tidy) :
      J.Holds s (discard (maker.build k)) (fun _ _ => True) :=
    J.discard (J.holds_make hs hk htidy)
  have atom (a : Atom) : J.Holds s (discard (maker.build (.atom a))) (fun _ _ => True) :=
    made (.atom a) (by simp [Node.children]) trivial
  have given {x : Handle} (hx : x ∈ c.operands) : s.Denotes x (s.tree x) := ⟨hc x hx, rfl⟩
  cases c with
  | preset p => exact J.pure hs trivial
  | int h bits => exact atom (.int (.range h (.roundUp bits)))
  | intConst c => exact atom (.int (.const c))
  | flt h bits => exact atom (.flt (.range h (.roundUp bits)))
  | fltConst pattern => exact atom (.flt (.const (.ofBits pattern)))
  | strConst v => exact atom (.strConst v)
  | funPtr h ts => exact atom (.funPtr h (.ofList ts))
  | funPtrConst i => exact atom (.funPtr .bottom (.ofList [i]))
  | rpc h ts => exact atom (.rpc h (.ofList ts))
  | rpcConst i => exact atom (.rpc .bottom (.ofList [i]))
  | func h ps r => exact made (.func h ps r) hc trivial
  | tuple h es => exact made (.tuple h es) hc trivial
  | nullable h a => exact made (.nullable h a) hc trivial
  | name l a => exact made (.name l a) hc trivial
  | struct h fs =>
      refine made (.struct h (Fields.ofList fs)) (Fields.forall_mem_ofList fun f hf => ?_)
        (Fields.ofList_spec fs).1
      exact hc f.2 (List.mem_map_of_mem hf)
  | dual a => exact J.discard (J.holds_dual hs (given (by simp [Call.operands])))
  | meet a b =>
      have ha := given (x := a) (by simp [Call.operands])
      have hb := given (x := b) (by simp [Call.operands])
      exact J.discard (J.follows_meet hs ha hb)
  | join a b =>
      have ha := given (x := a) (by simp [Call.operands])
      have hb := given (x := b) (by simp [Call.operands])
      exact J.discard (J.follows_join hs ha hb)
  | isa a b =>
      have ha := hc a (by simp [Call.operands])
      have hb := hc b (by simp [Call.operands])
      exact J.discard (J.holds_isa hs ha hb)
  | intern a =>
      have ha := hc a (by simp [Call.operands])
      apply J.get_bind
      rw [record_eq hs.toIndexed]
      refine J.discard (J.holds_intern hs (fun x hx => hs.descends.holds ha hx) ?_)
      rw [← tree_eq hs.descends ha]
      exact hs.normal a ha
  | internPreset p =>
      rw [Call.run, Preset.record_eq]
      refine J.discard (J.holds_intern hs (by simp [Node.children]) ?_)
      exact .mk trivial (by simp [Node.map, Node.children])
  | breaches as => exact J.discard (J.holds_breaches hs hc)

end LatticeJudgement

section calls

variable {s : Store} (hs : s.Sound)

include hs

theorem build_denotes {k : Node Handle} (hk : ∀ x ∈ k.children, s.Holds x) (htidy : k.Tidy) :
    s.Leads (maker.build k) (fun s' h => s'.Denotes h (Ty.build (k.map s.tree))) :=
  leads.holds_make hs hk htidy

theorem breaches_leads {as : List Handle} (has : ∀ a ∈ as, s.Holds a) :
    s.Leads (breaches as) (fun _ bs => bs = []) :=
  leads.holds_breaches hs has

theorem call_leads (c : Call) (hc : ∀ x ∈ c.operands, s.Holds x) :
    s.Leads c.run (fun _ _ => True) :=
  leads.holds_call hs c hc

end calls

/-- The invariant holds in every store that the calls can reach. -/
theorem Reachable.sound {s : Store} (h : s.Reachable) : s.Sound := by
  induction h with
  | initial => exact sound_initial
  | call c _ hc ih => exact (call_leads ih c hc).1

theorem Reachable.le_call {s : Store} (h : s.Reachable) (c : Call)
    (hc : ∀ x ∈ c.operands, s.Holds x) : s ≤ (c.run.run s).2 :=
  (call_leads h.sound c hc).2.1

end Store

end TypeLattice
