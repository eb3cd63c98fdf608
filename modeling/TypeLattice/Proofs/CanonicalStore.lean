import TypeLattice.Proofs.Realization
import TypeLattice.Proofs.RequestLog

namespace TypeLattice.Store

variable {s s' : Store} {log new : List (Record Handle)} {samples : List Handle}

namespace LatticeJudgement

variable (J : LatticeJudgement)

def Makes (s : Store) (x : StoreM Handle) : Prop :=
  ∀ s', s'.Sound → s ≤ s' → J.Holds s' x (fun s' h => s'.Holds h)

theorem makes_pure {h : Handle} (hh : s.Holds h) : J.Makes s (pure h) := fun _ hs hle =>
  J.pure hs (hh.mono hle)

theorem makes_build (k : Node Handle) (hk : ∀ x ∈ k.children, s.Holds x) (htidy : k.Tidy) :
    J.Makes s (maker.build k) := by
  intro s' hs' hle
  have hbuild := J.holds_make hs' (fun x hx => (hk x hx).mono hle) htidy
  exact J.mono hbuild fun _ _ _ _ h => h.1

theorem makes_struct (h : Half) {fs : List (String × Handle)} (hfs : ∀ f ∈ fs, s.Holds f.2) :
    J.Makes s (struct h fs) :=
  J.makes_build (.struct h (Fields.ofList fs)) (Fields.forall_mem_ofList hfs) (Fields.ofList_spec fs).1

theorem holds_standardSample (hs : s.Sound) :
    J.Holds s standardSample (fun s' hs => ∀ h ∈ hs, s'.Holds h) := by
  have hmono (s s' : Store) (h : Handle) (hle : s ≤ s') (hh : s.Holds h) : s'.Holds h := hh.mono hle
  have hpreset {s : Store} (hs : s.Sound) (p : Preset) : s.Holds p.handle := (hs.preset p).1
  have hpoint : J.Makes s (struct .bottom [("x", Preset.int64.handle), ("y", Preset.str.handle)]) :=
    J.makes_struct .bottom (by simp [hpreset hs])
  refine J.bind (hpoint s hs (le_refl s)) fun s₁ point hs₁ _ hpoint => ?_
  have hdual {s : Store} (hs : s.Sound) {x : Handle} (hx : s.Holds x) :
      J.Holds s (dual x) (fun s' d => s'.Holds d) :=
    J.mono (J.holds_dual hs ⟨hx, rfl⟩) fun _ _ _ _ hd => hd.1
  have hduals {s : Store} (hs : s.Sound) {base : List Handle} (hbase : ∀ x ∈ base, s.Holds x) :
      J.Holds s (base.mapM dual) (fun s' ds => ∀ d ∈ ds, s'.Holds d) :=
    J.mapM hmono hs fun x hx s' hs' hle => hdual hs' ((hbase x hx).mono hle)
  refine J.bind (J.mapM hmono hs₁ ?_) fun s₂ base hs₂ _ hbase => ?_
  · change ∀ x ∈ _, J.Makes s₁ x
    have hatom (a : Atom) : J.Makes s₁ (maker.build (.atom a)) :=
      J.makes_build (.atom a) (by simp [Node.children]) trivial
    have hgiven (p : Preset) : J.Makes s₁ (preset p) := J.makes_pure (hpreset hs₁ p)
    have hint (h : Half) (bits : Nat) : J.Makes s₁ (int h bits) :=
      hatom (.int (.range h (.roundUp bits)))
    have hintConst (c : Int64) : J.Makes s₁ (intConst c) := hatom (.int (.const c))
    have hfltConst (i : UInt64) : J.Makes s₁ (fltConst i) := hatom (.flt (.const (.ofBits i)))
    have hstrConst (v : String) : J.Makes s₁ (strConst v) := hatom (.strConst v)
    have hfunPtr (h : Half) (ts : List Nat) : J.Makes s₁ (funPtr h ts) :=
      hatom (.funPtr h (.ofList ts))
    have hrpc (h : Half) (ts : List Nat) : J.Makes s₁ (rpc h ts) := hatom (.rpc h (.ofList ts))
    simp only [List.forall_mem_cons, hint, hintConst, hfltConst, hstrConst, funPtrConst, hfunPtr,
      rpcConst, hrpc, hgiven, J.makes_pure hpoint, true_and, List.not_mem_nil, false_imp_iff,
      implies_true, and_true]
    refine ⟨J.makes_build (.func ..) ?_ trivial, J.makes_build (.tuple ..) ?_ trivial,
      J.makes_build (.tuple ..) ?_ trivial, J.makes_struct .bottom ?_,
      J.makes_build (.nullable ..) ?_ trivial, J.makes_build (.nullable ..) ?_ trivial,
      J.makes_build (.name ..) ?_ trivial, J.makes_build (.name ..) ?_ trivial⟩ <;>
      simp [Node.children, hpreset hs₁, hpoint]
  · refine J.bind (hduals hs₂ hbase) fun s₃ duals hs₃ hle₃ hheld => ?_
    refine J.pure hs₃ fun h hh => ?_
    obtain ⟨i, hi, rfl⟩ := List.mem_map.1 hh
    obtain ⟨x, hx, rfl⟩ := List.mem_map.1 (Ascending.mem_of_mem_arrange hi)
    rcases List.mem_append.1 hx with hx | hx
    · exact (hbase x hx).mono hle₃
    · exact hheld x hx

end LatticeJudgement

theorem standardSample_leads (hs : s.Sound) :
    s.Leads standardSample (fun s' hs => ∀ h ∈ hs, s'.Holds h) :=
  leads.holds_standardSample hs

inductive Step (s : Store) : Store → List (Record Handle) → Prop
  | call {new : List (Record Handle)} (c : Call) (hc : ∀ x ∈ c.operands, s.Holds x)
      (h : Requests c.run s new) : Step s (c.run.run s).2 new
  | sample {new : List (Record Handle)} (h : Requests standardSample s new) :
      Step s (standardSample.run s).2 new

/-- What the operations make of a store that was empty, with all requests since then. -/
inductive History : Store → List (Record Handle) → Prop
  | start {log : List (Record Handle)} (h : Requests addPresets empty log) : History initial log
  | step {s s' : Store} {log new : List (Record Handle)} (hs : History s log) (h : s.Step s' new) :
      History s' (log ++ new)

theorem Step.of_call (c : Call) (hc : ∀ x ∈ c.operands, s.Holds x) :
    ∃ new, s.Step (c.run.run s).2 new := by
  obtain ⟨new, hnew⟩ := logged_call c s
  exact ⟨new, .call c hc hnew⟩

theorem Step.sound (h : s.Step s' new) (hs : s.Sound) : s'.Sound ∧ s ≤ s' := by
  cases h with
  | call c hc =>
      obtain ⟨hs', hle, -⟩ := call_leads hs c hc
      exact ⟨hs', hle⟩
  | sample =>
      obtain ⟨hs', hle, -⟩ := standardSample_leads hs
      exact ⟨hs', hle⟩

theorem History.sound (h : s.History log) : s.Sound := by
  induction h with
  | start => exact sound_initial
  | step _ h ih => exact (h.sound ih).1

theorem Reachable.exists_history (h : s.Reachable) : ∃ log, s.History log := by
  induction h with
  | initial => exact ⟨startRequests, .start (requests_addPresets empty)⟩
  | call c _ hc ih =>
      obtain ⟨log, hlog⟩ := ih
      obtain ⟨new, hnew⟩ := Step.of_call c hc
      exact ⟨log ++ new, hlog.step hnew⟩

structure Accounts (s : Store) (log : List (Record Handle)) : Prop where
  requests : s.hits + s.misses = log.length
  types : s.misses = s.size
  stored : ∀ r, r ∈ log ↔ ∃ h, s.lookup? r = some h

theorem accounts_empty : empty.Accounts [] where
  requests := rfl
  types := rfl
  stored r := by simp [lookup?, empty]

theorem accounts_intern (hs : s.Accounts log) (r : Record Handle) :
    ((intern r).run s).2.Accounts (log ++ [r]) := by
  have hcount := hs.requests
  cases hl : s.lookup? r with
  | some h =>
      rw [intern_of_lookup hl]
      refine ⟨?_, hs.types, fun q => ?_⟩
      · simp only [List.length_append, List.length_singleton]
        omega
      · rw [List.mem_append, List.mem_singleton, hs.stored]
        refine or_iff_left_of_imp ?_
        rintro rfl
        exact ⟨h, hl⟩
  | none =>
      rw [intern_of_none hl]
      refine ⟨?_, ?_, fun q => ?_⟩
      · simp only [added, List.length_append, List.length_singleton]
        omega
      · simp only [added, size, Array.size_push, hs.types]
      · rw [List.mem_append, List.mem_singleton, hs.stored, lookup_added]
        split
        · next hrq => simp [hrq]
        · next hrq => simp [Ne.symm hrq]

theorem Requests.accounts {α : Type} {x : StoreM α} (h : Requests x s new) (hs : s.Accounts log) :
    (x.run s).2.Accounts (log ++ new) := by
  induction h generalizing log with
  | pure | get => rwa [List.append_nil]
  | recordDual =>
      rw [List.append_nil]
      exact ⟨hs.requests, hs.types, hs.stored⟩
  | intern r s => exact accounts_intern hs r
  | bind _ _ ihx ihf =>
      rw [← List.append_assoc]
      exact ihf (ihx hs)

theorem Step.accounts (h : s.Step s' new) (hs : s.Accounts log) : s'.Accounts (log ++ new) := by
  cases h with
  | call c hc h => exact h.accounts hs
  | sample h => exact h.accounts hs

theorem History.accounts (h : s.History log) : s.Accounts log := by
  induction h with
  | start h => exact h.accounts accounts_empty
  | step _ h ih => exact h.accounts ih

theorem length_startLog (h : Requests addPresets empty log) : log.length = 19 := by
  have hlog : initial.Accounts log := h.accounts accounts_empty
  have hstart : initial.Accounts startRequests := (requests_addPresets empty).accounts accounts_empty
  calc log.length = initial.hits + initial.misses := hlog.requests.symm
    _ = startRequests.length := hstart.requests
    _ = 19 := rfl

theorem History.exists_start (h : s.History log) :
    ∃ start new, log = start ++ new ∧ Requests addPresets empty start := by
  induction h with
  | @start log h => exact ⟨log, [], (List.append_nil log).symm, h⟩
  | @step s s' log more _ _ ih =>
      obtain ⟨start, new, rfl, hstart⟩ := ih
      exact ⟨start, new ++ more, List.append_assoc start new more, hstart⟩

/-- Each type is stored once and for all. What was asked for is what is stored, the presets with it,
and no operation changes what a handle stands for. -/
structure Canonical (s : Store) (log : List (Record Handle)) : Prop extends Accounts s log where
  found : ∀ h, s.Holds h → s.lookup? (s.record h) = some h
  held : ∀ r h, s.lookup? r = some h → s.Holds h ∧ s.record h = r
  descends : ∀ h, s.Holds h → ∀ x ∈ (s.node h).children, x.index < h.index
  acyclic : WellFounded fun x h => s.Holds h ∧ x ∈ (s.node h).children
  unfolds : ∀ h, s.Holds h → s.tree h = .mk ((s.node h).map s.tree)
  eq_iff : ∀ a b, s.Holds a → s.Holds b → (a = b ↔ s.tree a = s.tree b)
  started : ∃ start new, log = start ++ new ∧ Requests addPresets empty start ∧ start.length = 19
  /-- Every call goes through to a next store, also one that fails. -/
  answers : ∀ c : Call, (∀ x ∈ c.operands, s.Holds x) → ∃ new, s.Step (c.run.run s).2 new
  samples : ∃ new, s.Step (standardSample.run s).2 new
  kept : ∀ s' new, s.Step s' new → ∀ h, s.Holds h →
    s'.Holds h ∧ s'.record h = s.record h ∧ s'.tree h = s.tree h

/-- Whatever was done to a store, with or without success, it is canonical. -/
theorem history_canonical (h : s.History log) : s.Canonical log := by
  have hs := h.sound
  refine { h.accounts with
    found := fun x hx => (hs.lookup_iff _ x).2 ⟨hx, rfl⟩
    held := fun r x hx => (hs.lookup_iff r x).1 hx
    descends := hs.descends
    acyclic := Subrelation.wf (fun {x y} h => hs.descends y h.1 x h.2) (measure Handle.index).wf
    unfolds := fun x hx => tree_eq hs.descends hx
    eq_iff := fun a b ha hb => ⟨congrArg s.tree, tree_injective hs.toIndexed ha hb⟩
    started := ?_
    answers := Step.of_call
    samples := ?_
    kept := ?_ }
  · obtain ⟨start, new, hlog, hstart⟩ := h.exists_start
    exact ⟨start, new, hlog, hstart, length_startLog hstart⟩
  · obtain ⟨new, hnew⟩ := logged_standardSample s
    exact ⟨new, .sample hnew⟩
  · intro s' new hstep x hx
    have hle := (hstep.sound hs).2
    exact ⟨hx.mono hle, (hle x hx).2, tree_mono hs.descends hle hx⟩

/-- A pair meets another in its first part, which adds a nullable type, and fails in the second. -/
theorem failed_meet_canonical : ∃ (s : Store) (a b : Handle) (log new : List (Record Handle)),
    s.History log ∧
    s.Denotes a (.mk (.tuple .bottom [.mk (.atom Preset.nil.atom), .mk (.atom Preset.ctrl.atom)])) ∧
    s.Denotes b (.mk (.tuple .bottom [.mk (.atom Preset.int8.atom), .mk (.atom Preset.int8.atom)])) ∧
    (∃ e, ((meet a b).run.run s).1 = .error e) ∧
    ((meet a b).run.run s).2.History (log ++ new) ∧
    ((meet a b).run.run s).2.Canonical (log ++ new) := by
  have hnormal (p q : Preset) :
      (Ty.mk (.tuple .bottom [.mk (.atom p.atom), .mk (.atom q.atom)])).Normal :=
    .mk trivial (List.forall_mem_cons.2 ⟨.mk trivial nofun, List.forall_mem_singleton.2
      (.mk trivial nofun)⟩)
  obtain ⟨a, s₁, hs₁, -, ha⟩ := storable_of_normal (hnormal .nil .ctrl) initial .initial
  obtain ⟨b, s, hs, hle, hb⟩ := storable_of_normal (hnormal .int8 .int8) s₁ hs₁
  replace ha := ha.mono hs₁.sound hle
  obtain ⟨log, hlog⟩ := hs.exists_history
  have hoperands : ∀ x ∈ (Call.meet a b).operands, s.Holds x := by
    simp [Call.operands, ha.1, hb.1]
  obtain ⟨new, hnew⟩ := Step.of_call (.meet a b) hoperands
  have hfails : ∃ e, ((meet a b).run.run s).1 = .error e := by
    have hno : (Ty.meet (s.tree a) (s.tree b)).isOk = false := by
      rw [ha.2, hb.2]
      decide +kernel
    have hagree := (meet_leads hs.sound ha.1 hb.1).2.2
    generalize Ty.meet (s.tree a) (s.tree b) = y at hno hagree
    generalize ((meet a b).run.run s).1 = e at hagree
    cases hagree with
    | ok => cases hno
    | error => exact ⟨_, rfl⟩
  have hlog' := hlog.step hnew
  exact ⟨s, a, b, log, new, hlog, ha, hb, hfails, hlog', history_canonical hlog'⟩

/-- The self-check reports nothing, whatever types it is given and whatever was stored before: the
types and duals that it stores itself never come between the two sides of a law. -/
theorem self_check_reports_nothing (h : s.History log) (hheld : ∀ a ∈ samples, s.Holds a) :
    ((breaches samples).run s).1 = [] :=
  (breaches_leads h.sound hheld).2.2

/-- The standard sample, given twice and with control in front of it. -/
theorem doubled_standard_sample_passes :
    ∃ (samples : List Handle) (s : Store) (log : List (Record Handle)),
    standardSample.run initial = (samples, s) ∧ s.History log ∧
    (∀ a ∈ Preset.ctrl.handle :: (samples ++ samples), s.Holds a) ∧
    ((breaches (Preset.ctrl.handle :: (samples ++ samples))).run s).1 = [] := by
  obtain ⟨hs, -, hsamples⟩ := standardSample_leads sound_initial
  obtain ⟨new, hnew⟩ := logged_standardSample initial
  have hlog := History.step (.start (requests_addPresets empty)) (.sample hnew)
  generalize standardSample.run initial = r at *
  obtain ⟨samples, s⟩ := r
  have hheld : ∀ a ∈ Preset.ctrl.handle :: (samples ++ samples), s.Holds a := by
    rw [List.forall_mem_cons, List.forall_mem_append]
    exact ⟨(hs.preset .ctrl).1, hsamples, hsamples⟩
  exact ⟨samples, s, _, rfl, hlog, hheld, self_check_reports_nothing hlog hheld⟩

end TypeLattice.Store
