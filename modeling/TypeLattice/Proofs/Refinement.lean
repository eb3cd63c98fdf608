import TypeLattice.Proofs.Simulation

namespace TypeLattice.Store

variable {s : Store}

theorem Sound.recache (hs : s.Sound) (s' : Store) (hrecords : s'.records = s.records)
    (hindex : s'.index = s.index)
    (hduals : ∀ h d, s'.duals[h]? = some d → s.Holds h ∧ s.Holds d ∧ s.tree d = (s.tree h).dual) :
    s'.Sound ∧ s ≤ s' := by
  obtain ⟨records, index, duals, hits, misses⟩ := s'
  cases hrecords
  cases hindex
  have hle : s ≤ ⟨s.records, s.index, duals, hits, misses⟩ := fun _ hh => ⟨hh, rfl⟩
  have htree {h : Handle} (hh : s.Holds h) := tree_mono hs.descends hle hh
  refine ⟨?_, hle⟩
  exact {
    lookup_iff := hs.lookup_iff
    encoded := hs.encoded
    descends := hs.descends
    normal := fun h hh => (htree hh).symm ▸ hs.normal h hh
    preset := hs.preset
    cached := fun h d hd => by
      obtain ⟨hh, hd, ht⟩ := hduals h d hd
      exact ⟨hh, hd, by rw [htree hd, htree hh, ht]⟩ }

theorem Sound.added (hs : s.Sound) {n : Node Handle} (hn : ∀ x ∈ n.children, s.Holds x)
    (hl : s.lookup? n.record = none) (hnormal : (Ty.mk (n.map s.tree)).Normal) :
    (s.added n.record).Sound where
  toIndexed := indexed_added hs.toIndexed hn hl hnormal
  preset p := by
    obtain ⟨hp, hatom⟩ := hs.preset p
    exact ⟨hp.mono le_added, (node_mono le_added hp).trans hatom⟩
  cached h d hd := by
    obtain ⟨hh, hd, ht⟩ := hs.cached h d hd
    refine ⟨hh.mono le_added, hd.mono le_added, ?_⟩
    rw [tree_mono hs.descends le_added hd, tree_mono hs.descends le_added hh, ht]

theorem intern_leads (hs : s.Sound) {n : Node Handle} (hn : ∀ x ∈ n.children, s.Holds x)
    (hnormal : (Ty.mk (n.map s.tree)).Normal) :
    s.Leads (intern n.record) (fun s' h => s'.Denotes h (.mk (n.map s.tree))) := by
  cases hl : s.lookup? n.record with
  | some h =>
      obtain ⟨hh, hnode⟩ := (lookup_record_iff hs.toIndexed).1 hl
      obtain ⟨hsound, hle⟩ := hs.recache { s with hits := s.hits + 1 } rfl rfl hs.cached
      have ht : s.tree h = .mk (n.map s.tree) := by rw [tree_eq hs.descends hh, hnode]
      have hd := Denotes.of_holds hs hle hh
      rw [ht] at hd
      rw [Leads, intern_of_lookup hl]
      exact ⟨hsound, hle, hd⟩
  | none =>
      rw [Leads, intern_of_none hl]
      exact ⟨hs.added hn hl hnormal, le_added, holds_added.2 (.inr rfl),
        tree_added_last hs.toIndexed hn⟩

def Leads.judgement : Judgement where
  Holds := Leads
  pure := Leads.pure
  bind := Leads.bind
  get_bind := Leads.get_bind
  holds_intern hs hn hnormal := intern_leads hs hn hnormal

theorem recordDual_leads (hs : s.Sound) {a b : Handle} (ha : s.Holds a) (hb : s.Holds b)
    (h : s.tree b = (s.tree a).dual) : s.Leads (recordDual a b) (fun _ _ => True) := by
  have hback : s.tree a = (s.tree b).dual := by rw [h, Ty.dual_dual (hs.normal a ha)]
  have hcache (x d : Handle) (hd : ((s.duals.insert a b).insert b a)[x]? = some d) :
      s.Holds x ∧ s.Holds d ∧ s.tree d = (s.tree x).dual := by
    simp only [Std.HashMap.getElem?_insert, beq_iff_eq] at hd
    split at hd
    · next hx =>
        cases hx
        cases hd
        exact ⟨hb, ha, hback⟩
    · split at hd
      · next hx =>
          cases hx
          cases hd
          exact ⟨ha, hb, h⟩
      · exact hs.cached x d hd
  obtain ⟨hsound, hle⟩ :=
    hs.recache { s with duals := (s.duals.insert a b).insert b a } rfl rfl hcache
  exact ⟨hsound, hle, trivial⟩

theorem node_eq_preset_iff (hs : s.Sound) {h : Handle} (hh : s.Holds h) (p : Preset) :
    s.node h = .atom p.atom ↔ h = p.handle := by
  obtain ⟨hp, hn⟩ := hs.preset p
  refine ⟨fun hatom => ?_, fun heq => heq ▸ hn⟩
  have hfound := (lookup_record_iff hs.toIndexed).2 ⟨hh, hatom⟩
  rw [(lookup_record_iff hs.toIndexed).2 ⟨hp, hn⟩] at hfound
  exact (Option.some.inj hfound).symm

theorem dual_layer (hs : s.Sound) (dual : Handle → StoreM Handle) (h : Handle) :
    maker.dual dual h (s.record h) = maker.dualLayer dual h (s.node h) := by
  rw [record_eq hs.toIndexed, Maker.dual_record]

/-- The rules of the meet, read off the layers. -/
theorem meet_layers {m n : Type → Type} [Monad m] [Monad n] [LawfulMonad n] [MonadLiftT m n]
    [LawfulMonadLiftT m n] (hs : s.Sound) {N : Maker m Handle} (hN : N.preset = Preset.handle)
    {a b : Handle} (ha : s.Holds a) (hb : s.Holds b) (meet join clash : Handle → Handle → n Handle) :
    (Meeter.mk N.lift meet join clash).ofPair a (s.record a) b (s.record b) =
      (Plan.ofPair a (s.node a) b (s.node b)).run (fun k => liftM (N.build k)) meet join clash := by
  have places {h : Handle} (hh : s.Holds h) :
      (Meeter.mk N.lift meet join clash).Places h (s.node h) := by
    have hpreset (p : Preset) : N.preset p = p.handle := congrFun hN p
    constructor
    · exact fun hn => ((node_eq_preset_iff hs hh .scalar).1 hn).trans (hpreset .scalar).symm
    · exact fun hn => ((node_eq_preset_iff hs hh .oop).1 hn).trans (hpreset .oop).symm
  rw [record_eq hs.toIndexed, record_eq hs.toIndexed b,
    Meeter.ofPair_record _ _ _ (places ha) (places hb), Meeter.run_lift]

theorem node_tidy (hs : s.Sound) {h : Handle} (hh : s.Holds h) : (s.node h).Tidy := by
  have hn := (hs.normal h hh).layer
  rw [tree_eq hs.descends hh] at hn
  exact (Node.tidy_map _ _).1 hn.tidy

namespace Judgement

variable (J : Judgement) {h : Handle}

theorem holds_parts {f : Handle → StoreM Handle} (hs : s.Sound) (hh : s.Holds h)
    (hf : ∀ (s' : Store) x, s'.Sound → s'.Holds x → x.index < h.index →
      J.Holds s' (f x) (fun s'' d => s''.Denotes d (s'.tree x).dual)) :
    J.Holds s ((s.node h).mapM f)
      (fun s' k => s'.NodeDenotes k ((s.node h).map fun x => (s.tree x).dual)) := by
  apply J.mapM_node hs
  intro x hx s' hs' hle
  obtain ⟨hx', ht⟩ := Denotes.of_holds hs hle (hs.descends.holds hh hx)
  rw [← ht]
  exact hf s' x hs' hx' (hs.descends h hh x hx)

theorem holds_build_flip {s' : Store} {k : Node Handle} (hs : s.Sound) (hh : s.Holds h)
    (hs' : s'.Sound) (hk : s'.NodeDenotes k ((s.node h).map fun x => (s.tree x).dual)) :
    J.Holds s' (maker.build k.flip) (fun s'' d => s''.Denotes d (s.tree h).dual) := by
  have hflip : s'.NodeDenotes k.flip ((s.node h).flip.map fun x => (s.tree x).dual) := by
    refine ⟨by simpa using hk.1, ?_⟩
    rw [← Node.flip_map, hk.2, Node.flip_map]
  have htidy : ((s.node h).flip.map fun x => (s.tree x).dual).Tidy := by
    rw [Node.tidy_map, Node.tidy_flip]
    exact node_tidy hs hh
  have hdual : (s.tree h).dual = Ty.build ((s.node h).flip.map fun x => (s.tree x).dual) := by
    rw [tree_eq hs.descends hh, Ty.dual_mk, Node.flip_map, Node.map_map]
  rw [hdual]
  exact J.holds_build hs' hflip htidy

theorem holds_dualLayer {f : Handle → StoreM Handle} (hs : s.Sound) (hh : s.Holds h)
    (hf : ∀ (s' : Store) x, s'.Sound → s'.Holds x → x.index < h.index →
      J.Holds s' (f x) (fun s'' d => s''.Denotes d (s'.tree x).dual)) :
    J.Holds s (maker.dualLayer f h (s.node h)) (fun s' d => s'.Denotes d (s.tree h).dual) := by
  have hlayer : J.Holds s (do maker.build (← (s.node h).mapM f).flip)
      (fun s' d => s'.Denotes d (s.tree h).dual) :=
    J.bind (J.holds_parts hs hh hf) fun _ _ hs' _ hk => J.holds_build_flip hs hh hs' hk
  rw [Maker.dualLayer.eq_def]
  split
  · next v hv =>
      refine J.pure hs ⟨hh, ?_⟩
      rw [tree_eq hs.descends hh, hv, Ty.dual_mk]
      rfl
  · exact hlayer

end Judgement

theorem remember_leads {s' : Store} {h d : Handle} (hs : s.Sound) (hle : s ≤ s') (hs' : s'.Sound)
    (hh : s.Holds h) (hd : s'.Denotes d (s.tree h).dual) :
    s'.Leads (do recordDual h d; pure d) (fun s'' d => s''.Denotes d (s.tree h).dual) := by
  obtain ⟨hh', ht⟩ := Denotes.of_holds hs hle hh
  refine Leads.bind (recordDual_leads hs' hh' hd.1 (by rw [hd.2, ht])) fun s'' _ hs'' hle' _ => ?_
  exact Leads.pure hs'' (hd.mono hs' hle')

theorem dualWithin_leads {n : Nat} {h : Handle} (hs : s.Sound) (hh : s.Holds h) (hn : h.index < n) :
    s.Leads (dualWithin n h) (fun s' d => s'.Denotes d (s.tree h).dual) := by
  induction n generalizing s h with
  | zero => omega
  | succ n ih =>
      rw [dualWithin]
      apply Leads.get_bind
      split
      · next d hd =>
          obtain ⟨-, hholds, ht⟩ := hs.cached h d hd
          exact Leads.pure hs ⟨hholds, ht⟩
      · apply Leads.get_bind
        rw [dual_layer hs]
        -- the components come before their type, so less depth is enough for them
        have hlayer : s.Leads (maker.dualLayer (dualWithin n) h (s.node h))
            (fun s' d => s'.Denotes d (s.tree h).dual) :=
          Leads.judgement.holds_dualLayer hs hh fun s' x hs' hx hlt => ih hs' hx (by omega)
        exact Leads.bind hlayer fun s₁ d hs₁ hle₁ hd => remember_leads hs hle₁ hs₁ hh hd

theorem dual_leads {h : Handle} (hs : s.Sound) (hh : s.Holds h) :
    s.Leads (dual h) (fun s' d => s'.Denotes d (s.tree h).dual) :=
  dualWithin_leads hs hh (Nat.lt_succ_self _)

theorem dual_denotes {h : Handle} {t : Ty} (hs : s.Sound) (hh : s.Denotes h t) :
    s.Leads (dual h) (fun s' d => s'.Denotes d t.dual) := by
  obtain ⟨hh, rfl⟩ := hh
  exact dual_leads hs hh

/-- A way to reason about programs that may also take duals. -/
structure LatticeJudgement extends Judgement where
  holds_dual {s : Store} {h : Handle} {t : Ty} : s.Sound → s.Denotes h t →
    Holds s (dual h) (fun s' d => s'.Denotes d t.dual)

def leads : LatticeJudgement where
  toJudgement := Leads.judgement
  holds_dual hs hh := dual_denotes hs hh

theorem part_held {μ : Ty → Nat} (hμ : ∀ n : Node Ty, ∀ t ∈ n.children, μ t < μ (.mk n))
    {h x : Handle} (hs : s.Sound) (hh : s.Holds h) (hx : x ∈ (s.node h).children) :
    s.Holds x ∧ μ (s.tree x) < μ (s.tree h) := by
  refine ⟨hs.descends.holds hh hx, ?_⟩
  rw [tree_eq hs.descends hh]
  apply hμ
  rw [Node.children_map]
  exact List.mem_map_of_mem hx

/-- What a meet is asked for next is smaller, by any measure by which a part is smaller. -/
theorem operands_held {μ : Ty → Nat} (hμ : ∀ n : Node Ty, ∀ t ∈ n.children, μ t < μ (.mk n))
    {a b : Handle} (hs : s.Sound) (ha : s.Holds a) (hb : s.Holds b) :
    Plan.Operands s.Holds (fun x y => s.Holds x ∧ s.Holds y ∧
      μ (s.tree x) + μ (s.tree y) < μ (s.tree a) + μ (s.tree b)) a (s.node a) b (s.node b) := by
  have part {h x : Handle} (hh : s.Holds h) (hx : x ∈ (s.node h).children) :
      s.Holds x ∧ μ (s.tree x) < μ (s.tree h) := part_held hμ hs hh hx
  exact {
    left := ha
    right := hb
    leftParts := fun u hu => (part ha hu).1
    rightParts := fun v hv => (part hb hv).1
    leftWhole := fun v hv => ⟨ha, (part hb hv).1, Nat.add_lt_add_left (part hb hv).2 _⟩
    rightWhole := fun u hu => ⟨(part ha hu).1, hb, Nat.add_lt_add_right (part ha hu).2 _⟩
    parts := fun u hu v hv =>
      ⟨(part ha hu).1, (part hb hv).1, Nat.add_lt_add (part ha hu).2 (part hb hv).2⟩ }

theorem plan_held {μ : Ty → Nat} (hμ : ∀ n : Node Ty, ∀ t ∈ n.children, μ t < μ (.mk n))
    {a b : Handle} (hs : s.Sound) (ha : s.Holds a) (hb : s.Holds b) :
    (Plan.ofPair a (s.node a) b (s.node b)).Fits s.Holds (fun x y => s.Holds x ∧ s.Holds y ∧
      μ (s.tree x) + μ (s.tree y) < μ (s.tree a) + μ (s.tree b)) :=
  Plan.fits_ofPair (fun _ _ h => ⟨h.2.1, h.1, by omega⟩) (operands_held hμ hs ha hb)

namespace LatticeJudgement

variable (J : LatticeJudgement)

theorem follows_parts {n : Node (Piece Handle)} {meet join : Handle → Handle → MeetM Handle}
    {meet' join' : Ty → Ty → Except (Clash Ty) Ty} (hs : s.Sound)
    (hn : ∀ q ∈ n.children, q.Fits s.Holds fun x y => ∀ s', s'.Sound → s ≤ s' →
      J.failing.Rel Denotes s' (meet x y) (meet' (s.tree x) (s.tree y)) ∧
        J.failing.Rel Denotes s' (join x y) (join' (s.tree x) (s.tree y))) :
    J.failing.Rel NodeDenotes s (n.mapM (Piece.run meet join))
      ((n.map (Piece.map s.tree)).mapM (Piece.run meet' join')) := by
  rw [Node.mapM_map]
  apply J.failing.mapM_node hs
  intro q hq s' hs' hle
  have hq := hn q hq
  cases q with
  | keep x => exact J.failing.pure hs' (Denotes.of_holds hs hle hq)
  | meet x y => exact (hq s' hs' hle).1
  | join x y => exact (hq s' hs' hle).2

theorem follows_run {p : Plan Handle} {meet join : Handle → Handle → MeetM Handle}
    {meet' join' : Ty → Ty → Except (Clash Ty) Ty} (hs : s.Sound) (htidy : p.Tidy)
    (hp : p.Fits s.Holds fun x y => ∀ s', s'.Sound → s ≤ s' →
      J.failing.Rel Denotes s' (meet x y) (meet' (s.tree x) (s.tree y)) ∧
        J.failing.Rel Denotes s' (join x y) (join' (s.tree x) (s.tree y))) :
    J.failing.Rel Denotes s (p.run (fun k => maker.build k) meet join fun x y => throw ⟨x, y⟩)
      ((p.map s.tree).run (fun k => .ok (Ty.build k)) meet' join' fun x y => .error ⟨x, y⟩) := by
  cases p with
  | clash x y => exact J.throw hs ⟨hp.1, rfl⟩ ⟨hp.2, rfl⟩
  | keep x => exact J.failing.pure hs ⟨hp, rfl⟩
  | meet x y => exact (hp s hs (le_refl s)).1
  | build n =>
      refine J.failing.bind (J.follows_parts hs hp) fun s₁ k t hs₁ hle₁ ht hk => ?_
      exact J.lift (J.holds_build hs₁ hk (Node.tidy_of_mapM ((Node.tidy_map _ _).2 htidy) ht))

theorem follows_dual {x : Handle} {t : Ty} (hs : s.Sound) (hx : s.Denotes x t) :
    J.failing.Rel Denotes s (liftM (dual x)) (.ok t.dual) :=
  J.lift (J.holds_dual hs hx)

theorem follows_joinBy {meet : Handle → Handle → MeetM Handle} {x y : Handle} {t u : Ty}
    (hs : s.Sound) (hx : s.Denotes x t) (hy : s.Denotes y u)
    (hmeet : ∀ s' a b, s'.Sound → s'.Denotes a t.dual → s'.Denotes b u.dual →
      J.failing.Rel Denotes s' (meet a b) (Ty.meet t.dual u.dual)) :
    J.failing.Rel Denotes s (joinBy meet x y) (Ty.join t u) := by
  have hjoin : Ty.join t u = (do
      let a ← Except.ok t.dual
      let b ← Except.ok u.dual
      let c ← Ty.meet a b
      .ok c.dual) := by
    change Ty.join t u = (Ty.meet t.dual u.dual >>= fun c => .ok c.dual)
    rw [Ty.join]
    cases Ty.meet t.dual u.dual <;> rfl
  rw [hjoin]
  refine J.failing.bind (J.follows_dual hs hx) fun s₁ a b hs₁ hle₁ hb ha => ?_
  cases hb
  refine J.failing.bind (J.follows_dual hs₁ (hy.mono hs hle₁)) fun s₂ c d hs₂ hle₂ hd hc => ?_
  cases hd
  refine J.failing.bind (hmeet s₂ a c hs₂ (ha.mono hs₁ hle₂) hc) fun s₃ e f hs₃ _ _ he => ?_
  exact J.follows_dual hs₃ he

theorem follows_operands {n : Nat} {a b : Handle} (hs : s.Sound) (ha : s.Holds a) (hb : s.Holds b)
    (hn : (s.tree a).height + (s.tree b).height ≤ n + 1)
    (hmeet : ∀ s' x y t u, s'.Sound → s'.Denotes x t → s'.Denotes y u → t.height + u.height ≤ n →
      J.failing.Rel Denotes s' (meetWithin n x y) (Ty.meet t u)) :
    (Plan.ofPair a (s.node a) b (s.node b)).Fits s.Holds fun x y => ∀ s', s'.Sound → s ≤ s' →
      J.failing.Rel Denotes s' (meetWithin n x y) (Ty.meet (s.tree x) (s.tree y)) ∧
        J.failing.Rel Denotes s' (joinBy (meetWithin n) x y) (Ty.join (s.tree x) (s.tree y)) := by
  have hfits := plan_held (fun _ _ => Ty.height_lt_of_mem) hs ha hb
  refine hfits.mono (fun _ h => h) fun x y ⟨hx, hy, hlt⟩ s' hs' hle => ?_
  have hx' := Denotes.of_holds hs hle hx
  have hy' := Denotes.of_holds hs hle hy
  refine ⟨hmeet s' x y _ _ hs' hx' hy' (by omega), J.follows_joinBy hs' hx' hy' ?_⟩
  intro s₁ c d hs₁ hc hd
  have hcle := Ty.height_dual_le (s.tree x)
  have hdle := Ty.height_dual_le (s.tree y)
  exact hmeet s₁ c d _ _ hs₁ hc hd (by omega)

theorem follows_meetWithin {n : Nat} {a b : Handle} {t u : Ty} (hs : s.Sound) (ha : s.Denotes a t)
    (hb : s.Denotes b u) (hn : t.height + u.height ≤ n) :
    J.failing.Rel Denotes s (meetWithin n a b) (Ty.meet t u) := by
  induction n generalizing s a b t u with
  | zero => have := Ty.height_pos t; omega
  | succ n ih =>
      obtain ⟨ha, rfl⟩ := ha
      obtain ⟨hb, rfl⟩ := hb
      rw [meetWithin, Ty.meet_eq]
      by_cases hab : a = b
      · rw [if_pos hab, if_pos (congrArg s.tree hab)]
        exact J.failing.pure hs ⟨ha, rfl⟩
      · have htree : s.tree a ≠ s.tree b := fun h => hab (tree_injective hs.toIndexed ha hb h)
        rw [if_neg hab, if_neg htree]
        have hplan : Plan.ofPair (s.tree a) (s.tree a).node (s.tree b) (s.tree b).node =
            (Plan.ofPair a (s.node a) b (s.node b)).map s.tree := by
          rw [Plan.map_ofPair, tree_eq hs.descends ha, tree_eq hs.descends hb]
          rfl
        rw [hplan]
        apply J.follows_get_bind
        rw [meeter, meet_layers hs rfl ha hb]
        refine J.follows_run hs (Plan.tidy_ofPair (node_tidy hs ha) (node_tidy hs hb)) ?_
        exact J.follows_operands hs ha hb hn fun s' x y t u hs' hx hy hle => ih hs' hx hy hle

/-- The meet of handles is the meet of their trees. -/
theorem follows_meet {a b : Handle} {t u : Ty} (hs : s.Sound) (ha : s.Denotes a t)
    (hb : s.Denotes b u) : J.failing.Rel Denotes s (meet a b) (Ty.meet t u) := by
  refine J.follows_meetWithin hs ha hb ?_
  have hta := height_tree_le hs.descends ha.1
  have htb := height_tree_le hs.descends hb.1
  rw [ha.2] at hta
  rw [hb.2] at htb
  omega

theorem follows_join {a b : Handle} {t u : Ty} (hs : s.Sound) (ha : s.Denotes a t)
    (hb : s.Denotes b u) : J.failing.Rel Denotes s (join a b) (Ty.join t u) :=
  J.follows_joinBy hs ha hb fun _ _ _ hs' hc hd => J.follows_meet hs' hc hd

theorem holds_isa {a b : Handle} (hs : s.Sound) (ha : s.Holds a) (hb : s.Holds b) :
    J.Holds s (isa a b) (fun _ r => r = Ty.isa (s.tree a) (s.tree b)) := by
  refine J.bind (J.follows_meet hs ⟨ha, rfl⟩ ⟨hb, rfl⟩) fun s' e hs' hle h => ?_
  rw [Ty.isa]
  generalize Ty.meet (s.tree a) (s.tree b) = y at h
  cases h with
  | ok h =>
      refine J.pure hs' (decide_eq_decide.2 ?_)
      exact Denotes.eq_iff hs' h (Denotes.of_holds hs hle hb)
  | error => exact J.pure hs' rfl

end LatticeJudgement

theorem build_leads (hs : s.Sound) {k : Node Handle} {n : Node Ty} (hk : s.NodeDenotes k n)
    (htidy : n.Tidy) : s.Leads (maker.build k) (fun s' h => s'.Denotes h (Ty.build n)) :=
  leads.holds_build hs hk htidy

theorem dual_follows {x : Handle} {t : Ty} (hs : s.Sound) (hx : s.Denotes x t) :
    leads.failing.Rel Denotes s (liftM (dual x)) (.ok t.dual) :=
  leads.follows_dual hs hx

theorem meet_follows {a b : Handle} {t u : Ty} (hs : s.Sound) (ha : s.Denotes a t)
    (hb : s.Denotes b u) : leads.failing.Rel Denotes s (meet a b) (Ty.meet t u) :=
  leads.follows_meet hs ha hb

theorem join_follows {a b : Handle} {t u : Ty} (hs : s.Sound) (ha : s.Denotes a t)
    (hb : s.Denotes b u) : leads.failing.Rel Denotes s (join a b) (Ty.join t u) :=
  leads.follows_join hs ha hb

section leads

variable {a b : Handle} (hs : s.Sound) (ha : s.Holds a) (hb : s.Holds b)

include hs ha hb

theorem meet_leads :
    s.Leads (meet a b).run (fun s' e => Agree Denotes s' e (Ty.meet (s.tree a) (s.tree b))) :=
  meet_follows hs ⟨ha, rfl⟩ ⟨hb, rfl⟩

theorem join_leads :
    s.Leads (join a b).run (fun s' e => Agree Denotes s' e (Ty.join (s.tree a) (s.tree b))) :=
  join_follows hs ⟨ha, rfl⟩ ⟨hb, rfl⟩

theorem isa_leads : s.Leads (isa a b) (fun _ r => r = Ty.isa (s.tree a) (s.tree b)) :=
  leads.holds_isa hs ha hb

end leads

theorem Denotes.option_mono {s' : Store} (hs : s.Sound) (hle : s ≤ s') {m : Option Handle}
    {o : Option Ty} (h : Option.Rel s.Denotes m o) : Option.Rel s'.Denotes m o := by
  cases h with
  | none => exact .none
  | some h => exact .some (h.mono hs hle)

theorem Denotes.option_unique (hs : s.Sound) {m m' : Option Handle} {o : Option Ty}
    (h : Option.Rel s.Denotes m o) (h' : Option.Rel s.Denotes m' o) : m = m' := by
  cases h with
  | none =>
      cases h'
      rfl
  | some h =>
      cases h' with
      | some h' => exact congrArg some ((Denotes.eq_iff hs h h').2 rfl)

theorem attempt_leads {x : MeetM Handle} {y : Except (Clash Ty) Ty}
    (h : s.Leads x.run (fun s' e => Agree Denotes s' e y)) :
    s.Leads (do match ← x.run with | .ok c => return some c | .error _ => return none)
      (fun s' m => Option.Rel s'.Denotes m y.toOption) :=
  leads.attempt h

/-- Run one after the other, the two programs give the same answer. -/
def SameAnswer {α : Type} (s : Store) (x y : StoreM α) : Prop :=
  (x.run s).1 = (y.run (x.run s).2).1

theorem SameAnswer.of_leads {α β : Type} {x y : StoreM α} {R : Store → α → β → Prop} {t : β}
    (hmono : ∀ s s' c, s.Sound → s ≤ s' → R s c t → R s' c t)
    (hunique : ∀ s c d, s.Sound → R s c t → R s d t → c = d)
    (hx : s.Leads x (fun s' c => R s' c t))
    (hy : ∀ s', s'.Sound → s ≤ s' → s'.Leads y (fun s'' c => R s'' c t)) : s.SameAnswer x y := by
  obtain ⟨hs₁, hle₁, hc⟩ := hx
  obtain ⟨hs₂, hle₂, hd⟩ := hy _ hs₁ hle₁
  exact hunique _ _ _ hs₂ (hmono _ _ _ hs₁ hle₂ hc) hd

end TypeLattice.Store
