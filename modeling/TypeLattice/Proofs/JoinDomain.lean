import TypeLattice.Proofs.ControlClash

namespace TypeLattice

variable {α β : Type}

theorem Ascending.filterMap_union {γ δ : Type} {cmp : α → β → Ordering} {left : α → γ} {right : β → γ}
    {both : α → β → γ} {f : γ → Option δ} (hleft : ∀ a, f (left a) = none)
    (hright : ∀ b, f (right b) = none) (as : List α) (bs : List β) :
    (union cmp left right both as bs).filterMap f = (inter cmp both as bs).filterMap f := by
  induction as generalizing bs with
  | nil => simp [hright]
  | cons a as iha =>
      induction bs with
      | nil => simp [hleft]
      | cons b bs ihb =>
          rw [union_cons_cons, inter_cons_cons]
          cases cmp a b with
          | lt => exact (List.filterMap_cons_none (hleft a)).trans (iha (b :: bs))
          | gt => exact (List.filterMap_cons_none (hright b)).trans ihb
          | eq => simp only [List.filterMap_cons, iha]

def Piece.demand : Piece α → Option (α × α)
  | keep _ => none
  | meet x y | join x y => some (x, y)

namespace Plan

/-- The pairs that have to be combined for the plan to go through, unless it clashes. -/
def demands : Plan α → Option (List (α × α))
  | clash _ _ => none
  | keep _ => some []
  | meet x y => some [(x, y)]
  | build n => some (n.children.filterMap Piece.demand)

theorem demands_map (f : α → β) (p : Plan α) :
    (p.map f).demands = p.demands.map (List.map (Prod.map f f)) := by
  cases p with
  | clash | keep | meet => rfl
  | build n =>
      simp only [map, demands, Option.map_some, Node.children_map, List.filterMap_map,
        List.map_filterMap]
      congr 2
      funext q
      cases q <;> rfl

theorem forall_mem_demands {P : α → Prop} {R : α → α → Prop} {p : Plan α} {ds : List (α × α)}
    (hp : p.Fits P R) (h : p.demands = some ds) : ∀ d ∈ ds, R d.1 d.2 := by
  intro d hd
  cases p with
  | clash => cases h
  | keep =>
      cases h
      cases hd
  | meet u v =>
      cases h
      cases List.mem_singleton.1 hd
      exact hp
  | build n =>
      cases h
      obtain ⟨q, hq, hqd⟩ := List.mem_filterMap.1 hd
      have hq := hp q hq
      cases q with
      | keep => cases hqd
      | meet | join =>
          cases hqd
          exact hq

theorem isOk_run {ε : Type} {make : Node α → α} {meet join clash : α → α → Except ε α}
    {combines : α × α → Bool} {p : Plan α} (hclash : ∀ u v, (clash u v).isOk = false)
    (hp : p.Fits (fun _ => True)
      (fun u v => (meet u v).isOk = combines (u, v) ∧ (join u v).isOk = combines (u, v))) :
    (p.run (fun l => .ok (make l)) meet join clash).isOk = p.demands.any (·.all combines) := by
  cases p with
  | clash u v => exact hclash u v
  | keep u => rfl
  | meet u v => exact hp.1.trans (Bool.and_true _).symm
  | build n =>
      rw [run, Node.isOk_bind true fun _ _ => rfl, Bool.and_true, Node.isOk_mapM, demands,
        Option.any_some, List.all_filterMap, Bool.eq_iff_iff, List.all_eq_true, List.all_eq_true]
      refine forall₂_congr fun q hq => ?_
      have hq := hp q hq
      cases q with
      | keep => exact Iff.rfl
      | meet u v => rw [Piece.run, hq.1]; rfl
      | join u v => rw [Piece.run, hq.2]; rfl

section flip

variable (x y : α)

@[simp] theorem demands_ofPick {γ : Type} (f : γ → Atom) (p : Pick γ) :
    (ofPick x y f p).demands = some [] := by
  cases p <;> rfl

@[simp] theorem demands_ofTargets (f : Half → OrdSet Nat → Atom) (i j : Half) (s t : OrdSet Nat) :
    (ofTargets f x i s y j t).demands = some [] := by
  cases i <;> cases j <;> rfl

theorem demands_ofNil (k : Node α) : (ofNil x y k.flip).demands = (ofNil x y k).demands := by
  cases k with
  | atom a =>
      cases a with
      | scalar i => cases i <;> rfl
      | _ => rfl
  | _ => rfl

theorem demands_ofNullable (h : Half) (z : α) (k : Node α) :
    (ofNullable x h.flip z y k.flip).demands = (ofNullable x h z y k).demands := by
  cases k with
  | atom a => cases a <;> rfl
  | _ => rfl

theorem demands_ofName (l : String) (z : α) (k : Node α) :
    (ofName l z y k.flip).demands = (ofName l z y k).demands := by
  cases k <;> rfl

theorem demands_ofScalar (h : Half) (k : Node α) :
    (ofScalar x h.flip y k.flip).demands = (ofScalar x h y k).demands := by
  cases k with
  | atom a => cases a <;> rfl
  | _ => rfl

theorem demands_ofCtrl (k : Node α) : (ofCtrl x y k.flip).demands = (ofCtrl x y k).demands := by
  cases k with
  | atom a => cases a <;> rfl
  | _ => rfl

theorem demands_ofInt (c : Numeric IntWidth Int64) (k : Node α) :
    (ofInt x c.dual y k.flip).demands = (ofInt x c y k).demands := by
  cases k with
  | atom a =>
      cases a with
      | int => simp [ofInt, Node.flip, Atom.dual]
      | _ => rfl
  | _ => rfl

theorem demands_ofFlt (c : Numeric FltWidth Binary64) (k : Node α) :
    (ofFlt x c.dual y k.flip).demands = (ofFlt x c y k).demands := by
  cases k with
  | atom a =>
      cases a with
      | flt => simp [ofFlt, Node.flip, Atom.dual]
      | _ => rfl
  | _ => rfl

theorem demands_ofFunPtr (h : Half) (s : OrdSet Nat) (k : Node α) :
    (ofFunPtr x h.flip s y k.flip).demands = (ofFunPtr x h s y k).demands := by
  cases k with
  | atom a =>
      cases a with
      | funPtr => simp [ofFunPtr, Node.flip, Atom.dual]
      | _ => rfl
  | _ => rfl

theorem demands_ofRpc (h : Half) (s : OrdSet Nat) (k : Node α) :
    (ofRpc x h.flip s y k.flip).demands = (ofRpc x h s y k).demands := by
  cases k with
  | atom a =>
      cases a with
      | rpc => simp [ofRpc, Node.flip, Atom.dual]
      | _ => rfl
  | _ => rfl

theorem demands_ofFunc (h : Half) (ps : List α) (r : α) (k : Node α) :
    (ofFunc x h.flip ps r y k.flip).demands = (ofFunc x h ps r y k).demands := by
  cases k with
  | atom a => cases a <;> rfl
  | func i qs q =>
      simp only [ofFunc, Node.flip]
      split <;> rfl
  | _ => rfl

theorem demands_ofOop (h : Half) (k : Node α) :
    (ofOop x h.flip y k.flip).demands = (ofOop x h y k).demands := by
  simp only [ofOop, Node.kind_flip]
  split <;> rfl

theorem demands_ofStr (h : Half) (k : Node α) :
    (ofStr x h.flip y k.flip).demands = (ofStr x h y k).demands := by
  cases k with
  | atom a =>
      cases a with
      | strConst => cases h <;> rfl
      | _ => rfl
  | _ => rfl

theorem demands_ofStrConst (v : String) (k : Node α) :
    (ofStrConst x v y k.flip).demands = (ofStrConst x v y k).demands := by
  cases k with
  | atom a =>
      cases a with
      | str i => cases i <;> rfl
      | _ => rfl
  | _ => rfl

theorem demands_ofStruct (h : Half) (fs : List (String × α)) (k : Node α) :
    (ofStruct x h.flip fs y k.flip).demands = (ofStruct x h fs y k).demands := by
  cases k with
  | atom a => cases a <;> rfl
  | struct i gs =>
      have hscan : (Ascending.union (fun f g : String × α => compare f.1 g.1)
          (fun f => (f.1, Piece.keep f.2)) (fun g => (g.1, Piece.keep g.2))
          (fun f g => (f.1, Piece.meet f.2 g.2)) fs gs).filterMap (fun q => q.2.demand) =
          (Ascending.inter (fun f g : String × α => compare f.1 g.1)
            (fun f g => (f.1, Piece.meet f.2 g.2)) fs gs).filterMap (fun q => q.2.demand) :=
        Ascending.filterMap_union (fun _ => rfl) (fun _ => rfl) fs gs
      cases h <;> cases i <;>
        simp [ofStruct, Node.flip, Half.flip, demands, Node.children, List.filterMap_map, hscan]
  | _ => rfl

theorem demands_ofTuple (h : Half) (es : List α) (k : Node α) :
    (ofTuple x h.flip es y k.flip).demands = (ofTuple x h es y k).demands := by
  cases k with
  | atom a => cases a <;> rfl
  | tuple i ds =>
      simp only [ofTuple, Node.flip]
      split <;> rfl
  | _ => rfl

theorem demands_ofOrdered (n k : Node α) :
    (ofOrdered x n.flip y k.flip).demands = (ofOrdered x n y k).demands := by
  cases n with
  | atom a =>
      cases a with
      | universal => rfl
      | nil => exact demands_ofNil x y k
      | scalar h => exact demands_ofScalar x y h k
      | ctrl => exact demands_ofCtrl x y k
      | int c => exact demands_ofInt x y c k
      | flt c => exact demands_ofFlt x y c k
      | funPtr h s => exact demands_ofFunPtr x y h s k
      | rpc h s => exact demands_ofRpc x y h s k
      | oop h => exact demands_ofOop x y h k
      | str h => exact demands_ofStr x y h k
      | strConst v => exact demands_ofStrConst x y v k
  | nullable h z => exact demands_ofNullable x y h z k
  | name l z => exact demands_ofName y l z k
  | func h ps r => exact demands_ofFunc x y h ps r k
  | struct h fs => exact demands_ofStruct x y h fs k
  | tuple h es => exact demands_ofTuple x y h es k

theorem demands_ofPair (n k : Node α) :
    (ofPair x n.flip y k.flip).demands = (ofPair x n y k).demands := by
  simp only [ofPair, Node.kind_flip]
  split
  · exact demands_ofOrdered y x k n
  · exact demands_ofOrdered x y n k

end flip

end Plan

namespace Ty

variable {a b : Ty}

theorem isOk_join (a b : Ty) : (join a b).isOk = (meet a.dual b.dual).isOk := by
  rw [join]
  cases meet a.dual b.dual <;> rfl

theorem operands_normal (ha : a.Normal) (hb : b.Normal) :
    (Plan.ofPair a a.node b b.node).Fits (fun _ => True)
      (fun u v => u.Normal ∧ v.Normal ∧ u.height + v.height < a.height + b.height) := by
  have h := operands_closed (fun _ h => Everywhere.parts h) ha hb
  refine (Plan.fits_ofPair (fun u v h => ⟨h.2.1, h.1, by omega⟩) h).mono ?_ fun _ _ h => h
  exact fun _ _ => trivial

/-- Whether two types have a meet, given that the pairs below them have a join where they have a
meet. -/
theorem isOk_meet_eq (ha : a.Normal) (hb : b.Normal)
    (h : ∀ u v : Ty, u.Normal → v.Normal → u.height + v.height < a.height + b.height →
      (join u v).isOk = (meet u v).isOk) :
    (meet a b).isOk = (a = b || (Plan.ofPair a a.node b b.node).demands.any
      (·.all fun d => (meet d.1 d.2).isOk)) := by
  rw [meet_eq]
  by_cases hab : a = b
  · rw [if_pos hab, decide_eq_true hab, Bool.true_or]
    rfl
  · rw [if_neg hab, decide_eq_false hab, Bool.false_or]
    apply Plan.isOk_run
    · exact fun _ _ => rfl
    · refine (operands_normal ha hb).mono (fun _ h => h) fun u v ⟨hu, hv, hlt⟩ => ?_
      exact ⟨rfl, h u v hu hv hlt⟩

theorem isOk_meet_dual (ha : a.Normal) (hb : b.Normal) :
    (meet a.dual b.dual).isOk = (meet a b).isOk := by
  induction a, b using pair_induction with
  | h a b ih =>
      have hjoin (u v : Ty) (hu : u.Normal) (hv : v.Normal)
          (hlt : u.height + v.height < a.height + b.height) : (join u v).isOk = (meet u v).isOk :=
        (isOk_join u v).trans (ih u v hlt hu hv)
      have hheight : a.dual.height + b.dual.height = a.height + b.height := by
        rw [height_dual ha, height_dual hb]
      have heq : a.dual = b.dual ↔ a = b :=
        ⟨fun h => by rw [← dual_dual ha, h, dual_dual hb], congrArg dual⟩
      have hplan : Plan.ofPair a.dual a.dual.node b.dual b.dual.node =
          (Plan.ofPair a a.node.flip b b.node.flip).map dual := by
        rw [Plan.map_ofPair, dual_of_normal ha, dual_of_normal hb]
        rfl
      rw [isOk_meet_eq (normal_dual ha) (normal_dual hb) (hheight ▸ hjoin), isOk_meet_eq ha hb hjoin,
        hplan, Plan.demands_map, Plan.demands_ofPair]
      congr 1
      · exact decide_eq_decide.2 heq
      · cases hd : (Plan.ofPair a a.node b b.node).demands with
        | none => rfl
        | some ds =>
            rw [Option.map_some, Option.any_some, Option.any_some, List.all_map, Bool.eq_iff_iff,
              List.all_eq_true, List.all_eq_true]
            refine forall₂_congr fun d hmem => ?_
            obtain ⟨hu, hv, hlt⟩ := Plan.forall_mem_demands (operands_normal ha hb) hd d hmem
            rw [← ih d.1 d.2 hlt hu hv]
            rfl

end Ty

namespace Store

variable {s : Store} {a b : Handle} {log : List (Record Handle)}

def Succeeds (s : Store) (x : MeetM Handle) : Prop := ∃ h s', x.run.run s = (.ok h, s')

theorem succeeds_iff {x : MeetM Handle} {y : Except (Clash Ty) Ty}
    (hx : s.Leads x.run (fun s' e => Agree Denotes s' e y)) : s.Succeeds x ↔ y.isOk = true := by
  obtain ⟨-, -, hagree⟩ := hx
  rw [Succeeds]
  generalize x.run.run s = r at *
  obtain ⟨e, s'⟩ := r
  cases hagree with
  | ok => exact iff_of_true ⟨_, s', rfl⟩ rfl
  | error => exact iff_of_false nofun nofun

def meetOfDuals (a b : Handle) : MeetM Handle := do
  let a ← dual a
  let b ← dual b
  meet a b

theorem meetOfDuals_leads (hs : s.Sound) (ha : s.Holds a) (hb : s.Holds b) :
    s.Leads (meetOfDuals a b).run
      (fun s' e => Agree Denotes s' e (Ty.meet (s.tree a).dual (s.tree b).dual)) := by
  have hb₁ {s' : Store} (hle : s ≤ s') := Denotes.of_holds hs hle hb
  change leads.failing.Rel Denotes s (meetOfDuals a b)
    (Except.ok (s.tree a).dual >>= fun t => Except.ok (s.tree b).dual >>= fun u => Ty.meet t u)
  refine leads.failing.bind (dual_follows hs ⟨ha, rfl⟩) fun s₁ c t hs₁ hle₁ ht hc => ?_
  refine leads.failing.bind (dual_follows hs₁ (hb₁ hle₁)) fun s₂ d u hs₂ hle₂ _ hd => ?_
  exact meet_follows hs₂ (hc.mono hs₁ hle₂) hd

/-- A join exists exactly where a meet does, control inside or not, and so does the meet of the
duals. No later operation changes whether they exist. -/
theorem join_defined_where_meet_is (h : s.History log) (ha : s.Holds a) (hb : s.Holds b) :
    (s.Succeeds (join a b) ↔ s.Succeeds (meet a b)) ∧
    (s.Succeeds (meetOfDuals a b) ↔ s.Succeeds (meet a b)) ∧
    ∀ (s' : Store) log', s'.History log' → s ≤ s' →
      (s'.Succeeds (meet a b) ↔ s.Succeeds (meet a b)) ∧
      (s'.Succeeds (join a b) ↔ s.Succeeds (meet a b)) := by
  have hs := h.sound
  have hdual := Ty.isOk_meet_dual (hs.normal a ha) (hs.normal b hb)
  have hmeet := succeeds_iff (meet_leads hs ha hb)
  refine ⟨?_, ?_, fun s' log' h' hle => ?_⟩
  · rw [succeeds_iff (join_leads hs ha hb), hmeet, Ty.isOk_join, hdual]
  · rw [succeeds_iff (meetOfDuals_leads hs ha hb), hmeet, hdual]
  · have ha' := Denotes.of_holds hs hle ha
    have hb' := Denotes.of_holds hs hle hb
    rw [succeeds_iff (meet_follows h'.sound ha' hb'), succeeds_iff (join_follows h'.sound ha' hb'),
      hmeet, Ty.isOk_join, hdual]
    exact ⟨Iff.rfl, Iff.rfl⟩

/-- Records of control and of bytes have neither meet nor join. With nil both exist, since nobody
looks into the record. -/
theorem records_of_control_have_neither :
    ∃ (s : Store) (a b : Handle) (log : List (Record Handle)), s.History log ∧
    s.Denotes a (.mk (.struct .bottom [("x", .mk (.atom Preset.ctrl.atom))])) ∧
    s.Denotes b (.mk (.struct .bottom [("x", .mk (.atom Preset.int8.atom))])) ∧
    ¬s.Succeeds (meet a b) ∧ ¬s.Succeeds (join a b) ∧
    s.Succeeds (meet a Preset.nil.handle) ∧ s.Succeeds (join a Preset.nil.handle) := by
  have hnormal (p : Preset) : (Ty.mk (.struct .bottom [("x", .mk (.atom p.atom))])).Normal :=
    .mk (List.pairwise_singleton _ _) (List.forall_mem_singleton.2 (.mk trivial nofun))
  obtain ⟨s, a, b, hs, ha, hb⟩ := exists_two_stored (hnormal .ctrl) (hnormal .int8)
  obtain ⟨log, hlog⟩ := hs.exists_history
  have hnil := tree_preset hs.sound .nil
  have hfails : ¬s.Succeeds (meet a b) := by
    rw [succeeds_iff (meet_follows hs.sound ha hb)]
    decide +kernel
  have hexists : s.Succeeds (meet a Preset.nil.handle) := by
    rw [succeeds_iff (meet_follows hs.sound ha hnil)]
    decide +kernel
  exact ⟨s, a, b, log, hlog, ha, hb, hfails, mt (join_defined_where_meet_is hlog ha.1 hb.1).1.1 hfails,
    hexists, (join_defined_where_meet_is hlog ha.1 hnil.1).1.2 hexists⟩

end Store

end TypeLattice
