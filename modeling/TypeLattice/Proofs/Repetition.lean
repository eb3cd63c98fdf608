import Mathlib.Logic.Relation
import TypeLattice.Proofs.DualMemory
import TypeLattice.Proofs.OperandOrder

namespace TypeLattice.Store

variable {s s' s'' : Store} {a b : Handle} {α β : Type}

def found (s : Store) (k : Nat) : Store := { s with hits := s.hits + k }

theorem found_found (s : Store) (k j : Nat) : (s.found k).found j = s.found (k + j) := by
  simp only [found, Nat.add_assoc]

theorem Later.refl (hs : s.Sound) : s.Later s := ⟨hs, le_refl s, fun _ _ h => h⟩

theorem Later.trans (h : s.Later s') (h' : s'.Later s'') : s.Later s'' where
  sound := h'.sound
  le := le_trans h.le h'.le
  duals a b hab := h'.duals a b (h.duals a b hab)

theorem Later.found (h : s.Later s') (k : Nat) : s.Later (s'.found k) := by
  obtain ⟨hsound, hle⟩ := h.sound.recache (s'.found k) rfl rfl h.sound.cached
  exact ⟨hsound, le_trans h.le hle, h.duals⟩

/-- In every later store the program gives this answer, and finds all it asks for. -/
def Recalls (s : Store) (x : StoreM α) (a : α) : Prop :=
  ∀ s', s.Later s' → ∃ k, x.run s' = (a, s'.found k)

namespace Recalls

variable {x : StoreM α} {c : α} {d : β}

theorem mono (h : s.Recalls x c) (hl : s.Later s') : s'.Recalls x c := fun s'' hl' =>
  h s'' (hl.trans hl')

theorem pure (c : α) : s.Recalls (pure c) c := fun _ _ => ⟨0, rfl⟩

theorem bind {f : α → StoreM β} (hx : s.Recalls x c) (hf : s.Recalls (f c) d) :
    s.Recalls (x >>= f) d := by
  intro s' hl
  obtain ⟨k, hk⟩ := hx s' hl
  obtain ⟨j, hj⟩ := hf _ (hl.found k)
  refine ⟨k + j, ?_⟩
  rw [StateT.run_bind, hk, ← found_found]
  exact hj

theorem get_bind {f : Store → StoreM α} (hf : ∀ s', s.Later s' → f s' = x)
    (hx : s.Recalls x c) : s.Recalls (get >>= f) c := by
  intro s' hl
  obtain ⟨k, hk⟩ := hx s' hl
  refine ⟨k, ?_⟩
  change (f s').run s' = _
  rw [hf s' hl, hk]

theorem intern {r : Record Handle} {h : Handle} (hs : s.Sound) (hr : s.lookup? r = some h) :
    s.Recalls (intern r) h := by
  intro s' hl
  obtain ⟨hh, hrecord⟩ := (hs.lookup_iff r h).1 hr
  obtain ⟨hh', hkept⟩ := hl.le h hh
  have hr' : s'.lookup? r = some h := (hl.sound.lookup_iff r h).2 ⟨hh', hkept.trans hrecord⟩
  exact ⟨1, intern_of_lookup hr'⟩

theorem dual (hab : s.duals[a]? = some b) : s.Recalls (dual a) b := fun _ hl =>
  ⟨0, dual_of_recorded (hl.duals a b hab)⟩

variable {y : MeetM α} {g : α → MeetM β} {e : Except (Clash Handle) β}

theorem bind_ok (hy : s.Recalls y.run (.ok c)) (hg : s.Recalls (g c).run e) :
    s.Recalls (y >>= g).run e := by
  rw [ExceptT.run_bind]
  exact bind hy hg

theorem bind_error {clash : Clash Handle} (hy : s.Recalls y.run (.error clash)) :
    s.Recalls (y >>= g).run (.error clash) := by
  rw [ExceptT.run_bind]
  exact bind hy (pure _)

theorem lift (hx : s.Recalls x c) : s.Recalls (liftM x : MeetM α).run (.ok c) := by
  change s.Recalls (x >>= fun c => Pure.pure (Except.ok c)) (Except.ok c : Except (Clash Handle) α)
  exact bind hx (pure _)

theorem lift_bind (hx : s.Recalls x c) (hg : s.Recalls (g c).run e) :
    s.Recalls (liftM x >>= g).run e :=
  bind_ok hx.lift hg

end Recalls

section keeps

variable {x : StoreM α} {y : MeetM α} {g : α → MeetM β} {Q : Store → α → Prop}
  {R : Store → Except (Clash Handle) β → Prop}

theorem Keeps.lift (hx : s.Keeps x Q) :
    s.Keeps (liftM x : MeetM α).run (fun s' e => ∃ c, e = .ok c ∧ Q s' c) :=
  Keeps.bind hx fun _ c hs' _ hc => Keeps.pure hs' ⟨c, rfl, hc⟩

theorem Keeps.bind_outcome {P : Store → Except (Clash Handle) α → Prop} (hy : s.Keeps y.run P)
    (hok : ∀ s' c, s'.Coherent → s.Later s' → P s' (.ok c) → s'.Keeps (g c).run R)
    (herror : ∀ s' clash, P s' (.error clash) → R s' (.error clash)) :
    s.Keeps (y >>= g).run R := by
  rw [ExceptT.run_bind]
  refine Keeps.bind hy fun s' e hs' hl he => ?_
  cases e with
  | ok c => exact hok s' c hs' hl he
  | error clash => exact Keeps.pure hs' (herror s' clash he)

theorem Keeps.lift_bind (hx : s.Keeps x Q)
    (hg : ∀ s' c, s'.Coherent → s.Later s' → Q s' c → s'.Keeps (g c).run R) :
    s.Keeps (liftM x >>= g).run R := by
  refine Keeps.bind_outcome hx.lift (fun s' c hs' hl ⟨d, hd, hq⟩ => ?_) fun _ _ ⟨_, hd, _⟩ => ?_
  · cases hd
    exact hg s' c hs' hl hq
  · cases hd

end keeps

/-- Once the first program ran, the second one gives the same answer in every later store. -/
def Redoes (s : Store) (x y : MeetM α) : Prop :=
  s.Keeps x.run (fun s' e => s'.Recalls y.run e)

section redoes

variable {x y : MeetM α}

theorem Redoes.pure (hs : s.Coherent) (c : α) : s.Redoes (pure c) (pure c) :=
  Keeps.pure hs (Recalls.pure _)

theorem Redoes.bind {P : Store → Except (Clash Handle) α → Prop} {f g : α → MeetM β}
    (hx : s.Redoes x y) (hp : s.Leads x.run P)
    (hf : ∀ s' c, s'.Coherent → s.Later s' → P s' (.ok c) → s'.Redoes (f c) (g c)) :
    s.Redoes (x >>= f) (y >>= g) := by
  refine Keeps.bind_outcome (hx.and hp) (fun s' c hs' hl hc => ?_) fun s' _ hc => ?_
  · exact (hf s' c hs' hl hc.2).mono fun s'' e hl' he => Recalls.bind_ok (hc.1.mono hl') he
  · exact Recalls.bind_error hc.1

theorem Redoes.get_bind {f g : Store → MeetM α} (hg : ∀ s', s.Later s' → g s' = y)
    (h : s.Redoes (f s) y) : s.Redoes (get >>= f) (get >>= g) := by
  have hget : s.Keeps (get >>= fun s => (f s).run) (fun s' e => s'.Recalls y.run e) :=
    Keeps.get_bind h
  refine Keeps.mono hget fun s' e hl he => ?_
  change s'.Recalls (get >>= fun s => (g s).run) e
  exact Recalls.get_bind (fun t ht => by rw [hg t (hl.trans ht)]) he

theorem redoes_list {f g : α → MeetM β} {xs : List α} (hs : s.Coherent)
    (h : ∀ x ∈ xs, ∀ s', s'.Coherent → s.Later s' → s'.Redoes (f x) (g x)) :
    s.Redoes (xs.mapM f) (xs.mapM g) := by
  induction xs generalizing s with
  | nil => exact Redoes.pure hs []
  | cons x xs ih =>
      rw [List.forall_mem_cons] at h
      rw [List.mapM_cons, List.mapM_cons]
      have hhead := h.1 s hs (Later.refl hs.toSound)
      refine Redoes.bind hhead hhead.2.2 fun s₁ c hs₁ hl₁ _ => ?_
      have htail := ih hs₁ fun z hz s' hs' hl => h.2 z hz s' hs' (hl₁.trans hl)
      refine Redoes.bind htail htail.2.2 fun s₂ cs hs₂ _ _ => ?_
      exact Redoes.pure hs₂ (c :: cs)

theorem redoes_node {f g : α → MeetM Handle} {n : Node α} (hs : s.Coherent)
    (h : ∀ x ∈ n.children, ∀ s', s'.Coherent → s.Later s' → s'.Redoes (f x) (g x)) :
    s.Redoes (n.mapM f) (n.mapM g) := by
  obtain ⟨k, hk⟩ := Node.exists_mapM_eq (m := MeetM) n
  have hlist := redoes_list hs h
  rw [hk f, hk g, map_eq_pure_bind, map_eq_pure_bind]
  refine Redoes.bind hlist hlist.2.2 fun s' ys hs' _ _ => ?_
  exact Redoes.pure hs' (k ys)

end redoes

theorem lookup_intern (r : Record Handle) (s : Store) :
    ((intern r).run s).2.lookup? r = some ((intern r).run s).1 := by
  cases hl : s.lookup? r with
  | some h =>
      rw [intern_of_lookup hl]
      exact hl
  | none => rw [intern_of_none hl, lookup_added, if_pos rfl]

theorem keeps_build {k : Node Handle} {n : Node Ty} (hs : s.Coherent) (hk : s.NodeDenotes k n)
    (htidy : n.Tidy) : s.Keeps (maker.build k) (fun s' h => s'.Recalls (maker.build k) h) := by
  have hkeeps : s.Keeps (maker.build k) (fun s' h => s'.Denotes h (Ty.build n)) :=
    keeps.holds_build hs.toSound hk htidy hs
  have hl := hkeeps.later
  obtain ⟨hadds, hs', hsound, hle, -⟩ := hkeeps
  refine ⟨hadds, hs', hsound, hle, ?_⟩
  cases k with
  | atom c =>
      simp only [Maker.build] at hsound ⊢
      split
      · exact Recalls.pure _
      · next hc =>
          simp only [hc] at hsound
          exact Recalls.intern hsound (lookup_intern _ s)
  | nullable i x =>
      have hx := hk.1 x (List.mem_singleton_self x)
      -- whether nil has to be added is the same in all later stores
      have habsorbs {t : Store} (hst : s.Later t) : t.absorbsNil x = s.absorbsNil x := by
        rw [absorbsNil_eq hst.sound.descends (hx.mono hst.le), absorbsNil_eq hs.descends hx,
          tree_mono hs.descends hst.le hx]
      have hrun : (maker.build (.nullable i x)).run s =
          (if s.absorbsNil x then pure x else intern (.nil i (some x)) : StoreM Handle).run s := rfl
      rw [hrun] at hl hsound ⊢
      refine Recalls.get_bind (fun t ht => by rw [habsorbs (hl.trans ht)]) ?_
      by_cases hnil : s.absorbsNil x
      · rw [if_pos hnil]
        exact Recalls.pure x
      · rw [if_neg hnil] at hsound ⊢
        exact Recalls.intern hsound (lookup_intern _ s)
  | name | func | struct | tuple => exact Recalls.intern hsound (lookup_intern _ s)

theorem redoes_run {p : Plan Handle} {meet join meet' join' : Handle → Handle → MeetM Handle}
    {meetTree joinTree : Ty → Ty → Except (Clash Ty) Ty} (hs : s.Coherent) (htidy : p.Tidy)
    (hfollows : p.Fits s.Holds fun x y => ∀ s', s'.Sound → s ≤ s' →
      leads.failing.Rel Denotes s' (meet x y) (meetTree (s.tree x) (s.tree y)) ∧
        leads.failing.Rel Denotes s' (join x y) (joinTree (s.tree x) (s.tree y)))
    (hredoes : p.Fits s.Holds fun x y => ∀ s', s'.Coherent → s.Later s' →
      s'.Redoes (meet x y) (meet' x y) ∧ s'.Redoes (join x y) (join' x y)) :
    s.Redoes (p.run (fun k => liftM (maker.build k)) meet join fun x y => throw ⟨x, y⟩)
      (p.run (fun k => liftM (maker.build k)) meet' join' fun x y => throw ⟨x, y⟩) := by
  cases p with
  | clash x y => exact Keeps.pure hs (Recalls.pure _)
  | keep x => exact Redoes.pure hs x
  | meet x y => exact (hredoes s hs (Later.refl hs.toSound)).1
  | build n =>
      have hparts : s.Redoes (n.mapM (Piece.run meet join)) (n.mapM (Piece.run meet' join')) := by
        apply redoes_node hs
        intro q hq s' hs' hl
        have hq := hredoes q hq
        cases q with
        | keep x => exact Redoes.pure hs' x
        | meet x y => exact (hq s' hs' hl).1
        | join x y => exact (hq s' hs' hl).2
      have hleads : s.Leads (n.mapM (Piece.run meet join)).run (fun s' e => Agree NodeDenotes s' e
          ((n.map (Piece.map s.tree)).mapM (Piece.run meetTree joinTree))) :=
        leads.follows_parts hs.toSound hfollows
      refine Redoes.bind hparts hleads fun s' k hs' _ hk => ?_
      generalize ht : (n.map (Piece.map s.tree)).mapM (Piece.run meetTree joinTree) = t at hk
      cases hk with
      | ok hk =>
          have htidy' := Node.tidy_of_mapM ((Node.tidy_map _ _).2 htidy) ht
          refine (keeps_build hs' hk htidy').lift.mono fun s'' e _ he => ?_
          obtain ⟨h, rfl, hh⟩ := he
          exact hh.lift

def RedoesEitherWay (s : Store) (f : Handle → Handle → MeetM Handle) (x y : Handle) : Prop :=
  s.Redoes (f x y) (f x y) ∧ s.Redoes (f x y) (f y x)

/-- The duals of both operands are on record after a join, so it is free which one is taken first. -/
theorem redoes_joinBy {meet : Handle → Handle → MeetM Handle} {x y : Handle}
    (hs : s.Coherent) (hx : s.Holds x) (hy : s.Holds y)
    (hheld : ∀ (t : Store) c d, t.Sound → t.Denotes c (s.tree x).dual →
      t.Denotes d (s.tree y).dual → t.Leads (meet c d).run (fun t' e => ∀ z, e = .ok z → t'.Holds z))
    (hmeet : ∀ (t : Store) c d, t.Coherent → t.Denotes c (s.tree x).dual →
      t.Denotes d (s.tree y).dual → t.RedoesEitherWay meet c d) :
    s.RedoesEitherWay (joinBy meet) x y := by
  suffices h : s.Keeps (joinBy meet x y).run (fun t e => t.Recalls (joinBy meet x y).run e ∧
      t.Recalls (joinBy meet y x).run e) from
    ⟨h.mono fun _ _ _ he => he.1, h.mono fun _ _ _ he => he.2⟩
  refine Keeps.lift_bind (keeps_dual hs hx) fun s₁ c hs₁ hl₁ hc => ?_
  refine Keeps.lift_bind (keeps_dual hs₁ (hy.mono hl₁.le)) fun s₂ d hs₂ hl₂ hd => ?_
  replace hc := hl₂.duals x c hc
  have denotes {z w : Handle} (hz : s.Holds z) (hw : s₂.duals[z]? = some w) :
      s₂.Denotes w (s.tree z).dual := by
    obtain ⟨-, hholds, ht⟩ := hs₂.cached z w hw
    exact ⟨hholds, by rw [ht, tree_mono hs.descends (le_trans hl₁.le hl₂.le) hz]⟩
  have hrest {m : MeetM Handle} (hm : s₂.Redoes (meet c d) m) :
      s₂.Redoes (meet c d >>= fun z => liftM (dual z)) (m >>= fun z => liftM (dual z)) := by
    refine Redoes.bind hm (hheld s₂ c d hs₂.toSound (denotes hx hc) (denotes hy hd)) ?_
    intro s₃ z hs₃ _ hz
    refine (keeps_dual hs₃ (hz z rfl)).lift.mono fun s₄ e _ he => ?_
    obtain ⟨w, rfl, hw⟩ := he
    exact (Recalls.dual hw).lift
  obtain ⟨hsame, hswap⟩ := hmeet s₂ c d hs₂ (denotes hx hc) (denotes hy hd)
  refine Keeps.mono ((hrest hsame).and (hrest hswap).2.2) fun t e ht he => ?_
  have hxc := Recalls.dual (ht.duals x c hc)
  have hyd := Recalls.dual (ht.duals y d hd)
  exact ⟨hxc.lift_bind (hyd.lift_bind he.1), hyd.lift_bind (hxc.lift_bind he.2)⟩

theorem holds_of_agree {x : MeetM Handle} {y : Except (Clash Ty) Ty}
    (h : s.Leads x.run (fun s' e => Agree Denotes s' e y)) :
    s.Leads x.run (fun s' e => ∀ z, e = .ok z → s'.Holds z) := by
  refine h.mono fun s' e _ _ he z hz => ?_
  cases he with
  | ok hd =>
      cases hz
      exact hd.1
  | error => cases hz

theorem eq_of_node_eq (hs : s.Sound) (ha : s.Holds a) (hb : s.Holds b) (h : s.node a = s.node b) :
    a = b := by
  apply tree_injective hs.toIndexed ha hb
  rw [tree_eq hs.descends ha, tree_eq hs.descends hb, h]

theorem redoes_operands {n : Nat} (hs : s.Coherent) (ha : s.Holds a) (hb : s.Holds b)
    (hn : (s.tree a).height + (s.tree b).height ≤ n + 1)
    (hmeet : ∀ (t : Store) x y, t.Coherent → t.Holds x → t.Holds y →
      (t.tree x).height + (t.tree y).height ≤ n → t.RedoesEitherWay (meetWithin n) x y) :
    (Plan.ofPair a (s.node a) b (s.node b)).Fits s.Holds fun x y => ∀ t, t.Coherent → s.Later t →
      t.RedoesEitherWay (meetWithin n) x y ∧ t.RedoesEitherWay (joinBy (meetWithin n)) x y := by
  have hfits := plan_held (fun _ _ => Ty.height_lt_of_mem) hs.toSound ha hb
  refine hfits.mono (fun _ h => h) fun x y ⟨hx, hy, hlt⟩ t ht hl => ?_
  have hx' := hx.mono hl.le
  have hy' := hy.mono hl.le
  have htx := tree_mono hs.descends hl.le hx
  have hty := tree_mono hs.descends hl.le hy
  refine ⟨hmeet t x y ht hx' hy' (by rw [htx, hty]; omega), ?_⟩
  have hdual {t' : Store} {c d : Handle} (hc : t'.Denotes c (t.tree x).dual)
      (hd : t'.Denotes d (t.tree y).dual) : (t'.tree c).height + (t'.tree d).height ≤ n := by
    have hcle := Ty.height_dual_le (s.tree x)
    have hdle := Ty.height_dual_le (s.tree y)
    rw [hc.2, hd.2, htx, hty]
    omega
  apply redoes_joinBy ht hx' hy'
  · intro t' c d ht' hc hd
    have hfollows := leads.follows_meetWithin ht' ⟨hc.1, rfl⟩ ⟨hd.1, rfl⟩ (hdual hc hd)
    exact holds_of_agree hfollows
  · intro t' c d ht' hc hd
    exact hmeet t' c d ht' hc.1 hd.1 (hdual hc hd)

theorem redoes_meetWithin {n : Nat} (hs : s.Coherent) (ha : s.Holds a) (hb : s.Holds b)
    (hn : (s.tree a).height + (s.tree b).height ≤ n) : s.RedoesEitherWay (meetWithin n) a b := by
  induction n generalizing s a b with
  | zero => have := Ty.height_pos (s.tree a); omega
  | succ n ih =>
      rw [RedoesEitherWay, meetWithin, meetWithin]
      by_cases hab : a = b
      · rw [if_pos hab, if_pos hab.symm]
        cases hab
        exact ⟨Redoes.pure hs a, Redoes.pure hs a⟩
      · rw [if_neg hab, if_neg (Ne.symm hab)]
        have hsound := hs.toSound
        have htidy := Plan.tidy_ofPair (x := a) (y := b) (node_tidy hsound ha) (node_tidy hsound hb)
        have hfollows := leads.follows_operands hsound ha hb hn
          fun t x y _ _ ht hx hy hle => leads.follows_meetWithin ht hx hy hle
        have hredoes := redoes_operands hs ha hb hn fun t x y ht hx hy hle => ih ht hx hy hle
        have hsame := redoes_run hs htidy hfollows (hredoes.mono (fun _ h => h)
          fun x y h t ht hl => ⟨(h t ht hl).1.1, (h t ht hl).2.1⟩)
        -- all that either run reads of the store are the two records
        have hkept {x : Handle} (hx : s.Holds x) (t : Store) (ht : s.Later t) :
            t.record x = s.record x := (ht.le x hx).2
        constructor
        · refine Redoes.get_bind (fun t ht => by rw [hkept ha t ht, hkept hb t ht]) ?_
          rw [meeter, meet_layers hsound rfl ha hb]
          exact hsame
        · refine Redoes.get_bind (fun t ht => by rw [hkept ha t ht, hkept hb t ht]) ?_
          rw [meeter, meet_layers hsound rfl ha hb, meet_layers hsound rfl hb ha]
          rcases Plan.ofPair_swap (eq_of_node_eq hsound ha hb) with hswap | hswap
          · rw [hswap]
            exact hsame
          · rw [hswap, Plan.run_swap]
            exact redoes_run hs htidy hfollows (hredoes.mono (fun _ h => h)
              fun x y h t ht hl => ⟨(h t ht hl).1.2, (h t ht hl).2.2⟩)

theorem redoes_meet (hs : s.Coherent) (ha : s.Holds a) (hb : s.Holds b) :
    s.RedoesEitherWay meet a b := by
  have hta := height_tree_le hs.descends ha
  have htb := height_tree_le hs.descends hb
  rw [RedoesEitherWay, meet, meet, Nat.add_comm b.index]
  exact redoes_meetWithin hs ha hb (by omega)

theorem redoes_join (hs : s.Coherent) (ha : s.Holds a) (hb : s.Holds b) :
    s.RedoesEitherWay join a b := by
  apply redoes_joinBy hs ha hb
  · intro t c d ht hc hd
    exact holds_of_agree (meet_leads ht hc.1 hd.1)
  · intro t c d ht hc hd
    exact redoes_meet ht hc.1 hd.1

/-- Once the first program ran, and whatever was done next, the second one answers as the first one
did and adds no type. -/
def Repeats (s : Store) (x y : StoreM α) : Prop :=
  ∀ s', Relation.ReflTransGen (fun t t' => ∃ new, t.Step t' new) (x.run s).2 s' →
    (y.run s').1 = (x.run s).1 ∧
    (y.run s').2.size = s'.size ∧ (y.run s').2.misses = s'.misses ∧
    ∃ k, (y.run s').2 = s'.found k

theorem later_of_steps (hs : s.Coherent)
    (h : Relation.ReflTransGen (fun t t' => ∃ new, t.Step t' new) s s') :
    s'.Coherent ∧ s.Later s' := by
  induction h with
  | refl => exact ⟨hs, Later.refl hs.toSound⟩
  | tail _ hstep ih =>
      obtain ⟨new, hstep⟩ := hstep
      obtain ⟨hs', hduals⟩ := hstep.coherent ih.1
      exact ⟨hs', ih.2.trans ⟨hs'.toSound, (hstep.sound ih.1.toSound).2, hduals⟩⟩

theorem repeats_of_recalls {x y : StoreM α} (h : s.Keeps x (fun s' c => s'.Recalls y c)) :
    s.Repeats x y := by
  intro s' hsteps
  obtain ⟨-, hs, -, -, hrecalls⟩ := h
  obtain ⟨k, hk⟩ := hrecalls s' (later_of_steps hs hsteps).2
  rw [hk]
  exact ⟨rfl, rfl, rfl, k, rfl⟩

theorem repeats_reported {x y : MeetM Handle} {t : Except (Clash Ty) Ty} (hredo : s.Redoes x y)
    (hx : s.Leads x.run (fun s' e => Agree Denotes s' e t)) :
    s.Repeats (reported x) (reported y) := by
  apply repeats_of_recalls
  refine Keeps.bind (Keeps.and hredo hx) fun s' e hs' hl he => ?_
  obtain ⟨hrecalls, hagree⟩ := he
  cases hagree with
  | ok hd => exact Keeps.pure hs' (Recalls.bind hrecalls (Recalls.pure _))
  | @error c d hleft hright =>
      refine Keeps.get_bind (Keeps.pure hs' (Recalls.bind hrecalls ?_))
      refine Recalls.get_bind (fun t ht => ?_) (Recalls.pure _)
      rw [tree_mono hs'.descends ht.le hleft.1, tree_mono hs'.descends ht.le hright.1]

variable {log : List (Record Handle)}

/-- A meet, a join or a dual that was asked for once, also without success, is answered ever after
from what is stored, and a meet or a join also with its operands exchanged. -/
theorem repeated_operations_add_nothing (h : s.History log) (ha : s.Holds a) (hb : s.Holds b) :
    (s.Repeats (reported (meet a b)) (reported (meet a b)) ∧
      s.Repeats (reported (meet a b)) (reported (meet b a))) ∧
    (s.Repeats (reported (join a b)) (reported (join a b)) ∧
      s.Repeats (reported (join a b)) (reported (join b a))) ∧
    s.Repeats (dual a) (dual a) := by
  have hs := h.coherent
  have hmeet := meet_leads h.sound ha hb
  have hjoin := join_leads h.sound ha hb
  obtain ⟨hmeet₁, hmeet₂⟩ := redoes_meet hs ha hb
  obtain ⟨hjoin₁, hjoin₂⟩ := redoes_join hs ha hb
  refine ⟨⟨repeats_reported hmeet₁ hmeet, repeats_reported hmeet₂ hmeet⟩,
    ⟨repeats_reported hjoin₁ hjoin, repeats_reported hjoin₂ hjoin⟩, ?_⟩
  exact repeats_of_recalls ((keeps_dual hs ha).mono fun _ _ _ hd => Recalls.dual hd)

/-- Two pairs meet in the first place and clash in the second. Asked again, from either side, the
meet fails alike. -/
theorem failed_meet_repeats : ∃ (s : Store) (a b : Handle) (log : List (Record Handle)),
    s.History log ∧
    s.Denotes a (.mk (.tuple .bottom [.mk (.atom Preset.nil.atom), .mk (.atom Preset.ctrl.atom)])) ∧
    s.Denotes b (.mk (.tuple .bottom [.mk (.atom Preset.int8.atom), .mk (.atom Preset.int8.atom)])) ∧
    ((reported (meet a b)).run s).1 =
      .error (.noMeet (.mk (.atom Preset.ctrl.atom)) (.mk (.atom Preset.int8.atom))) ∧
    (s.Repeats (reported (meet a b)) (reported (meet a b)) ∧
      s.Repeats (reported (meet a b)) (reported (meet b a))) ∧
    (s.Repeats (reported (join a b)) (reported (join a b)) ∧
      s.Repeats (reported (join a b)) (reported (join b a))) ∧
    s.Repeats (dual a) (dual a) := by
  have hnormal (p q : Preset) :
      (Ty.mk (.tuple .bottom [.mk (.atom p.atom), .mk (.atom q.atom)])).Normal :=
    .mk trivial (List.forall_mem_cons.2 ⟨.mk trivial nofun, List.forall_mem_singleton.2
      (.mk trivial nofun)⟩)
  obtain ⟨s, a, b, hs, ha, hb⟩ := exists_two_stored (hnormal .nil .ctrl) (hnormal .int8 .int8)
  obtain ⟨log, hlog⟩ := hs.exists_history
  have hclash : Ty.meet (s.tree a) (s.tree b) =
      .error ⟨.mk (.atom Preset.ctrl.atom), .mk (.atom Preset.int8.atom)⟩ := by
    rw [ha.2, hb.2]
    decide +kernel
  have hreport := (reported_leads (meet_leads hs.sound ha.1 hb.1)).2.2
  rw [hclash] at hreport
  refine ⟨s, a, b, log, hlog, ha, hb, ?_, repeated_operations_add_nothing hlog ha.1 hb.1⟩
  generalize ((reported (meet a b)).run s).1 = e at hreport
  cases hreport
  rfl

end TypeLattice.Store
