import TypeLattice.Proofs.Associativity

namespace TypeLattice.Ty

variable {a b c u v : Ty}

def Meets (a b : Ty) : Prop := meet a b = .ok (inf a b)

theorem meets_of_ok {m : Ty} (h : meet a b = .ok m) : Meets a b := by
  rw [Meets, h, inf_of_meet h]

theorem meets_self (a : Ty) : Meets a a := by
  rw [Meets, meet_eq, if_pos rfl, inf_self]

theorem Meets.comm (h : Meets a b) : Meets b a := by
  rw [Meets, meet_comm, h, inf_comm]

def Runs (q : Piece Ty) : Prop := q.run meet join = .ok (q.value inf sup)

theorem runs_meet (h : Meets u v) : Runs (.meet u v) := h

theorem runs_join (h : Meets u.dual v.dual) : Runs (.join u v) := by
  rw [Runs, Piece.run, join, h]
  rfl

section plans

variable {m : Ty} {l : Node (Piece Ty)}

theorem meets_of_run (h : (Plan.ofPair a a.node b b.node).run (fun k => .ok (build k)) meet join
    (fun x y => .error ⟨x, y⟩) = .ok m) : Meets a b := by
  by_cases hab : a = b
  · rw [hab]
    exact meets_self b
  · exact meets_of_ok (by rw [meet_eq, if_neg hab, h])

theorem meets_of_meet (hp : Plan.ofPair a a.node b b.node = .meet u v) (h : Meets u v) :
    Meets a b := by
  apply meets_of_run
  rw [hp]
  exact h

theorem meets_of_keep (hlt : ¬b.node.kind < a.node.kind)
    (hp : Plan.ofOrdered a a.node b b.node = .keep u) : Meets a b := by
  apply meets_of_run (m := u)
  rw [Plan.ofPair, if_neg hlt, hp]
  rfl

theorem meets_of_build (hlt : ¬b.node.kind < a.node.kind)
    (hp : Plan.ofOrdered a a.node b b.node = .build l) (hl : ∀ q ∈ l.children, Runs q) :
    Meets a b := by
  apply meets_of_run
  rw [Plan.ofPair, if_neg hlt, hp]
  exact Plan.run_build hl

end plans

/-- Three types whose meet exists in both groupings, but is not the same. -/
structure Breaks (a b c : Ty) : Prop where
  left : Meets a b
  leftOuter : Meets (inf a b) c
  right : Meets b c
  rightOuter : Meets a (inf b c)
  ne : inf (inf a b) c ≠ inf a (inf b c)

structure Throughout (P : Ty → Prop) (a b c : Ty) : Prop where
  first : P a
  second : P b
  third : P c
  inner : P (inf a b)
  inner' : P (inf b c)
  outer : P (inf (inf a b) c)
  outer' : P (inf a (inf b c))

theorem throughout_true (a b c : Ty) : Throughout (fun _ => True) a b c := by
  constructor <;> trivial

theorem throughout_normal (ha : a.Normal) (hb : b.Normal) (hc : c.Normal) :
    Throughout Normal a b c where
  first := ha
  second := hb
  third := hc
  inner := normal_inf ha hb
  inner' := normal_inf hb hc
  outer := normal_inf (normal_inf ha hb) hc
  outer' := normal_inf ha (normal_inf hb hc)

/-- A place in a type such that a meet of the whole is the meet at the place. -/
structure Frame (P : Ty → Prop) (F : Ty → Ty) : Prop where
  normal : ∀ u, u.Normal → P u → (F u).Normal
  meets : ∀ u v, u.Normal → v.Normal → Meets u v → Meets (F u) (F v)
  commute : ∀ u v, u.Normal → v.Normal → P u → P (inf u v) → inf (F u) (F v) = F (inf u v)
  inj : ∀ u v, u.Normal → v.Normal → F u = F v → u = v

section frame

variable {P Q Q' : Ty → Prop} {F : Ty → Ty} (hF : Frame P F) (hn : Throughout Normal a b c)
  (hP : Throughout P a b c)

include hF hn hP

theorem Frame.commute_inner : inf (F a) (F b) = F (inf a b) ∧ inf (F b) (F c) = F (inf b c) :=
  ⟨hF.commute a b hn.first hn.second hP.first hP.inner,
    hF.commute b c hn.second hn.third hP.second hP.inner'⟩

theorem Frame.commute_outer : inf (inf (F a) (F b)) (F c) = F (inf (inf a b) c) ∧
    inf (F a) (inf (F b) (F c)) = F (inf a (inf b c)) := by
  obtain ⟨hleft, hright⟩ := hF.commute_inner hn hP
  rw [hleft, hright]
  exact ⟨hF.commute _ c hn.inner hn.third hP.inner hP.outer,
    hF.commute a _ hn.first hn.inner' hP.first hP.outer'⟩

theorem Frame.breaks (h : Breaks a b c) : Breaks (F a) (F b) (F c) := by
  obtain ⟨hleft, hright⟩ := hF.commute_inner hn hP
  obtain ⟨hleft', hright'⟩ := hF.commute_outer hn hP
  refine ⟨hF.meets a b hn.first hn.second h.left, ?_, hF.meets b c hn.second hn.third h.right, ?_,
    fun he => h.ne ?_⟩
  · rw [hleft]
    exact hF.meets _ c hn.inner hn.third h.leftOuter
  · rw [hright]
    exact hF.meets a _ hn.first hn.inner' h.rightOuter
  · rw [hleft', hright'] at he
    exact hF.inj _ _ hn.outer hn.outer' he

theorem Frame.throughout (hQ : ∀ u, Q u → Q' (F u)) (h : Throughout Q a b c) :
    Throughout Q' (F a) (F b) (F c) := by
  obtain ⟨hleft, hright⟩ := hF.commute_inner hn hP
  obtain ⟨hleft', hright'⟩ := hF.commute_outer hn hP
  exact {
    first := hQ _ h.first
    second := hQ _ h.second
    third := hQ _ h.third
    inner := hleft ▸ hQ _ h.inner
    inner' := hright ▸ hQ _ h.inner'
    outer := hleft' ▸ hQ _ h.outer
    outer' := hright' ▸ hQ _ h.outer' }

end frame

theorem frame_name (l : String) : Frame (fun _ => True) (fun u => mk (.name l u)) where
  normal u hu _ := normal_name l hu
  meets u v _ _ h := by
    refine meets_of_build (l := .name l (.meet u v)) (Nat.lt_irrefl _) ?_ ?_
    · exact if_pos rfl
    · exact List.forall_mem_singleton.2 (runs_meet h)
  commute u v _ _ _ _ := inf_name_name l u v
  inj u v _ _ h := by
    cases h
    rfl

theorem frame_nullable (h : Half) : Frame Wordy (fun u => mk (.nullable h u)) where
  normal u hu hw := .mk (absorbsNil_of_wordy hw) (List.forall_mem_singleton.2 hu)
  meets u v _ _ hm := by
    refine meets_of_build (l := .nullable (h.inf h) (.meet u v)) (Nat.lt_irrefl _) ?_ ?_
    · rfl
    · exact List.forall_mem_singleton.2 (runs_meet hm)
  commute u v _ _ hu huv := by
    rw [inf_nullable_nullable (absorbsNil_of_wordy hu), Half.inf_self,
      build_nullable h (absorbsNil_of_wordy huv)]
  inj u v _ _ he := by
    cases he
    rfl

theorem zipWith_insert {α β : Type} (f : α → α → β) (xs ys : List α) (x y : α) :
    List.zipWith f (xs ++ x :: ys) (xs ++ y :: ys) =
      xs.map (fun z => f z z) ++ f x y :: ys.map (fun z => f z z) := by
  rw [List.zipWith_append rfl, List.zipWith_cons_cons, List.zipWith_self, List.zipWith_self]

theorem zipWith_inf_insert (xs ys : List Ty) (u v : Ty) :
    List.zipWith inf (xs ++ u :: ys) (xs ++ v :: ys) = xs ++ inf u v :: ys := by
  simp only [zipWith_insert, inf_self, List.map_id']

theorem zipWith_sup_insert {xs ys : List Ty} (hxs : ∀ t ∈ xs, t.Normal) (hys : ∀ t ∈ ys, t.Normal)
    (u v : Ty) : List.zipWith sup (xs ++ u :: ys) (xs ++ v :: ys) = xs ++ sup u v :: ys := by
  have hself {ts : List Ty} (h : ∀ t ∈ ts, t.Normal) : ts.map (fun t => sup t t) = ts := by
    rw [List.map_congr_left fun t ht => sup_self (h t ht), List.map_id']
  rw [zipWith_insert, hself hxs, hself hys]

theorem forall_mem_insert {α : Type} {P : α → Prop} {xs ys : List α} {x : α} :
    (∀ z ∈ xs ++ x :: ys, P z) ↔ P x ∧ (∀ z ∈ xs, P z) ∧ ∀ z ∈ ys, P z := by
  rw [List.forall_mem_append, List.forall_mem_cons, and_left_comm]

theorem frame_tuple (h : Half) {es ds : List Ty} (hes : ∀ t ∈ es, t.Normal)
    (hds : ∀ t ∈ ds, t.Normal) :
    Frame (fun _ => True) (fun u => mk (.tuple h (es ++ u :: ds))) where
  normal u hu _ := .mk trivial (forall_mem_insert.2 ⟨hu, hes, hds⟩)
  meets u v _ _ hm := by
    refine meets_of_build (l := .tuple (h.inf h)
      (List.zipWith .meet (es ++ u :: ds) (es ++ v :: ds))) (Nat.lt_irrefl _) ?_ ?_
    · exact if_pos (by simp)
    · rw [Node.children, zipWith_insert]
      refine forall_mem_insert.2 ⟨runs_meet hm, ?_, ?_⟩ <;>
        exact List.forall_mem_map.2 fun t _ => runs_meet (meets_self t)
  commute u v _ _ _ _ := by
    rw [inf_tuple, if_pos (by simp), Half.inf_self, zipWith_inf_insert]
  inj u v _ _ he := by
    simpa using he

theorem frame_result (h : Half) {ps : List Ty} (hps : ∀ t ∈ ps, t.Normal) :
    Frame (fun _ => True) (fun u => mk (.func h ps u)) where
  normal u hu _ := .mk trivial (List.forall_mem_append.2 ⟨hps, List.forall_mem_singleton.2 hu⟩)
  meets u v _ _ hm := by
    refine meets_of_build (l := .func (h.inf h) (List.zipWith .join ps ps) (.meet u v))
      (Nat.lt_irrefl _) ?_ ?_
    · exact if_pos rfl
    · apply List.forall_mem_append.2 ⟨?_, List.forall_mem_singleton.2 (runs_meet hm)⟩
      rw [List.zipWith_self]
      exact List.forall_mem_map.2 fun t _ => runs_join (meets_self t.dual)
  commute u v _ _ _ _ := by
    rw [inf_func hps, if_pos rfl, Half.inf_self,
      Ascending.zipWith_self fun t ht => sup_self (hps t ht)]
  inj u v _ _ he := by
    cases he
    rfl

theorem frame_param (h : Half) {ps qs : List Ty} {r : Ty} (hps : ∀ t ∈ ps, t.Normal)
    (hqs : ∀ t ∈ qs, t.Normal) (hr : r.Normal) :
    Frame (fun _ => True) (fun u => mk (.func h (ps ++ u.dual :: qs) r)) where
  normal u hu _ := .mk trivial (List.forall_mem_append.2
    ⟨forall_mem_insert.2 ⟨normal_dual hu, hps, hqs⟩, List.forall_mem_singleton.2 hr⟩)
  meets u v hu hv hm := by
    refine meets_of_build (l := .func (h.inf h)
      (List.zipWith .join (ps ++ u.dual :: qs) (ps ++ v.dual :: qs)) (.meet r r))
      (Nat.lt_irrefl _) ?_ ?_
    · exact if_pos (by simp)
    · apply List.forall_mem_append.2 ⟨?_, List.forall_mem_singleton.2 (runs_meet (meets_self r))⟩
      rw [zipWith_insert]
      refine forall_mem_insert.2 ⟨runs_join ?_, ?_, ?_⟩
      · rw [dual_dual hu, dual_dual hv]
        exact hm
      · exact List.forall_mem_map.2 fun t _ => runs_join (meets_self t.dual)
      · exact List.forall_mem_map.2 fun t _ => runs_join (meets_self t.dual)
  commute u v hu hv _ _ := by
    have hnormal : ∀ t ∈ ps ++ u.dual :: qs, t.Normal :=
      forall_mem_insert.2 ⟨normal_dual hu, hps, hqs⟩
    rw [inf_func hnormal, if_pos (by simp), Half.inf_self, zipWith_sup_insert hps hqs, inf_self,
      sup, dual_dual hu, dual_dual hv]
  inj u v hu hv he := by
    have hdual : u.dual = v.dual := by simpa using he
    rw [← dual_dual hu, hdual, dual_dual hv]

theorem frame_field (h : Half) (l : String) {fs gs : List (String × Ty)}
    (hsorted : Ascending.Sorted ((fs ++ (l, a) :: gs).map Prod.fst))
    (hfs : ∀ f ∈ fs, f.2.Normal) (hgs : ∀ f ∈ gs, f.2.Normal) :
    Frame (fun _ => True) (fun u => mk (.struct h (fs ++ (l, u) :: gs))) where
  normal u hu _ := by
    refine .mk ?_ ?_
    · simpa [NormalLayer, Node.Tidy] using hsorted
    · exact List.forall_mem_map.2 (forall_mem_insert.2 ⟨hu, hfs, hgs⟩)
  meets u v _ _ hm := by
    have hkeys : (fs ++ (l, u) :: gs).map Prod.fst = (fs ++ (l, v) :: gs).map Prod.fst := by simp
    refine meets_of_build (l := .struct h (List.zipWith (fun f g => (f.1, Piece.meet f.2 g.2))
      (fs ++ (l, u) :: gs) (fs ++ (l, v) :: gs)))
      (Nat.lt_irrefl _) ?_ ?_
    · cases h with
      | top => rw [← Ascending.union_of_keys_eq hkeys]; rfl
      | bottom => rw [← Ascending.inter_of_keys_eq hkeys]; rfl
    · rw [Node.children, zipWith_insert]
      refine List.forall_mem_map.2 (forall_mem_insert.2 ⟨runs_meet hm, ?_, ?_⟩) <;>
        exact List.forall_mem_map.2 fun f _ => runs_meet (meets_self f.2)
  commute u v _ _ _ _ := by
    have hkeys : (fs ++ (l, u) :: gs).map Prod.fst = (fs ++ (l, v) :: gs).map Prod.fst := by simp
    have hmerge : List.zipWith (mergeField inf) (fs ++ (l, u) :: gs) (fs ++ (l, v) :: gs) =
        fs ++ (l, inf u v) :: gs := by
      simp only [zipWith_insert, mergeField, inf_self, List.map_id']
    rw [inf_struct, ← hmerge]
    cases h with
    | top => simp only [poolFields, Ascending.unionBy, Ascending.union_of_keys_eq hkeys]
    | bottom => simp only [poolFields, Ascending.interBy, Ascending.inter_of_keys_eq hkeys]
  inj u v _ _ he := by
    simpa using he

theorem exists_label (l k : String) : ∃ m, m ≠ l ∧ m ≠ k := by
  refine ⟨l ++ k ++ "x", fun h => ?_, fun h => ?_⟩
  all_goals
    have hlength := congrArg String.length h
    simp only [String.length_append] at hlength
    have hone : "x".length = 1 := rfl
    omega

theorem meets_any (t : Ty) : Meets (ofAtom (.universal .top)) t :=
  meets_of_keep (Nat.not_lt_zero _) rfl

theorem meets_all (t : Ty) : Meets (ofAtom (.universal .bottom)) t :=
  meets_of_keep (Nat.not_lt_zero _) rfl

theorem meets_name_ne {l k : String} (hk : k ≠ l) (h : Meets u v) :
    Meets (mk (.name l u)) (mk (.name k v)) := by
  refine meets_of_meet ?_ h
  rw [node, node, Plan.ofPair, if_neg (by exact Nat.lt_irrefl _)]
  exact if_neg hk

theorem meets_name_left (hb : b.IsValue) (l : String) (h : Meets u b) :
    Meets (mk (.name l u)) b := by
  by_cases hu : b.node.kind = .universal
  · rw [(universal_cases hu).resolve_left hb.1]
    exact (meets_all _).comm
  · rcases ofPair_name hu hb.2 l u with hp | hp
    · exact meets_of_meet hp h
    · exact meets_of_meet hp h.comm

/-- A meet of names over the neutral type is a name if it is the last one that is met. -/
theorem breaks_of_named_any {l k m : String} (hk : k ≠ l) (hm : m ≠ k) (hml : m ≠ l) :
    Breaks (mk (.name l (ofAtom (.universal .top)))) (mk (.name k (ofAtom (.universal .top))))
      (mk (.name m (ofAtom (.universal .top)))) := by
  have hleft := inf_name_ne hk (ofAtom (.universal .top)) (ofAtom (.universal .top))
  have hright := inf_name_ne hm (ofAtom (.universal .top)) (ofAtom (.universal .top))
  rw [inf_self] at hleft hright
  refine ⟨meets_name_ne hk (meets_self _), ?_, meets_name_ne hm (meets_self _), ?_, ?_⟩
  · rw [hleft]
    exact meets_any _
  · rw [hright]
    exact (meets_any _).comm
  · rw [hleft, hright, inf_any, inf_comm, inf_any]
    simpa using hml

section twice

variable {l k m : String} (hl : m ≠ l) (hk : k ≠ m) (hu : u.IsValue)

include hu in
theorem inf_named_self (k : String) : inf (mk (.name k u)) u = u := by
  rw [inf_name_left hu, inf_self]

include hl in
theorem inf_named_twice : inf (mk (.name l (mk (.name k u)))) (mk (.name m (mk (.name k u)))) =
    mk (.name k u) := by
  rw [inf_name_ne hl, inf_self]

include hk hu in
theorem inf_named_once : inf (mk (.name m (mk (.name k u)))) (mk (.name k u)) = u := by
  rw [inf_name_ne hk, inf_named_self hu]

include hl hk hu

/-- Different outer names leave the inner one, unless it is lost before they meet. -/
theorem breaks_of_named_twice :
    Breaks (mk (.name l (mk (.name k u)))) (mk (.name m (mk (.name k u)))) (mk (.name k u)) := by
  have hmeets : Meets (mk (.name k u)) u := meets_name_left hu k (meets_self u)
  refine ⟨meets_name_ne hl (meets_self _), ?_, meets_name_ne hk hmeets, ?_, ?_⟩
  · rw [inf_named_twice hl]
    exact meets_self _
  · rw [inf_named_once hk hu]
    exact meets_name_left hu l hmeets
  · rw [inf_named_twice hl, inf_named_once hk hu, inf_self, inf_name_left hu, inf_named_self hu]
    intro he
    exact hu.2 (he ▸ rfl)

theorem wordy_named_twice (hw : u.Wordy) : Throughout Wordy (mk (.name l (mk (.name k u))))
    (mk (.name m (mk (.name k u)))) (mk (.name k u)) := by
  have hname {v : Ty} (i : String) (hv : v.Wordy) : (mk (.name i v)).Wordy := by
    rwa [Wordy, unname_name]
  refine ⟨hname l (hname k hw), hname m (hname k hw), hname k hw, ?_, ?_, ?_, ?_⟩
  · rw [inf_named_twice hl]
    exact hname k hw
  · rwa [inf_named_once hk hu]
  · rw [inf_named_twice hl, inf_self]
    exact hname k hw
  · rwa [inf_named_once hk hu, inf_name_left hu, inf_named_self hu]

end twice

theorem meets_anyScalar {t : Ty} (hnil : t.unname.node.admitsNil = false)
    (hctrl : t.unname.node.kind ≠ .ctrl) : Meets t anyScalar ∧
      (inf t anyScalar).node.kind ≠ .name ∧ (inf t anyScalar).node.kind ≠ .nil := by
  induction t with
  | mk n ih =>
      by_cases hname : (mk n).node.kind = .name
      · obtain ⟨l, u, rfl⟩ := Node.kind_eq_name.1 hname
        have hvalue : anyScalar.IsValue := ⟨by simp, nofun⟩
        rw [unname_name] at hnil hctrl
        obtain ⟨hm, hk⟩ := ih u (List.mem_singleton_self u) hnil hctrl
        rw [inf_name_left hvalue]
        exact ⟨meets_name_left hvalue l hm, hk⟩
      · rw [unname_of_ne hname] at hnil hctrl
        by_cases hu : (mk n).node.kind = .universal
        · rcases universal_cases hu with he | he
          · rw [he, inf_any]
            exact ⟨meets_any _, nofun, nofun⟩
          · rw [he, inf_all]
            exact ⟨meets_all _, nofun, nofun⟩
        · have hcore : (mk n).IsCore := by
            refine Kind.isCore_iff.2 ⟨hu, fun h => ?_, hname⟩
            rw [Node.admitsNil, h] at hnil
            cases hnil
          have hkinds := Kind.isCore_iff.1 hcore
          rw [inf_comm, inf_anyScalar hcore]
          refine ⟨Meets.comm ?_, hkinds.2.2, hkinds.2.1⟩
          exact meets_of_keep (Kind.not_lt_scalar hcore) (Plan.ofScalar_of_ne_ctrl .top hctrl)

/-- A name below nil is kept by nil and lost to all values, though nil is one of them. -/
theorem breaks_of_named_nullable {t : Ty} (h : Half) (hnil : t.absorbsNil = false)
    (hname : t.node.kind = .name) (hctrl : t.unname.node.kind ≠ .ctrl) :
    Breaks (mk (.nullable h t)) nil anyScalar := by
  have hadmits : t.unname.node.admitsNil = false := (Bool.or_eq_false_iff.1 hnil).2
  obtain ⟨hm, hk, hk'⟩ := meets_anyScalar hadmits hctrl
  have hkeep : Meets (mk (.nullable h t)) nil :=
    Meets.comm (meets_of_build (l := .nullable .bottom (.keep t)) (Nat.lt_irrefl _) rfl
      (List.forall_mem_singleton.2 rfl))
  have hleft : inf (mk (.nullable h t)) nil = mk (.nullable .bottom t) := by
    rw [inf_comm, inf_nil_nullable h hnil]
  have hany : anyScalar.IsCore := rfl
  refine ⟨hkeep, ?_, ?_, ?_, ?_⟩
  · rw [hleft]
    exact meets_of_build (l := .nullable (Half.bottom.inf .top) (.meet t anyScalar))
      (by decide : ¬Kind.scalar < Kind.nil) rfl (List.forall_mem_singleton.2 (runs_meet hm))
  · exact meets_of_build (l := .atom .nil) (by decide : ¬Kind.scalar < Kind.nil) rfl nofun
  · rw [inf_nil_anyScalar]
    exact hkeep
  · rw [hleft, inf_nil_anyScalar, hleft, inf_nullable_core hany fun _ => hctrl]
    simp only [build]
    split
    · intro he
      exact hk' (by rw [he]; rfl)
    · intro he
      have hself : inf t anyScalar = t := (Node.nullable.inj (mk.inj he)).2
      rw [hself] at hk
      exact hk hname

/-- Two types with which the meets of the first one depend on the grouping. -/
structure Partners (a b c : Ty) : Prop where
  second : b.Normal
  third : c.Normal
  breaks : Breaks a b c
  -- Nil is added to words only, so below nil no grouping may leave them.
  words : a.Wordy → Throughout Wordy a b c

theorem Partners.frame {P : Ty → Prop} {F : Ty → Ty} (hF : Frame P F) (ha : a.Normal)
    (h : Partners a b c) (hP : Throughout P a b c)
    (hwords : (F a).Wordy → Throughout Wordy (F a) (F b) (F c)) : Partners (F a) (F b) (F c) where
  second := hF.normal b h.second hP.second
  third := hF.normal c h.third hP.third
  breaks := hF.breaks (throughout_normal ha h.second h.third) hP h.breaks
  words := hwords

theorem partners_of_frame {F : Ty → Ty} (hF : Frame (fun _ => True) F) (ha : a.Normal)
    (hword : ∀ u, ¬(F u).Wordy) (h : ∃ b c, Partners a b c) : ∃ b c, Partners (F a) b c := by
  obtain ⟨b, c, h⟩ := h
  exact ⟨F b, F c, h.frame hF ha (throughout_true a b c) fun hw => absurd hw (hword a)⟩

theorem partners_of_word_frame {F : Ty → Ty} (hF : Frame (fun _ => True) F) (ha : a.Normal)
    (hword : ∀ u, (F u).Wordy) (h : ∃ b c, Partners a b c) : ∃ b c, Partners (F a) b c := by
  obtain ⟨b, c, h⟩ := h
  have hn := throughout_normal ha h.second h.third
  have htrue := throughout_true a b c
  exact ⟨F b, F c, h.frame hF ha htrue fun _ => hF.throughout hn htrue (fun u _ => hword u) htrue⟩

theorem partners_name (l : String) (ha : a.Normal) (h : ∃ b c, Partners a b c) :
    ∃ b c, Partners (mk (.name l a)) b c := by
  obtain ⟨b, c, h⟩ := h
  have hF := frame_name l
  have htrue := throughout_true a b c
  have hword (u : Ty) : (mk (.name l u)).Wordy ↔ u.Wordy := by rw [Wordy, unname_name, Wordy]
  refine ⟨mk (.name l b), mk (.name l c), h.frame hF ha htrue fun hw => ?_⟩
  have hn := throughout_normal ha h.second h.third
  exact hF.throughout hn htrue (fun u => (hword u).2) (h.words ((hword a).1 hw))

theorem partners_nullable (i : Half) (ha : a.Normal) (hw : a.Wordy) (h : ∃ b c, Partners a b c) :
    ∃ b c, Partners (mk (.nullable i a)) b c := by
  obtain ⟨b, c, h⟩ := h
  refine ⟨mk (.nullable i b), mk (.nullable i c), h.frame (frame_nullable i) ha (h.words hw) ?_⟩
  intro hw'
  cases hw'

theorem partners_param (i : Half) {ps qs : List Ty} {r : Ty} (hps : ∀ t ∈ ps, t.Normal)
    (hqs : ∀ t ∈ qs, t.Normal) (hr : r.Normal) (ha : a.Normal) (h : ∃ b c, Partners a.dual b c) :
    ∃ b c, Partners (mk (.func i (ps ++ a :: qs) r)) b c := by
  have hF := frame_param i hps hqs hr
  have hpartners := partners_of_word_frame hF (normal_dual ha) (fun _ => rfl) h
  rwa [dual_dual ha] at hpartners

theorem wordy_of_nullable {i : Half} {u : Ty} (hn : (mk (.nullable i u)).Normal)
    (h : SimplyNamedLayer .top (.nullable i u)) : u.Wordy := by
  by_cases hname : u.node.kind = .name
  · rw [Wordy, h hname]
    rfl
  · have habsorbs : u.absorbsNil = false := hn.layer
    rw [absorbsNil_eq hname] at habsorbs
    rw [Wordy, unname_of_ne hname]
    simpa using habsorbs

theorem partners_of_nullable_layer {i : Half} {u : Ty} (hn : (mk (.nullable i u)).Normal)
    (h : ¬SimplyNamedLayer .top (.nullable i u)) : ∃ b c, Partners (mk (.nullable i u)) b c := by
  obtain ⟨hname, hctrl⟩ := Classical.not_imp.1 h
  refine ⟨nil, anyScalar, normal_ofAtom _, normal_ofAtom _,
    breaks_of_named_nullable i hn.layer hname hctrl, fun hw => ?_⟩
  cases hw

theorem partners_of_layer {n : Node Ty} (hn : (mk n).Normal) (h : ¬SimplyNamedLayer .top n)
    (hparts : ∀ j u, (j, u) ∈ n.sided .top → SimplyNamed j u) : ∃ b c, Partners (mk n) b c := by
  cases n with
  | name l u =>
      have hu : u.Normal := hn.parts u (List.mem_singleton_self u)
      by_cases hany : u = ofAtom (.universal .top)
      · subst hany
        obtain ⟨k, hk, -⟩ := exists_label l l
        obtain ⟨m, hm, hml⟩ := exists_label k l
        refine ⟨mk (.name k _), mk (.name m _), normal_name k hu, normal_name m hu,
          breaks_of_named_any hk hm hml, fun hw => ?_⟩
        rw [Wordy, unname_name] at hw
        cases hw
      · have hname : u.node.kind = .name := by
          by_contra hne
          exact h ⟨hany, hne⟩
        have hsimple := hparts .top u (List.mem_singleton_self _)
        obtain ⟨k⟩ := u
        obtain ⟨l', v, rfl⟩ := Node.kind_eq_name.1 hname
        have hv : v.IsValue := hsimple.layer
        obtain ⟨m, hml, hm⟩ := exists_label l l'
        refine ⟨mk (.name m _), _, normal_name m hu, hu, breaks_of_named_twice hml hm.symm hv,
          fun hw => ?_⟩
        rw [Wordy, unname_name, unname_name] at hw
        exact wordy_named_twice hml hm.symm hv hw
  | nullable i u => exact partners_of_nullable_layer hn h
  | _ => exact absurd trivial h

/-- Every type that is not simply named has partners with which its meets depend on the
grouping. -/
theorem exists_partners (ha : a.Normal) (h : ¬SimplyNamed .top a) : ∃ b c, Partners a b c := by
  -- By height: the partners of a parameter are those of its dual, which is not a component.
  obtain ⟨d, hd⟩ : ∃ d, a.height ≤ d := ⟨_, Nat.le_refl _⟩
  induction d generalizing a with
  | zero => have := height_pos a; omega
  | succ d ih =>
      obtain ⟨n⟩ := a
      by_cases hparts : ∀ j u, (j, u) ∈ n.sided .top → SimplyNamed j u
      · exact partners_of_layer ha (fun hn => h (.mk hn hparts)) hparts
      · simp only [not_forall] at hparts
        obtain ⟨j, u, hmem, hu⟩ := hparts
        have hchild := Node.mem_children_of_mem_sided hmem
        have hlt := height_lt_of_mem hchild
        have hnu := ha.parts u hchild
        cases n with
        | atom => cases hchild
        | name l v =>
            cases List.mem_singleton.1 hmem
            exact partners_name l hnu (ih hnu hu (by omega))
        | nullable i v =>
            cases List.mem_singleton.1 hmem
            by_cases hlayer : SimplyNamedLayer .top (.nullable i u)
            · exact partners_nullable i hnu (wordy_of_nullable ha hlayer) (ih hnu hu (by omega))
            · exact partners_of_nullable_layer ha hlayer
        | func i ps r =>
            have hps : ∀ p ∈ ps, p.Normal := fun p hp => ha.parts p (List.mem_append_left _ hp)
            rcases List.mem_append.1 hmem with hmem | hmem
            · obtain ⟨p, hp, he⟩ := List.mem_map.1 hmem
              cases he
              obtain ⟨qs, rs, rfl⟩ := List.append_of_mem hp
              obtain ⟨-, hqs, hrs⟩ := forall_mem_insert.1 hps
              have hr : r.Normal := ha.parts r (List.mem_append_right _ (List.mem_singleton_self r))
              have hdual : ¬SimplyNamed .top u.dual := by
                intro hd
                have hback := simplyNamed_dual (normal_dual hnu) hd
                rw [dual_dual hnu] at hback
                exact hu hback
              have hex := ih (normal_dual hnu) hdual (by rw [height_dual hnu]; omega)
              exact partners_param i hqs hrs hr hnu hex
            · cases List.mem_singleton.1 hmem
              exact partners_of_word_frame (frame_result i hps) hnu (fun _ => rfl)
                (ih hnu hu (by omega))
        | struct i fs =>
            obtain ⟨v, hv, he⟩ := List.mem_map.1 hmem
            cases he
            obtain ⟨f, hf, rfl⟩ := List.mem_map.1 hv
            obtain ⟨gs, es, rfl⟩ := List.append_of_mem hf
            have hfs := List.forall_mem_map.1 ha.parts
            obtain ⟨-, hgs, hes⟩ := forall_mem_insert.1 hfs
            exact partners_of_frame (frame_field i f.1 ha.layer hgs hes) hnu nofun
              (ih hnu hu (by omega))
        | tuple i es =>
            obtain ⟨v, hv, he⟩ := List.mem_map.1 hmem
            cases he
            obtain ⟨gs, ds, rfl⟩ := List.append_of_mem hv
            obtain ⟨-, hgs, hds⟩ := forall_mem_insert.1 ha.parts
            exact partners_of_frame (frame_tuple i hgs hds) hnu nofun (ih hnu hu (by omega))

end TypeLattice.Ty
