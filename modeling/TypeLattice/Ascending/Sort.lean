namespace TypeLattice.Ascending

open Std

variable {α κ : Type} [Ord κ] {key : α → κ} {k : κ} {a : α} {as : List α}

abbrev Sorted {α : Type} [Ord α] (as : List α) : Prop := as.Pairwise (fun a b => compare a b = .lt)

def dedupFrom (key : α → κ) (a : α) : List α → List α
  | [] => [a]
  | b :: bs =>
    if compare (key b) (key a) = .eq then dedupFrom key a bs else a :: dedupFrom key b bs

def dedup (key : α → κ) : List α → List α
  | [] => []
  | a :: as => dedupFrom key a as

/-- A list by its keys. Of elements with one key the first stays, since the sort is stable. -/
def arrange (key : α → κ) (as : List α) : List α :=
  dedup key (as.mergeSort fun a b => (compare (key a) (key b)).isLE)

/-- Where a key was found, or else where an element with this key belongs. -/
inductive Place where
  | found (i : Nat)
  | missing (i : Nat)

/-- Binary search between two positions, given how the key at a position compares to the key
that is looked for. -/
def searchBetween (order : Nat → Ordering) (lo hi : Nat) : Place :=
  if lo < hi then
    match order (lo + (hi - lo) / 2) with
    | .lt => searchBetween order (lo + (hi - lo) / 2 + 1) hi
    | .eq => .found (lo + (hi - lo) / 2)
    | .gt => searchBetween order lo (lo + (hi - lo) / 2)
  else .missing lo
termination_by hi - lo

def orderAt (key : α → κ) (k : κ) (as : List α) (i : Nat) : Ordering :=
  as[i]?.elim .gt fun a => compare (key a) k

def search (key : α → κ) (k : κ) (as : List α) : Place :=
  searchBetween (orderAt key k as) 0 as.length

def find? (key : α → κ) (k : κ) (as : List α) : Option α :=
  match search key k as with
  | .found i => as[i]?
  | .missing _ => none

def insertNew (key : α → κ) (a : α) (as : List α) : List α :=
  match search key (key a) as with
  | .found _ => as
  | .missing i => as.insertIdx i a

theorem dedupFrom_sublist (a : α) (as : List α) : (dedupFrom key a as).Sublist (a :: as) := by
  induction as generalizing a with
  | nil => exact .refl _
  | cons b bs ih =>
      rw [dedupFrom]
      split
      · exact (ih a).trans ((List.sublist_cons_self b bs).cons_cons a)
      · exact (ih b).cons_cons a

theorem dedup_sublist (as : List α) : (dedup key as).Sublist as := by
  cases as with
  | nil => exact .refl _
  | cons a as => exact dedupFrom_sublist a as

theorem mem_of_mem_arrange (h : a ∈ arrange key as) : a ∈ as :=
  List.mem_mergeSort.1 ((dedup_sublist _).subset h)

theorem searchBetween_found {order : Nat → Ordering} {lo hi i : Nat}
    (h : searchBetween order lo hi = .found i) : order i = .eq := by
  fun_induction searchBetween order lo hi with
  | case1 lo hi _ _ ih | case3 lo hi _ _ ih => exact ih h
  | case2 lo hi _ heq =>
      cases h
      exact heq
  | case4 => cases h

/-- If the positions of smaller keys come before those of greater ones, a search that finds
nothing ends where they meet. -/
theorem searchBetween_missing {order : Nat → Ordering} {lo hi p : Nat}
    (hlt : ∀ i j, i < j → order j = .lt → order i = .lt)
    (hgt : ∀ i j, i < j → order i = .gt → order j = .gt) (hlo : ∀ i < lo, order i = .lt)
    (hhi : ∀ i, hi ≤ i → order i = .gt) (h : searchBetween order lo hi = .missing p) :
    (∀ i < p, order i = .lt) ∧ ∀ i, p ≤ i → order i = .gt := by
  fun_induction searchBetween order lo hi with
  | case1 lo hi _ hmid ih =>
      refine ih (fun i hi => ?_) hhi h
      rcases Nat.lt_succ_iff_lt_or_eq.1 hi with hi | rfl
      · exact hlt _ _ hi hmid
      · exact hmid
  | case2 => cases h
  | case3 lo hi _ hmid ih =>
      refine ih hlo (fun i hi => ?_) h
      rcases Nat.lt_or_eq_of_le hi with hi | rfl
      · exact hgt _ _ hi hmid
      · exact hmid
  | case4 lo hi hle =>
      cases h
      exact ⟨hlo, fun i hi => hhi i (Nat.le_trans (Nat.not_lt.1 hle) hi)⟩

theorem orderAt_of_lt {i : Nat} (h : i < as.length) :
    orderAt key k as i = compare (key as[i]) k := by
  rw [orderAt, List.getElem?_eq_getElem h]
  rfl

theorem orderAt_of_le {i : Nat} (h : as.length ≤ i) : orderAt key k as i = .gt := by
  rw [orderAt, List.getElem?_eq_none h]
  rfl

theorem search_found {i : Nat} (h : search key k as = .found i) :
    ∃ a, as[i]? = some a ∧ compare (key a) k = .eq := by
  have heq := searchBetween_found h
  rcases Nat.lt_or_ge i as.length with hi | hi
  · rw [orderAt_of_lt hi] at heq
    exact ⟨as[i], List.getElem?_eq_getElem hi, heq⟩
  · rw [orderAt_of_le hi] at heq
    cases heq

theorem mem_of_find? (h : find? key k as = some a) : a ∈ as ∧ compare (key a) k = .eq := by
  rw [find?] at h
  split at h
  · next hs =>
      obtain ⟨b, hb, heq⟩ := search_found hs
      cases hb.symm.trans h
      exact ⟨List.mem_of_getElem? hb, heq⟩
  · cases h

theorem search_map {β : Type} (f : β → α) (bs : List β) :
    search key k (bs.map f) = search (fun b => key (f b)) k bs := by
  have horder : orderAt key k (bs.map f) = orderAt (fun b => key (f b)) k bs := by
    funext i
    rw [orderAt, orderAt, List.getElem?_map]
    cases bs[i]? <;> rfl
  rw [search, search, horder, List.length_map]

theorem find?_map {β : Type} (f : β → α) (bs : List β) :
    find? key k (bs.map f) = (find? (fun b => key (f b)) k bs).map f := by
  rw [find?, find?, search_map]
  split
  · rw [List.getElem?_map]
  · rfl

section ordered

variable [TransOrd κ]

theorem orderAt_lt_of_lt {i j : Nat} (hs : Sorted (as.map key)) (hij : i < j)
    (h : orderAt key k as j = .lt) : orderAt key k as i = .lt := by
  rcases Nat.lt_or_ge j as.length with hj | hj
  · have hi := Nat.lt_trans hij hj
    have hlt := List.pairwise_iff_getElem.1 (List.pairwise_map.1 hs) i j hi hj hij
    rw [orderAt_of_lt hj] at h
    rw [orderAt_of_lt hi]
    exact TransCmp.lt_trans hlt h
  · rw [orderAt_of_le hj] at h
    cases h

theorem orderAt_gt_of_lt {i j : Nat} (hs : Sorted (as.map key)) (hij : i < j)
    (h : orderAt key k as i = .gt) : orderAt key k as j = .gt := by
  rcases Nat.lt_or_ge j as.length with hj | hj
  · have hi := Nat.lt_trans hij hj
    have hlt := List.pairwise_iff_getElem.1 (List.pairwise_map.1 hs) i j hi hj hij
    rw [orderAt_of_lt hi] at h
    rw [orderAt_of_lt hj]
    exact TransCmp.gt_trans (OrientedCmp.gt_of_lt hlt) h
  · exact orderAt_of_le hj

theorem search_missing {p : Nat} (hs : Sorted (as.map key)) (h : search key k as = .missing p) :
    p ≤ as.length ∧ (∀ a ∈ as.take p, compare (key a) k = .lt) ∧
      ∀ a ∈ as.drop p, compare (key a) k = .gt := by
  obtain ⟨hlt, hgt⟩ := searchBetween_missing (fun _ _ => orderAt_lt_of_lt hs)
    (fun _ _ => orderAt_gt_of_lt hs) (fun i hi => absurd hi (Nat.not_lt_zero i))
    (fun _ => orderAt_of_le) h
  refine ⟨Nat.le_of_not_lt fun hp => ?_, fun a ha => ?_, fun a ha => ?_⟩
  · cases (hlt _ hp).symm.trans (orderAt_of_le (Nat.le_refl _))
  · obtain ⟨i, hi⟩ := List.mem_iff_getElem?.1 ha
    rw [List.getElem?_take] at hi
    split at hi
    · next hip =>
        have hi' := hlt i hip
        rwa [orderAt, hi] at hi'
    · cases hi
  · obtain ⟨i, hi⟩ := List.mem_iff_getElem?.1 ha
    rw [List.getElem?_drop] at hi
    have hi' := hgt (p + i) (Nat.le_add_right p i)
    rwa [orderAt, hi] at hi'

theorem insertNew_of_missing {p : Nat} (hs : Sorted (as.map key))
    (h : search key (key a) as = .missing p) :
    ∃ bs cs, as = bs ++ cs ∧ insertNew key a as = bs ++ a :: cs ∧
      (∀ b ∈ bs, compare (key b) (key a) = .lt) ∧ ∀ c ∈ cs, compare (key a) (key c) = .lt := by
  obtain ⟨hp, hbelow, habove⟩ := search_missing hs h
  refine ⟨as.take p, as.drop p, (List.take_append_drop p as).symm, ?_, hbelow,
    fun c hc => OrientedCmp.lt_of_gt (habove c hc)⟩
  have hins := List.modifyTailIdx_add (List.cons a) 0 (as.take p) (as.drop p)
  rw [List.take_append_drop, List.length_take_of_le hp] at hins
  rw [insertNew, h]
  exact hins

theorem insertNew_sorted (a : α) (hs : Sorted (as.map key)) : Sorted ((insertNew key a as).map key) := by
  cases h : search key (key a) as with
  | found =>
      rw [insertNew, h]
      exact hs
  | missing =>
      obtain ⟨bs, cs, rfl, hins, hbs, hcs⟩ := insertNew_of_missing hs h
      rw [List.map_append, Sorted, List.pairwise_append] at hs
      rw [hins, List.map_append, List.map_cons, Sorted, List.pairwise_append, List.pairwise_cons,
        List.forall_mem_map, List.forall_mem_map]
      refine ⟨hs.1, ⟨hcs, hs.2.1⟩, fun b hb => ?_⟩
      rw [List.forall_mem_cons]
      exact ⟨hbs b hb, hs.2.2 _ (List.mem_map_of_mem hb)⟩

theorem dedupFrom_sorted (h : ((a :: as).map key).Pairwise fun k l => (compare k l).isLE) :
    Sorted ((dedupFrom key a as).map key) := by
  induction as generalizing a with
  | nil => simp [dedupFrom]
  | cons b bs ih =>
      rw [List.map_cons, List.pairwise_cons] at h
      rw [dedupFrom]
      split
      · exact ih (List.pairwise_cons.2 ⟨fun k hk => h.1 k (List.mem_cons_of_mem _ hk),
          (List.pairwise_cons.1 h.2).2⟩)
      · next hne =>
          have hab : compare (key a) (key b) = .lt := by
            have := h.1 (key b) List.mem_cons_self
            cases hc : compare (key a) (key b) with
            | lt => rfl
            | eq => exact absurd (OrientedCmp.eq_symm hc) hne
            | gt => simp [hc] at this
          refine List.pairwise_cons.2 ⟨fun k hk => ?_, ih h.2⟩
          obtain ⟨c, hc, rfl⟩ := List.mem_map.1 hk
          rcases List.mem_cons.1 ((dedupFrom_sublist b bs).subset hc) with rfl | hc
          · exact hab
          · have hbc := (List.pairwise_cons.1 h.2).1 (key c) (List.mem_map_of_mem hc)
            exact TransCmp.lt_of_lt_of_isLE hab hbc

theorem isLE_trans (key : α → κ) (a b c : α) (hab : (compare (key a) (key b)).isLE = true)
    (hbc : (compare (key b) (key c)).isLE = true) : (compare (key a) (key c)).isLE = true :=
  TransCmp.isLE_trans hab hbc

theorem isLE_total (key : α → κ) (a b : α) :
    ((compare (key a) (key b)).isLE || (compare (key b) (key a)).isLE) = true := by
  have hswap : compare (key b) (key a) = (compare (key a) (key b)).swap := OrientedCmp.eq_swap
  rw [hswap]
  cases compare (key a) (key b) <;> rfl

theorem arrange_sorted (key : α → κ) (as : List α) : Sorted ((arrange key as).map key) := by
  rw [arrange]
  have hsort := List.pairwise_mergeSort (isLE_trans key) (isLE_total key) as
  cases hc : as.mergeSort fun a b => (compare (key a) (key b)).isLE with
  | nil => exact .nil
  | cons a as =>
      rw [hc] at hsort
      exact dedupFrom_sorted (List.pairwise_map.2 hsort)

end ordered

end TypeLattice.Ascending
