import TypeLattice.Proofs.KeyedMerge

namespace TypeLattice

namespace Ascending

variable {α κ : Type} [Ord κ] {key : α → κ} {k : κ} {a b : α} {as bs : List α}

def insertLinear (key : α → κ) (a : α) : List α → List α
  | [] => [a]
  | b :: bs =>
    match compare (key a) (key b) with
    | .lt => a :: b :: bs
    | .eq => b :: bs
    | .gt => b :: insertLinear key a bs

theorem insertLinear_of_forall_lt (h : ∀ b ∈ as, compare (key a) (key b) = .lt) :
    insertLinear key a as = a :: as := by
  cases as with
  | nil => rfl
  | cons b as => rw [insertLinear, h b List.mem_cons_self]

theorem get_dedupFrom [Std.LawfulEqOrd κ] [DecidableEq κ] (a : α) (as : List α) :
    get key (dedupFrom key a as) k = get key (a :: as) k := by
  induction as generalizing a with
  | nil => rfl
  | cons b bs ih =>
      rw [dedupFrom]
      split
      · next heq =>
          have hkey := Std.LawfulEqCmp.eq_of_compare heq
          rw [ih, get_cons, get_cons (a := a), get_cons (a := b), hkey]
          split <;> rfl
      · rw [get_cons, ih, get_cons (a := a)]

variable [Std.TransOrd κ]

theorem insertLinear_append (hbs : ∀ b ∈ bs, compare (key b) (key a) = .lt) :
    insertLinear key a (bs ++ as) = bs ++ insertLinear key a as := by
  induction bs with
  | nil => rfl
  | cons b bs ih =>
      rw [List.forall_mem_cons] at hbs
      rw [List.cons_append, insertLinear, Std.OrientedCmp.gt_of_lt hbs.1, ih hbs.2,
        List.cons_append]

/-- The place that a binary search finds is where a walk from the left would stop. -/
theorem insertNew_eq_insertLinear (a : α) (h : Sorted (as.map key)) :
    insertNew key a as = insertLinear key a as := by
  cases hs : search key (key a) as with
  | missing p =>
      obtain ⟨bs, cs, rfl, hins, hbs, hcs⟩ := insertNew_of_missing h hs
      rw [hins, insertLinear_append hbs, insertLinear_of_forall_lt hcs]
  | found i =>
      obtain ⟨b, hb, heq⟩ := search_found hs
      obtain ⟨bs, cs, rfl⟩ := List.append_of_mem (List.mem_of_getElem? hb)
      rw [List.map_append, List.map_cons, Sorted, List.pairwise_append] at h
      have hbs : ∀ c ∈ bs, compare (key c) (key a) = .lt := by
        intro c hc
        have hlt := h.2.2 (key c) (List.mem_map_of_mem hc) (key b) List.mem_cons_self
        exact Std.TransCmp.lt_of_lt_of_eq hlt heq
      rw [insertNew, hs, insertLinear_append hbs, insertLinear, Std.OrientedCmp.eq_symm heq]

variable [Std.LawfulEqOrd κ] [DecidableEq κ]

theorem find?_eq_get (h : Sorted (as.map key)) : find? key k as = get key as k := by
  rw [find?]
  split
  · next i hs =>
      obtain ⟨a, ha, heq⟩ := search_found hs
      rw [ha, ← Std.LawfulEqCmp.eq_of_compare heq, get_of_mem h (List.mem_of_getElem? ha)]
  · next p hs =>
      obtain ⟨-, hbelow, habove⟩ := search_missing h hs
      rw [eq_comm, get, List.find?_eq_none]
      intro a ha heq
      have heq : compare (key a) k = .eq := by
        rw [of_decide_eq_true heq, Std.ReflOrd.compare_self]
      rw [← List.take_append_drop p as, List.mem_append] at ha
      rcases ha with ha | ha
      · cases (hbelow a ha).symm.trans heq
      · cases (habove a ha).symm.trans heq

/-- A stable sort keeps the order of the elements with one key. -/
theorem filter_mergeSort (as : List α) (k : κ) :
    ((as.mergeSort fun a b => (compare (key a) (key b)).isLE).filter fun a => key a = k) =
      as.filter fun a => key a = k := by
  have hle : (as.filter fun a => key a = k).Pairwise fun a b =>
      (compare (key a) (key b)).isLE = true := by
    refine List.pairwise_of_forall_mem_list fun a ha b hb => ?_
    rw [List.mem_filter, decide_eq_true_iff] at ha hb
    rw [ha.2, hb.2, Std.ReflOrd.compare_self]
    rfl
  -- the elements with one key are in order as they stand, and a stable sort leaves them so
  have hsub := List.sublist_mergeSort (isLE_trans key) (isLE_total key) hle List.filter_sublist
  have hperm := List.mergeSort_perm as fun a b => (compare (key a) (key b)).isLE
  have hsub' := hsub.filter fun a => decide (key a = k)
  rw [List.filter_filter] at hsub'
  simp only [Bool.and_self] at hsub'
  exact (hsub'.eq_of_length (hperm.filter _).length_eq.symm).symm

theorem get_arrange (as : List α) (k : κ) : get key (arrange key as) k = get key as k := by
  have hsort : get key (as.mergeSort fun a b => (compare (key a) (key b)).isLE) k =
      get key as k := by
    rw [get, get, ← List.head?_filter, filter_mergeSort, List.head?_filter]
  rw [← hsort, arrange]
  cases as.mergeSort fun a b => (compare (key a) (key b)).isLE with
  | nil => rfl
  | cons a as => exact get_dedupFrom a as

theorem arrange_of_sorted (h : Sorted (as.map key)) : arrange key as = as :=
  ext_get (arrange_sorted key as) h fun k => get_arrange as k

theorem get_insertLinear (a : α) (h : Sorted (as.map key)) :
    get key (insertLinear key a as) k = (get key as k).or (get key [a] k) := by
  induction as with
  | nil => rfl
  | cons b bs ih =>
      obtain ⟨hb, hbs⟩ := sorted_cons h
      rw [insertLinear]
      cases hab : compare (key a) (key b) with
      | lt =>
          rw [get_cons_eq_or]
          by_cases hk : key a = k
          · subst hk
            rw [get_eq_none (forall_lt_cons hab hb), Option.or_none, Option.none_or]
          · rw [get_singleton_of_ne hk, Option.none_or, Option.or_none]
      | eq =>
          have hkey := Std.LawfulEqCmp.eq_of_compare hab
          by_cases hk : key b = k
          · rw [get_cons, if_pos hk, Option.some_or]
          · rw [get_singleton_of_ne (hkey ▸ hk), Option.or_none]
      | gt => rw [get_cons_eq_or, get_cons_eq_or b bs, ih hbs, Option.or_assoc]

theorem foldl_insertLinear_spec (h : Sorted (bs.map key)) :
    Sorted ((as.foldl (fun bs a => insertLinear key a bs) bs).map key) ∧
      ∀ k, get key (as.foldl (fun bs a => insertLinear key a bs) bs) k =
        (get key bs k).or (get key as k) := by
  induction as generalizing bs with
  | nil => exact ⟨h, fun k => Option.or_none.symm⟩
  | cons a as ih =>
      have hins := insertNew_sorted a h
      rw [insertNew_eq_insertLinear a h] at hins
      obtain ⟨hsorted, hget⟩ := ih hins
      refine ⟨hsorted, fun k => ?_⟩
      rw [List.foldl_cons, hget, get_insertLinear a h, Option.or_assoc, ← get_cons_eq_or]

/-- A sort that drops repeats comes to the same as one insertion after the other. -/
theorem arrange_eq_foldl_insertLinear (as : List α) :
    arrange key as = as.foldl (fun bs a => insertLinear key a bs) [] := by
  have hnil : Sorted (List.map key []) := .nil
  obtain ⟨hsorted, hget⟩ := foldl_insertLinear_spec hnil
  refine ext_get (arrange_sorted key as) hsorted fun k => ?_
  rw [get_arrange, hget]
  rfl

end Ascending

namespace Fields

open Ascending

variable {α : Type} {fs : List (String × α)}

theorem find?_eq_lookup (h : Sorted (fs.map Prod.fst)) (l : String) :
    find? fs l = fs.lookup l := by
  rw [find?, find?_eq_get h]
  clear h
  induction fs with
  | nil => rfl
  | cons f fs ih =>
      rw [List.lookup_cons, get_cons]
      by_cases h : f.1 = l
      · rw [if_pos h, h, beq_self_eq_true]
        rfl
      · rw [if_neg h, beq_false_of_ne (Ne.symm h), ← ih]

theorem find?_of_mem {f : String × α} (h : Sorted (fs.map Prod.fst)) (hf : f ∈ fs) :
    find? fs f.1 = some f.2 := by
  rw [find?, find?_eq_get h, get_of_mem h hf, Option.map_some]

end Fields

end TypeLattice
