import Mathlib.Data.Finset.Basic
import Mathlib.Data.List.Sort
import Mathlib.Data.Option.NAry
import TypeLattice.Proofs.SortedSearch

namespace TypeLattice

namespace OrdSet

open Ascending

variable {α : Type} [Ord α] {a b : α} {as : List α} {s t : OrdSet α}

section canonical

variable [Std.TransOrd α]

theorem asymm_lt : Std.Asymm fun a b : α => compare a b = .lt where
  asymm _ _ hab hba := nomatch (Std.OrientedCmp.gt_of_lt hab).symm.trans hba

theorem eq_toList_iff : as = s.toList ↔ Sorted as ∧ ∀ a, a ∈ as ↔ a ∈ s := by
  have := asymm_lt (α := α)
  constructor
  · rintro rfl
    exact ⟨s.sorted, fun _ => Iff.rfl⟩
  · rintro ⟨has, h⟩
    exact List.Subset.antisymm_of_pairwise has s.sorted (fun a => (h a).1) fun a => (h a).2

theorem eq_iff_mem : s = t ↔ ∀ a, a ∈ s ↔ a ∈ t := by
  refine ⟨fun h a => h ▸ Iff.rfl, fun h => ext_toList ?_⟩
  exact eq_toList_iff.2 ⟨s.sorted, h⟩

theorem isChain_iff : as.IsChain (fun a b => compare a b = .lt) ↔ Sorted as := by
  let lt (a b : α) : Prop := compare a b = .lt
  have : Trans lt lt lt := ⟨Std.TransCmp.lt_trans⟩
  exact List.isChain_iff_pairwise (R := lt)

end canonical

section membership

variable [Std.LawfulEqOrd α]

variable [Std.TransOrd α] [DecidableEq α]

omit [Std.LawfulEqOrd α] [Std.TransOrd α] in
theorem mem_iff_isSome_get : a ∈ s ↔ (get id s.toList a).isSome = true := by
  rw [Ascending.get, List.find?_isSome]
  simp only [id, decide_eq_true_eq, exists_eq_right]
  rfl

theorem contains_iff : s.contains a = true ↔ a ∈ s := by
  rw [mem_iff_isSome_get, ← find?_eq_get s.sorted_map, contains, find?]
  cases hs : search id a s.toList with
  | found i =>
      obtain ⟨b, hb, -⟩ := search_found hs
      simp only [hb, Option.isSome_some]
  | missing => simp

theorem mem_insert : b ∈ s.insert a ↔ b = a ∨ b ∈ s := by
  have h : get id (s.insert a).toList b = (get id s.toList b).or (get id [a] b) := by
    change get id (insertNew id a s.toList) b = _
    rw [insertNew_eq_insertLinear a s.sorted_map, get_insertLinear a s.sorted_map]
  rw [mem_iff_isSome_get, mem_iff_isSome_get, h, get_cons]
  by_cases hab : a = b
  · simp [hab]
  · simp [hab, Ne.symm hab, Ascending.get]

theorem mem_ofList : a ∈ ofList as ↔ a ∈ as := by
  refine ⟨mem_of_mem_arrange, fun ha => ?_⟩
  rw [mem_iff_isSome_get, ofList, get_arrange, Ascending.get, List.find?_isSome]
  exact ⟨a, ha, decide_eq_true rfl⟩

theorem ofSorted?_eq_some_iff :
    ofSorted? as = some s ↔ as.IsChain (fun a b => compare a b = .lt) ∧ s = ofList as := by
  rw [isChain_iff, ofSorted?]
  split
  · next h =>
      have heq : ⟨as, h⟩ = ofList as := eq_iff_mem.2 fun a => mem_ofList.symm
      rw [Option.some_inj, and_iff_right h, heq, eq_comm]
  · next h => exact ⟨nofun, fun hs => absurd hs.1 h⟩

omit [DecidableEq α] in
theorem isSubset_iff : s.isSubset t = true ↔ ∀ a ∈ s, a ∈ t := by
  have := asymm_lt (α := α)
  rw [isSubset, isSubsequence_iff]
  refine ⟨fun h a ha => h.subset ha, fun h => ?_⟩
  have hsub := List.subperm_of_subset s.sorted.nodup h
  exact List.sublist_of_subperm_of_pairwise hsub s.sorted t.sorted

theorem mem_union : a ∈ s.union t ↔ a ∈ s ∨ a ∈ t := by
  have h : get id (s.union t).toList a = _ :=
    get_unionBy (fun _ _ => rfl) s.sorted_map t.sorted_map a
  rw [mem_iff_isSome_get, mem_iff_isSome_get, mem_iff_isSome_get, h]
  cases get id s.toList a <;> cases get id t.toList a <;> simp

theorem mem_inter : a ∈ s.inter t ↔ a ∈ s ∧ a ∈ t := by
  have h : get id (s.inter t).toList a = _ :=
    get_interBy (fun _ _ => rfl) s.sorted_map t.sorted_map a
  rw [mem_iff_isSome_get, mem_iff_isSome_get, mem_iff_isSome_get, h]
  cases get id s.toList a <;> cases get id t.toList a <;> simp

end membership

end OrdSet

/-- An implementation of sets. Insertion also answers whether the element is new. -/
structure SetOps (α β : Type) where
  empty : β
  ofList : List α → β
  ofSorted? : List α → Option β
  union : β → β → β
  inter : β → β → β
  insert : β → α → Bool × β
  contains : β → α → Bool
  isSubset : β → β → Bool
  same : β → β → Bool

/-- A step of a program that numbers its sets in the order in which it makes them. -/
inductive SetStep (α : Type) where
  | empty
  | ofList (as : List α)
  | ofSorted (as : List α)
  | union (i j : Nat)
  | inter (i j : Nat)
  | insert (i : Nat) (a : α)
  | contains (i : Nat) (a : α)
  | isSubset (i j : Nat)
  | same (i j : Nat)

namespace SetOps

variable {α β γ : Type}

def add (sets : List β) : Option β → Bool × List β
  | none => (false, sets)
  | some s => (true, sets ++ [s])

def step (S : SetOps α β) (sets : List β) : SetStep α → Bool × List β
  | .empty => add sets (some S.empty)
  | .ofList as => add sets (some (S.ofList as))
  | .ofSorted as => add sets (S.ofSorted? as)
  | .union i j => add sets (Option.map₂ S.union sets[i]? sets[j]?)
  | .inter i j => add sets (Option.map₂ S.inter sets[i]? sets[j]?)
  | .insert i a =>
    match sets[i]? with
    | none => (false, sets)
    | some s => ((S.insert s a).1, sets.set i (S.insert s a).2)
  | .contains i a => (sets[i]?.any fun s => S.contains s a, sets)
  | .isSubset i j => ((Option.map₂ S.isSubset sets[i]? sets[j]?).getD false, sets)
  | .same i j => ((Option.map₂ S.same sets[i]? sets[j]?).getD false, sets)

def run (S : SetOps α β) (sets : List β) : List (SetStep α) → List Bool × List β
  | [] => ([], sets)
  | c :: program =>
    let (answer, sets) := S.step sets c
    let (answers, sets) := S.run sets program
    (answer :: answers, sets)

/-- The map carries every operation of the one implementation to that of the other. -/
structure Carries (f : β → γ) (S : SetOps α β) (T : SetOps α γ) : Prop where
  empty : f S.empty = T.empty
  ofList (as : List α) : f (S.ofList as) = T.ofList as
  ofSorted? (as : List α) : (S.ofSorted? as).map f = T.ofSorted? as
  union (s t : β) : f (S.union s t) = T.union (f s) (f t)
  inter (s t : β) : f (S.inter s t) = T.inter (f s) (f t)
  insert (s : β) (a : α) : Prod.map id f (S.insert s a) = T.insert (f s) a
  contains (s : β) (a : α) : S.contains s a = T.contains (f s) a
  isSubset (s t : β) : S.isSubset s t = T.isSubset (f s) (f t)
  same (s t : β) : S.same s t = T.same (f s) (f t)

variable {f : β → γ} {S : SetOps α β} {T : SetOps α γ}

theorem add_map (f : β → γ) (sets : List β) (s : Option β) :
    add (sets.map f) (s.map f) = Prod.map id (List.map f) (add sets s) := by
  cases s with
  | none => rfl
  | some s => simp [add]

theorem map₂_map {δ ε : Type} {g : β → β → δ} {g' : γ → γ → ε} {k : δ → ε}
    (h : ∀ s t, k (g s t) = g' (f s) (f t)) (sets : List β) (i j : Nat) :
    Option.map₂ g' (sets.map f)[i]? (sets.map f)[j]? = (Option.map₂ g sets[i]? sets[j]?).map k := by
  rw [List.getElem?_map, List.getElem?_map, Option.map_map₂_distrib h]

theorem Carries.step (h : Carries f S T) (sets : List β) (c : SetStep α) :
    T.step (sets.map f) c = Prod.map id (List.map f) (S.step sets c) := by
  cases c with
  | empty => simp [SetOps.step, add, h.empty]
  | ofList as => simp [SetOps.step, add, h.ofList]
  | ofSorted as =>
      rw [SetOps.step, ← h.ofSorted?, add_map]
      rfl
  | union i j =>
      rw [SetOps.step, map₂_map h.union, add_map]
      rfl
  | inter i j =>
      rw [SetOps.step, map₂_map h.inter, add_map]
      rfl
  | insert i a =>
      rw [SetOps.step, SetOps.step, List.getElem?_map]
      cases sets[i]? with
      | none => rfl
      | some s => simp [← h.insert]
  | contains i a =>
      rw [SetOps.step, SetOps.step, List.getElem?_map, Option.any_map]
      simp [h.contains]
  | isSubset i j =>
      rw [SetOps.step, map₂_map (k := id) h.isSubset, Option.map_id]
      rfl
  | same i j =>
      rw [SetOps.step, map₂_map (k := id) h.same, Option.map_id]
      rfl

theorem Carries.run (h : Carries f S T) (sets : List β) (program : List (SetStep α)) :
    T.run (sets.map f) program = Prod.map id (List.map f) (S.run sets program) := by
  induction program generalizing sets with
  | nil => rfl
  | cons c program ih => simp only [SetOps.run, h.step, Prod.map, id, ih]

end SetOps

section faithful

variable {α : Type} [Ord α] [DecidableEq α]

def ascendingSets [Std.TransOrd α] : SetOps α (OrdSet α) where
  empty := OrdSet.empty
  ofList := OrdSet.ofList
  ofSorted? := OrdSet.ofSorted?
  union := OrdSet.union
  inter := OrdSet.inter
  insert s a := Prod.map not id (s.containsThenInsert a)
  contains := OrdSet.contains
  isSubset := OrdSet.isSubset
  same s t := decide (s = t)

def finiteSets : SetOps α (Finset α) where
  empty := ∅
  ofList := List.toFinset
  ofSorted? as := if as.IsChain (fun a b => compare a b = .lt) then some as.toFinset else none
  union s t := s ∪ t
  inter s t := s ∩ t
  insert s a := (decide (a ∉ s), insert a s)
  contains s a := decide (a ∈ s)
  isSubset s t := decide (s ⊆ t)
  same s t := decide (s = t)

namespace OrdSet

def members (s : OrdSet α) : Finset α := s.toList.toFinset

variable {a : α} {s t : OrdSet α}

@[simp] theorem mem_members : a ∈ s.members ↔ a ∈ s := List.mem_toFinset

variable [Std.TransOrd α]

theorem members_inj : s.members = t.members ↔ s = t := by
  rw [eq_iff_mem, Finset.ext_iff]
  simp only [mem_members]

variable [Std.LawfulEqOrd α]

@[simp] theorem members_ofList (as : List α) : (ofList as).members = as.toFinset := by
  ext a
  rw [mem_members, mem_ofList, List.mem_toFinset]

@[simp] theorem members_union (s t : OrdSet α) : (s.union t).members = s.members ∪ t.members := by
  ext a
  rw [Finset.mem_union, mem_members, mem_members, mem_members, mem_union]

@[simp] theorem members_inter (s t : OrdSet α) : (s.inter t).members = s.members ∩ t.members := by
  ext a
  rw [Finset.mem_inter, mem_members, mem_members, mem_members, mem_inter]

@[simp] theorem members_insert (s : OrdSet α) (a : α) :
    (s.insert a).members = Insert.insert a s.members := by
  ext b
  rw [Finset.mem_insert, mem_members, mem_members, mem_insert]

theorem contains_eq (s : OrdSet α) (a : α) : s.contains a = decide (a ∈ s.members) := by
  rw [Bool.eq_iff_iff, contains_iff, decide_eq_true_iff, mem_members]

theorem isSubset_eq (s t : OrdSet α) : s.isSubset t = decide (s.members ⊆ t.members) := by
  rw [Bool.eq_iff_iff, isSubset_iff, decide_eq_true_iff, Finset.subset_iff]
  simp only [mem_members]

theorem carries_members : SetOps.Carries members (ascendingSets (α := α)) finiteSets where
  empty := rfl
  ofList := members_ofList
  ofSorted? as := by
    simp only [ascendingSets, finiteSets]
    split
    · next h => rw [ofSorted?_eq_some_iff.2 ⟨h, rfl⟩, Option.map_some, members_ofList]
    · next h =>
      rw [Option.map_eq_none_iff, Option.eq_none_iff_forall_ne_some]
      exact fun s hs => h (ofSorted?_eq_some_iff.1 hs).1
  union := members_union
  inter := members_inter
  insert s a := by
    refine Prod.ext ?_ (members_insert s a)
    change (!s.contains a) = decide (a ∉ s.members)
    rw [contains_eq, decide_not]
  contains := contains_eq
  isSubset := isSubset_eq
  same s t := decide_eq_decide.2 members_inj.symm

/-- Ascending lists are faithful finite sets: every program over them answers as it does over finite
sets and makes the sets with the same members, each of them the only ascending list of these. -/
theorem programs_answer_as_on_finite_sets (sets : List (OrdSet α)) (program : List (SetStep α)) :
    finiteSets.run (sets.map members) program =
      Prod.map id (List.map members) (ascendingSets.run sets program) ∧
    (∀ s ∈ (ascendingSets.run sets program).2, ∀ as,
      as = s.toList ↔ Ascending.Sorted as ∧ ∀ a, a ∈ as ↔ a ∈ s) ∧
    (∀ as : List α, (∀ a, a ∈ ofList as ↔ a ∈ as) ∧ ∀ s, ofSorted? as = some s ↔
      as.IsChain (fun a b => compare a b = .lt) ∧ s = ofList as) ∧
    (∀ (s : OrdSet α) (a : α), (s.contains a = true ↔ a ∈ s) ∧
      ((s.containsThenInsert a).1 = false ↔ a ∉ s) ∧
      ∀ b, b ∈ (s.containsThenInsert a).2 ↔ b = a ∨ b ∈ s) ∧
    ∀ s t : OrdSet α, (s = t ↔ ∀ a, a ∈ s ↔ a ∈ t) ∧ (s.isSubset t = true ↔ ∀ a ∈ s, a ∈ t) ∧
      (∀ a, a ∈ s.union t ↔ a ∈ s ∨ a ∈ t) ∧ ∀ a, a ∈ s.inter t ↔ a ∈ s ∧ a ∈ t := by
  refine ⟨carries_members.run sets program, fun s _ as => eq_toList_iff,
    fun as => ⟨fun a => mem_ofList, fun s => ofSorted?_eq_some_iff⟩, fun s a => ?_,
    fun s t => ⟨eq_iff_mem, isSubset_iff, fun a => mem_union, fun a => mem_inter⟩⟩
  refine ⟨contains_iff, ?_, fun b => mem_insert⟩
  rw [containsThenInsert, ← Bool.not_eq_true, contains_iff]

/-- Two sets of integers, one of them made of a list with a repeat, are joined, met and compared. -/
theorem integer_set_program_answers :
    let program : List (SetStep Int) := [.ofList [3, -1, 3], .ofSorted [1, 1], .ofSorted [0, 3],
      .union 0 1, .inter 0 1, .insert 3 7, .insert 3 7, .isSubset 3 2, .contains 2 0, .same 0 2]
    (ascendingSets.run [] program).1 =
      [true, false, true, true, true, true, false, false, true, false] ∧
    (ascendingSets.run [] program).2.map members =
      [{-1, 3}, {0, 3}, {-1, 0, 3}, {3, 7}] := by
  intro program
  have h := (programs_answer_as_on_finite_sets [] program).1
  have hrun : finiteSets.run [] program =
      ([true, false, true, true, true, true, false, false, true, false],
        [{-1, 3}, {0, 3}, {-1, 0, 3}, {3, 7}]) := by decide
  rw [List.map_nil, hrun] at h
  exact ⟨(congrArg Prod.fst h).symm, (congrArg Prod.snd h).symm⟩

end OrdSet

end faithful

end TypeLattice
