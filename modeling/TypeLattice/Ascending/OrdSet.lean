import TypeLattice.Ascending.Scan
import TypeLattice.Ascending.Sort

namespace TypeLattice

open Std

/-- A finite set as the strictly ascending list of its members. -/
structure OrdSet (α : Type) [Ord α] where
  toList : List α
  sorted : Ascending.Sorted toList
deriving DecidableEq, Hashable, Repr

namespace OrdSet

open Ascending

variable {α : Type} [Ord α]

instance : Membership α (OrdSet α) := ⟨fun s a => a ∈ s.toList⟩

def empty : OrdSet α := ⟨[], .nil⟩

instance : EmptyCollection (OrdSet α) := ⟨empty⟩

def size (s : OrdSet α) : Nat := s.toList.length

def isEmpty (s : OrdSet α) : Bool := s.toList.isEmpty

def contains (s : OrdSet α) (a : α) : Bool :=
  match search id a s.toList with
  | .found _ => true
  | .missing _ => false

def ofSorted? (as : List α) : Option (OrdSet α) :=
  if h : Sorted as then some ⟨as, h⟩ else none

def render (text : α → String) (s : OrdSet α) : String :=
  "[" ++ ",".intercalate (s.toList.map text) ++ "]"

def renderBraced (text : α → String) (s : OrdSet α) : String :=
  "\x7b" ++ ", ".intercalate (s.toList.map text) ++ "\x7d"

instance : Ord (OrdSet α) := ⟨fun s t => compare s.toList t.toList⟩

/-- One pass over the second list: each member of the first is looked for behind
the place where the one before it was found. -/
def isSubsequence : List α → List α → Bool
  | [], _ => true
  | _ :: _, [] => false
  | a :: as, b :: bs => if compare a b = .eq then isSubsequence as bs else isSubsequence (a :: as) bs

def isSubset (s t : OrdSet α) : Bool := isSubsequence s.toList t.toList

theorem mem_of_mem_union {c : α} {as bs : List α}
    (h : c ∈ Ascending.union compare id id (fun a _ => a) as bs) : c ∈ as ∨ c ∈ bs := by
  induction as generalizing bs with
  | nil => simpa using h
  | cons a as iha =>
    induction bs with
    | nil => simpa using h
    | cons b bs ihb =>
      rw [union_cons_cons] at h
      split at h <;> grind

theorem mem_of_mem_inter {c : α} {as bs : List α}
    (h : c ∈ Ascending.inter compare (fun a _ => a) as bs) : c ∈ as := by
  induction as generalizing bs with
  | nil => simp at h
  | cons a as iha =>
    induction bs with
    | nil => simp at h
    | cons b bs ihb =>
      rw [inter_cons_cons] at h
      split at h <;> grind

theorem sorted_map (s : OrdSet α) : Sorted (s.toList.map id) := by
  rw [List.map_id]
  exact s.sorted

variable [TransOrd α]

def insert (s : OrdSet α) (a : α) : OrdSet α :=
  ⟨insertNew id a s.toList, by simpa using insertNew_sorted a s.sorted_map⟩

def containsThenInsert (s : OrdSet α) (a : α) : Bool × OrdSet α := (s.contains a, s.insert a)

def ofList (as : List α) : OrdSet α := ⟨arrange id as, by simpa using arrange_sorted id as⟩

theorem union_sorted {as bs : List α} (ha : Sorted as) (hb : Sorted bs) :
    Sorted (Ascending.union compare id id (fun a _ => a) as bs) := by
  induction as generalizing bs with
  | nil => simpa using hb
  | cons a as iha =>
    induction bs with
    | nil => simpa using ha
    | cons b bs ihb =>
      obtain ⟨ha', has⟩ := List.pairwise_cons.1 ha
      obtain ⟨hb', hbs⟩ := List.pairwise_cons.1 hb
      rw [union_cons_cons]
      split
      next hab =>
        refine List.pairwise_cons.2 ⟨fun c hc => ?_, iha has hb⟩
        rcases mem_of_mem_union hc with hc | hc
        · exact ha' c hc
        · rcases List.mem_cons.1 hc with rfl | hc
          · exact hab
          · exact TransCmp.lt_trans hab (hb' c hc)
      next hab =>
        have hba := OrientedCmp.lt_of_gt hab
        refine List.pairwise_cons.2 ⟨fun c hc => ?_, ihb hbs⟩
        rcases mem_of_mem_union hc with hc | hc
        · rcases List.mem_cons.1 hc with rfl | hc
          · exact hba
          · exact TransCmp.lt_trans hba (ha' c hc)
        · exact hb' c hc
      next hab =>
        refine List.pairwise_cons.2 ⟨fun c hc => ?_, iha has hbs⟩
        rcases mem_of_mem_union hc with hc | hc
        · exact ha' c hc
        · exact TransCmp.lt_of_eq_of_lt hab (hb' c hc)

omit [TransOrd α] in
theorem inter_sorted {as bs : List α} (ha : Sorted as) :
    Sorted (Ascending.inter compare (fun a _ => a) as bs) := by
  induction as generalizing bs with
  | nil => simp
  | cons a as iha =>
    obtain ⟨ha', has⟩ := List.pairwise_cons.1 ha
    induction bs with
    | nil => simp
    | cons b bs ihb =>
      rw [inter_cons_cons]
      split
      · exact iha has
      · exact ihb
      · exact List.pairwise_cons.2 ⟨fun c hc => ha' c (mem_of_mem_inter hc), iha has⟩

def union (s t : OrdSet α) : OrdSet α :=
  ⟨Ascending.union compare id id (fun a _ => a) s.toList t.toList, union_sorted s.sorted t.sorted⟩

def inter (s t : OrdSet α) : OrdSet α :=
  ⟨Ascending.inter compare (fun a _ => a) s.toList t.toList, inter_sorted s.sorted⟩

end OrdSet

end TypeLattice
