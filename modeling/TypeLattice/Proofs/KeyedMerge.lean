import TypeLattice.Proofs.PlanShape

namespace TypeLattice

namespace Ascending

section swap

variable {α β γ γ' : Type} {cmp : α → β → Ordering} {cmp' : β → α → Ordering} {left : α → γ}
  {right : β → γ} {both : α → β → γ} {left' : β → γ'} {right' : α → γ'} {both' : β → α → γ'}
  (e : γ → γ') (hcmp : ∀ a b, cmp' b a = (cmp a b).swap)
  (hboth : ∀ a b, cmp a b = .eq → both' b a = e (both a b))

include hcmp hboth

theorem union_swap (hleft : ∀ b, left' b = e (right b)) (hright : ∀ a, right' a = e (left a))
    (as : List α) (bs : List β) :
    union cmp' left' right' both' bs as = (union cmp left right both as bs).map e := by
  induction as generalizing bs with
  | nil => simp [hleft]
  | cons a as iha =>
      induction bs with
      | nil => simp [hright]
      | cons b bs ihb =>
          rw [union_cons_cons, union_cons_cons, hcmp]
          cases hab : cmp a b with
          | lt => simp only [Ordering.swap_lt, List.map_cons, hright, iha]
          | gt => simp only [Ordering.swap_gt, List.map_cons, hleft, ihb]
          | eq => simp only [Ordering.swap_eq, List.map_cons, hboth a b hab, iha]

theorem inter_swap (as : List α) (bs : List β) :
    inter cmp' both' bs as = (inter cmp both as bs).map e := by
  induction as generalizing bs with
  | nil => simp
  | cons a as iha =>
      induction bs with
      | nil => simp
      | cons b bs ihb =>
          rw [inter_cons_cons, inter_cons_cons, hcmp]
          cases hab : cmp a b with
          | lt => simp only [Ordering.swap_lt, iha]
          | gt => simp only [Ordering.swap_gt, ihb]
          | eq => simp only [Ordering.swap_eq, List.map_cons, hboth a b hab, iha]

end swap

section keyed

variable {α κ : Type} {key : α → κ} {both : α → α → α} {k : κ} {a b : α} {as bs cs : List α}

section get

variable [DecidableEq κ]

def get (key : α → κ) (as : List α) (k : κ) : Option α := as.find? (fun a => key a = k)

theorem get_cons : get key (a :: as) k = if key a = k then some a else get key as k := by
  rw [get, List.find?_cons]
  by_cases h : key a = k <;> simp [h, get]

theorem get_cons_eq_or (a : α) (as : List α) (k : κ) :
    get key (a :: as) k = (get key [a] k).or (get key as k) := by
  rw [get_cons, get_cons]
  split <;> rfl

theorem get_singleton_of_ne (h : key a ≠ k) : get key [a] k = none := by
  rw [get_cons, if_neg h]
  rfl

theorem mem_of_get (h : get key as k = some a) : a ∈ as := List.mem_of_find?_eq_some h

theorem key_of_get (h : get key as k = some a) : key a = k := by
  have hk := List.find?_some h
  exact of_decide_eq_true hk

end get

variable [Ord κ]

theorem sorted_cons (h : Sorted ((a :: as).map key)) :
    (∀ b ∈ as, compare (key a) (key b) = .lt) ∧ Sorted (as.map key) := by
  rw [List.map_cons, Sorted, List.pairwise_cons] at h
  exact ⟨fun b hb => h.1 _ (List.mem_map_of_mem hb), h.2⟩

theorem get_of_mem [DecidableEq κ] [Std.LawfulEqOrd κ] (h : Sorted (as.map key)) (ha : a ∈ as) :
    get key as (key a) = some a := by
  induction as with
  | nil => cases ha
  | cons b as ih =>
      obtain ⟨hlt, hsorted⟩ := sorted_cons h
      rw [get_cons]
      rcases List.mem_cons.1 ha with rfl | ha
      · exact if_pos rfl
      · rw [if_neg, ih hsorted ha]
        intro hkey
        have hlt := hlt a ha
        rw [hkey, Std.ReflOrd.compare_self] at hlt
        cases hlt

def unionBy (key : α → κ) (both : α → α → α) : List α → List α → List α :=
  union (fun a b => compare (key a) (key b)) id id both

def interBy (key : α → κ) (both : α → α → α) : List α → List α → List α :=
  inter (fun a b => compare (key a) (key b)) both

theorem interBy_sorted (hboth : ∀ a b, key (both a b) = key a) (ha : Sorted (as.map key)) :
    Sorted ((interBy key both as bs).map key) :=
  inter_sorted_of_keys key key key hboth ha

section aligned

variable {β γ : Type} {key' : β → κ} {cs : List β}

theorem union_of_keys_eq [Std.ReflOrd κ] {left : α → γ} {right : β → γ} {both : α → β → γ}
    (h : as.map key = cs.map key') :
    union (fun a b => compare (key a) (key' b)) left right both as cs =
      List.zipWith both as cs := by
  induction as generalizing cs with
  | nil =>
      cases cs with
      | nil => simp
      | cons => cases h
  | cons a as ih =>
      cases cs with
      | nil => cases h
      | cons c cs =>
          obtain ⟨hkey, htail⟩ := List.cons.inj h
          rw [union_cons_cons, hkey, Std.ReflOrd.compare_self, List.zipWith_cons_cons, ih htail]

theorem inter_of_keys_eq [Std.ReflOrd κ] {both : α → β → γ} (h : as.map key = cs.map key') :
    inter (fun a b => compare (key a) (key' b)) both as cs = List.zipWith both as cs := by
  induction as generalizing cs with
  | nil =>
      cases cs with
      | nil => simp
      | cons => cases h
  | cons a as ih =>
      cases cs with
      | nil => cases h
      | cons c cs =>
          obtain ⟨hkey, htail⟩ := List.cons.inj h
          rw [inter_cons_cons, hkey, Std.ReflOrd.compare_self, List.zipWith_cons_cons, ih htail]

end aligned

theorem zipWith_self (h : ∀ a ∈ as, both a a = a) : List.zipWith both as as = as := by
  rw [List.zipWith_self, List.map_congr_left h, List.map_id']

theorem unionBy_self [Std.ReflOrd κ] (h : ∀ a ∈ as, both a a = a) :
    unionBy key both as as = as := by
  rw [unionBy, union_of_keys_eq rfl, zipWith_self h]

theorem interBy_self [Std.ReflOrd κ] (h : ∀ a ∈ as, both a a = a) :
    interBy key both as as = as := by
  rw [interBy, inter_of_keys_eq rfl, zipWith_self h]

section conjugate

variable {d : α → α} (hkey : ∀ a, key (d a) = key a)

include hkey

theorem unionBy_conjugate (ha : ∀ a ∈ as, d (d a) = a) (hb : ∀ b ∈ bs, d (d b) = b) :
    (unionBy key both (as.map d) (bs.map d)).map d =
      unionBy key (fun a b => d (both (d a) (d b))) as bs := by
  have htwice {cs : List α} (hc : ∀ c ∈ cs, d (d c) = c) : (cs.map d).map d = cs := by
    rw [List.map_map]
    exact (List.map_congr_left (g := id) hc).trans (List.map_id cs)
  induction as generalizing bs with
  | nil => simpa [unionBy] using htwice hb
  | cons a as iha =>
      induction bs with
      | nil => simpa [unionBy] using htwice ha
      | cons b bs ihb =>
          have hbs := (List.forall_mem_cons.1 hb).2
          have has := (List.forall_mem_cons.1 ha).2
          have ih := iha has hb
          have ih' := ihb hbs
          have ih'' := iha has hbs
          simp only [unionBy, List.map_cons] at ih ih' ih'' ⊢
          rw [union_cons_cons, union_cons_cons, hkey, hkey]
          cases compare (key a) (key b) with
          | lt => simp only [List.map_cons, id, ih, ha a List.mem_cons_self]
          | gt => simp only [List.map_cons, id, ih', hb b List.mem_cons_self]
          | eq => simp only [List.map_cons, ih'']

theorem interBy_conjugate : (interBy key both (as.map d) (bs.map d)).map d =
    interBy key (fun a b => d (both (d a) (d b))) as bs := by
  induction as generalizing bs with
  | nil => simp [interBy]
  | cons a as iha =>
      induction bs with
      | nil => simp [interBy]
      | cons b bs ihb =>
          have ih : (interBy key both (as.map d) ((b :: bs).map d)).map d = _ := iha
          have ih' : (interBy key both (as.map d) (bs.map d)).map d = _ := iha
          simp only [interBy, List.map_cons] at ihb ih ih' ⊢
          rw [inter_cons_cons, inter_cons_cons, hkey, hkey]
          cases compare (key a) (key b) with
          | lt => exact ih
          | gt => exact ihb
          | eq => simp only [List.map_cons, ih']

end conjugate

variable [Std.TransOrd κ]

theorem unionBy_sorted (hboth : ∀ a b, key (both a b) = key a) (ha : Sorted (as.map key))
    (hb : Sorted (bs.map key)) : Sorted ((unionBy key both as bs).map key) :=
  union_sorted_of_keys key key key (fun _ => rfl) (fun _ => rfl) hboth ha hb

theorem forall_lt_cons (hab : compare (key a) (key b) = .lt)
    (h : ∀ c ∈ bs, compare (key b) (key c) = .lt) :
    ∀ c ∈ b :: bs, compare (key a) (key c) = .lt :=
  List.forall_mem_cons.2 ⟨hab, fun c hc => Std.TransCmp.lt_trans hab (h c hc)⟩

variable [DecidableEq κ]

theorem get_eq_none (h : ∀ a ∈ as, compare k (key a) = .lt) : get key as k = none := by
  rw [get, List.find?_eq_none]
  intro a ha hk
  have hlt := h a ha
  rw [of_decide_eq_true hk] at hlt
  simp at hlt

variable [Std.LawfulEqOrd κ]

theorem ext_get (ha : Sorted (as.map key)) (hb : Sorted (bs.map key))
    (h : ∀ k, get key as k = get key bs k) : as = bs := by
  induction as generalizing bs with
  | nil =>
      cases bs with
      | nil => rfl
      | cons b bs =>
          have hk := h (key b)
          rw [get_cons, if_pos rfl] at hk
          cases hk
  | cons a as ih =>
      obtain ⟨ha', has⟩ := sorted_cons ha
      cases bs with
      | nil =>
          have hk := h (key a)
          rw [get_cons, if_pos rfl] at hk
          cases hk
      | cons b bs =>
          obtain ⟨hb', hbs⟩ := sorted_cons hb
          -- the least keys agree, since each list has an entry at the least key of the other
          have hab : key a = key b := by
            cases hc : compare (key a) (key b) with
            | eq => exact Std.LawfulEqCmp.eq_of_compare hc
            | lt =>
                have hk := h (key a)
                rw [get_cons, if_pos rfl, get_eq_none (forall_lt_cons hc hb')] at hk
                cases hk
            | gt =>
                have hba := Std.OrientedCmp.lt_of_gt hc
                have hk := h (key b)
                rw [get_cons (a := b), if_pos rfl, get_eq_none (forall_lt_cons hba ha')] at hk
                cases hk
          have heq : a = b := by
            have hk := h (key a)
            rw [get_cons, get_cons, if_pos rfl, if_pos hab.symm] at hk
            exact Option.some.inj hk
          subst heq
          refine congrArg (a :: ·) (ih has hbs fun k => ?_)
          have hk := h k
          rw [get_cons, get_cons] at hk
          by_cases hak : key a = k
          · subst hak
            rw [get_eq_none ha', get_eq_none hb']
          · rwa [if_neg hak, if_neg hak] at hk

section merge

variable (hboth : ∀ a b, key (both a b) = key a)

include hboth

theorem get_unionBy (ha : Sorted (as.map key)) (hb : Sorted (bs.map key)) (k : κ) :
    get key (unionBy key both as bs) k = Option.merge both (get key as k) (get key bs k) := by
  induction as generalizing bs with
  | nil => simp [unionBy, get]
  | cons a as iha =>
      obtain ⟨ha', has⟩ := sorted_cons ha
      induction bs with
      | nil => simp [unionBy, get]
      | cons b bs ihb =>
          obtain ⟨hb', hbs⟩ := sorted_cons hb
          have iha' := iha has hb
          rw [unionBy, union_cons_cons]
          cases hc : compare (key a) (key b) with
          | lt =>
              simp only [id, get_cons (a := a)]
              by_cases hk : key a = k
              · rw [if_pos hk, if_pos hk, get_eq_none (hk ▸ forall_lt_cons hc hb')]
                rfl
              · rw [if_neg hk, if_neg hk]
                exact iha'
          | gt =>
              have hba := Std.OrientedCmp.lt_of_gt hc
              simp only [id, get_cons (a := b)]
              by_cases hk : key b = k
              · rw [if_pos hk, if_pos hk, get_eq_none (hk ▸ forall_lt_cons hba ha')]
                rfl
              · rw [if_neg hk, if_neg hk]
                exact ihb hbs
          | eq =>
              have hab := Std.LawfulEqCmp.eq_of_compare hc
              simp only [get_cons, hboth, ← hab]
              by_cases hk : key a = k
              · simp only [if_pos hk]
                rfl
              · simp only [if_neg hk]
                exact iha has hbs

theorem get_interBy (ha : Sorted (as.map key)) (hb : Sorted (bs.map key)) (k : κ) :
    get key (interBy key both as bs) k =
      (get key as k).bind (fun a => (get key bs k).map (both a)) := by
  induction as generalizing bs with
  | nil => simp [interBy, get]
  | cons a as iha =>
      obtain ⟨ha', has⟩ := sorted_cons ha
      induction bs with
      | nil => simp [interBy, get]
      | cons b bs ihb =>
          obtain ⟨hb', hbs⟩ := sorted_cons hb
          rw [interBy, inter_cons_cons]
          cases hc : compare (key a) (key b) with
          | lt =>
              have hnone (hk : key a = k) : get key (b :: bs) k = none :=
                get_eq_none (hk ▸ forall_lt_cons hc hb')
              have hrest := iha has hb
              rw [get_cons (a := a)]
              by_cases hk : key a = k
              · rw [if_pos hk]
                rw [hnone hk] at hrest ⊢
                simpa [interBy] using hrest
              · rw [if_neg hk]
                exact hrest
          | gt =>
              have hba := Std.OrientedCmp.lt_of_gt hc
              have hnone (hk : key b = k) : get key (a :: as) k = none :=
                get_eq_none (hk ▸ forall_lt_cons hba ha')
              have hrest := ihb hbs
              rw [get_cons (a := b)]
              by_cases hk : key b = k
              · rw [hnone hk] at hrest ⊢
                exact hrest
              · rw [if_neg hk]
                exact hrest
          | eq =>
              have hab := Std.LawfulEqCmp.eq_of_compare hc
              simp only [get_cons, hboth, ← hab]
              by_cases hk : key a = k
              · simp only [if_pos hk]
                rfl
              · simp only [if_neg hk]
                exact iha has hbs

theorem unionBy_assoc (ha : Sorted (as.map key)) (hb : Sorted (bs.map key))
    (hc : Sorted (cs.map key))
    (h : ∀ a ∈ as, ∀ b ∈ bs, ∀ c ∈ cs, both (both a b) c = both a (both b c)) :
    unionBy key both (unionBy key both as bs) cs =
      unionBy key both as (unionBy key both bs cs) := by
  have hab := unionBy_sorted hboth ha hb
  have hbc := unionBy_sorted hboth hb hc
  apply ext_get (unionBy_sorted hboth hab hc) (unionBy_sorted hboth ha hbc)
  intro k
  rw [get_unionBy hboth hab hc, get_unionBy hboth ha hb, get_unionBy hboth ha hbc,
    get_unionBy hboth hb hc]
  cases hga : get key as k with
  | none => cases get key bs k <;> cases get key cs k <;> rfl
  | some a =>
      cases hgb : get key bs k with
      | none => cases get key cs k <;> rfl
      | some b =>
          cases hgc : get key cs k with
          | none => rfl
          | some c =>
              exact congrArg some (h a (mem_of_get hga) b (mem_of_get hgb) c (mem_of_get hgc))

theorem interBy_assoc (ha : Sorted (as.map key)) (hb : Sorted (bs.map key))
    (hc : Sorted (cs.map key))
    (h : ∀ a ∈ as, ∀ b ∈ bs, ∀ c ∈ cs, both (both a b) c = both a (both b c)) :
    interBy key both (interBy key both as bs) cs =
      interBy key both as (interBy key both bs cs) := by
  have hab : Sorted ((interBy key both as bs).map key) := interBy_sorted hboth ha
  have hbc : Sorted ((interBy key both bs cs).map key) := interBy_sorted hboth hb
  apply ext_get (interBy_sorted hboth hab) (interBy_sorted hboth ha)
  intro k
  rw [get_interBy hboth hab hc, get_interBy hboth ha hb, get_interBy hboth ha hbc,
    get_interBy hboth hb hc]
  cases hga : get key as k with
  | none => rfl
  | some a =>
      cases hgb : get key bs k with
      | none => rfl
      | some b =>
          cases hgc : get key cs k with
          | none => rfl
          | some c =>
              exact congrArg some (h a (mem_of_get hga) b (mem_of_get hgb) c (mem_of_get hgc))

/-- An intersection is its right side exactly if every entry there is met by one on the left that
does not change it. -/
theorem interBy_eq_right_iff (ha : Sorted (as.map key)) (hb : Sorted (bs.map key)) :
    interBy key both as bs = bs ↔ ∀ b ∈ bs, ∃ a ∈ as, key a = key b ∧ both a b = b := by
  constructor
  · intro h b hmem
    have hk := get_interBy hboth ha hb (key b)
    rw [h, get_of_mem hb hmem] at hk
    cases hga : get key as (key b) with
    | none =>
        rw [hga] at hk
        cases hk
    | some a =>
        rw [hga] at hk
        exact ⟨a, mem_of_get hga, key_of_get hga, (Option.some.inj hk).symm⟩
  · intro h
    apply ext_get (interBy_sorted hboth ha) hb
    intro k
    rw [get_interBy hboth ha hb]
    cases hgb : get key bs k with
    | none => cases get key as k <;> rfl
    | some b =>
        obtain ⟨a, hmem, hkey, hab⟩ := h b (mem_of_get hgb)
        rw [← key_of_get hgb, ← hkey, get_of_mem ha hmem]
        exact congrArg some hab

/-- A union is its right side exactly if every entry on the left is met there and changes nothing. -/
theorem unionBy_eq_right_iff (ha : Sorted (as.map key)) (hb : Sorted (bs.map key)) :
    unionBy key both as bs = bs ↔ ∀ a ∈ as, ∃ b ∈ bs, key a = key b ∧ both a b = b := by
  constructor
  · intro h a hmem
    have hk := get_unionBy hboth ha hb (key a)
    rw [h, get_of_mem ha hmem] at hk
    cases hgb : get key bs (key a) with
    | none =>
        rw [hgb] at hk
        cases hk
    | some b =>
        rw [hgb] at hk
        exact ⟨b, mem_of_get hgb, (key_of_get hgb).symm, (Option.some.inj hk).symm⟩
  · intro h
    apply ext_get (unionBy_sorted hboth ha hb) hb
    intro k
    rw [get_unionBy hboth ha hb]
    cases hga : get key as k with
    | none => cases get key bs k <;> rfl
    | some a =>
        obtain ⟨b, hmem, hkey, hab⟩ := h a (mem_of_get hga)
        rw [← key_of_get hga, hkey, get_of_mem hb hmem]
        exact congrArg some hab

variable {join : α → α → α} (hjoin : ∀ a b, key (join a b) = key a)

include hjoin

theorem unionBy_interBy_eq_iff (ha : Sorted (as.map key)) (hb : Sorted (bs.map key)) :
    unionBy key both as (interBy key join as bs) = as ↔
      ∀ a ∈ as, ∀ b ∈ bs, key a = key b → both a (join a b) = a := by
  have hab : Sorted ((interBy key join as bs).map key) := interBy_sorted hjoin ha
  constructor
  · intro h a hmem b hmem' hkey
    have hk := congrArg (fun cs => get key cs (key a)) h
    simp only [get_unionBy hboth ha hab, get_interBy hjoin ha hb, get_of_mem ha hmem] at hk
    rw [hkey, get_of_mem hb hmem'] at hk
    exact Option.some.inj hk
  · intro h
    apply ext_get (unionBy_sorted hboth ha hab) ha
    intro k
    rw [get_unionBy hboth ha hab, get_interBy hjoin ha hb]
    cases hga : get key as k with
    | none => rfl
    | some a =>
        cases hgb : get key bs k with
        | none => rfl
        | some b =>
            have hkey := (key_of_get hga).trans (key_of_get hgb).symm
            exact congrArg some (h a (mem_of_get hga) b (mem_of_get hgb) hkey)

theorem interBy_unionBy_eq_iff (ha : Sorted (as.map key)) (hb : Sorted (bs.map key))
    (hself : ∀ a ∈ as, both a a = a) :
    interBy key both as (unionBy key join as bs) = as ↔
      ∀ a ∈ as, ∀ b ∈ bs, key a = key b → both a (join a b) = a := by
  have hab := unionBy_sorted hjoin ha hb
  constructor
  · intro h a hmem b hmem' hkey
    have hk := congrArg (fun cs => get key cs (key a)) h
    simp only [get_interBy hboth ha hab, get_unionBy hjoin ha hb, get_of_mem ha hmem] at hk
    rw [hkey, get_of_mem hb hmem'] at hk
    exact Option.some.inj hk
  · intro h
    apply ext_get (interBy_sorted hboth ha) ha
    intro k
    rw [get_interBy hboth ha hab, get_unionBy hjoin ha hb]
    cases hga : get key as k with
    | none => rfl
    | some a =>
        cases hgb : get key bs k with
        | none => exact congrArg some (hself a (mem_of_get hga))
        | some b =>
            have hkey := (key_of_get hga).trans (key_of_get hgb).symm
            exact congrArg some (h a (mem_of_get hga) b (mem_of_get hgb) hkey)

end merge

end keyed

end Ascending

namespace OrdSet

open Ascending

variable {α : Type} [Ord α]

theorem ext_toList {s t : OrdSet α} (h : s.toList = t.toList) : s = t := by
  cases s
  cases t
  cases h
  rfl

section subset

variable [Std.LawfulEqOrd α]

theorem isSubsequence_iff {as bs : List α} : isSubsequence as bs = true ↔ as.Sublist bs := by
  induction bs generalizing as with
  | nil => cases as <;> simp [isSubsequence]
  | cons b bs ih =>
      cases as with
      | nil => simp [isSubsequence]
      | cons a as =>
          rw [isSubsequence]
          by_cases hab : a = b
          · rw [hab, if_pos Std.ReflOrd.compare_self, ih, List.cons_sublist_cons]
          · rw [if_neg (mt Std.LawfulEqOrd.compare_eq_iff_eq.1 hab), ih, List.sublist_cons_iff,
              or_iff_left]
            rintro ⟨_, h, -⟩
            exact hab (List.cons.inj h).1

theorem isSubset_trans {s t u : OrdSet α} (hst : s.isSubset t = true)
    (htu : t.isSubset u = true) : s.isSubset u = true :=
  isSubsequence_iff.2 ((isSubsequence_iff.1 hst).trans (isSubsequence_iff.1 htu))

end subset

theorem inter_self [Std.ReflOrd α] (s : OrdSet α) : s.inter s = s :=
  ext_toList (interBy_self fun _ _ => rfl)

variable [Std.TransOrd α]

theorem union_self (s : OrdSet α) : s.union s = s := ext_toList (unionBy_self fun _ _ => rfl)

variable [Std.LawfulEqOrd α] (s t u : OrdSet α)

theorem union_comm : s.union t = t.union s := by
  apply ext_toList
  have h : (s.union t).toList = (t.union s).toList.map id := by
    apply union_swap
    · intro a b
      exact Std.OrientedCmp.eq_swap
    · intro a b hab
      exact (Std.LawfulEqCmp.eq_of_compare hab).symm
    · exact fun _ => rfl
    · exact fun _ => rfl
  rw [h, List.map_id]

theorem inter_comm : s.inter t = t.inter s := by
  apply ext_toList
  have h : (s.inter t).toList = (t.inter s).toList.map id := by
    apply inter_swap
    · intro a b
      exact Std.OrientedCmp.eq_swap
    · intro a b hab
      exact (Std.LawfulEqCmp.eq_of_compare hab).symm
  rw [h, List.map_id]

variable [DecidableEq α]

theorem union_assoc : (s.union t).union u = s.union (t.union u) :=
  ext_toList (unionBy_assoc (fun _ _ => rfl) s.sorted_map t.sorted_map u.sorted_map
    fun _ _ _ _ _ _ => rfl)

theorem inter_assoc : (s.inter t).inter u = s.inter (t.inter u) :=
  ext_toList (interBy_assoc (fun _ _ => rfl) s.sorted_map t.sorted_map u.sorted_map
    fun _ _ _ _ _ _ => rfl)

theorem union_inter_self : s.union (s.inter t) = s :=
  ext_toList ((unionBy_interBy_eq_iff (fun _ _ => rfl) (fun _ _ => rfl) s.sorted_map
    t.sorted_map).2 fun _ _ _ _ _ => rfl)

theorem inter_union_self : s.inter (s.union t) = s :=
  ext_toList ((interBy_unionBy_eq_iff (fun _ _ => rfl) (fun _ _ => rfl) s.sorted_map t.sorted_map
    fun _ _ => rfl).2 fun _ _ _ _ _ => rfl)

end OrdSet

end TypeLattice
