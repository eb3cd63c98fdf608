import Mathlib.Data.List.Basic
import TypeLattice.Proofs.PlanShape

namespace TypeLattice.Ascending

/-- A place of two lists side by side: an element of one of them, or what is made of two elements
that compare equal. -/
inductive Entry (α β γ : Type) where
  | left (a : α)
  | right (b : β)
  | both (c : γ)

namespace Entry

variable {α β γ δ : Type} {m : Type → Type} [Monad m]

@[simp] def elim (left : α → δ) (right : β → δ) (both : γ → δ) : Entry α β γ → δ
  | .left a => left a
  | .right b => right b
  | .both c => both c

@[simp] def both? : Entry α β γ → Option γ
  | .left _ | .right _ => none
  | .both c => some c

@[simp] def mapM (f : γ → m δ) : Entry α β γ → m (Entry α β δ)
  | .left a => pure (.left a)
  | .right b => pure (.right b)
  | .both c => .both <$> f c

@[simp] theorem filterMap_left (as : List α) :
    (as.map left).filterMap (both? : Entry α β γ → Option γ) = [] := by
  simp [List.filterMap_eq_nil_iff]

@[simp] theorem filterMap_right (bs : List β) :
    (bs.map right).filterMap (both? : Entry α β γ → Option γ) = [] := by
  simp [List.filterMap_eq_nil_iff]

end Entry

section scan

variable {α β γ : Type} {m : Type → Type} [Monad m] [LawfulMonad m]

def scanM (cmp : α → β → m Ordering) (both : α → β → m γ) (as : List α) (bs : List β) :
    m (List (Entry α β γ)) :=
  unionM cmp .left .right (fun a b => .both <$> both a b) as bs

theorem unionM_eq_scanM (cmp : α → β → m Ordering) (left : α → γ) (right : β → γ)
    (both : α → β → m γ) (as : List α) (bs : List β) :
    unionM cmp left right both as bs =
      List.map (Entry.elim left right id) <$> scanM cmp both as bs := by
  induction as generalizing bs with
  | nil => simp [scanM, unionM, Function.comp_def]
  | cons a as iha =>
      induction bs with
      | nil => simp [scanM, unionM, Function.comp_def]
      | cons b bs ihb =>
          simp only [scanM] at iha ihb ⊢
          rw [unionM, unionM, map_bind]
          apply bind_congr
          rintro (_ | _ | _)
          · simp [iha]
          · simp [iha]
          · simp [ihb]

theorem interM_eq_scanM (cmp : α → β → m Ordering) (both : α → β → m γ) (as : List α)
    (bs : List β) :
    interM cmp both as bs = List.filterMap Entry.both? <$> scanM cmp both as bs := by
  induction as generalizing bs with
  | nil => simp [scanM, unionM, interM, -List.filterMap_map]
  | cons a as iha =>
      induction bs with
      | nil => simp [scanM, unionM, interM, -List.filterMap_map, List.filterMap_cons]
      | cons b bs ihb =>
          simp only [scanM] at iha ihb ⊢
          rw [interM, unionM, map_bind]
          apply bind_congr
          rintro (_ | _ | _)
          · simp [iha, List.filterMap_cons]
          · simp [iha]
          · simp [ihb, List.filterMap_cons]

def align (cmp : α → β → Ordering) (as : List α) (bs : List β) : List (Entry α β (α × β)) :=
  union cmp .left .right (fun a b => .both (a, b)) as bs

theorem scanM_pure (cmp : α → β → Ordering) (both : α → β → m γ) (as : List α) (bs : List β) :
    scanM (fun a b => pure (cmp a b)) both as bs =
      (align cmp as bs).mapM (Entry.mapM fun p => both p.1 p.2) := by
  induction as generalizing bs with
  | nil => simp [scanM, align, unionM, List.mapM_map, Function.comp_def]
  | cons a as iha =>
      induction bs with
      | nil => simp [scanM, align, unionM, List.mapM_map, Function.comp_def]
      | cons b bs ihb =>
          simp only [scanM, align] at iha ihb ⊢
          rw [unionM, union_cons_cons, pure_bind]
          cases cmp a b with
          | lt => simp [iha]
          | gt => simp [ihb]
          | eq => simp [iha]

theorem map_mapM_entry {δ : Type} (left : α → δ) (right : β → δ) (f : γ → m δ)
    (es : List (Entry α β γ)) :
    List.map (Entry.elim left right id) <$> es.mapM (Entry.mapM f) =
      es.mapM (Entry.elim (fun a => pure (left a)) (fun b => pure (right b)) f) := by
  induction es with
  | nil => simp
  | cons e es ih =>
      rw [List.mapM_cons, List.mapM_cons, ← ih]
      cases e <;> simp

theorem filterMap_mapM_entry {δ : Type} (f : γ → m δ) (es : List (Entry α β γ)) :
    List.filterMap Entry.both? <$> es.mapM (Entry.mapM f) = (es.filterMap Entry.both?).mapM f := by
  induction es with
  | nil => simp
  | cons e es ih =>
      cases e with
      | left | right => simpa [List.filterMap_cons] using ih
      | both c => simp [← ih]

theorem unionM_pure (cmp : α → β → Ordering) (left : α → γ) (right : β → γ)
    (both : α → β → m γ) (as : List α) (bs : List β) :
    unionM (fun a b => pure (cmp a b)) left right both as bs = (align cmp as bs).mapM
      (Entry.elim (fun a => pure (left a)) (fun b => pure (right b)) fun p => both p.1 p.2) := by
  rw [unionM_eq_scanM, scanM_pure, map_mapM_entry]

theorem interM_pure (cmp : α → β → Ordering) (both : α → β → m γ) (as : List α) (bs : List β) :
    interM (fun a b => pure (cmp a b)) both as bs =
      ((align cmp as bs).filterMap Entry.both?).mapM fun p => both p.1 p.2 := by
  rw [interM_eq_scanM, scanM_pure, filterMap_mapM_entry]

end scan

section ascending

variable {α : Type} {cmp : α → α → Ordering}

abbrev Ascends (cmp : α → α → Ordering) (as : List α) : Prop :=
  as.Pairwise fun a b => cmp a b = .lt

namespace Entry

def key : Entry α α (α × α) → α := elim id id Prod.fst

/-- The entry belongs to the two lists: an element without a partner, or two partners. -/
def Arises (cmp : α → α → Ordering) (as bs : List α) : Entry α α (α × α) → Prop
  | .left a => a ∈ as ∧ ∀ b ∈ bs, cmp a b ≠ .eq
  | .right b => b ∈ bs ∧ ∀ a ∈ as, cmp a b ≠ .eq
  | .both p => p.1 ∈ as ∧ p.2 ∈ bs ∧ cmp p.1 p.2 = .eq

variable {a b : α} {as bs : List α} {x : Entry α α (α × α)}

theorem arises_cons_left (h : ∀ b ∈ bs, cmp a b ≠ .eq) :
    x.Arises cmp (a :: as) bs ↔ x = .left a ∨ x.Arises cmp as bs := by
  cases x <;> simp only [Arises, List.mem_cons, reduceCtorEq, left.injEq, false_or] <;> grind

theorem arises_cons_right (h : ∀ a ∈ as, cmp a b ≠ .eq) :
    x.Arises cmp as (b :: bs) ↔ x = .right b ∨ x.Arises cmp as bs := by
  cases x <;> simp only [Arises, List.mem_cons, reduceCtorEq, right.injEq, false_or] <;> grind

theorem arises_cons_cons (hab : cmp a b = .eq) (ha : ∀ b' ∈ bs, cmp a b' ≠ .eq)
    (hb : ∀ a' ∈ as, cmp a' b ≠ .eq) :
    x.Arises cmp (a :: as) (b :: bs) ↔ x = .both (a, b) ∨ x.Arises cmp as bs := by
  cases x <;> simp only [Arises, List.mem_cons, reduceCtorEq, both.injEq, false_or] <;> grind

end Entry

variable [Std.TransCmp cmp] {a b : α} {as bs : List α}

theorem align_ascends (ha : Ascends cmp as) (hb : Ascends cmp bs) :
    (align cmp as bs).Pairwise fun x y => cmp x.key y.key = .lt := by
  let _ : Ord α := ⟨cmp⟩
  have : Std.TransOrd α := ‹Std.TransCmp cmp›
  have hsorted : Sorted ((align cmp as bs).map Entry.key) := by
    apply union_sorted_of_keys id id
    · exact fun _ => rfl
    · exact fun _ => rfl
    · exact fun _ _ => rfl
    · rwa [List.map_id]
    · rwa [List.map_id]
  exact List.pairwise_map.1 hsorted

theorem forall_mem_cons_lt (hab : cmp a b = .lt) (hb : Ascends cmp (b :: bs)) :
    ∀ c ∈ b :: bs, cmp a c = .lt := by
  rw [Ascends, List.pairwise_cons] at hb
  exact List.forall_mem_cons.2 ⟨hab, fun c hc => Std.TransCmp.lt_trans hab (hb.1 c hc)⟩

theorem mem_align {x : Entry α α (α × α)} (ha : Ascends cmp as) (hb : Ascends cmp bs) :
    x ∈ align cmp as bs ↔ x.Arises cmp as bs := by
  induction as generalizing bs with
  | nil => cases x <;> simp [align, Entry.Arises]
  | cons a as iha =>
      induction bs with
      | nil => cases x <;> simp [align, Entry.Arises]
      | cons b bs ihb =>
          have ha' := List.pairwise_cons.1 ha
          have hb' := List.pairwise_cons.1 hb
          simp only [align] at iha ihb ⊢
          rw [union_cons_cons]
          -- what is passed has no partner left on the other side, which ascends from there
          cases hab : cmp a b with
          | lt =>
              rw [List.mem_cons, iha ha'.2 hb, Entry.arises_cons_left]
              intro c hc
              simp [forall_mem_cons_lt hab hb c hc]
          | gt =>
              rw [List.mem_cons, ihb hb'.2, Entry.arises_cons_right]
              intro c hc
              have hbc := forall_mem_cons_lt (Std.OrientedCmp.lt_of_gt hab) ha c hc
              simp [Std.OrientedCmp.gt_of_lt hbc]
          | eq =>
              rw [List.mem_cons, iha ha'.2 hb'.2, Entry.arises_cons_cons hab]
              · intro c hc
                simp [Std.TransCmp.lt_of_eq_of_lt hab (hb'.1 c hc)]
              · intro c hc
                have hbc := Std.TransCmp.lt_of_eq_of_lt (Std.OrientedCmp.eq_symm hab) (ha'.1 c hc)
                simp [Std.OrientedCmp.gt_of_lt hbc]

theorem ascends_map {β : Type} {key value : β → α} {xs : List β}
    (h : xs.Pairwise fun x y => cmp (key x) (key y) = .lt)
    (hvalue : ∀ x ∈ xs, cmp (value x) (key x) = .eq) : Ascends cmp (xs.map value) := by
  rw [Ascends, List.pairwise_map]
  refine h.imp_of_mem fun {x y} hx hy hxy => ?_
  have hlt := Std.TransCmp.lt_of_eq_of_lt (hvalue x hx) hxy
  exact Std.TransCmp.lt_of_lt_of_eq hlt (Std.OrientedCmp.eq_symm (hvalue y hy))

end ascending

section calls

variable {α β γ δ ε : Type}

def called (combine : α → α → Except ε γ) (a b : α) : ExceptT ε (StateM (List (α × α))) γ := do
  modify (· ++ [(a, b)])
  MonadExcept.ofExcept (combine a b)

theorem run_called (combine : α → α → Except ε γ) (p : α × α) (calls : List (α × α)) :
    (called combine p.1 p.2).run.run calls = (combine p.1 p.2, calls ++ [p]) := by
  rw [called]
  cases combine p.1 p.2 <;> rfl

section mapM

variable {f : β → ExceptT ε (StateM (List δ)) γ} {g : β → Except ε γ} {call : β → List δ}
  (hf : ∀ x calls, (f x).run.run calls = (g x, calls ++ call x)) {xs : List β}

include hf

theorem run_mapM_ok {v : β → γ} (h : ∀ x ∈ xs, g x = .ok (v x)) (calls : List δ) :
    (xs.mapM f).run.run calls = (.ok (xs.map v), calls ++ xs.flatMap call) := by
  induction xs generalizing calls with
  | nil =>
      rw [List.flatMap_nil, List.append_nil]
      rfl
  | cons x xs ih =>
      rw [List.forall_mem_cons] at h
      have hx : (f x).run.run calls = (.ok (v x), calls ++ call x) := by rw [hf, h.1]
      rw [List.mapM_cons, run_bind_ok hx, run_bind_ok (ih h.2 _), List.flatMap_cons,
        List.append_assoc]
      rfl

theorem run_mapM_error {x : β} {ys : List β} {e : ε} (h : ∀ y ∈ xs, ∃ c, g y = .ok c)
    (hx : g x = .error e) (calls : List δ) :
    ((xs ++ x :: ys).mapM f).run.run calls = (.error e, calls ++ (xs ++ [x]).flatMap call) := by
  induction xs generalizing calls with
  | nil =>
      have hx' : (f x).run.run calls = (.error e, calls ++ call x) := by rw [hf, hx]
      rw [List.nil_append, List.mapM_cons, run_bind_error hx', List.nil_append,
        List.flatMap_singleton]
  | cons y xs ih =>
      rw [List.forall_mem_cons] at h
      obtain ⟨⟨c, hc⟩, h⟩ := h
      have hy : (f y).run.run calls = (.ok c, calls ++ call y) := by rw [hf, hc]
      rw [List.cons_append, List.mapM_cons, run_bind_ok hy, run_bind_error (ih h _),
        List.cons_append, List.flatMap_cons, List.append_assoc]

end mapM

variable {cmp : α → α → Ordering} {combine : α → α → Except ε α} {as bs : List α}

def unionCalls (cmp : α → α → Ordering) (combine : α → α → Except ε α) (as bs : List α) :
    Except ε (List α) × List (α × α) :=
  (unionM (fun a b => pure (cmp a b)) id id (called combine) as bs).run.run []

def interCalls (cmp : α → α → Ordering) (combine : α → α → Except ε α) (as bs : List α) :
    Except ε (List α) × List (α × α) :=
  (interM (fun a b => pure (cmp a b)) (called combine) as bs).run.run []

def pairs (cmp : α → α → Ordering) (as bs : List α) : List (α × α) :=
  (align cmp as bs).filterMap Entry.both?

theorem interCalls_ok {both : α × α → α}
    (h : ∀ p ∈ pairs cmp as bs, combine p.1 p.2 = .ok (both p)) :
    interCalls cmp combine as bs = (.ok ((pairs cmp as bs).map both), pairs cmp as bs) := by
  rw [interCalls, interM_pure, ← pairs, run_mapM_ok (run_called combine) h]
  simp

theorem interCalls_error {before after : List (α × α)} {p : α × α} {e : ε}
    (hpairs : pairs cmp as bs = before ++ p :: after)
    (hbefore : ∀ q ∈ before, ∃ c, combine q.1 q.2 = .ok c) (hp : combine p.1 p.2 = .error e) :
    interCalls cmp combine as bs = (.error e, before ++ [p]) := by
  rw [interCalls, interM_pure, ← pairs, hpairs, run_mapM_error (run_called combine) hbefore hp]
  simp

theorem run_entry (combine : α → α → Except ε α) (x : Entry α α (α × α)) (calls : List (α × α)) :
    (x.elim (fun a => pure a) (fun b => pure b) fun p => called combine p.1 p.2).run.run calls =
      (x.elim .ok .ok fun p => combine p.1 p.2, calls ++ x.both?.toList) := by
  cases x with
  | left | right =>
      rw [Entry.both?, Option.toList_none, List.append_nil]
      rfl
  | both p => exact run_called combine p calls

theorem unionCalls_ok {both : α × α → α}
    (h : ∀ p ∈ pairs cmp as bs, combine p.1 p.2 = .ok (both p)) :
    unionCalls cmp combine as bs =
      (.ok ((align cmp as bs).map (Entry.elim id id both)), pairs cmp as bs) := by
  have hentry : ∀ x ∈ align cmp as bs,
      x.elim .ok .ok (fun p => combine p.1 p.2) = .ok (x.elim id id both) := by
    intro x hx
    cases x with
    | left | right => rfl
    | both p => exact h p (List.mem_filterMap.2 ⟨_, hx, rfl⟩)
  rw [unionCalls, unionM_pure]
  refine (run_mapM_ok (run_entry combine) hentry []).trans ?_
  rw [List.nil_append, ← List.filterMap_eq_flatMap_toList, pairs]

theorem unionCalls_error {before after : List (α × α)} {p : α × α} {e : ε}
    (hpairs : pairs cmp as bs = before ++ p :: after)
    (hbefore : ∀ q ∈ before, ∃ c, combine q.1 q.2 = .ok c) (hp : combine p.1 p.2 = .error e) :
    unionCalls cmp combine as bs = (.error e, before ++ [p]) := by
  obtain ⟨xs, ys, hsplit, rfl, hys⟩ := List.filterMap_eq_append_iff.1 hpairs
  obtain ⟨zs, x, ws, rfl, hzs, hx, -⟩ := List.filterMap_eq_cons_iff.1 hys
  obtain ⟨rfl⟩ : x = .both p := by cases x <;> simp_all
  have hentry : ∀ x ∈ xs ++ zs, ∃ c, x.elim .ok .ok (fun p => combine p.1 p.2) = .ok c := by
    intro x hx
    cases x with
    | left a | right a => exact ⟨a, rfl⟩
    | both q =>
        refine hbefore q (List.mem_filterMap.2 ⟨_, (List.mem_append.1 hx).resolve_right ?_, rfl⟩)
        exact fun hq => nomatch hzs _ hq
  rw [unionCalls, unionM_pure, hsplit, ← List.append_assoc]
  refine (run_mapM_error (x := .both p) (run_entry combine) hentry hp []).trans ?_
  rw [List.nil_append, ← List.filterMap_eq_flatMap_toList, List.filterMap_append,
    List.filterMap_append, List.filterMap_eq_nil_iff.2 hzs, List.append_nil]
  rfl

theorem error_or_ok (f : β → Except ε γ) (xs : List β) :
    (∃ before x after e, xs = before ++ x :: after ∧ (∀ y ∈ before, ∃ c, f y = .ok c) ∧
      f x = .error e) ∨ ∀ x ∈ xs, ∃ c, f x = .ok c := by
  induction xs with
  | nil => exact .inr nofun
  | cons x xs ih =>
      cases hx : f x with
      | error e => exact .inl ⟨[], x, xs, e, rfl, nofun, hx⟩
      | ok c =>
          obtain ⟨before, y, after, e, rfl, hbefore, hy⟩ | hxs := ih
          · exact .inl ⟨x :: before, y, after, e, rfl,
              List.forall_mem_cons.2 ⟨⟨c, hx⟩, hbefore⟩, hy⟩
          · exact .inr (List.forall_mem_cons.2 ⟨⟨c, hx⟩, hxs⟩)

section partners

variable [Std.TransCmp cmp] (ha : Ascends cmp as) (hb : Ascends cmp bs)

include ha hb

theorem pairs_ascend : (pairs cmp as bs).Pairwise fun p q => cmp p.1 q.1 = .lt := by
  rw [pairs, List.pairwise_filterMap]
  refine (align_ascends ha hb).imp fun {x y} hxy p hp q hq => ?_
  cases x <;> cases y <;> simp_all [Entry.key]

theorem mem_pairs {p : α × α} :
    p ∈ pairs cmp as bs ↔ p.1 ∈ as ∧ p.2 ∈ bs ∧ cmp p.1 p.2 = .eq := by
  refine Iff.trans ?_ (mem_align (x := .both p) ha hb)
  rw [pairs, List.mem_filterMap]
  constructor
  · rintro ⟨x, hx, hp⟩
    cases x <;> simp_all
  · exact fun h => ⟨_, h, rfl⟩

theorem entries_ascend {both : α × α → α}
    (hkey : ∀ p ∈ pairs cmp as bs, cmp (both p) p.1 = .eq) :
    Ascends cmp ((align cmp as bs).map (Entry.elim id id both)) := by
  refine ascends_map (align_ascends ha hb) fun x hx => ?_
  cases x with
  | left | right => exact Std.ReflCmp.compare_self
  | both p => exact hkey p (List.mem_filterMap.2 ⟨_, hx, rfl⟩)

/-- Two ascending lists are merged by combining the elements whose keys occur in both, in ascending
order and up to the first failure, which is then the answer of both merges. -/
theorem merges_combine_partners (combine : α → α → Except ε α) :
    ∃ (entries : List (Entry α α (α × α))) (pairs : List (α × α)),
      (entries.Pairwise fun x y => cmp x.key y.key = .lt) ∧
      (∀ x, x ∈ entries ↔ x.Arises cmp as bs) ∧
      (pairs.Pairwise fun p q => cmp p.1 q.1 = .lt) ∧
      (∀ p, p ∈ pairs ↔ p.1 ∈ as ∧ p.2 ∈ bs ∧ cmp p.1 p.2 = .eq) ∧
      ((∃ before p after e, pairs = before ++ p :: after ∧
          (∀ q ∈ before, ∃ c, combine q.1 q.2 = .ok c) ∧ combine p.1 p.2 = .error e ∧
          unionCalls cmp combine as bs = (.error e, before ++ [p]) ∧
          interCalls cmp combine as bs = (.error e, before ++ [p])) ∨
        ∃ both : α × α → α, (∀ p ∈ pairs, combine p.1 p.2 = .ok (both p)) ∧
          unionCalls cmp combine as bs = (.ok (entries.map (Entry.elim id id both)), pairs) ∧
          interCalls cmp combine as bs = (.ok (pairs.map both), pairs) ∧
          ((∀ p ∈ pairs, cmp (both p) p.1 = .eq) →
            Ascends cmp (entries.map (Entry.elim id id both)) ∧ Ascends cmp (pairs.map both))) ∧
      ∀ {m : Type → Type} [Monad m] [LawfulMonad m] (combine : α → α → m α),
        unionM (fun a b => pure (cmp a b)) id id combine as bs =
          entries.mapM (Entry.elim pure pure fun p => combine p.1 p.2) ∧
        interM (fun a b => pure (cmp a b)) combine as bs =
          pairs.mapM fun p => combine p.1 p.2 := by
  refine ⟨align cmp as bs, pairs cmp as bs, align_ascends ha hb, fun _ => mem_align ha hb,
    pairs_ascend ha hb, fun _ => mem_pairs ha hb, ?_, ?_⟩
  · obtain ⟨before, p, after, e, hpairs, hbefore, hp⟩ | h :=
      error_or_ok (fun p : α × α => combine p.1 p.2) (pairs cmp as bs)
    · exact .inl ⟨before, p, after, e, hpairs, hbefore, hp, unionCalls_error hpairs hbefore hp,
        interCalls_error hpairs hbefore hp⟩
    · have hboth : ∀ p ∈ pairs cmp as bs,
          combine p.1 p.2 = .ok ((combine p.1 p.2).toOption.getD p.1) := by
        intro p hp
        obtain ⟨c, hc⟩ := h p hp
        rw [hc]
        rfl
      refine .inr ⟨_, hboth, unionCalls_ok hboth, interCalls_ok hboth, fun hkey => ?_⟩
      exact ⟨entries_ascend ha hb hkey, ascends_map (pairs_ascend ha hb) hkey⟩
  · exact fun combine => ⟨unionM_pure cmp id id combine as bs, interM_pure cmp combine as bs⟩

end partners

def sumWithin (limit : Nat) (a b : Nat × Nat) : Except Nat (Nat × Nat) :=
  if a.2 + b.2 ≤ limit then .ok (a.1, a.2 + b.2) else .error (a.2 + b.2)

/-- Of three keys in both lists the second has a sum that fails, and the third is not reached. -/
theorem bounded_sums_stop_at_failure :
    let as := [(1, 10), (3, 30), (5, 50), (7, 70)]
    let bs := [(1, 1), (2, 2), (5, 20), (7, 30)]
    Ascends (compareOn Prod.fst) as ∧ Ascends (compareOn Prod.fst) bs ∧
    ∃ before p e, (before ++ [p]).Pairwise (fun q r => compareOn Prod.fst q.1 r.1 = .lt) ∧
      sumWithin 60 p.1 p.2 = .error e ∧
      unionCalls (compareOn Prod.fst) (sumWithin 60) as bs = (.error e, before ++ [p]) ∧
      interCalls (compareOn Prod.fst) (sumWithin 60) as bs = (.error e, before ++ [p]) := by
  intro as bs
  have ha : Ascends (compareOn Prod.fst) as := by decide
  have hb : Ascends (compareOn Prod.fst) bs := by decide
  obtain ⟨entries, pairs, -, -, hascend, hmem, h, -⟩ :=
    merges_combine_partners ha hb (sumWithin 60)
  refine ⟨ha, hb, ?_⟩
  obtain ⟨before, p, after, e, rfl, -, hp, hunion, hinter⟩ | ⟨both, hboth, -⟩ := h
  · refine ⟨before, p, e, hascend.sublist ?_, hp, hunion, hinter⟩
    exact List.Sublist.append_left (List.singleton_sublist.2 List.mem_cons_self) before
  · cases hboth ((5, 50), (5, 20)) ((hmem _).2 (by decide))

end calls

end TypeLattice.Ascending
