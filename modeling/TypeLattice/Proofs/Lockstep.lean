import Mathlib.Algebra.GroupWithZero.Nat
import TypeLattice.Proofs.Alignment

namespace TypeLattice.Ascending

/-- What a merge asks for: the order of two elements, or what they make together. -/
inductive Probe (α : Type) where
  | compare (a b : α)
  | combine (a b : α)

def Probe.isCompare {α : Type} : Probe α → Bool
  | .compare _ _ => true
  | .combine _ _ => false

variable {α β γ ε : Type}

abbrev ProbeM (α ε : Type) := ExceptT ε (StateM (List (Probe α)))

def noted (p : Probe α) (answer : Except ε γ) : ProbeM α ε γ := do
  modify (· ++ [p])
  MonadExcept.ofExcept answer

theorem run_noted (p : Probe α) (answer : Except ε γ) (log : List (Probe α)) :
    (noted p answer).run.run log = (answer, log ++ [p]) := by
  rw [noted]
  cases answer <;> rfl

theorem run_map (f : β → γ) {x : ProbeM α ε β} {log log' : List (Probe α)} {r : Except ε β}
    (h : x.run.run log = (r, log')) : (f <$> x).run.run log = (f <$> r, log') := by
  rw [ExceptT.run_map, StateT.run_map, h]
  cases r <;> rfl

section merges

variable (cmp : α → α → Ordering) (combine : α → α → Except ε α) (as bs : List α)

def noteCompare (a b : α) : ProbeM α ε Ordering := noted (.compare a b) (.ok (cmp a b))

def noteCombine (a b : α) : ProbeM α ε α := noted (.combine a b) (combine a b)

def unionProbes : Except ε (List α) × List (Probe α) :=
  (unionM (noteCompare cmp) id id (noteCombine combine) as bs).run.run []

def interProbes : Except ε (List α) × List (Probe α) :=
  (interM (noteCompare cmp) (noteCombine combine) as bs).run.run []

end merges

def Entry.taken : Entry α β γ → Nat
  | .left _ | .right _ => 1
  | .both _ => 2

theorem Entry.taken_pos (e : Entry α β γ) : 0 < e.taken := by
  cases e <;> exact Nat.succ_pos _

theorem sum_taken (es : List (Entry α β γ)) :
    (es.map Entry.taken).sum = es.length + (es.filterMap Entry.both?).length := by
  induction es with
  | nil => rfl
  | cons e es ih =>
      rw [List.map_cons, List.sum_cons, ih]
      cases e <;> simp [Entry.taken, List.filterMap_cons] <;> omega

/-- From any log on, the walk gives the answer with no more comparisons than the limit. If it does not
fail, its entries take up the given number of elements. -/
structure Walks (x : ProbeM α ε (List (Entry α α α))) (answer : Except ε (List (Entry α α α)))
    (total limit : Nat) : Prop where
  run (log : List (Probe α)) : ∃ probes, probes.countP Probe.isCompare ≤ limit ∧
    x.run.run log = (answer, log ++ probes)
  taken (es : List (Entry α α α)) : answer = .ok es → (es.map Entry.taken).sum = total

namespace Walks

variable {x : ProbeM α ε (List (Entry α α α))} {answer : Except ε (List (Entry α α α))}
  {total limit : Nat}

theorem stop {es : List (Entry α α α)} (h : es.filterMap Entry.both? = []) :
    Walks (pure es : ProbeM α ε _) (pure es) es.length 0 where
  run log := by
    refine ⟨[], Nat.le_refl 0, ?_⟩
    rw [List.append_nil]
    rfl
  taken es' hes := by
    cases hes
    rw [sum_taken, h]
    rfl

theorem cons (e : Entry α α α) (hx : Walks x answer total limit) :
    Walks (do return e :: (← x)) (do return e :: (← answer)) (e.taken + total) limit where
  run log := by
    obtain ⟨probes, hlimit, hrun⟩ := hx.run log
    refine ⟨probes, hlimit, ?_⟩
    cases answer with
    | error e' => exact run_bind_error hrun
    | ok es => exact run_bind_ok hrun
  taken es' hes := by
    cases answer with
    | error e' => cases hes
    | ok es =>
        cases hes
        rw [List.map_cons, List.sum_cons, hx.taken es rfl]

theorem noted {p : Probe α} {first : Except ε γ} {f : γ → ProbeM α ε (List (Entry α α α))}
    {g : γ → Except ε (List (Entry α α α))}
    (h : ∀ c, first = .ok c → Walks (f c) (g c) total limit) :
    Walks (Ascending.noted p first >>= f) (first >>= g) total
      (limit + [p].countP Probe.isCompare) where
  run log := by
    have hnoted := run_noted p first log
    cases first with
    | error e => exact ⟨[p], Nat.le_add_left _ _, run_bind_error hnoted⟩
    | ok c =>
        obtain ⟨probes, hlimit, hrun⟩ := (h c rfl).run (log ++ [p])
        refine ⟨[p] ++ probes, ?_, ?_⟩
        · rw [List.countP_append]
          omega
        · rw [run_bind_ok hnoted, hrun, List.append_assoc]
          rfl
  taken es hes := by
    cases first with
    | error e => cases hes
    | ok c => exact (h c rfl).taken es hes

theorem mono {total' limit' : Nat} (hx : Walks x answer total limit) (htotal : total = total')
    (h : limit ≤ limit') : Walks x answer total' limit' where
  run log := by
    obtain ⟨probes, hlimit, hrun⟩ := hx.run log
    exact ⟨probes, Nat.le_trans hlimit h, hrun⟩
  taken es hes := htotal ▸ hx.taken es hes

end Walks

section lockstep

variable (cmp : α → α → Ordering) (combine : α → α → Except ε α) (as bs : List α)

/-- One comparison passes at least one element, and none is made for the last one. -/
theorem walks_scanM :
    Walks (scanM (noteCompare cmp) (noteCombine combine) as bs)
      (scanM (fun a b => pure (cmp a b)) combine as bs) (as.length + bs.length)
      (if as.isEmpty || bs.isEmpty then 0 else as.length + bs.length - 1) := by
  induction as generalizing bs with
  | nil =>
      simp only [scanM, unionM]
      simpa using Walks.stop (Entry.filterMap_right bs)
  | cons a as iha =>
      induction bs with
      | nil =>
          simp only [scanM, unionM]
          simpa using Walks.stop (Entry.filterMap_left (a :: as))
      | cons b bs ihb =>
          have hlimit : (if (a :: as).isEmpty || (b :: bs).isEmpty then 0
              else (a :: as).length + (b :: bs).length - 1) = as.length + bs.length + 1 := by
            simp only [List.isEmpty_cons, Bool.or_self, Bool.false_eq_true, if_false,
              List.length_cons]
            omega
          -- whatever the comparison says, one entry is made and less remains to be walked
          have pass (e : Entry α α α) {cs ds : List α}
              (hwalk : Walks (scanM (noteCompare cmp) (noteCombine combine) cs ds)
                (scanM (fun a b => pure (cmp a b)) combine cs ds) (cs.length + ds.length)
                (if cs.isEmpty || ds.isEmpty then 0 else cs.length + ds.length - 1))
              (htaken : e.taken + (cs.length + ds.length) = as.length + 1 + (bs.length + 1)) :
              Walks (do return e :: (← scanM (noteCompare cmp) (noteCombine combine) cs ds))
                (do return e :: (← scanM (fun a b => pure (cmp a b)) combine cs ds))
                (as.length + 1 + (bs.length + 1)) (as.length + bs.length) := by
            refine (hwalk.cons e).mono htaken ?_
            have hpos := e.taken_pos
            split <;> omega
          rw [scanM, scanM, unionM, unionM, hlimit]
          refine Walks.noted fun o ho => ?_
          cases ho
          cases cmp a b with
          | lt =>
              refine pass (.left a) (iha (b :: bs)) ?_
              simp only [Entry.taken, List.length_cons]
              omega
          | gt =>
              refine pass (.right b) ihb ?_
              simp only [Entry.taken, List.length_cons]
              omega
          | eq =>
              simp only [bind_map_left]
              refine Walks.noted fun c _ => pass (.both c) (iha bs) ?_
              simp only [Entry.taken]
              omega

/-- Whatever the comparison, a union and an intersection ask for the same comparisons and
combinations in the same order, and fail alike. Otherwise their results have together as many
elements as the lists. -/
theorem merges_in_lockstep : ∃ probes : List (Probe α),
    unionProbes cmp combine as bs =
      (unionM (fun a b => pure (cmp a b)) id id combine as bs, probes) ∧
    interProbes cmp combine as bs =
      (interM (fun a b => pure (cmp a b)) combine as bs, probes) ∧
    ((∃ e, unionM (fun a b => pure (cmp a b)) id id combine as bs = .error e ∧
        interM (fun a b => pure (cmp a b)) combine as bs = .error e) ∨
      ∃ cs ds, unionM (fun a b => pure (cmp a b)) id id combine as bs = .ok cs ∧
        interM (fun a b => pure (cmp a b)) combine as bs = .ok ds ∧
        cs.length + ds.length = as.length + bs.length) ∧
    probes.countP Probe.isCompare ≤
      if as.isEmpty || bs.isEmpty then 0 else as.length + bs.length - 1 := by
  have hwalks := walks_scanM cmp combine as bs
  obtain ⟨probes, hlimit, hrun⟩ := hwalks.run []
  simp only [unionProbes, interProbes, unionM_eq_scanM, interM_eq_scanM]
  refine ⟨probes, run_map _ hrun, run_map _ hrun, ?_, hlimit⟩
  cases hanswer : scanM (fun a b => pure (cmp a b)) combine as bs with
  | error e => exact .inl ⟨e, rfl, rfl⟩
  | ok es =>
      refine .inr ⟨_, _, rfl, rfl, ?_⟩
      rw [List.length_map, ← sum_taken, hwalks.taken es hanswer]

end lockstep

end TypeLattice.Ascending
