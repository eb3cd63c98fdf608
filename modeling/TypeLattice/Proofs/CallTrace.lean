import Mathlib.Algebra.GroupWithZero.Nat
import Mathlib.Algebra.Order.BigOperators.Group.List
import Mathlib.Algebra.Order.Group.Nat
import TypeLattice.Proofs.Refinement

namespace TypeLattice

def Node.size (n : Node Nat) : Nat := n.children.sum + 1

namespace Ty

def size : Ty → Nat := fold Node.size

theorem size_mk (n : Node Ty) : (mk n).size = (n.children.map size).sum + 1 := by
  rw [size, fold_mk, Node.size, Node.children_map]

theorem size_lt_of_mem {n : Node Ty} {t : Ty} (h : t ∈ n.children) : t.size < (mk n).size := by
  rw [size_mk]
  exact Nat.lt_succ_of_le (List.le_sum_of_mem (List.mem_map_of_mem h))

/-- In normal form no layer is lost when the halves are flipped. -/
theorem size_dual {t : Ty} (h : t.Normal) : t.dual.size = t.size := by
  induction t with
  | mk n ih =>
      have hparts : n.children.map (fun u => u.dual.size) = n.children.map size :=
        List.map_congr_left fun u hu => ih u hu (h.parts u hu)
      rw [dual_of_normal h, size_mk, size_mk, Node.children_map, node, Node.children_flip,
        List.map_map, ← hparts]
      rfl

end Ty

def Inquiry.answerM {α : Type} {m : Type → Type} [Monad m] (convert : α → α → m Verdict) :
    Inquiry α → m Verdict
  | .settled v => return v
  | .through x y => convert x y
  | .worstOf pairs => pairs.foldlM (fun v p =>
      match p.1 with
      | none => return v.worst .incompatible
      | some x => return v.worst (← convert x p.2)) .free

namespace Store

structure Pair where
  store : Store
  left : Handle
  right : Handle

def Pair.size (p : Pair) : Nat := (p.store.tree p.left).size + (p.store.tree p.right).size

/-- What an operation asks for while it works on its own operands. -/
structure SubCall where
  caller : Pair
  callee : Pair

structure SubCall.Shrinks (c : SubCall) : Prop where
  left : c.callee.store.Holds c.callee.left
  right : c.callee.store.Holds c.callee.right
  size : c.callee.size < c.caller.size

/-- Programs over a store that write down their calls, and that may not come to an end. -/
abbrev TraceM := StateT Store (StateT (List SubCall) Option)

abbrev MeetTraceM := ExceptT (Clash Handle) TraceM

namespace TraceM

variable {α : Type}

def perform (x : StoreM α) : TraceM α := fun s calls => some (x.run s, calls)

instance : MonadLift StoreM TraceM := ⟨perform⟩

def noEnd : TraceM α := fun _ _ => none

def note (caller : Pair) (x y : Handle) : TraceM Unit := fun s calls =>
  some (((), s), calls ++ [⟨caller, s, x, y⟩])

def noting {m : Type → Type} [Monad m] [MonadLiftT TraceM m] (caller : Pair)
    (call : Handle → Handle → m α) (x y : Handle) : m α := do
  note caller x y
  call x y

end TraceM

section rounds

variable {m : Type → Type} [Monad m] [MonadLiftT StoreM m]

def unnameRound (unname : Handle → m Handle) (h : Handle) : m Handle := do
  match (← (get : StoreM Store)).node h with
  | .name _ x => unname x
  | _ => return h

def nullableRound (unname : Handle → m Handle) (h : Half) (x : Handle) : m Handle := do
  let s ← (get : StoreM Store)
  let y ← unname x
  if (s.node x).isUniversal || (s.node y).admitsNil then return x
  intern (.nil h (some x))

def makerRound (unname : Handle → m Handle) : Maker m Handle :=
  ⟨Preset.handle, fun r => liftM (intern r), nullableRound unname⟩

def dualRound (M : Maker m Handle) (dual : Handle → m Handle) (h : Handle) : m Handle := do
  match (← (get : StoreM Store)).duals[h]? with
  | some d => return d
  | none =>
    let d ← M.dual dual h ((← (get : StoreM Store)).record h)
    recordDual h d
    return d

def joinRound (dual : Handle → m Handle) (meet : Handle → Handle → m Handle) (x y : Handle) :
    m Handle := do
  let x ← dual x
  let y ← dual y
  let z ← meet x y
  dual z

def meetRound (M : Maker m Handle) (dual : Handle → m Handle)
    (meet clash : Handle → Handle → m Handle) (a b : Handle) : m Handle := do
  if a = b then return a
  let s ← (get : StoreM Store)
  (Meeter.mk M meet (joinRound dual meet) clash).ofPair a (s.record a) b (s.record b)

def isaRound (meet : Handle → Handle → m (Except (Clash Handle) Handle)) (a b : Handle) :
    m Bool := do
  match ← meet a b with
  | .ok c => return c = b
  | .error _ => return false

def classifyRound (unname : Handle → m Handle) (classify : Handle → Handle → m Verdict)
    (a b : Handle) : m Verdict := do
  let s ← (get : StoreM Store)
  let x ← unname a
  let y ← unname b
  if (s.node x).half.isTop || (s.node y).half.isTop then return .unknown
  if x = y then return .free
  (Inquiry.ofNodes x (s.node x) (s.node y)).answerM classify

end rounds

theorem maker_eq_round : maker = makerRound (fun h => do return (← get).unname h) := rfl

theorem dualWithin_succ (n : Nat) (h : Handle) :
    dualWithin (n + 1) h = dualRound maker (dualWithin n) h := rfl

theorem meetWithin_succ (n : Nat) (a b : Handle) : meetWithin (n + 1) a b =
    meetRound maker.lift (fun h => liftM (dual h)) (meetWithin n) (fun x y => throw ⟨x, y⟩) a b :=
  rfl

theorem join_eq_round (a b : Handle) :
    join a b = joinRound (fun h => liftM (dual h)) meet a b := rfl

theorem isa_eq_round (a b : Handle) : isa a b = isaRound (fun a b => (meet a b).run) a b := rfl

def unnameRun : Nat → Handle → TraceM Handle
  | 0, _ => TraceM.noEnd
  | n + 1, h => unnameRound (unnameRun n) h

def makerRun (n : Nat) : Maker TraceM Handle := makerRound (unnameRun n)

def dualRun : Nat → Handle → TraceM Handle
  | 0, _ => TraceM.noEnd
  | n + 1, h => dualRound (makerRun n) (dualRun n) h

def meetRun : Nat → Handle → Handle → MeetTraceM Handle
  | 0, _, _ => liftM (TraceM.noEnd : TraceM Handle)
  | n + 1, a, b => do
    let s ← (get : StoreM Store)
    meetRound (makerRun n).lift (fun h => liftM (dualRun n h))
      (TraceM.noting ⟨s, a, b⟩ (meetRun n)) (fun x y => throw ⟨x, y⟩) a b

def joinRun (n : Nat) : Handle → Handle → MeetTraceM Handle :=
  joinRound (fun h => liftM (dualRun n h)) (meetRun n)

def isaRun (n : Nat) : Handle → Handle → TraceM Bool := isaRound fun a b => (meetRun n a b).run

def classifyRun : Nat → Handle → Handle → TraceM Verdict
  | 0, _, _ => TraceM.noEnd
  | n + 1, a, b => do
    let s ← (get : StoreM Store)
    classifyRound (unnameRun n) (TraceM.noting ⟨s, a, b⟩ (classifyRun n)) a b

/-- From some depth on, the run ends with the answer and the store of the program, and all its calls
shrink. -/
def EndsAs {α : Type} (s : Store) (x : Nat → TraceM α) (y : StoreM α) : Prop :=
  ∃ calls : List SubCall, (∀ c ∈ calls, c.Shrinks) ∧ ∃ least, ∀ n, least ≤ n → ∀ before,
    ((x n).run s).run before = some (y.run s, before ++ calls)

namespace EndsAs

variable {α β : Type} {s : Store} {x : Nat → TraceM α} {y : StoreM α}

theorem pure (a : α) : s.EndsAs (fun _ => pure a) (pure a) := by
  refine ⟨[], nofun, 0, fun n _ before => ?_⟩
  rw [List.append_nil]
  rfl

theorem perform (y : StoreM α) : s.EndsAs (fun _ => liftM y) y := by
  refine ⟨[], nofun, 0, fun n _ before => ?_⟩
  rw [List.append_nil]
  rfl

theorem bind {f : Nat → α → TraceM β} {g : α → StoreM β} (hx : s.EndsAs x y)
    (hf : (y.run s).2.EndsAs (fun n => f n (y.run s).1) (g (y.run s).1)) :
    s.EndsAs (fun n => x n >>= f n) (y >>= g) := by
  obtain ⟨calls, hcalls, least, hrun⟩ := hx
  obtain ⟨calls', hcalls', least', hrun'⟩ := hf
  -- a depth that is enough for both parts is enough for the whole
  refine ⟨calls ++ calls', ?_, max least least', fun n hn before => ?_⟩
  · exact List.forall_mem_append.2 ⟨hcalls, hcalls'⟩
  · rw [StateT.run_bind, StateT.run_bind, hrun n (by omega)]
    rw [← List.append_assoc]
    exact hrun' n (by omega) (before ++ calls)

theorem bind_of_pure {a : α} {f : Nat → α → TraceM β} {z : StoreM β} (hx : s.EndsAs x (Pure.pure a))
    (hf : s.EndsAs (fun n => f n a) z) : s.EndsAs (fun n => x n >>= f n) z :=
  hx.bind (g := fun _ => z) hf

theorem get_bind {f : Nat → Store → TraceM α} {g : Store → StoreM α}
    (h : s.EndsAs (fun n => f n s) (g s)) :
    s.EndsAs (fun n => liftM (get : StoreM Store) >>= f n) (get >>= g) := h

theorem lift (hx : s.EndsAs x y) :
    s.EndsAs (fun n => (liftM (x n) : MeetTraceM α).run) (liftM y : MeetM α).run := by
  change s.EndsAs (fun n => x n >>= fun c => Pure.pure (.ok c : Except (Clash Handle) α))
    (y >>= fun c => Pure.pure (.ok c))
  exact hx.bind (EndsAs.pure _)

theorem note {caller : Pair} {u v : Handle} (hc : SubCall.Shrinks ⟨caller, s, u, v⟩)
    (hx : s.EndsAs x y) : s.EndsAs (fun n => do TraceM.note caller u v; x n) y := by
  obtain ⟨calls, hcalls, least, hrun⟩ := hx
  refine ⟨⟨caller, s, u, v⟩ :: calls, List.forall_mem_cons.2 ⟨hc, hcalls⟩, least,
    fun n hn before => ?_⟩
  rw [← List.singleton_append, ← List.append_assoc]
  exact hrun n hn _

theorem of_succ (h : s.EndsAs (fun n => x (n + 1)) y) : s.EndsAs x y := by
  obtain ⟨calls, hcalls, least, hrun⟩ := h
  refine ⟨calls, hcalls, least + 1, fun n hn before => ?_⟩
  obtain ⟨k, rfl⟩ : ∃ k, n = k + 1 := ⟨n - 1, by omega⟩
  exact hrun k (by omega) before

end EndsAs

/-- A way to compare runs with programs: it passes from their steps to the whole. -/
structure Tracking (m m' : Type → Type) [Monad m] [Monad m'] where
  Rel {α : Type} (s : Store) (x : Nat → m α) (y : m' α) (Q : Store → α → Prop) : Prop
  pure {α : Type} {Q : Store → α → Prop} {s : Store} {a : α} :
    s.Sound → Q s a → Rel s (fun _ => pure a) (pure a) Q
  bind {α β : Type} {Q : Store → α → Prop} {R : Store → β → Prop} {s : Store} {x : Nat → m α}
    {y : m' α} {f : Nat → α → m β} {g : α → m' β} : Rel s x y Q →
    (∀ s' a, s'.Sound → s ≤ s' → Q s' a → Rel s' (fun n => f n a) (g a) R) →
      Rel s (fun n => x n >>= f n) (y >>= g) R

namespace Tracking

variable {m m' : Type → Type} [Monad m] [Monad m'] [LawfulMonad m] [LawfulMonad m']
  (T : Tracking m m') {α β : Type} {s : Store}

theorem mapM_list {Q : Store → β → Prop} (hQ : ∀ s s' b, s ≤ s' → Q s b → Q s' b)
    {f : Nat → α → m β} {g : α → m' β} {xs : List α} (hs : s.Sound)
    (h : ∀ x ∈ xs, ∀ s', s'.Sound → s ≤ s' → T.Rel s' (fun n => f n x) (g x) Q) :
    T.Rel s (fun n => xs.mapM (f n)) (xs.mapM g) (fun s' ys => ∀ y ∈ ys, Q s' y) := by
  induction xs generalizing s with
  | nil => exact T.pure hs nofun
  | cons x xs ih =>
      rw [List.forall_mem_cons] at h
      simp only [List.mapM_cons]
      refine T.bind (h.1 s hs (le_refl s)) fun s₁ y hs₁ hle₁ hy => ?_
      have htail := ih hs₁ fun z hz s' hs' hle => h.2 z hz s' hs' (le_trans hle₁ hle)
      refine T.bind htail fun s₂ ys hs₂ hle₂ hys => ?_
      exact T.pure hs₂ (List.forall_mem_cons.2 ⟨hQ s₁ s₂ y hle₂ hy, hys⟩)

theorem mapM_node {f : Nat → α → m Handle} {g : α → m' Handle} {k : Node α} (hs : s.Sound)
    (h : ∀ x ∈ k.children, ∀ s', s'.Sound → s ≤ s' → T.Rel s' (fun n => f n x) (g x) Holds) :
    T.Rel s (fun n => k.mapM (f n)) (k.mapM g) (fun s' k' => ∀ x ∈ k'.children, s'.Holds x) := by
  have list (xs : List α) (hxs : ∀ x ∈ xs, x ∈ k.children) :
      T.Rel s (fun n => xs.mapM (f n)) (xs.mapM g) (fun s' ys => ∀ y ∈ ys, s'.Holds y) :=
    T.mapM_list (fun _ _ _ hle hb => hb.mono hle) hs fun x hx => h x (hxs x hx)
  cases k with
  | atom => exact T.pure hs nofun
  | nullable i x | name i x =>
      refine T.bind (h x (List.mem_singleton_self x) s hs (le_refl s)) fun s₁ y hs₁ _ hy => ?_
      exact T.pure hs₁ (List.forall_mem_singleton.2 hy)
  | func i ps r =>
      refine T.bind (list ps fun _ hx => List.mem_append_left _ hx) fun s₁ ys hs₁ hle₁ hys => ?_
      have hr := h r (List.mem_append_right _ (List.mem_singleton_self r)) s₁ hs₁ hle₁
      refine T.bind hr fun s₂ y hs₂ hle₂ hy => T.pure hs₂ (List.forall_mem_append.2 ⟨?_, ?_⟩)
      · exact fun z hz => (hys z hz).mono hle₂
      · exact List.forall_mem_singleton.2 hy
  | struct i fs =>
      have hfs : T.Rel s (fun n => fs.mapM fun p => do return (p.1, ← f n p.2))
          (fs.mapM fun p => do return (p.1, ← g p.2)) (fun s' gs => ∀ p ∈ gs, s'.Holds p.2) := by
        refine T.mapM_list (fun _ _ _ hle hb => hb.mono hle) hs fun p hp s' hs' hle => ?_
        refine T.bind (h p.2 (List.mem_map_of_mem hp) s' hs' hle) fun s₁ y hs₁ _ hy => ?_
        exact T.pure hs₁ hy
      refine T.bind hfs fun s₁ gs hs₁ _ hgs => T.pure hs₁ ?_
      exact List.forall_mem_map.2 hgs
  | tuple i es => exact T.bind (list es fun _ hx => hx) fun s₁ ys hs₁ _ hys => T.pure hs₁ hys

end Tracking

def tracks : Tracking TraceM StoreM where
  Rel s x y Q := s.EndsAs x y ∧ s.Leads y Q
  pure hs h := ⟨EndsAs.pure _, Leads.pure hs h⟩
  bind {_ _ Q R s x y f g} hx hf := by
    obtain ⟨hends, hleads⟩ := hx
    refine ⟨hends.bind ?_, hleads.bind fun s' a hs hle ha => (hf s' a hs hle ha).2⟩
    exact (hf _ _ hleads.1 hleads.2.1 hleads.2.2).1

def tracksMeet : Tracking MeetTraceM MeetM where
  Rel s x y Q := tracks.Rel s (fun n => (x n).run) y.run (fun s' e => ∀ c, e = .ok c → Q s' c)
  pure hs h := tracks.pure hs fun _ hc => Except.ok.inj hc ▸ h
  bind {_ _ Q R s x y f g} hx hf := by
    simp only [ExceptT.run_bind]
    refine tracks.bind hx fun s' e hs hle he => ?_
    cases e with
    | ok c => exact hf s' c hs hle (he c rfl)
    | error c => exact tracks.pure hs nofun

theorem tracksMeet_lift {α : Type} {s : Store} {x : Nat → TraceM α} {y : StoreM α}
    {Q : Store → α → Prop} (h : tracks.Rel s x y Q) :
    tracksMeet.Rel s (fun n => liftM (x n)) (liftM y) Q := by
  refine ⟨h.1.lift, ?_⟩
  change s.Leads (y >>= fun c => pure (.ok c : Except (Clash Handle) α)) _
  refine h.2.bind fun s' c hs _ hc => Leads.pure hs fun d hd => ?_
  cases hd
  exact hc

end Store

end TypeLattice
