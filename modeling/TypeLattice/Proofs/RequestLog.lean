import TypeLattice.Proofs.Reachable

namespace TypeLattice

/-- A property of programs that passes from the parts of a program to the whole. -/
structure Compositional (m : Type → Type) [Monad m] where
  Holds {α : Type} (x : m α) : Prop
  pure {α : Type} (a : α) : Holds (pure a)
  bind {α β : Type} {x : m α} {f : α → m β} : Holds x → (∀ a, Holds (f a)) → Holds (x >>= f)

namespace Compositional

variable {m : Type → Type} [Monad m] (S : Compositional m) {α β : Type}

theorem unionM_list {γ : Type} {cmp : α → β → m Ordering} {left : α → γ} {right : β → γ}
    {both : α → β → m γ} (hcmp : ∀ a b, S.Holds (cmp a b)) (hboth : ∀ a b, S.Holds (both a b))
    (as : List α) (bs : List β) : S.Holds (Ascending.unionM cmp left right both as bs) := by
  fun_induction Ascending.unionM cmp left right both as bs with
  | case1 bs => exact S.pure _
  | case2 as => exact S.pure _
  | case3 a as b bs ihlt ihgt iheq =>
      refine S.bind (hcmp a b) fun o => ?_
      cases o with
      | lt => exact S.bind ihlt fun _ => S.pure _
      | gt => exact S.bind ihgt fun _ => S.pure _
      | eq => exact S.bind (hboth a b) fun _ => S.bind iheq fun _ => S.pure _

theorem interM_list {γ : Type} {cmp : α → β → m Ordering} {both : α → β → m γ}
    (hcmp : ∀ a b, S.Holds (cmp a b)) (hboth : ∀ a b, S.Holds (both a b))
    (as : List α) (bs : List β) : S.Holds (Ascending.interM cmp both as bs) := by
  fun_induction Ascending.interM cmp both as bs with
  | case1 bs => exact S.pure _
  | case2 as => exact S.pure _
  | case3 a as b bs ihlt ihgt iheq =>
      refine S.bind (hcmp a b) fun o => ?_
      cases o with
      | lt => exact ihlt
      | gt => exact ihgt
      | eq => exact S.bind (hboth a b) fun _ => S.bind iheq fun _ => S.pure _

structure Makes (M : Maker m α) : Prop where
  intern : ∀ r, S.Holds (M.intern r)
  nullable : ∀ h x, S.Holds (M.nullable h x)

structure Meets (M : Meeter m α) : Prop extends S.Makes M.toMaker where
  meet : ∀ x y, S.Holds (M.meet x y)
  join : ∀ x y, S.Holds (M.join x y)
  clash : ∀ x y, S.Holds (M.clash x y)

theorem ofPick (x y : α) {range : Half → Nat → m α} (hrange : ∀ h bits, S.Holds (range h bits))
    (p : Pick (Half × Nat)) : S.Holds (Meeter.ofPick x y range p) := by
  cases p with
  | left | right => exact S.pure _
  | made b => exact hrange b.1 b.2

section meets

variable {M : Meeter m α} (hM : S.Meets M)

include hM

theorem ofNil (x : α) (h : Half) (inner : Option α) (y : α) (q : Record α) :
    S.Holds (M.ofNil x h inner y q) := by
  rw [Meeter.ofNil.eq_def]
  split
  · exact hM.clash x y
  · exact hM.meet x _
  · split
    · exact hM.nullable _ _
    · exact S.pure _
    · split
      · exact S.pure _
      · exact hM.nullable _ _
    · exact hM.nullable _ _
    · exact S.bind (hM.meet _ _) fun _ => hM.nullable _ _
    · exact S.bind (hM.meet _ _) fun _ => hM.nullable _ _

theorem ofName (l : String) (inner y : α) (q : Record α) : S.Holds (M.ofName l inner y q) := by
  rw [Meeter.ofName.eq_def]
  split
  · split
    · exact S.bind (hM.meet _ _) fun _ => hM.intern _
    · exact hM.meet _ _
  · exact hM.meet _ _

theorem ofScalar (x : α) (h : Half) (y : α) (q : Record α) : S.Holds (M.ofScalar x h y q) := by
  rw [Meeter.ofScalar.eq_def]
  split
  · exact hM.clash x y
  · exact S.pure _

theorem ofTargets (f : Half → List Nat → Record α) (x : α) (h : Half) (s : List Nat) (y : α)
    (k : Half) (t : List Nat) : S.Holds (M.ofTargets f x h s y k t) := by
  cases h <;> cases k <;> first | exact hM.intern _ | exact S.pure _

theorem ofStruct (x : α) (h : Half) (fs : List (String × α)) (y : α) (k : Half)
    (gs : List (String × α)) : S.Holds (M.ofStruct x h fs y k gs) := by
  have hboth (f g : String × α) : S.Holds (do return (f.1, ← M.meet f.2 g.2)) :=
    S.bind (hM.meet f.2 g.2) fun _ => S.pure _
  cases h <;> cases k
  · exact S.bind (S.unionM_list (fun _ _ => S.pure _) hboth fs gs) fun _ => hM.intern _
  · exact S.pure y
  · exact S.pure x
  · exact S.bind (S.interM_list (fun _ _ => S.pure _) hboth fs gs) fun _ => hM.intern _

end meets

variable [LawfulMonad m]

theorem mapM_list {f : α → m β} {xs : List α} (h : ∀ x ∈ xs, S.Holds (f x)) :
    S.Holds (xs.mapM f) := by
  induction xs with
  | nil => exact S.pure []
  | cons x xs ih =>
      rw [List.forall_mem_cons] at h
      rw [List.mapM_cons]
      exact S.bind h.1 fun y => S.bind (ih h.2) fun ys => S.pure (y :: ys)

theorem dual {M : Maker m α} (hM : S.Makes M) {dual : α → m α} (hdual : ∀ x, S.Holds (dual x))
    (x : α) (r : Record α) : S.Holds (M.dual dual x r) := by
  cases r with
  | universal | scalar | ctrl | oop => exact S.pure _
  | nil h inner =>
      cases inner with
      | none => exact S.pure _
      | some y => exact S.bind (hdual y) fun _ => hM.nullable _ _
  | name l y => exact S.bind (hdual y) fun _ => hM.intern _
  | int a | flt a =>
      rw [Maker.dual]
      split <;> exact hM.intern _
  | funPtr | rpc => exact hM.intern _
  | func h ps r =>
      refine S.bind (S.mapM_list fun p _ => hdual p) fun _ => ?_
      exact S.bind (hdual r) fun _ => hM.intern _
  | str h c => cases c <;> exact S.pure _
  | struct h fs =>
      refine S.bind (S.mapM_list fun f _ => ?_) fun _ => hM.intern _
      exact S.bind (hdual f.2) fun _ => S.pure _
  | tuple h es => exact S.bind (S.mapM_list fun e _ => hdual e) fun _ => hM.intern _

variable {M : Meeter m α} (hM : S.Meets M)

include hM

theorem ofFunc (h : Half) (ps : List α) (r : α) (k : Half) (qs : List α) (q : α) :
    S.Holds (M.ofFunc h ps r k qs q) := by
  rw [Meeter.ofFunc]
  split
  · refine S.bind (S.mapM_list fun p _ => hM.join p.1 p.2) fun _ => ?_
    exact S.bind (hM.meet r q) fun _ => hM.intern _
  · exact S.pure _

theorem ofTuple (h : Half) (es : List α) (k : Half) (ds : List α) :
    S.Holds (M.ofTuple h es k ds) := by
  rw [Meeter.ofTuple]
  split
  · exact S.bind (S.mapM_list fun p _ => hM.meet p.1 p.2) fun _ => hM.intern _
  · exact S.pure _

theorem ofKinds (x : α) (r : Record α) (y : α) (q : Record α) : S.Holds (M.ofKinds x r y q) := by
  rw [Meeter.ofKinds]
  split
  · rw [Meeter.ofPointers.eq_def]
    split
    · exact S.pure _
    · rw [Meeter.ofStr.eq_def]
      split <;> exact S.pure _
    · exact S.ofStruct hM ..
    · exact S.ofTuple hM ..
    · exact S.pure _
  · split
    · exact S.pure _
    · exact hM.clash x y

theorem ofOrdered (x : α) (r : Record α) (y : α) (q : Record α) : S.Holds (M.ofOrdered x r y q) := by
  rw [Meeter.ofOrdered.eq_def]
  split
  · exact S.pure _
  · exact S.ofNil hM ..
  · exact S.ofName hM ..
  · exact S.ofScalar hM ..
  · exact S.pure _
  · exact S.ofPick x y (fun _ _ => hM.intern _) _
  · exact S.ofPick x y (fun _ _ => hM.intern _) _
  · exact S.ofTargets hM ..
  · exact S.ofFunc hM ..
  · exact S.ofTargets hM ..
  · exact S.ofKinds hM ..

theorem ofPair (x : α) (r : Record α) (y : α) (q : Record α) : S.Holds (M.ofPair x r y q) := by
  rw [Meeter.ofPair]
  split <;> exact S.ofOrdered hM ..

end Compositional

namespace Store

/-- The records that a program asks to intern when it is run in a store, in their order. -/
inductive Requests : {α : Type} → StoreM α → Store → List (Record Handle) → Prop
  | pure {α : Type} (a : α) (s : Store) : Requests (pure a) s []
  | get (s : Store) : Requests get s []
  | recordDual (a b : Handle) (s : Store) : Requests (recordDual a b) s []
  | intern (r : Record Handle) (s : Store) : Requests (intern r) s [r]
  | bind {α β : Type} {x : StoreM α} {f : α → StoreM β} {s : Store} {log log' : List (Record Handle)}
      (hx : Requests x s log) (hf : Requests (f (x.run s).1) (x.run s).2 log') :
      Requests (x >>= f) s (log ++ log')

theorem Requests.discard {α : Type} {x : StoreM α} {s : Store} {log : List (Record Handle)}
    (h : Requests x s log) : Requests (discard x) s log := by
  have hbind : Requests (x >>= fun _ => Pure.pure ()) s (log ++ []) := h.bind (.pure () _)
  rwa [List.append_nil] at hbind

/-- Wherever the program is run, all it does to the store is to intern and to record duals. -/
def Logged {α : Type} (x : StoreM α) : Prop := ∀ s, ∃ log, Requests x s log

section logged

variable {α β : Type} {x : StoreM α}

theorem Logged.pure (a : α) : Logged (pure a) := fun s => ⟨[], .pure a s⟩

theorem Logged.get : Logged get := fun s => ⟨[], .get s⟩

theorem Logged.bind {f : α → StoreM β} (hx : Logged x) (hf : ∀ a, Logged (f a)) :
    Logged (x >>= f) := by
  intro s
  obtain ⟨log, hlog⟩ := hx s
  obtain ⟨log', hlog'⟩ := hf (x.run s).1 (x.run s).2
  exact ⟨log ++ log', hlog.bind hlog'⟩

theorem Logged.discard (hx : Logged x) : Logged (discard x) := by
  intro s
  obtain ⟨log, hlog⟩ := hx s
  exact ⟨log, hlog.discard⟩

theorem Logged.bind_outcome {x : StoreM (Except (Clash Handle) α)}
    {f : Except (Clash Handle) α → StoreM β} (hx : Logged x) (hok : ∀ a, Logged (f (.ok a)))
    (herror : ∀ c, Logged (f (.error c))) : Logged (x >>= f) := by
  refine hx.bind fun e => ?_
  cases e with
  | ok a => exact hok a
  | error c => exact herror c

def logged : Compositional StoreM where
  Holds x := Logged x
  pure := Logged.pure
  bind hx hf := hx.bind hf

def loggedMeet : Compositional MeetM where
  Holds x := Logged x.run
  pure a := Logged.pure (Except.ok a)
  bind {_ _ x f} hx hf := by
    rw [ExceptT.run_bind]
    exact hx.bind_outcome hf fun c => Logged.pure (Except.error c)

theorem Logged.lift (hx : Logged x) : Logged (liftM x : MeetM α).run := by
  change Logged (x >>= fun a => Pure.pure (Except.ok a))
  exact hx.bind fun a => Logged.pure _

theorem logged_intern (r : Record Handle) : Logged (intern r) := fun s => ⟨[r], .intern r s⟩

theorem logged_nullable (h : Half) (x : Handle) : Logged (nullable h x) := by
  refine Logged.get.bind fun s => ?_
  split
  · exact Logged.pure x
  · exact logged_intern _

theorem logged_maker : logged.Makes maker := ⟨logged_intern, logged_nullable⟩

theorem logged_dualWithin (n : Nat) (h : Handle) : Logged (dualWithin n h) := by
  induction n generalizing h with
  | zero => exact Logged.pure h
  | succ n ih =>
      have hrecord (d : Handle) : Logged (do recordDual h d; return d) :=
        Logged.bind (fun s => ⟨[], .recordDual h d s⟩) fun _ => Logged.pure d
      rw [dualWithin]
      refine Logged.get.bind fun s => ?_
      split
      · exact Logged.pure _
      · refine Logged.get.bind fun s => ?_
        exact Logged.bind (logged.dual logged_maker ih h _) hrecord

theorem logged_dual (h : Handle) : Logged (dual h) := logged_dualWithin _ h

theorem logged_joinBy {meet : Handle → Handle → MeetM Handle} (h : ∀ x y, Logged (meet x y).run)
    (a b : Handle) : Logged (joinBy meet a b).run := by
  refine loggedMeet.bind (logged_dual a).lift fun x => ?_
  refine loggedMeet.bind (logged_dual b).lift fun y => ?_
  exact loggedMeet.bind (h x y) fun z => (logged_dual z).lift

theorem logged_meetWithin (n : Nat) (a b : Handle) : Logged (meetWithin n a b).run := by
  induction n generalizing a b with
  | zero => exact Logged.pure _
  | succ n ih =>
      rw [meetWithin]
      split
      · exact loggedMeet.pure a
      · refine loggedMeet.bind Logged.get.lift fun s => ?_
        apply loggedMeet.ofPair
        exact {
          intern := fun r => (logged_intern r).lift
          nullable := fun h x => (logged_nullable h x).lift
          meet := ih
          join := logged_joinBy ih
          clash := fun x y => Logged.pure _ }

theorem logged_meet (a b : Handle) : Logged (meet a b).run := logged_meetWithin _ a b

theorem logged_join (a b : Handle) : Logged (join a b).run := logged_joinBy logged_meet a b

theorem logged_meet? (a b : Handle) : Logged (meet? a b) :=
  (logged_meet a b).bind_outcome (fun c => Logged.pure (some c)) fun _ => Logged.pure none

theorem logged_join? (a b : Handle) : Logged (join? a b) :=
  (logged_join a b).bind_outcome (fun c => Logged.pure (some c)) fun _ => Logged.pure none

theorem logged_isa (a b : Handle) : Logged (isa a b) :=
  (logged_meet a b).bind_outcome (fun c => Logged.pure (decide (c = b))) fun _ => Logged.pure false

theorem logged_breachesAt (a : Handle) : Logged (breachesAt a) := by
  refine (logged_meet? a a).bind fun m => (logged_dual a).bind fun d => ?_
  exact (logged_dual d).bind fun b => Logged.pure _

theorem logged_breachesBetween (a b : Handle) : Logged (breachesBetween a b) := by
  refine (logged_meet? a b).bind fun ab => (logged_meet? b a).bind fun ba => ?_
  have hdual : Logged (ab.mapM dual) := by
    cases ab with
    | none => exact Logged.pure none
    | some c => exact (logged_dual c).bind fun d => Logged.pure (some d)
  refine hdual.bind fun d => (logged_dual a).bind fun a' => (logged_dual b).bind fun b' => ?_
  exact (logged_join? a' b').bind fun j => Logged.pure _

theorem logged_breaches (as : List Handle) : Logged (breaches as) := by
  have hpair (p : Handle × Handle) : Logged (breachesBetween p.1 p.2) :=
    logged_breachesBetween p.1 p.2
  refine Logged.bind (logged.mapM_list fun a _ => logged_breachesAt a) fun single => ?_
  refine Logged.bind (logged.mapM_list fun p _ => hpair p) fun double => ?_
  exact Logged.pure _

theorem logged_call (c : Call) : Logged c.run := by
  cases c with
  | preset p => exact (Logged.pure p.handle).discard
  | dual a => exact (logged_dual a).discard
  | meet a b => exact (logged_meet a b).discard
  | join a b => exact (logged_join a b).discard
  | isa a b => exact (logged_isa a b).discard
  | intern a => exact Logged.get.bind fun s => (logged_intern _).discard
  | breaches as => exact (logged_breaches as).discard
  | nullable h a => exact (logged_nullable h a).discard
  | _ => exact (logged_intern _).discard

theorem logged_standardSample : Logged standardSample := by
  refine Logged.bind (logged_intern _) fun point => ?_
  refine Logged.bind (logged.mapM_list ?_) fun base => ?_
  · change ∀ x ∈ _, Logged x
    simp [preset, strConst, int, Maker.int, intConst, Maker.intConst, fltConst, Maker.fltConst, maker,
      funPtrConst, funPtr, rpcConst, rpc, func, tuple, struct, name, logged_intern, logged_nullable,
      Logged.pure]
  · refine Logged.bind (logged.mapM_list fun x _ => logged_dual x) fun duals => ?_
    exact Logged.pure _

end logged

def startRequests : List (Record Handle) := Preset.list.map Preset.record

theorem requests_forM_intern (ps : List Preset) (s : Store) :
    Requests (ps.forM fun p => discard (intern p.record)) s (ps.map Preset.record) := by
  induction ps generalizing s with
  | nil => exact .pure () s
  | cons p ps ih => exact (Requests.intern _ s).discard.bind (ih _)

theorem requests_forM_recordDual (ps : List (Preset × Preset)) (s : Store) :
    Requests (ps.forM fun p => recordDual p.1.handle p.2.handle) s [] := by
  induction ps generalizing s with
  | nil => exact .pure () s
  | cons p ps ih => exact (Requests.recordDual _ _ s).bind (ih _)

theorem requests_addPresets (s : Store) : Requests addPresets s startRequests := by
  rw [addPresets, ← List.append_nil startRequests]
  refine Requests.bind (requests_forM_intern Preset.list s) ?_
  exact requests_forM_recordDual Preset.dualPairs _

end Store

end TypeLattice
