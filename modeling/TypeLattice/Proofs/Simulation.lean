import Mathlib.Data.List.Forall2
import TypeLattice.Proofs.StoreInvariant

namespace TypeLattice

theorem Node.tidy_of_mapM {ε α β : Type} {g : α → Except ε β} {n : Node α} {k : Node β}
    (hn : n.Tidy) (h : n.mapM g = .ok k) : k.Tidy := by
  cases n with
  | atom =>
      cases h
      trivial
  | nullable | name | tuple =>
      obtain ⟨_, _, h⟩ := exists_of_bind_eq_ok h
      cases h
      trivial
  | func =>
      obtain ⟨_, _, h⟩ := exists_of_bind_eq_ok h
      obtain ⟨_, _, h⟩ := exists_of_bind_eq_ok h
      cases h
      trivial
  | struct i fs =>
      obtain ⟨gs, hgs, h⟩ := exists_of_bind_eq_ok h
      cases h
      rw [Tidy, labels_of_mapM_eq_ok hgs]
      exact hn

namespace Store

/-- The handle stands for the tree. -/
def Denotes (s : Store) (h : Handle) (t : Ty) : Prop := s.Holds h ∧ s.tree h = t

def NodeDenotes (s : Store) (k : Node Handle) (n : Node Ty) : Prop :=
  (∀ x ∈ k.children, s.Holds x) ∧ k.map s.tree = n

theorem Denotes.mono {s s' : Store} (hs : s.Sound) (hle : s ≤ s') {h : Handle} {t : Ty}
    (ht : s.Denotes h t) : s'.Denotes h t :=
  ⟨ht.1.mono hle, (tree_mono hs.descends hle ht.1).trans ht.2⟩

theorem Denotes.of_holds {s s' : Store} (hs : s.Sound) (hle : s ≤ s') {h : Handle}
    (hh : s.Holds h) : s'.Denotes h (s.tree h) :=
  Denotes.mono hs hle ⟨hh, rfl⟩

theorem Denotes.eq_iff {s : Store} (hs : s.Sound) {a b : Handle} {t u : Ty} (ha : s.Denotes a t)
    (hb : s.Denotes b u) : a = b ↔ t = u := by
  obtain ⟨ha, rfl⟩ := ha
  obtain ⟨hb, rfl⟩ := hb
  exact ⟨congrArg s.tree, tree_injective hs.toIndexed ha hb⟩

/-- Run in the store, the program ends in a later sound store with an answer as described. -/
def Leads {α : Type} (s : Store) (x : StoreM α) (Q : Store → α → Prop) : Prop :=
  (x.run s).2.Sound ∧ s ≤ (x.run s).2 ∧ Q (x.run s).2 (x.run s).1

section leads

variable {α β : Type} {s : Store} {x : StoreM α} {Q : Store → α → Prop} {R : Store → β → Prop}

theorem Leads.pure {a : α} (hs : s.Sound) (h : Q s a) : s.Leads (pure a) Q :=
  ⟨hs, le_refl s, h⟩

theorem Leads.bind {f : α → StoreM β} (hx : s.Leads x Q)
    (hf : ∀ s' a, s'.Sound → s ≤ s' → Q s' a → s'.Leads (f a) R) : s.Leads (x >>= f) R := by
  obtain ⟨hs, hle, hq⟩ := hx
  obtain ⟨hs', hle', hr⟩ := hf _ _ hs hle hq
  exact ⟨hs', le_trans hle hle', hr⟩

theorem Leads.mono {Q' : Store → α → Prop} (hx : s.Leads x Q)
    (h : ∀ s' a, s'.Sound → s ≤ s' → Q s' a → Q' s' a) : s.Leads x Q' :=
  ⟨hx.1, hx.2.1, h _ _ hx.1 hx.2.1 hx.2.2⟩

theorem Leads.get_bind {f : Store → StoreM α} (h : s.Leads (f s) Q) : s.Leads (get >>= f) Q := h

end leads

/-- A way to reason about programs over a store: it passes from their steps to the whole. -/
structure Judgement where
  Holds {α : Type} (s : Store) (x : StoreM α) (Q : Store → α → Prop) : Prop
  pure {α : Type} {Q : Store → α → Prop} {s : Store} {a : α} : s.Sound → Q s a → Holds s (pure a) Q
  bind {α β : Type} {Q : Store → α → Prop} {R : Store → β → Prop} {s : Store} {x : StoreM α}
    {f : α → StoreM β} : Holds s x Q →
    (∀ s' a, s'.Sound → s ≤ s' → Q s' a → Holds s' (f a) R) → Holds s (x >>= f) R
  get_bind {α : Type} {Q : Store → α → Prop} {s : Store} {f : Store → StoreM α} :
    Holds s (f s) Q → Holds s (get >>= f) Q
  holds_intern {s : Store} {n : Node Handle} : s.Sound → (∀ x ∈ n.children, s.Holds x) →
    (Ty.mk (n.map s.tree)).Normal →
      Holds s (intern n.record) (fun s' h => s'.Denotes h (.mk (n.map s.tree)))

/-- Answers agree when they stand for the same, and failures when they name the same types. -/
inductive Agree {α β : Type} (R : Store → α → β → Prop) (s : Store) :
    Except (Clash Handle) α → Except (Clash Ty) β → Prop
  | ok {a : α} {b : β} (h : R s a b) : Agree R s (.ok a) (.ok b)
  | error {c : Clash Handle} {d : Clash Ty} (left : s.Denotes c.left d.left)
      (right : s.Denotes c.right d.right) : Agree R s (.error c) (.error d)

/-- A way to follow programs over a store by programs that know no store. -/
structure Following (m m' : Type → Type) [Monad m] [Monad m'] where
  Rel {α β : Type} (R : Store → α → β → Prop) (s : Store) (x : m α) (y : m' β) : Prop
  pure {α β : Type} {R : Store → α → β → Prop} {s : Store} {a : α} {b : β} :
    s.Sound → R s a b → Rel R s (pure a) (pure b)
  bind {α β γ δ : Type} {R : Store → α → β → Prop} {Q : Store → γ → δ → Prop} {s : Store} {x : m α}
    {y : m' β} {f : α → m γ} {g : β → m' δ} : Rel R s x y →
    (∀ s' a b, s'.Sound → s ≤ s' → y = Pure.pure b → R s' a b → Rel Q s' (f a) (g b)) →
      Rel Q s (x >>= f) (y >>= g)

namespace Following

variable {m m' : Type → Type} [Monad m] [Monad m'] [LawfulMonad m] [LawfulMonad m']
  (S : Following m m') {α : Type} {s : Store}

theorem mapM_list {γ δ : Type} {R : Store → γ → δ → Prop}
    (hR : ∀ s s' c d, s.Sound → s ≤ s' → R s c d → R s' c d) {f : α → m γ} {g : α → m' δ}
    {xs : List α} (hs : s.Sound)
    (h : ∀ x ∈ xs, ∀ s', s'.Sound → s ≤ s' → S.Rel R s' (f x) (g x)) :
    S.Rel (fun s' => List.Forall₂ (R s')) s (xs.mapM f) (xs.mapM g) := by
  induction xs generalizing s with
  | nil => exact S.pure hs .nil
  | cons x xs ih =>
      rw [List.forall_mem_cons] at h
      rw [List.mapM_cons, List.mapM_cons]
      refine S.bind (h.1 s hs (le_refl s)) fun s₁ a b hs₁ hle₁ _ hab => ?_
      have htail := ih hs₁ fun y hy s' hs' hle => h.2 y hy s' hs' (le_trans hle₁ hle)
      refine S.bind htail fun s₂ as bs hs₂ hle₂ _ habs => ?_
      exact S.pure hs₂ (.cons (hR s₁ s₂ a b hs₁ hle₂ hab) habs)

theorem denotes_list {hs : List Handle} {ts : List Ty} (h : List.Forall₂ s.Denotes hs ts) :
    (∀ x ∈ hs, s.Holds x) ∧ hs.map s.tree = ts := by
  induction h with
  | nil => simp
  | cons hd _ ih => exact ⟨List.forall_mem_cons.2 ⟨hd.1, ih.1⟩, by rw [List.map_cons, hd.2, ih.2]⟩

theorem denotes_fields {fs : List (String × Handle)} {gs : List (String × Ty)}
    (h : List.Forall₂ (fun p q => p.1 = q.1 ∧ s.Denotes p.2 q.2) fs gs) :
    (∀ x ∈ fs.map (·.2), s.Holds x) ∧ fs.map (fun p => (p.1, s.tree p.2)) = gs := by
  induction h with
  | nil => simp
  | cons hd _ ih =>
      refine ⟨List.forall_mem_cons.2 ⟨hd.2.1, ih.1⟩, ?_⟩
      rw [List.map_cons, hd.1, hd.2.2, ih.2]

theorem mapM_node {f : α → m Handle} {g : α → m' Ty} {n : Node α} (hs : s.Sound)
    (h : ∀ x ∈ n.children, ∀ s', s'.Sound → s ≤ s' → S.Rel Denotes s' (f x) (g x)) :
    S.Rel NodeDenotes s (n.mapM f) (n.mapM g) := by
  have list (xs : List α) (hxs : ∀ x ∈ xs, x ∈ n.children) :
      S.Rel (fun s' => List.Forall₂ s'.Denotes) s (xs.mapM f) (xs.mapM g) :=
    S.mapM_list (fun _ _ _ _ hs hle hd => hd.mono hs hle) hs fun x hx => h x (hxs x hx)
  cases n with
  | atom a => exact S.pure hs ⟨by simp [Node.children], rfl⟩
  | nullable i x =>
      refine S.bind (h x (List.mem_singleton_self x) s hs (le_refl s)) fun s₁ a b hs₁ _ _ hab => ?_
      exact S.pure hs₁ ⟨by simpa [Node.children] using hab.1, by rw [Node.map, hab.2]⟩
  | name l x =>
      refine S.bind (h x (List.mem_singleton_self x) s hs (le_refl s)) fun s₁ a b hs₁ _ _ hab => ?_
      exact S.pure hs₁ ⟨by simpa [Node.children] using hab.1, by rw [Node.map, hab.2]⟩
  | func i ps r =>
      refine S.bind (list ps fun _ hx => List.mem_append_left _ hx) fun s₁ as bs hs₁ hle₁ _ habs => ?_
      refine S.bind (h r (List.mem_append_right _ (List.mem_singleton_self r)) s₁ hs₁ hle₁)
        fun s₂ a b hs₂ hle₂ _ hab => ?_
      obtain ⟨hholds, hmap⟩ := denotes_list (habs.imp fun _ _ hd => hd.mono hs₁ hle₂)
      refine S.pure hs₂ ⟨?_, by rw [Node.map, hmap, hab.2]⟩
      intro x hx
      rcases List.mem_append.1 hx with hx | hx
      · exact hholds x hx
      · rw [List.mem_singleton.1 hx]
        exact hab.1
  | struct i fs =>
      have hfs : S.Rel (fun s' => List.Forall₂ fun p q => p.1 = q.1 ∧ s'.Denotes p.2 q.2) s
          (fs.mapM fun p => do return (p.1, ← f p.2)) (fs.mapM fun p => do return (p.1, ← g p.2)) := by
        apply S.mapM_list (fun _ _ _ _ hs hle hd => ⟨hd.1, hd.2.mono hs hle⟩) hs
        intro p hp s' hs' hle
        refine S.bind (h p.2 (List.mem_map_of_mem hp) s' hs' hle) fun s₁ a b hs₁ _ _ hab => ?_
        exact S.pure hs₁ ⟨rfl, hab⟩
      refine S.bind hfs fun s₁ as bs hs₁ _ _ habs => ?_
      obtain ⟨hholds, hmap⟩ := denotes_fields habs
      exact S.pure hs₁ ⟨hholds, by rw [Node.map, hmap]⟩
  | tuple i es =>
      refine S.bind (list es fun _ hx => hx) fun s₁ as bs hs₁ hle₁ _ habs => ?_
      obtain ⟨hholds, hmap⟩ := denotes_list habs
      exact S.pure hs₁ ⟨hholds, by rw [Node.map, hmap]⟩

end Following

namespace Judgement

variable (J : Judgement) {α β : Type} {s : Store}

def plain : Following StoreM Id where
  Rel R s x y := J.Holds s x (fun s' a => R s' a y.run)
  pure hs h := J.pure hs h
  bind hx hf := J.bind hx fun s' a hs hle h => hf s' a _ hs hle rfl h

def failing : Following MeetM (Except (Clash Ty)) where
  Rel R s x y := J.Holds s x.run (fun s' e => Agree R s' e y)
  pure hs h := J.pure hs (.ok h)
  bind {_ _ _ _ R Q s x y f g} hx hf := by
    rw [ExceptT.run_bind]
    refine J.bind hx fun s' e hs hle h => ?_
    cases h with
    | ok h => exact hf s' _ _ hs hle rfl h
    | error hl hr => exact J.pure hs (.error hl hr)

variable {x : StoreM α} {Q : Store → α → Prop}

theorem mono {Q' : Store → α → Prop} (hx : J.Holds s x Q)
    (h : ∀ s' a, s'.Sound → s ≤ s' → Q s' a → Q' s' a) : J.Holds s x Q' := by
  rw [← bind_pure x]
  exact J.bind hx fun s' a hs hle ha => J.pure hs (h s' a hs hle ha)

theorem discard (hx : J.Holds s x Q) : J.Holds s (discard x) (fun _ _ => True) :=
  J.bind hx fun _ _ hs _ _ => J.pure hs trivial

theorem mapM {R : Store → β → Prop} {f : α → StoreM β} {xs : List α}
    (hR : ∀ s s' b, s ≤ s' → R s b → R s' b) (hs : s.Sound)
    (h : ∀ x ∈ xs, ∀ s', s'.Sound → s ≤ s' → J.Holds s' (f x) R) :
    J.Holds s (xs.mapM f) (fun s' ys => ∀ y ∈ ys, R s' y) := by
  induction xs generalizing s with
  | nil => exact J.pure hs (by simp)
  | cons x xs ih =>
      rw [List.forall_mem_cons] at h
      rw [List.mapM_cons]
      refine J.bind (h.1 s hs (le_refl s)) fun s₁ y hs₁ hle₁ hy => ?_
      have htail := ih hs₁ fun z hz s' hs' hle => h.2 z hz s' hs' (le_trans hle₁ hle)
      refine J.bind htail fun s₂ ys hs₂ hle₂ hys => ?_
      exact J.pure hs₂ (List.forall_mem_cons.2 ⟨hR s₁ s₂ y hle₂ hy, hys⟩)

theorem forM {f : α → StoreM Unit} {xs : List α} (hs : s.Sound)
    (h : ∀ x ∈ xs, ∀ s', s'.Sound → s ≤ s' → J.Holds s' (f x) (fun _ _ => True)) :
    J.Holds s (xs.forM f) (fun _ _ => True) := by
  induction xs generalizing s with
  | nil => exact J.pure hs trivial
  | cons x xs ih =>
      rw [List.forall_mem_cons] at h
      refine J.bind (h.1 s hs (le_refl s)) fun s' _ hs' hle _ => ?_
      exact ih hs' fun y hy s'' hs'' hle' => h.2 y hy s'' hs'' (le_trans hle hle')

theorem mapM_node {f : α → StoreM Handle} {g : α → Ty} {n : Node α} (hs : s.Sound)
    (h : ∀ x ∈ n.children, ∀ s', s'.Sound → s ≤ s' →
      J.Holds s' (f x) (fun s'' d => s''.Denotes d (g x))) :
    J.Holds s (n.mapM f) (fun s' k => s'.NodeDenotes k (n.map g)) := by
  have hmap := J.plain.mapM_node (f := f) (g := fun x => Pure.pure (g x)) hs h
  rw [Node.mapM_pure] at hmap
  exact hmap

theorem mapM_option {f : Handle → StoreM Handle} {g : Ty → Ty} {m : Option Handle} {o : Option Ty}
    (hs : s.Sound)
    (hf : ∀ x t, s.Denotes x t → J.Holds s (f x) (fun s' y => s'.Denotes y (g t)))
    (h : Option.Rel s.Denotes m o) :
    J.Holds s (m.mapM f) (fun s' e => Option.Rel s'.Denotes e (o.map g)) := by
  cases h with
  | none => exact J.pure hs .none
  | some h => exact J.bind (hf _ _ h) fun s' y hs' _ hy => J.pure hs' (.some hy)

theorem attempt {x : MeetM Handle} {y : Except (Clash Ty) Ty} (h : J.failing.Rel Denotes s x y) :
    J.Holds s (do match ← x.run with | .ok c => return some c | .error _ => return none)
      (fun s' m => Option.Rel s'.Denotes m y.toOption) := by
  refine J.bind h fun s' e hs' _ he => ?_
  cases he with
  | ok hc => exact J.pure hs' (.some hc)
  | error => exact J.pure hs' .none

theorem lift {R : Store → α → β → Prop} {b : β} (h : J.Holds s x (fun s' a => R s' a b)) :
    J.failing.Rel R s (liftM x) (.ok b) := by
  change J.Holds s (x >>= fun a => Pure.pure (.ok a)) (fun s' e => Agree R s' e (.ok b))
  exact J.bind h fun _ _ hs _ h => J.pure hs (.ok h)

theorem follows_get_bind {R : Store → α → β → Prop} {f : Store → MeetM α} {y : Except (Clash Ty) β}
    (h : J.failing.Rel R s (f s) y) : J.failing.Rel R s (get >>= f) y := by
  change J.Holds s (get >>= fun s => (f s).run) (fun s' e => Agree R s' e y)
  exact J.get_bind h

theorem throw {R : Store → α → β → Prop} {x y : Handle} {t u : Ty} (hs : s.Sound)
    (hx : s.Denotes x t) (hy : s.Denotes y u) :
    J.failing.Rel R s (throw ⟨x, y⟩) (.error ⟨t, u⟩) :=
  J.pure hs (.error hx hy)

theorem holds_build {k : Node Handle} {n : Node Ty} (hs : s.Sound) (hk : s.NodeDenotes k n)
    (htidy : n.Tidy) : J.Holds s (maker.build k) (fun s' h => s'.Denotes h (Ty.build n)) := by
  obtain ⟨hholds, rfl⟩ := hk
  have hparts : ∀ t ∈ (k.map s.tree).children, t.Normal := by
    intro t ht
    rw [Node.children_map] at ht
    obtain ⟨x, hx, rfl⟩ := List.mem_map.1 ht
    exact hs.normal x (hholds x hx)
  have hnormal := Ty.normal_build htidy hparts
  cases k with
  | atom a =>
      simp only [Maker.build]
      split
      · next p hp =>
          obtain ⟨hh, hnode⟩ := hs.preset p
          refine J.pure hs ⟨hh, ?_⟩
          change s.tree p.handle = _
          rw [tree_eq hs.descends hh, hnode, Preset.atom_ofAtom? hp]
          rfl
      · exact J.holds_intern hs hholds hnormal
  | nullable i x =>
      have hx := hholds x (List.mem_singleton_self x)
      have ha := absorbsNil_eq hs.descends hx
      apply J.get_bind
      simp only [Node.map, Ty.build, ← ha] at hnormal ⊢
      split
      · exact J.pure hs ⟨hx, rfl⟩
      · next h =>
          rw [if_neg h] at hnormal
          exact J.holds_intern hs hholds hnormal
  | name | func | struct | tuple => exact J.holds_intern hs hholds hnormal

end Judgement

end Store

end TypeLattice
