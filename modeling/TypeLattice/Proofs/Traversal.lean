import TypeLattice.Node

namespace TypeLattice

variable {α β : Type}

theorem run_bind_ok {σ ε : Type} {s s' : σ} {x : ExceptT ε (StateM σ) α}
    {f : α → ExceptT ε (StateM σ) β} {v : α} (h : x.run.run s = (.ok v, s')) :
    (x >>= f).run.run s = (f v).run.run s' := by
  rw [ExceptT.run_bind, StateT.run_bind, h]
  rfl

theorem run_bind_error {σ ε : Type} {s s' : σ} {x : ExceptT ε (StateM σ) α}
    {f : α → ExceptT ε (StateM σ) β} {e : ε} (h : x.run.run s = (.error e, s')) :
    (x >>= f).run.run s = (.error e, s') := by
  rw [ExceptT.run_bind, StateT.run_bind, h]
  rfl

namespace Node

section lawful

variable {γ : Type} {m : Type → Type} [Monad m] [LawfulMonad m]

theorem mapM_list_congr {γ δ : Type} {f g : γ → m δ} {xs : List γ} (h : ∀ x ∈ xs, f x = g x) :
    xs.mapM f = xs.mapM g := by
  induction xs with
  | nil => rfl
  | cons x xs ih =>
      rw [List.forall_mem_cons] at h
      rw [List.mapM_cons, List.mapM_cons, h.1, ih h.2]

theorem mapM_congr {f g : α → m β} {n : Node α} (h : ∀ x ∈ n.children, f x = g x) :
    n.mapM f = n.mapM g := by
  cases n with
  | atom => rfl
  | nullable _ x | name _ x => simp only [mapM, h x (List.mem_singleton_self x)]
  | func _ ps r =>
      have hp := mapM_list_congr fun x hx => h x (List.mem_append_left _ hx)
      simp only [mapM, hp, h r (List.mem_append_right _ (List.mem_singleton_self r))]
  | struct _ fs =>
      have hf : fs.mapM (fun p => do return (p.1, ← f p.2)) =
          fs.mapM (fun p => do return (p.1, ← g p.2)) :=
        mapM_list_congr fun p hp => by rw [h p.2 (List.mem_map_of_mem hp)]
      simp only [mapM, hf]
  | tuple _ es =>
      have he : es.mapM f = es.mapM g := mapM_list_congr h
      simp only [mapM, he]

theorem mapM_map (f : α → β) (g : β → m γ) (n : Node α) :
    (n.map f).mapM g = n.mapM (fun x => g (f x)) := by
  cases n <;> simp [map, mapM, Function.comp_def]

theorem mapM_pure (f : α → β) (n : Node α) :
    n.mapM (fun x => (pure (f x) : m β)) = pure (n.map f) := by
  cases n <;> simp [map, mapM]

theorem mapM_fields (f : α → m β) (fs : List (String × α)) :
    (fs.mapM fun p => do return (p.1, ← f p.2)) =
      (fs.map Prod.fst).zip <$> (fs.map Prod.snd).mapM f := by
  induction fs with
  | nil => simp
  | cons p fs ih =>
      rw [List.mapM_cons, ih, List.map_cons, List.map_cons, List.mapM_cons]
      simp only [map_bind, bind_assoc, bind_map_left, pure_bind, map_pure, List.zip_cons_cons]

/-- The components of a layer are replaced in the order in which they are listed. -/
theorem exists_mapM_eq (n : Node α) :
    ∃ g : List β → Node β, ∀ f : α → m β, n.mapM f = g <$> n.children.mapM f := by
  cases n with
  | atom a => exact ⟨fun _ => .atom a, fun f => by simp [mapM, children]⟩
  | nullable h x =>
      refine ⟨fun ys => ys.head?.elim (.atom .nil) (.nullable h), fun f => ?_⟩
      simp [mapM, children]
  | name l x =>
      refine ⟨fun ys => ys.head?.elim (.atom .nil) (.name l), fun f => ?_⟩
      simp [mapM, children]
  | func h ps r =>
      refine ⟨fun ys => ys.getLast?.elim (.atom .nil) (.func h ys.dropLast), fun f => ?_⟩
      simp [mapM, children]
  | struct h fs =>
      refine ⟨fun ys => .struct h ((fs.map Prod.fst).zip ys), fun f => ?_⟩
      rw [mapM, mapM_fields]
      simp [children]
  | tuple h es => exact ⟨.tuple h, fun f => by simp [mapM, children]⟩

end lawful

variable {ε : Type}

theorem exists_of_bind_eq_ok {x : Except ε α} {f : α → Except ε β} {b : β}
    (h : x >>= f = .ok b) : ∃ a, x = .ok a ∧ f a = .ok b := by
  cases x with
  | error e => cases h
  | ok a => exact ⟨a, rfl, h⟩

theorem exists_of_bind_eq_error {x : Except ε α} {f : α → Except ε β} {e : ε}
    (h : x >>= f = .error e) : x = .error e ∨ ∃ a, x = .ok a ∧ f a = .error e := by
  cases x with
  | error e' =>
      cases h
      exact .inl rfl
  | ok a => exact .inr ⟨a, rfl, h⟩

theorem isOk_bind {x : Except ε α} {f : α → Except ε β} (b : Bool)
    (h : ∀ a, x = .ok a → (f a).isOk = b) : (x >>= f).isOk = (x.isOk && b) := by
  cases x with
  | error e => rfl
  | ok a => exact h a rfl

theorem map_eq_of_mapM_list {g : α → Except ε β} {f : α → β} {xs : List α} {ys : List β}
    (h : xs.mapM g = .ok ys) (hf : ∀ x ∈ xs, ∀ y, g x = .ok y → f x = y) : xs.map f = ys := by
  induction xs generalizing ys with
  | nil =>
      cases h
      rfl
  | cons x xs ih =>
      rw [List.forall_mem_cons] at hf
      rw [List.mapM_cons] at h
      obtain ⟨y, hy, h⟩ := exists_of_bind_eq_ok h
      obtain ⟨zs, hzs, h⟩ := exists_of_bind_eq_ok h
      cases h
      rw [List.map_cons, hf.1 y hy, ih hzs hf.2]

theorem map_eq_of_mapM {g : α → Except ε β} {f : α → β} {n : Node α} {k : Node β}
    (h : n.mapM g = .ok k) (hf : ∀ x ∈ n.children, ∀ y, g x = .ok y → f x = y) : n.map f = k := by
  cases n with
  | atom =>
      cases h
      rfl
  | nullable _ x | name _ x =>
      obtain ⟨y, hy, h⟩ := exists_of_bind_eq_ok h
      cases h
      rw [map, hf x (List.mem_singleton_self x) y hy]
  | func _ ps r =>
      obtain ⟨qs, hqs, h⟩ := exists_of_bind_eq_ok h
      obtain ⟨q, hq, h⟩ := exists_of_bind_eq_ok h
      cases h
      rw [map, hf r (List.mem_append_right _ (List.mem_singleton_self r)) q hq,
        map_eq_of_mapM_list hqs fun x hx => hf x (List.mem_append_left _ hx)]
  | struct _ fs =>
      obtain ⟨gs, hgs, h⟩ := exists_of_bind_eq_ok h
      cases h
      have hmap : fs.map (fun p => (p.1, f p.2)) = gs := by
        apply map_eq_of_mapM_list hgs
        intro p hp q hq
        obtain ⟨y, hy, hq⟩ := exists_of_bind_eq_ok hq
        cases hq
        rw [hf p.2 (List.mem_map_of_mem hp) y hy]
      rw [map, hmap]
  | tuple _ es =>
      obtain ⟨ds, hds, h⟩ := exists_of_bind_eq_ok h
      cases h
      rw [map, map_eq_of_mapM_list hds hf]

theorem labels_of_mapM_eq_ok {g : α → Except ε β} {fs : List (String × α)}
    {gs : List (String × β)} (h : (fs.mapM fun p => do return (p.1, ← g p.2)) = .ok gs) :
    gs.map (·.1) = fs.map (·.1) := by
  induction fs generalizing gs with
  | nil =>
      cases h
      rfl
  | cons p fs ih =>
      rw [List.mapM_cons] at h
      obtain ⟨q, hq, h⟩ := exists_of_bind_eq_ok h
      obtain ⟨qs, hqs, h⟩ := exists_of_bind_eq_ok h
      obtain ⟨y, _, hq⟩ := exists_of_bind_eq_ok hq
      cases h
      cases hq
      rw [List.map_cons, List.map_cons, ih hqs]

theorem exists_of_mapM_list_eq_error {g : α → Except ε β} {xs : List α} {e : ε}
    (h : xs.mapM g = .error e) : ∃ x ∈ xs, g x = .error e := by
  induction xs with
  | nil => cases h
  | cons x xs ih =>
      rw [List.mapM_cons] at h
      rcases exists_of_bind_eq_error h with h | ⟨y, -, h⟩
      · exact ⟨x, List.mem_cons_self, h⟩
      · rcases exists_of_bind_eq_error h with h | ⟨ys, -, h⟩
        · obtain ⟨z, hz, h⟩ := ih h
          exact ⟨z, List.mem_cons_of_mem x hz, h⟩
        · cases h

theorem exists_of_mapM_eq_error {g : α → Except ε β} {n : Node α} {e : ε}
    (h : n.mapM g = .error e) : ∃ x ∈ n.children, g x = .error e := by
  cases n with
  | atom => cases h
  | nullable _ x | name _ x =>
      rcases exists_of_bind_eq_error h with h | ⟨y, -, h⟩
      · exact ⟨x, List.mem_singleton_self x, h⟩
      · cases h
  | func _ ps r =>
      rcases exists_of_bind_eq_error h with h | ⟨qs, -, h⟩
      · obtain ⟨x, hx, h⟩ := exists_of_mapM_list_eq_error h
        exact ⟨x, List.mem_append_left _ hx, h⟩
      · rcases exists_of_bind_eq_error h with h | ⟨q, -, h⟩
        · exact ⟨r, List.mem_append_right _ (List.mem_singleton_self r), h⟩
        · cases h
  | struct _ fs =>
      rcases exists_of_bind_eq_error h with h | ⟨gs, -, h⟩
      · obtain ⟨p, hp, h⟩ := exists_of_mapM_list_eq_error h
        rcases exists_of_bind_eq_error h with h | ⟨y, -, h⟩
        · exact ⟨p.2, List.mem_map_of_mem hp, h⟩
        · cases h
      · cases h
  | tuple _ es =>
      rcases exists_of_bind_eq_error h with h | ⟨ds, -, h⟩
      · exact exists_of_mapM_list_eq_error h
      · cases h

theorem isOk_mapM_list (g : α → Except ε β) (xs : List α) :
    (xs.mapM g).isOk = xs.all fun x => (g x).isOk := by
  induction xs with
  | nil => rfl
  | cons x xs ih =>
      rw [List.mapM_cons, List.all_cons, ← ih]
      refine isOk_bind _ fun y _ => ?_
      rw [isOk_bind true fun _ _ => rfl, Bool.and_true]

theorem isOk_mapM (g : α → Except ε β) (n : Node α) :
    (n.mapM g).isOk = n.children.all fun x => (g x).isOk := by
  cases n with
  | atom => rfl
  | nullable _ x | name _ x =>
      rw [mapM, isOk_bind true fun _ _ => rfl]
      rfl
  | func _ ps r =>
      rw [mapM, children, List.all_append, ← isOk_mapM_list]
      refine isOk_bind _ fun qs _ => ?_
      rw [isOk_bind true fun _ _ => rfl]
      rfl
  | struct _ fs =>
      rw [mapM, isOk_bind true fun _ _ => rfl, Bool.and_true, isOk_mapM_list, children, List.all_map]
      congr 1
      funext p
      exact (isOk_bind true fun _ _ => rfl).trans (Bool.and_true _)
  | tuple _ es => rw [mapM, isOk_bind true fun _ _ => rfl, Bool.and_true, isOk_mapM_list, children]

end Node

end TypeLattice
