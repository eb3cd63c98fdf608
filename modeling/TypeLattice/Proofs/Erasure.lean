import TypeLattice.Proofs.NamedTypes

namespace TypeLattice

namespace Plan

variable {α : Type}

def doubled : Node α → Node (Piece α)
  | .func h ps r => .func h (ps.map fun p => .join p p) (.meet r r)
  | n => n.map fun x => .meet x x

/-- Only between atoms do the rules rely on equal operands having been sorted out before. -/
theorem ofPair_self {n : Node α} (h : ∀ a, n ≠ .atom a) (x : α) :
    ofPair x n x n = build (doubled n) := by
  rw [ofPair, if_neg (Kind.lt_irrefl _)]
  cases n with
  | atom a => exact absurd rfl (h a)
  | nullable i z => simp only [ofOrdered, ofNullable, Half.inf_self, doubled, Node.map]
  | name l z => simp only [ofOrdered, ofName, if_true, doubled, Node.map]
  | func i ps r => simp only [ofOrdered, ofFunc, if_true, Half.inf_self, List.zipWith_self, doubled]
  | struct i fs =>
      cases i <;>
        simp only [ofOrdered, ofStruct, Ascending.union_of_keys_eq (rfl : fs.map Prod.fst = _),
          Ascending.inter_of_keys_eq (rfl : fs.map Prod.fst = _), List.zipWith_self, doubled, Node.map]
  | tuple i es => simp only [ofOrdered, ofTuple, if_true, Half.inf_self, List.zipWith_self, doubled,
      Node.map]

theorem map_doubled (n : Node α) :
    (doubled n).map (Piece.value (fun x _ => x) fun x _ => x) = n := by
  cases n <;> simp [doubled, Node.map, Piece.value, Function.comp_def]

theorem forall_mem_doubled {n : Node α} {P : Piece α → Prop}
    (h : ∀ x ∈ n.children, P (.meet x x) ∧ P (.join x x)) : ∀ q ∈ (doubled n).children, P q := by
  intro q hq
  cases n with
  | func i ps r =>
      rcases List.mem_append.1 hq with hq | hq
      · obtain ⟨p, hp, rfl⟩ := List.mem_map.1 hq
        exact (h p (List.mem_append_left _ hp)).2
      · rw [List.mem_singleton.1 hq]
        exact (h r (List.mem_append_right _ (List.mem_singleton_self r))).1
  | _ =>
      rw [doubled, Node.children_map] at hq
      · obtain ⟨x, hx, rfl⟩ := List.mem_map.1 hq
        exact (h x hx).1
      · exact nofun

end Plan

namespace Ty

theorem join_self {a : Ty} (ha : a.Normal) : join a a = .ok a := by
  rw [join, meet_self]
  exact congrArg Except.ok (dual_dual ha)

theorem run_ofPair_self {a : Ty} (ha : a.Normal) (hatom : ∀ c, a.node ≠ .atom c) :
    (Plan.ofPair a a.node a a.node).run (fun k => .ok (build k)) meet join
      (fun x y => .error ⟨x, y⟩) = .ok a := by
  obtain ⟨n⟩ := a
  have hparts : ∀ q ∈ (Plan.doubled n).children,
      q.run meet join = .ok (q.value (fun x _ => x) fun x _ => x) :=
    Plan.forall_mem_doubled fun x hx => ⟨meet_self x, join_self (ha.parts x hx)⟩
  rw [Plan.ofPair_self hatom, node, Plan.run_build hparts, Plan.value, Plan.map_doubled,
    build_of_normal ha]

/-- Equal types are sorted out before the rules are asked. Save for atoms, the rules would answer
the same. -/
theorem meet_eq_run {a b : Ty} (ha : a.Normal) (hatom : a = b → ∀ c, a.node ≠ .atom c) :
    meet a b = (Plan.ofPair a a.node b b.node).run (fun k => .ok (build k)) meet join
      (fun x y => .error ⟨x, y⟩) := by
  rw [meet_eq]
  split
  · next hab =>
      subst hab
      rw [run_ofPair_self ha (hatom rfl)]
  · rfl

def eraseLayer : Node Ty → Ty
  | .name _ t => t
  | n => build n

def erase : Ty → Ty := fold eraseLayer

theorem erase_name (l : String) (t : Ty) : erase (mk (.name l t)) = t.erase := by
  rw [erase, fold_mk]
  rfl

theorem erase_of_ne {n : Node Ty} (h : n.kind ≠ .name) : erase (mk n) = build (n.map erase) := by
  rw [erase, fold_mk]
  cases n with
  | name => exact absurd rfl h
  | _ => rfl

theorem absorbsNil_of_kind {t u : Ty} (hd : t.Decorated)
    (hk : u.node.kind = t.unname.node.kind) : u.absorbsNil = t.absorbsNil := by
  have hu : u.unname = u := unname_of_ne (hk.trans_ne (kind_unname_ne_name t))
  have huniversal := isUniversal_unname hd
  rw [Node.isUniversal_eq] at huniversal
  rw [absorbsNil, absorbsNil, hu, ← huniversal, Node.isUniversal_eq, Node.admitsNil,
    Node.admitsNil, hk]

theorem erase_layers {t : Ty} (hn : t.Normal) (hd : t.Decorated) :
    t.erase.node.kind = t.unname.node.kind ∧
      (t.node.kind ≠ .name → t.erase = mk (t.node.map erase)) := by
  induction t with
  | mk n ih =>
      have parts (u : Ty) (hu : u ∈ n.children) := (ih u hu (hn.parts u hu) (hd.parts u hu)).1
      by_cases hname : n.kind = .name
      · obtain ⟨l, u, rfl⟩ := Node.kind_eq_name.1 hname
        rw [erase_name, unname_name]
        exact ⟨parts u (List.mem_singleton_self u), fun h => absurd rfl h⟩
      · have herase : (mk n).erase = mk (n.map erase) := by
          rw [erase_of_ne hname]
          cases n with
          | nullable h u =>
              have hu : u ∈ (Node.nullable h u).children := List.mem_singleton_self u
              exact build_nullable h ((absorbsNil_of_kind (hd.parts u hu) (parts u hu)).trans hn.layer)
          | _ => rfl
        rw [herase, unname_of_ne (by exact hname)]
        exact ⟨Node.kind_map erase n, fun _ => rfl⟩

theorem kind_erase {t : Ty} (hn : t.Normal) (hd : t.Decorated) :
    t.erase.node.kind = t.unname.node.kind :=
  (erase_layers hn hd).1

theorem erase_eq_mk {t : Ty} (hn : t.Normal) (hd : t.Decorated) (h : t.node.kind ≠ .name) :
    t.erase = mk (t.node.map erase) :=
  (erase_layers hn hd).2 h

theorem erase_build {n : Node Ty} (hname : n.kind ≠ .name)
    (hparts : ∀ t ∈ n.children, t.Normal ∧ t.Decorated) :
    (build n).erase = build (n.map erase) := by
  cases n with
  | nullable h t =>
      obtain ⟨hn, hd⟩ := hparts t (List.mem_singleton_self t)
      have habsorbs := absorbsNil_of_kind hd (kind_erase hn hd)
      by_cases ht : t.absorbsNil = true
      · simp only [Node.map, build, habsorbs, ht, if_true]
      · rw [build_nullable h (Bool.eq_false_iff.2 ht)]
        exact erase_of_ne hname
  | name => exact absurd rfl hname
  | _ => exact erase_of_ne hname

theorem normal_erase {t : Ty} (h : t.Normal) : t.erase.Normal := by
  induction t with
  | mk n ih =>
      have hparts : ∀ u ∈ (n.map erase).children, u.Normal := by
        intro u hu
        rw [Node.children_map] at hu
        obtain ⟨v, hv, rfl⟩ := List.mem_map.1 hu
        exact ih v hv (h.parts v hv)
      by_cases hname : n.kind = .name
      · obtain ⟨l, u, rfl⟩ := Node.kind_eq_name.1 hname
        rw [erase_name]
        exact hparts _ (List.mem_singleton_self _)
      · rw [erase_of_ne hname]
        exact normal_build ((Node.tidy_map erase n).2 h.layer.tidy) hparts

theorem of_erase (t : Ty) : t.erase.Of (· ≠ .name) := by
  induction t with
  | mk n ih =>
      by_cases hname : n.kind = .name
      · obtain ⟨l, u, rfl⟩ := Node.kind_eq_name.1 hname
        rw [erase_name]
        exact ih u (List.mem_singleton_self u)
      · rw [erase_of_ne hname]
        apply of_build (by rwa [Node.kind_map])
        intro u hu
        rw [Node.children_map] at hu
        obtain ⟨v, hv, rfl⟩ := List.mem_map.1 hu
        exact ih v hv

theorem erase_of_unnamed {t : Ty} (hn : t.Normal) (h : t.Of (· ≠ .name)) : t.erase = t := by
  induction t with
  | mk n ih =>
      have hparts : n.map erase = n.map fun u => u :=
        Node.map_congr fun u hu => ih u hu (hn.parts u hu) (h.parts u hu)
      have hname : n.kind ≠ .name := h.layer
      rw [erase_of_ne hname, hparts, Node.map_id, build_of_normal hn]

theorem erase_dual {t : Ty} (hn : t.Normal) (hd : t.Decorated) : t.dual.erase = t.erase.dual := by
  induction t with
  | mk n ih =>
      have parts (u : Ty) (hu : u ∈ n.children) := ih u hu (hn.parts u hu) (hd.parts u hu)
      by_cases hname : n.kind = .name
      · obtain ⟨l, u, rfl⟩ := Node.kind_eq_name.1 hname
        rw [dual_of_normal hn, erase_name]
        exact (erase_name l u.dual).trans (parts u (List.mem_singleton_self u))
      · have hmap : (n.flip.map dual).map erase = (n.map erase).flip.map dual := by
          rw [Node.flip_map, Node.map_map, Node.map_map]
          exact Node.map_congr fun u hu => parts u (by rwa [Node.children_flip] at hu)
        rw [dual_mk, erase_build, erase_eq_mk hn hd hname, dual_mk, hmap, node]
        · rwa [Node.kind_map, Node.kind_flip]
        · intro u hu
          rw [Node.children_map, Node.children_flip] at hu
          obtain ⟨v, hv, rfl⟩ := List.mem_map.1 hu
          exact ⟨normal_dual (hn.parts v hv), decorated_dual (hn.parts v hv) (hd.parts v hv)⟩

def eraseOutcome {β γ : Type} (f : β → γ) : Except (Clash Ty) β → Except (Clash Ty) γ
  | .ok b => .ok (f b)
  | .error c => .error ⟨c.left.erase, c.right.erase⟩

theorem eraseOutcome_bind {β β' γ γ' : Type} {f : β → β'} {g : γ → γ'} {x : Except (Clash Ty) β}
    {k : β → Except (Clash Ty) γ} {k' : β' → Except (Clash Ty) γ'}
    (h : ∀ b, k' (f b) = eraseOutcome g (k b)) :
    eraseOutcome f x >>= k' = eraseOutcome g (x >>= k) := by
  cases x with
  | error => rfl
  | ok b => exact h b

theorem mapM_list_eraseOutcome {β γ δ : Type} {f : γ → δ} {r : β → Except (Clash Ty) γ}
    {r' : β → Except (Clash Ty) δ} {xs : List β} (h : ∀ x ∈ xs, r' x = eraseOutcome f (r x)) :
    xs.mapM r' = eraseOutcome (List.map f) (xs.mapM r) := by
  induction xs with
  | nil => rfl
  | cons x xs ih =>
      rw [List.forall_mem_cons] at h
      rw [List.mapM_cons, List.mapM_cons, h.1, ih h.2]
      apply eraseOutcome_bind
      intro y
      apply eraseOutcome_bind
      intro ys
      rfl

theorem mapM_eraseOutcome {β γ δ : Type} {f : γ → δ} {r : β → Except (Clash Ty) γ}
    {r' : β → Except (Clash Ty) δ} {n : Node β} (h : ∀ x ∈ n.children, r' x = eraseOutcome f (r x)) :
    n.mapM r' = eraseOutcome (Node.map f) (n.mapM r) := by
  cases n with
  | atom => rfl
  | nullable _ x | name _ x =>
      simp only [Node.mapM, h x (List.mem_singleton_self x)]
      exact eraseOutcome_bind fun _ => rfl
  | func _ ps x =>
      simp only [Node.mapM, h x (List.mem_append_right _ (List.mem_singleton_self x)),
        mapM_list_eraseOutcome fun p hp => h p (List.mem_append_left _ hp)]
      exact eraseOutcome_bind fun _ => eraseOutcome_bind fun _ => rfl
  | struct _ fs =>
      simp only [Node.mapM]
      rw [mapM_list_eraseOutcome (f := fun p : String × γ => (p.1, f p.2))]
      · exact eraseOutcome_bind fun _ => rfl
      · intro p hp
        rw [h p.2 (List.mem_map_of_mem hp)]
        exact eraseOutcome_bind fun _ => rfl
  | tuple _ es =>
      have hes : ∀ x ∈ es, r' x = eraseOutcome f (r x) := h
      simp only [Node.mapM]
      rw [mapM_list_eraseOutcome hes]
      exact eraseOutcome_bind fun _ => rfl

/-- Meets and joins of two types may erase the names before or after. -/
def Erases (a b : Ty) : Prop :=
  meet a.erase b.erase = eraseOutcome erase (meet a b) ∧
    join a.erase b.erase = eraseOutcome erase (join a b)

theorem run_map_erase {p : Plan Ty} (hends : p.Ends (fun _ _ => True) (· ≠ .name))
    (hfits : p.Fits (fun t => t.Normal ∧ t.Decorated) fun u v => (u.Normal ∧ u.Decorated) ∧
      (v.Normal ∧ v.Decorated) ∧ Erases u v) :
    (p.map erase).run (fun k => .ok (build k)) meet join (fun x y => .error ⟨x, y⟩) =
      eraseOutcome erase
        (p.run (fun k => .ok (build k)) meet join (fun x y => .error ⟨x, y⟩)) := by
  cases p with
  | clash | keep => rfl
  | meet u v => exact hfits.2.2.1
  | build l =>
      have hpieces : (l.map (Piece.map erase)).mapM (Piece.run meet join) =
          eraseOutcome (Node.map erase) (l.mapM (Piece.run meet join)) := by
        rw [Node.mapM_map]
        apply mapM_eraseOutcome
        intro q hq
        have hq := hfits q hq
        cases q with
        | keep => rfl
        | meet => exact hq.2.2.1
        | join => exact hq.2.2.2
      simp only [Plan.map, Plan.run, hpieces]
      cases hl : l.mapM (Piece.run meet join) with
      | error => rfl
      | ok k =>
          have hk : l.map (Piece.value inf sup) = k := by
            apply Node.map_eq_of_mapM hl
            intro q _ t ht
            cases q with
            | keep => exact Except.ok.inj ht
            | meet => exact inf_of_meet ht
            | join => exact sup_of_join ht
          apply congrArg Except.ok
          refine (erase_build (n := k) (by rw [← hk, Node.kind_map]; exact hends) ?_).symm
          intro t ht
          rw [← hk, Node.children_map] at ht
          obtain ⟨q, hq, rfl⟩ := List.mem_map.1 ht
          have hq := hfits q hq
          cases q with
          | keep => exact hq
          | meet =>
              obtain ⟨⟨hu, du⟩, ⟨hv, dv⟩, -⟩ := hq
              exact ⟨normal_inf hu hv, decorated_inf hu hv du dv⟩
          | join =>
              obtain ⟨⟨hu, du⟩, ⟨hv, dv⟩, -⟩ := hq
              exact ⟨normal_sup hu hv, decorated_sup hu hv du dv⟩

theorem join_erase_of_meet {a b : Ty} (ha : a.Normal) (hb : b.Normal) (da : a.Decorated)
    (db : b.Decorated)
    (h : meet a.dual.erase b.dual.erase = eraseOutcome erase (meet a.dual b.dual)) :
    join a.erase b.erase = eraseOutcome erase (join a b) := by
  rw [join, ← erase_dual ha da, ← erase_dual hb db, h, join]
  cases hm : meet a.dual b.dual with
  | error => rfl
  | ok m =>
      have hinf := inf_of_meet hm
      have hn : m.Normal := hinf ▸ normal_inf (normal_dual ha) (normal_dual hb)
      have hd : m.Decorated := hinf ▸ decorated_inf (normal_dual ha) (normal_dual hb)
        (decorated_dual ha da) (decorated_dual hb db)
      exact congrArg Except.ok (erase_dual hn hd).symm

theorem meet_erase {a b : Ty} (ha : a.Normal) (hb : b.Normal) (da : a.Decorated)
    (db : b.Decorated) : meet a.erase b.erase = eraseOutcome erase (meet a b) := by
  have hmem {l : String} {x : Ty} : x ∈ (Node.name l x).children := List.mem_singleton_self x
  revert ha hb da db
  induction a, b using named_induction with
  | comm a b h =>
      intro ha hb da db
      rw [meet_comm, meet_comm a, h hb ha db da]
  | universal a b h =>
      intro _ _ _ _
      have ha : a.erase = a := by rcases universal_cases h with rfl | rfl <;> rfl
      rw [ha, meet_universal h, meet_universal h, eraseOutcome, apply_ite erase, ha]
  | names l k x y ih =>
      intro ha hb da db
      have hxy := ih (ha.parts x hmem) (hb.parts y hmem) (da.parts x hmem) (db.parts y hmem)
      rw [erase_name, erase_name, hxy]
      by_cases hk : k = l
      · rw [hk, meet_name_name]
        cases meet x y with
        | error => rfl
        | ok m => exact congrArg Except.ok (erase_name l m).symm
      · rw [meet_name_ne hk]
  | name l x b hu hn ih =>
      intro ha hb da db
      rw [erase_name, meet_name_left hu hn]
      exact ih (ha.parts x hmem) hb (da.parts x hmem) db
  | bare a b hua hub hna hnb ih =>
      intro ha hb da db
      by_cases hab : a = b
      · rw [hab, meet_self, meet_self]
        rfl
      · have ea := erase_eq_mk ha da hna
        have eb := erase_eq_mk hb db hnb
        have hends := Plan.ends_ofPair (C := fun _ _ => True) (K := (· ≠ .name)) (x := a) (y := b)
          hna hnb nofun nofun (fun _ => trivial) fun _ => trivial
        have hfits : (Plan.ofPair a a.node b b.node).Fits (fun t => t.Normal ∧ t.Decorated)
            fun u v => (u.Normal ∧ u.Decorated) ∧ (v.Normal ∧ v.Decorated) ∧ Erases u v := by
          have hoperands := operands_closed (Q := fun t => t.Normal ∧ t.Decorated)
            (fun t h u hu => ⟨h.1.parts u hu, h.2.parts u hu⟩) ⟨ha, da⟩ ⟨hb, db⟩
          refine (Plan.fits_ofPair (fun u v h => ⟨h.2.1, h.1, by omega⟩) hoperands).mono
            (fun _ h => h) ?_
          intro u v ⟨⟨hu, du⟩, ⟨hv, dv⟩, hlt⟩
          have hu' := height_dual_le u
          have hv' := height_dual_le v
          refine ⟨⟨hu, du⟩, ⟨hv, dv⟩, ih u v hlt hu hv du dv, join_erase_of_meet hu hv du dv ?_⟩
          exact ih u.dual v.dual (by omega) (normal_dual hu) (normal_dual hv) (decorated_dual hu du)
            (decorated_dual hv dv)
        have hatom : a.erase = b.erase → ∀ c, a.erase.node ≠ .atom c := by
          intro he c hc
          have hc' : b.erase.node = .atom c := he ▸ hc
          rw [ea, node] at hc
          rw [eb, node] at hc'
          exact hab (eq_of_node ((Node.eq_atom_of_map hc).trans (Node.eq_atom_of_map hc').symm))
        rw [meet_eq_run (normal_erase ha) hatom, meet_eq a b, if_neg hab, ← run_map_erase hends hfits,
          Plan.map_ofPair, ea, eb]
        rfl

theorem join_erase {a b : Ty} (ha : a.Normal) (hb : b.Normal) (da : a.Decorated)
    (db : b.Decorated) : join a.erase b.erase = eraseOutcome erase (join a b) :=
  join_erase_of_meet ha hb da db
    (meet_erase (normal_dual ha) (normal_dual hb) (decorated_dual ha da) (decorated_dual hb db))

end Ty

end TypeLattice
