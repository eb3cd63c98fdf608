import TypeLattice.Proofs.Erasure
import TypeLattice.Proofs.Realization
import TypeLattice.Proofs.StoreOrder

namespace TypeLattice

theorem Ty.toOption_eraseOutcome {β γ : Type} (f : β → γ) (x : Except (Clash Ty) β) :
    (eraseOutcome f x).toOption = x.toOption.map f := by
  cases x <;> rfl

namespace Store

variable {s : Store} {a b : Handle}

def eraseWithin : Nat → Handle → StoreM Handle
  | 0, h => pure h
  | n + 1, h => do
    match (← get).node h with
    | .name _ x => eraseWithin n x
    | k => do
      let k ← k.mapM (eraseWithin n)
      maker.build k

def erase (h : Handle) : StoreM Handle := eraseWithin (h.index + 1) h

theorem eraseWithin_leads {n : Nat} {h : Handle} (hs : s.Sound) (hh : s.Holds h)
    (hn : h.index < n) :
    s.Leads (eraseWithin n h) (fun s' e => s'.Denotes e (s.tree h).erase) := by
  induction n generalizing s h with
  | zero => omega
  | succ n ih =>
      have parts {x : Handle} (hx : x ∈ (s.node h).children) {s' : Store} (hs' : s'.Sound)
          (hle : s ≤ s') :
          s'.Leads (eraseWithin n x) (fun s'' e => s''.Denotes e (s.tree x).erase) := by
        obtain ⟨hx', hxt⟩ := Denotes.of_holds hs hle (hs.descends.holds hh hx)
        have hlt := hs.descends h hh x hx
        rw [← hxt]
        exact ih hs' hx' (by omega)
      have ht := tree_eq hs.descends hh
      rw [eraseWithin]
      apply Leads.get_bind
      split
      · next l x hx =>
          rw [ht, hx, Node.map, Ty.erase_name]
          exact parts (by simp [hx, Node.children]) hs (le_refl s)
      · next hname =>
          have hne : ((s.node h).map s.tree).kind ≠ .name := by
            rw [Node.kind_map]
            intro hk
            obtain ⟨l, x, hx⟩ := Node.kind_eq_name.1 hk
            exact hname l x hx
          have hparts : s.Leads ((s.node h).mapM (eraseWithin n))
              (fun s' k => s'.NodeDenotes k ((s.node h).map fun x => (s.tree x).erase)) :=
            leads.mapM_node hs fun x hx s' => parts hx
          refine Leads.bind hparts fun s₁ k hs₁ hle₁ hk => ?_
          rw [ht, Ty.erase_of_ne hne, Node.map_map]
          exact build_leads hs₁ hk ((Node.tidy_map _ _).2 (node_tidy hs hh))

theorem erase_leads (hs : s.Sound) (ha : s.Holds a) :
    s.Leads (erase a) (fun s' e => s'.Denotes e (s.tree a).erase) :=
  eraseWithin_leads hs ha (Nat.lt_succ_self _)

theorem erase_denotes {t : Ty} (hs : s.Sound) (ha : s.Denotes a t) :
    s.Leads (erase a) (fun s' e => s'.Denotes e t.erase) := by
  obtain ⟨ha, rfl⟩ := ha
  exact erase_leads hs ha

section homomorphism

variable (hs : s.Sound) (ha : s.Holds a) (hb : s.Holds b)

include hs ha

theorem erase_dual_same (da : (s.tree a).Decorated) :
    s.SameAnswer (do let d ← dual a; erase d) (do let e ← erase a; dual e) := by
  refine SameAnswer.of_leads (R := Denotes) (t := (s.tree a).dual.erase)
    (fun _ _ _ hs hle h => h.mono hs hle) (fun _ _ _ hs h h' => (Denotes.eq_iff hs h h').2 rfl) ?_ ?_
  · refine Leads.bind (dual_leads hs ha) fun s₁ d hs₁ _ hd => ?_
    rw [← hd.2]
    exact erase_leads hs₁ hd.1
  · intro s' hs' hle
    obtain ⟨ha', hta⟩ := Denotes.of_holds hs hle ha
    refine Leads.bind (erase_leads hs' ha') fun s₁ e hs₁ _ he => ?_
    rw [Ty.erase_dual (hs.normal a ha) da, ← hta, ← he.2]
    exact dual_leads hs₁ he.1

include hb

theorem erase_attempt_same {op : Handle → Handle → StoreM (Option Handle)}
    {op' : Ty → Ty → Except (Clash Ty) Ty}
    (hop : ∀ (s : Store) x y, s.Sound → s.Holds x → s.Holds y → s.Leads (op x y)
      (fun s' m => Option.Rel s'.Denotes m (op' (s.tree x) (s.tree y)).toOption))
    (herase : op' (s.tree a).erase (s.tree b).erase =
      Ty.eraseOutcome Ty.erase (op' (s.tree a) (s.tree b))) :
    s.SameAnswer (do let m ← op a b; m.mapM erase)
      (do let a' ← erase a; let b' ← erase b; op a' b') := by
  refine SameAnswer.of_leads (R := fun s => Option.Rel s.Denotes)
    (t := (op' (s.tree a) (s.tree b)).toOption.map Ty.erase)
    (fun _ _ _ hs hle h => Denotes.option_mono hs hle h)
    (fun _ _ _ hs h h' => Denotes.option_unique hs h h') ?_ ?_
  · refine Leads.bind (hop s a b hs ha hb) fun s₁ m hs₁ _ hm => ?_
    exact leads.mapM_option hs₁ (fun _ _ => erase_denotes hs₁) hm
  · intro s' hs' hle
    obtain ⟨ha', hta⟩ := Denotes.of_holds hs hle ha
    refine Leads.bind (erase_leads hs' ha') fun s₁ e hs₁ hle₁ he => ?_
    obtain ⟨hb', htb⟩ := Denotes.of_holds hs (le_trans hle hle₁) hb
    refine Leads.bind (erase_leads hs₁ hb') fun s₂ f hs₂ hle₂ hf => ?_
    obtain ⟨he₂, hte⟩ := he.mono hs₁ hle₂
    rw [← Ty.toOption_eraseOutcome, ← herase, ← hta, ← htb, ← hte, ← hf.2]
    exact hop s₂ e f hs₂ he₂ hf.1

end homomorphism

/-- Names only decorate: wherever no name stands over a universal type, they may be erased before
or after a dual, a meet or a join, which exist for the erased types exactly when they do for the
named ones. -/
theorem names_only_decorate (hs : s.Reachable) (ha : s.Holds a) (hb : s.Holds b)
    (da : (s.tree a).Decorated) (db : (s.tree b).Decorated) :
    (∃ e s', (erase a).run s = (e, s') ∧ s'.HoldsOf (· ≠ .name) e ∧
      (s.HoldsOf (· ≠ .name) a → e = a)) ∧
    s.SameAnswer (do let d ← dual a; erase d) (do let e ← erase a; dual e) ∧
    s.SameAnswer (do let m ← meet? a b; m.mapM erase)
      (do let a' ← erase a; let b' ← erase b; meet? a' b') ∧
    s.SameAnswer (do let j ← join? a b; j.mapM erase)
      (do let a' ← erase a; let b' ← erase b; join? a' b') := by
  have na := hs.sound.normal a ha
  have nb := hs.sound.normal b hb
  refine ⟨?_, erase_dual_same hs.sound ha da, ?_, ?_⟩
  · obtain ⟨hs', hle, he⟩ := erase_leads hs.sound ha
    refine ⟨_, _, rfl, .of_denotes he (Ty.of_erase _), fun hkinds => ?_⟩
    rw [Ty.erase_of_unnamed na hkinds.kinds] at he
    exact (Denotes.eq_iff hs' he (Denotes.of_holds hs.sound hle ha)).2 rfl
  · exact erase_attempt_same hs.sound ha hb
      (fun _ _ _ hs hx hy => attempt_leads (meet_leads hs hx hy)) (Ty.meet_erase na nb da db)
  · exact erase_attempt_same hs.sound ha hb
      (fun _ _ _ hs hx hy => attempt_leads (join_leads hs hx hy)) (Ty.join_erase na nb da db)

/-- A nullable byte and a nullable word, with names inside and outside, meet and join as the
nullable byte and the nullable word do. -/
theorem named_nullable_ints_only_decorate : ∃ s a b, s.Reachable ∧
    s.Denotes a (.mk (.nullable .bottom (.mk (.name "X" (.mk (.atom Preset.int8.atom)))))) ∧
    s.Denotes b (.mk (.name "Y" (.mk (.nullable .bottom
      (.mk (.name "Z" (.mk (.atom Preset.int64.atom)))))))) ∧
    (s.tree a).Decorated ∧ (s.tree b).Decorated ∧
    (∃ e s', (erase a).run s = (e, s') ∧ s'.HoldsOf (· ≠ .name) e) ∧
    s.SameAnswer (do let d ← dual a; erase d) (do let e ← erase a; dual e) ∧
    s.SameAnswer (do let m ← meet? a b; m.mapM erase)
      (do let a' ← erase a; let b' ← erase b; meet? a' b') ∧
    s.SameAnswer (do let j ← join? a b; j.mapM erase)
      (do let a' ← erase a; let b' ← erase b; join? a' b') := by
  have hname (l : String) (w : IntWidth) :
      (Ty.mk (.name l (.ofAtom (.int (.range .bottom w))))).Decorated :=
    .mk nofun (List.forall_mem_singleton.2 (.mk trivial nofun))
  have hnullable (l : String) (w : IntWidth) :
      (Ty.mk (.nullable .bottom (.mk (.name l (.ofAtom (.int (.range .bottom w))))))).Normal :=
    .mk rfl (List.forall_mem_singleton.2 (Ty.normal_name l (Ty.normal_ofAtom _)))
  have hdecorated (l : String) (w : IntWidth) :
      (Ty.mk (.nullable .bottom (.mk (.name l (.ofAtom (.int (.range .bottom w))))))).Decorated :=
    .mk trivial (List.forall_mem_singleton.2 (hname l w))
  obtain ⟨a, s₁, hs₁, -, ha⟩ := storable_of_normal (hnullable "X" .w8) initial .initial
  obtain ⟨b, s, hs, hle, hb⟩ := storable_of_normal (Ty.normal_name "Y" (hnullable "Z" .w64)) s₁ hs₁
  replace ha := ha.mono hs₁.sound hle
  have da : (s.tree a).Decorated := ha.2 ▸ hdecorated "X" .w8
  have db : (s.tree b).Decorated :=
    hb.2 ▸ .mk nofun (List.forall_mem_singleton.2 (hdecorated "Z" .w64))
  obtain ⟨⟨e, s', he, hkinds, -⟩, hsame⟩ := names_only_decorate hs ha.1 hb.1 da db
  exact ⟨s, a, b, hs, ha, hb, da, db, ⟨e, s', he, hkinds⟩, hsame⟩

end Store

end TypeLattice
