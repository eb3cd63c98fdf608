import TypeLattice.Proofs.Commutativity

namespace TypeLattice

variable {α : Type}

namespace Kind

def Clashes (j k : Kind) : Prop :=
  (k = .ctrl ∧ (j = .nil ∨ j = .scalar)) ∨ (j = .ctrl ∧ k.isScalarLike = true)

theorem isScalarLike_of_not_lt {k : Kind} (h : ¬k < .int) : k.isScalarLike = true := by
  revert h
  cases k <;> decide

theorem isScalarLike_of_ne_ctrl {k : Kind} (h : ¬k < .ctrl) (hne : k ≠ .ctrl) :
    k.isScalarLike = true := by
  revert h hne
  cases k <;> decide

theorem not_lt_trans {i j k : Kind} (h : ¬k < j) (hj : ¬j < i) : ¬k < i :=
  fun hk => h (Nat.lt_of_lt_of_le hk (Nat.not_lt.1 hj))

theorem not_clashes_self (k : Kind) : ¬k.Clashes k := by
  cases k <;> simp [Clashes, isScalarLike, isPointer]

end Kind

theorem Node.kind_eq_ctrl {n : Node α} (h : n.kind = .ctrl) : ∃ i, n = .atom (.ctrl i) := by
  cases n with
  | atom a =>
      cases a with
      | ctrl i => exact ⟨i, rfl⟩
      | _ => cases h
  | _ => cases h

namespace Piece

def value (meet join : α → α → α) : Piece α → α
  | .keep x => x
  | .meet x y => meet x y
  | .join x y => join x y

end Piece

namespace Plan

/-- What a plan comes to where nothing fails. -/
def value (make : Node α → α) (meet join : α → α → α) : Plan α → α
  | .clash x _ => x
  | .keep x => x
  | .meet x y => meet x y
  | .build n => make (n.map (Piece.value meet join))

/-- A rule for the pairs that have none: control as one more class of words. -/
def settle (x : α) (n : Node α) (y : α) (k : Node α) : Plan α :=
  match n with
  | .atom .nil => build (.nullable .bottom (.keep y))
  | .nullable h z => build (.nullable (h.inf k.half) (.meet z y))
  | .atom (.scalar h) => keep (if h.isTop then y else x)
  | _ => make (.scalar .bottom)

variable {x y u v : α} {n k : Node α}

def Ends (C : α → α → Prop) (K : Kind → Prop) : Plan α → Prop
  | .clash u v => C u v
  | .build l => K l.kind
  | .keep _ | .meet _ _ => True

section ends

variable {C : α → α → Prop} {K : Kind → Prop}

theorem ends_ofKinds {i j : Kind} (hscalar : K .scalar) (hoop : K .oop)
    (hclash : (i.isScalarLike && j.isScalarLike) = false → C x y) :
    (ofKinds x i y j).Ends C K := by
  unfold ofKinds
  split
  · exact hoop
  · split
    · exact hscalar
    · next h => exact hclash (by simpa using h)

theorem ends_ofNil (hnil : K .nil) (hscalar : K .scalar) (hoop : K .oop)
    (hclash : k.kind = .ctrl → C x y) : (ofNil x y k).Ends C K := by
  unfold ofNil
  split
  · exact hclash rfl
  · trivial
  · exact hnil
  · exact hnil
  · exact hscalar
  · split
    · exact hoop
    · exact hnil

theorem ends_ofNullable {i : Half} {z : α} (hnil : K .nil) (hclash : k.kind = .ctrl → C x y) :
    (ofNullable x i z y k).Ends C K := by
  unfold ofNullable
  split
  · exact hclash rfl
  · trivial
  · exact hnil
  · exact hnil
  · exact hnil

theorem ends_ofTargets {f : Half → OrdSet Nat → Atom} {i j : Half} {s t : OrdSet Nat}
    (hkind : ∀ i s, K (f i s).kind) : (ofTargets f x i s y j t).Ends C K := by
  unfold ofTargets
  split
  · exact hkind _ _
  · exact hkind _ _
  · trivial
  · trivial

theorem ends_ofPick {γ : Type} {f : γ → Atom} {p : Pick γ} (hkind : ∀ c, K (f c).kind) :
    (ofPick x y f p).Ends C K := by
  cases p with
  | left | right => trivial
  | made c => exact hkind c

theorem ends_ofOrdered_word (hn : ¬n.kind < .int) (hle : ¬k.kind < n.kind) (hkind : K n.kind)
    (hscalar : K .scalar) (hoop : K .oop) : (ofOrdered x n y k).Ends C K := by
  have hkinds {i : Kind} (hi : i.isScalarLike = true) : (ofKinds x i y k.kind).Ends C K := by
    apply ends_ofKinds hscalar hoop
    rw [hi, Kind.isScalarLike_of_not_lt (Kind.not_lt_trans hle hn)]
    exact nofun
  cases n with
  | atom a =>
      cases a with
      | universal | nil | scalar | ctrl => exact absurd (by simp [Node.kind, Atom.kind]; decide) hn
      | int c =>
          simp only [ofOrdered]
          unfold ofInt
          split
          · exact ends_ofPick fun _ => hkind
          · exact hkinds rfl
      | flt c =>
          simp only [ofOrdered]
          unfold ofFlt
          split
          · exact ends_ofPick fun _ => hkind
          · exact hkinds rfl
      | funPtr i s =>
          simp only [ofOrdered]
          unfold ofFunPtr
          split
          · exact ends_ofTargets fun _ _ => hkind
          · exact hkinds rfl
      | rpc i s =>
          simp only [ofOrdered]
          unfold ofRpc
          split
          · exact ends_ofTargets fun _ _ => hkind
          · exact hkinds rfl
      | oop =>
          simp only [ofOrdered]
          unfold ofOop
          split
          · trivial
          · exact hkinds rfl
      | str =>
          simp only [ofOrdered]
          unfold ofStr
          split
          · exact hkind
          · split
            · trivial
            · exact hkind
          · exact hkinds rfl
      | strConst =>
          simp only [ofOrdered]
          unfold ofStrConst
          split
          · split
            · trivial
            · exact hkind
          · split
            · trivial
            · exact hkind
          · exact hkinds rfl
  | nullable | name => exact absurd (by simp [Node.kind]; decide) hn
  | func =>
      simp only [ofOrdered]
      unfold ofFunc
      split
      · split
        · exact hkind
        · exact hscalar
      · exact hkinds rfl
  | struct i fs =>
      simp only [ofOrdered]
      unfold ofStruct
      split
      · dsimp only
        split
        · exact hkind
        · exact hkind
        · trivial
        · trivial
      · exact hkinds rfl
  | tuple =>
      simp only [ofOrdered]
      unfold ofTuple
      split
      · split
        · exact hkind
        · exact hoop
      · exact hkinds rfl

theorem ends_ofOrdered (hle : ¬k.kind < n.kind) (hkind : K n.kind) (hscalar : K .scalar)
    (hoop : K .oop) (hclash : n.kind.Clashes k.kind → C x y) : (ofOrdered x n y k).Ends C K := by
  by_cases hn : n.kind < .int
  · cases n with
    | atom a =>
        cases a with
        | universal => trivial
        | nil => exact ends_ofNil hkind hscalar hoop fun h => hclash (.inl ⟨h, .inl rfl⟩)
        | scalar =>
            simp only [ofOrdered]
            unfold ofScalar
            split
            · exact hclash (.inl ⟨rfl, .inr rfl⟩)
            · trivial
        | ctrl =>
            simp only [ofOrdered]
            unfold ofCtrl
            split
            · exact hkind
            · next hne =>
                refine ends_ofKinds hscalar hoop fun _ => hclash (.inr ⟨rfl, ?_⟩)
                refine Kind.isScalarLike_of_ne_ctrl hle fun h => ?_
                obtain ⟨i, hi⟩ := Node.kind_eq_ctrl h
                exact hne i hi
        | _ => exact absurd hn (by simp [Node.kind, Atom.kind]; decide)
    | nullable => exact ends_ofNullable hkind fun h => hclash (.inl ⟨h, .inl rfl⟩)
    | name =>
        simp only [ofOrdered]
        unfold ofName
        split
        · split
          · exact hkind
          · trivial
        · trivial
    | _ => exact absurd hn (by simp [Node.kind]; decide)
  · exact ends_ofOrdered_word hn hle hkind hscalar hoop

theorem ends_ofPair (hn : K n.kind) (hk : K k.kind) (hscalar : K .scalar) (hoop : K .oop)
    (hclash : n.kind.Clashes k.kind → C x y) (hclash' : k.kind.Clashes n.kind → C y x) :
    (ofPair x n y k).Ends C K := by
  unfold ofPair
  split
  · next h => exact ends_ofOrdered (Nat.lt_asymm h) hk hscalar hoop hclash'
  · next h => exact ends_ofOrdered h hn hscalar hoop hclash

theorem Ends.ne_clash {p : Plan α} (h : p.Ends (fun _ _ => False) K) : p ≠ clash u v := by
  intro hp
  rw [hp] at h
  exact h

end ends

theorem ofPair_ne_clash (h : ¬n.kind.Clashes k.kind) (h' : ¬k.kind.Clashes n.kind) :
    ofPair x n y k ≠ clash u v :=
  (ends_ofPair (K := fun _ => True) trivial trivial trivial trivial h h').ne_clash

theorem ends_settle {C : α → α → Prop} {K : Kind → Prop} (hn : K n.kind) (hscalar : K .scalar) :
    (settle x n y k).Ends C K := by
  unfold settle
  split
  · exact hn
  · exact hn
  · trivial
  · exact hscalar

theorem fits_settle {P : α → Prop} {R : α → α → Prop} (h : Operands P R x n y k) :
    (settle x n y k).Fits P R := by
  unfold settle
  split
  · intro q hq
    cases List.mem_singleton.1 hq
    exact h.right
  · next z =>
      intro q hq
      cases List.mem_singleton.1 hq
      exact h.rightWhole z (List.mem_singleton_self z)
  · next i => cases i <;> first | exact h.left | exact h.right
  · exact fun q hq => absurd hq List.not_mem_nil

theorem tidy_settle : (settle x n y k).Tidy := by
  unfold settle
  split <;> trivial

theorem value_congr {make : Node α → α} {meet meet' join join' : α → α → α} {p : Plan α}
    (h : p.Fits (fun _ => True) (fun u v => meet u v = meet' u v ∧ join u v = join' u v)) :
    p.value make meet join = p.value make meet' join' := by
  cases p with
  | clash | keep => rfl
  | meet u v => exact h.1
  | build l =>
      refine congrArg make (Node.map_congr fun q hq => ?_)
      have hq := h q hq
      cases q with
      | keep => rfl
      | meet => exact hq.1
      | join => exact hq.2

theorem value_swap {make : Node α → α} {meet join : α → α → α} {p : Plan α}
    (h : p.Fits (fun _ => True) (fun u v => meet u v = meet v u ∧ join u v = join v u)) :
    p.swap.value make meet join = p.value make meet join := by
  cases p with
  | clash | keep => rfl
  | meet u v => exact h.1.symm
  | build l =>
      rw [swap, value, Node.map_map]
      refine congrArg make (Node.map_congr fun q hq => ?_)
      have hq := h q hq
      cases q with
      | keep => rfl
      | meet => exact hq.1.symm
      | join => exact hq.2.symm

theorem value_of_run {ε : Type} {make : Node α → α} {meet join clash : α → α → Except ε α}
    {meet' join' : α → α → α} {p : Plan α} {z : α} (hclash : ∀ u v w, clash u v ≠ .ok w)
    (h : p.run (fun l => .ok (make l)) meet join clash = .ok z)
    (hp : p.Fits (fun _ => True) (fun u v => (∀ w, meet u v = .ok w → meet' u v = w) ∧
      ∀ w, join u v = .ok w → join' u v = w)) :
    p.value make meet' join' = z ∧ ∀ u v, p ≠ .clash u v := by
  cases p with
  | clash u v => exact absurd h (hclash u v z)
  | keep u =>
      cases h
      exact ⟨rfl, fun _ _ h => nomatch h⟩
  | meet u v => exact ⟨hp.1 z h, fun _ _ h => nomatch h⟩
  | build l =>
      obtain ⟨k, hk, h⟩ := Node.exists_of_bind_eq_ok h
      cases h
      refine ⟨congrArg make (Node.map_eq_of_mapM hk fun q hq => ?_), fun _ _ h => nomatch h⟩
      have hq := hp q hq
      intro w hw
      cases q with
      | keep => exact Except.ok.inj hw
      | meet => exact hq.1 w hw
      | join => exact hq.2 w hw

theorem run_build {ε : Type} {make : Node α → α} {meet join clash : α → α → Except ε α}
    {meet' join' : α → α → α} {l : Node (Piece α)}
    (hl : ∀ q ∈ l.children, q.run meet join = .ok (q.value meet' join')) :
    (build l).run (fun l => .ok (make l)) meet join clash =
      .ok ((build l).value make meet' join') := by
  have hpure : l.mapM (Piece.run meet join) = l.mapM (fun q => pure (q.value meet' join')) :=
    Node.mapM_congr hl
  rw [run, hpure, Node.mapM_pure, pure_bind]
  rfl

theorem run_eq_ok {ε : Type} {make : Node α → α} {meet join clash : α → α → Except ε α}
    {meet' join' : α → α → α} {p : Plan α} (hclash : ∀ u v, p ≠ .clash u v)
    (hp : p.Fits (fun _ => True) (fun u v => meet u v = .ok (meet' u v) ∧
      join u v = .ok (join' u v))) :
    p.run (fun l => .ok (make l)) meet join clash = .ok (p.value make meet' join') := by
  cases p with
  | clash u v => exact absurd rfl (hclash u v)
  | keep u => rfl
  | meet u v => exact hp.1
  | build l =>
      apply run_build
      intro q hq
      have hq := hp q hq
      cases q with
      | keep => rfl
      | meet => exact hq.1
      | join => exact hq.2

section total

variable {x y : Ty} {n k : Node Ty}

/-- The rule for a nullable type below the top of all values asks for a meet of its component,
which control does not have. Nullable control stays as it is, under the name that it has. -/
def stays : Node Ty → Node Ty → Bool
  | .nullable _ z, .atom (.scalar .top) => z.unname.node.kind = .ctrl
  | _, _ => false

def ofTotal (x : Ty) (n : Node Ty) (y : Ty) (k : Node Ty) : Plan Ty :=
  if stays n k then keep x
  else if stays k n then keep y
  else
    match ofPair x n y k with
    | .clash _ _ => if k.kind < n.kind then settle y k x n else settle x n y k
    | p => p

theorem kinds_of_stays (h : stays n k = true) : n.kind = .nil ∧ k.kind = .scalar := by
  unfold stays at h
  split at h
  · exact ⟨rfl, rfl⟩
  · cases h

theorem exists_of_stays (h : stays n k = true) : ∃ i z, n = .nullable i z ∧
    k = .atom (.scalar .top) ∧ z.unname.node.kind = .ctrl := by
  unfold stays at h
  split at h
  · exact ⟨_, _, rfl, rfl, of_decide_eq_true h⟩
  · cases h

theorem stays_eq_false (h : n.kind = .nil → k.kind ≠ .scalar) : stays n k = false := by
  apply Bool.eq_false_iff.2
  intro hs
  obtain ⟨hn, hk⟩ := kinds_of_stays hs
  exact h hn hk

theorem ofTotal_of_ne_clash (hn : stays n k = false) (hk : stays k n = false)
    (h : ∀ u v, ofPair x n y k ≠ clash u v) : ofTotal x n y k = ofPair x n y k := by
  rw [ofTotal, hn, hk, if_neg Bool.false_ne_true, if_neg Bool.false_ne_true]
  split
  · next hp => exact absurd hp (h _ _)
  · rfl

theorem ofTotal_of_kind_eq (h : n.kind = k.kind) : ofTotal x n y k = ofOrdered x n y k := by
  have hself : ¬n.kind.Clashes k.kind := h ▸ Kind.not_clashes_self _
  have hself' : ¬k.kind.Clashes n.kind := h ▸ Kind.not_clashes_self _
  have hn : stays n k = false := stays_eq_false fun hn hk => by rw [← h, hn] at hk; cases hk
  have hk : stays k n = false := stays_eq_false fun hk hn => by rw [h, hk] at hn; cases hn
  rw [ofTotal_of_ne_clash hn hk fun _ _ => ofPair_ne_clash hself hself', ofPair,
    if_neg (h ▸ Nat.lt_irrefl _)]

theorem ends_ofTotal {K : Kind → Prop} (hn : K n.kind) (hk : K k.kind) (hscalar : K .scalar)
    (hoop : K .oop) : (ofTotal x n y k).Ends (fun _ _ => False) K := by
  have hpair : (ofPair x n y k).Ends (fun _ _ => True) K :=
    ends_ofPair hn hk hscalar hoop (fun _ => trivial) fun _ => trivial
  unfold ofTotal
  split
  · trivial
  · split
    · trivial
    · split
      · split
        · exact ends_settle hk hscalar
        · exact ends_settle hn hscalar
      · next hne =>
          cases hp : ofPair x n y k with
          | clash u v => exact absurd hp (hne u v)
          | build l => rw [hp] at hpair; exact hpair
          | keep | meet => trivial

theorem fits_ofTotal {P : Ty → Prop} {R : Ty → Ty → Prop} (hR : ∀ u v, R u v → R v u)
    (h : Operands P R x n y k) : (ofTotal x n y k).Fits P R := by
  unfold ofTotal
  split
  · exact h.left
  · split
    · exact h.right
    · split
      · split
        · exact fits_settle (h.symm hR)
        · exact fits_settle h
      · exact fits_ofPair hR h

theorem tidy_ofTotal (hn : n.Tidy) (hk : k.Tidy) : (ofTotal x n y k).Tidy := by
  unfold ofTotal
  split
  · trivial
  · split
    · trivial
    · split
      · split <;> exact tidy_settle
      · exact tidy_ofPair hn hk

theorem value_ofTotal_comm {make : Node Ty → Ty} {meet join : Ty → Ty → Ty} (hsame : n = k → x = y)
    (h : (ofTotal x n y k).Fits (fun _ => True)
      (fun u v => meet u v = meet v u ∧ join u v = join v u)) :
    (ofTotal y k x n).value make meet join = (ofTotal x n y k).value make meet join := by
  by_cases hn : stays n k = true
  · have hk : stays k n = false := stays_eq_false fun _ => by
      rw [(kinds_of_stays hn).1]
      exact nofun
    rw [ofTotal, ofTotal, if_pos hn, hk, if_neg Bool.false_ne_true, if_pos hn]
  · by_cases hk : stays k n = true
    · rw [ofTotal, ofTotal, if_pos hk, if_neg hn, if_pos hk]
    · by_cases hlt : k.kind < n.kind
      · have hgt : ¬n.kind < k.kind := Nat.lt_asymm hlt
        simp only [ofTotal, ofPair, if_neg hn, if_neg hk, if_neg hgt, if_pos hlt]
      · by_cases hgt : n.kind < k.kind
        · simp only [ofTotal, ofPair, if_neg hn, if_neg hk, if_pos hgt, if_neg hlt]
        · have hkind : n.kind = k.kind :=
            Kind.rank_injective (Nat.le_antisymm (Nat.not_lt.1 hlt) (Nat.not_lt.1 hgt))
          rw [ofTotal_of_kind_eq hkind] at h ⊢
          rw [ofTotal_of_kind_eq hkind.symm, ofOrdered_swap hkind hsame]
          exact value_swap h

end total

end Plan

namespace Ty

/-- The meet with control taken for one more class of words, so that it always exists. -/
def infWithin : Nat → Ty → Ty → Ty
  | 0, a, _ => a
  | n + 1, a, b =>
    if a = b then a
    else
      (Plan.ofTotal a a.node b b.node).value build (infWithin n)
        (fun x y => dual (infWithin n x.dual y.dual))

def inf (a b : Ty) : Ty := infWithin (a.height + b.height) a b

def sup (a b : Ty) : Ty := dual (inf a.dual b.dual)

theorem total_fits_height (a b : Ty) : (Plan.ofTotal a a.node b b.node).Fits (fun _ => True)
    (fun u v => u.height + v.height < a.height + b.height) :=
  Plan.fits_ofTotal (fun u v h => by omega) (operands_lt_height a b)

theorem infWithin_congr {n m : Nat} {a b : Ty} (hn : a.height + b.height ≤ n)
    (hm : a.height + b.height ≤ m) : infWithin n a b = infWithin m a b := by
  induction n generalizing m a b with
  | zero => have := height_pos a; omega
  | succ n ih =>
      cases m with
      | zero => have := height_pos a; omega
      | succ m =>
          rw [infWithin, infWithin]
          split
          · rfl
          · apply Plan.value_congr
            refine (total_fits_height a b).mono (fun _ h => h) fun u v huv => ⟨?_, ?_⟩
            · exact ih (by omega) (by omega)
            · have hu := height_dual_le u
              have hv := height_dual_le v
              rw [ih (a := u.dual) (b := v.dual) (m := m) (by omega) (by omega)]

theorem inf_eq (a b : Ty) : inf a b =
    if a = b then a else (Plan.ofTotal a a.node b b.node).value build inf sup := by
  have ha := height_pos a
  obtain ⟨n, hn⟩ : ∃ n, a.height + b.height = n + 1 := ⟨a.height + b.height - 1, by omega⟩
  rw [inf, hn, infWithin]
  split
  · rfl
  · apply Plan.value_congr
    refine (total_fits_height a b).mono (fun _ h => h) fun u v huv => ⟨?_, ?_⟩
    · exact infWithin_congr (by omega) (Nat.le_refl _)
    · have hu := height_dual_le u
      have hv := height_dual_le v
      rw [sup, inf, infWithin_congr (by omega) (Nat.le_refl _)]

@[simp] theorem inf_self (a : Ty) : inf a a = a := by
  rw [inf_eq, if_pos rfl]

theorem pair_induction {C : Ty → Ty → Prop}
    (h : ∀ a b, (∀ u v, u.height + v.height < a.height + b.height → C u v) → C a b) (a b : Ty) :
    C a b := by
  obtain ⟨n, hn⟩ : ∃ n, a.height + b.height ≤ n := ⟨_, Nat.le_refl _⟩
  induction n generalizing a b with
  | zero => have := height_pos a; omega
  | succ n ih => exact h a b fun u v huv => ih u v (by omega)

theorem inf_comm (a b : Ty) : inf a b = inf b a := by
  induction a, b using pair_induction with
  | h a b ih =>
      rw [inf_eq, inf_eq]
      by_cases hab : a = b
      · rw [if_pos hab, if_pos hab.symm, hab]
      · rw [if_neg hab, if_neg (Ne.symm hab)]
        symm
        apply Plan.value_ofTotal_comm
        · intro h
          cases a
          cases b
          exact congrArg mk h
        · refine (total_fits_height a b).mono (fun _ h => h) fun u v huv => ⟨ih u v huv, ?_⟩
          have hu := height_dual_le u
          have hv := height_dual_le v
          rw [sup, sup, ih u.dual v.dual (by omega)]

theorem sup_comm (a b : Ty) : sup a b = sup b a := by
  rw [sup, sup, inf_comm]

theorem exists_of_join {a b m : Ty} (h : join a b = .ok m) :
    ∃ c, meet a.dual b.dual = .ok c ∧ c.dual = m := by
  rw [join] at h
  cases hc : meet a.dual b.dual with
  | error e => rw [hc] at h; cases h
  | ok c =>
      rw [hc] at h
      exact ⟨c, rfl, Except.ok.inj h⟩

theorem meet_control_ne_ok {t m : Ty} (h : t.unname.node.kind = .ctrl) :
    meet t (mk (.atom (.scalar .top))) ≠ .ok m := by
  induction t with
  | mk n ih =>
      intro hm
      by_cases hname : n.kind = .name
      · obtain ⟨l, u, rfl⟩ := Node.kind_eq_name.1 hname
        rw [unname_name] at h
        rw [meet_eq, if_neg (by simp)] at hm
        exact ih u (List.mem_singleton_self u) h hm
      · have hne : (mk n).node.kind ≠ .name := hname
        rw [unname_of_ne hne] at h
        obtain ⟨i, rfl⟩ := Node.kind_eq_ctrl h
        rw [meet_eq, if_neg (by simp)] at hm
        cases hm

theorem stays_eq_false_of_meet {a b m : Ty} (h : meet a b = .ok m) :
    Plan.stays a.node b.node = false := by
  apply Bool.eq_false_iff.2
  intro hs
  obtain ⟨i, z, ha, hb, hz⟩ := Plan.exists_of_stays hs
  obtain ⟨n⟩ := a
  obtain ⟨k⟩ := b
  cases ha
  cases hb
  rw [meet_eq, if_neg (by simp)] at h
  obtain ⟨k, hk, -⟩ := Node.exists_of_bind_eq_ok h
  obtain ⟨u, hu, -⟩ := Node.exists_of_bind_eq_ok hk
  exact meet_control_ne_ok hz hu

/-- Where a meet exists, it is the total one. -/
theorem inf_of_meet {a b m : Ty} (h : meet a b = .ok m) : inf a b = m := by
  induction a, b using pair_induction generalizing m with
  | h a b ih =>
      have hstay := stays_eq_false_of_meet h
      have hstay' := stays_eq_false_of_meet (meet_comm a b ▸ h)
      rw [meet_eq] at h
      rw [inf_eq]
      by_cases hab : a = b
      · rw [if_pos hab] at h ⊢
        exact Except.ok.inj h
      · rw [if_neg hab] at h ⊢
        have hparts (u v : Ty) (huv : u.height + v.height < a.height + b.height) :
            (∀ w, meet u v = .ok w → inf u v = w) ∧ ∀ w, join u v = .ok w → sup u v = w := by
          refine ⟨fun w hw => ih u v huv hw, fun w hw => ?_⟩
          obtain ⟨c, hc, rfl⟩ := exists_of_join hw
          have hu := height_dual_le u
          have hv := height_dual_le v
          rw [sup, ih u.dual v.dual (by omega) hc]
        have hfits := (plan_fits_height a b).mono (fun _ h => h) hparts
        obtain ⟨hvalue, hne⟩ := Plan.value_of_run (by simp) h hfits
        rw [Plan.ofTotal_of_ne_clash hstay hstay' hne, hvalue]

theorem sup_of_join {a b m : Ty} (h : join a b = .ok m) : sup a b = m := by
  obtain ⟨c, hc, rfl⟩ := exists_of_join h
  rw [sup, inf_of_meet hc]

def Of (K : Kind → Prop) : Ty → Prop := Everywhere fun n => K n.kind

theorem of_build {K : Kind → Prop} {n : Node Ty} (hn : K n.kind) (ht : ∀ t ∈ n.children, t.Of K) :
    (build n).Of K := by
  cases n with
  | nullable h t =>
      simp only [build]
      split
      · exact ht t (List.mem_singleton_self t)
      · exact .mk hn ht
  | _ => exact .mk hn ht

theorem of_dual {K : Kind → Prop} {t : Ty} (h : t.Of K) : t.dual.Of K := by
  induction t with
  | mk n ih =>
      rw [dual_mk]
      apply of_build
      · rw [Node.kind_map, Node.kind_flip]
        exact h.layer
      · intro u hu
        rw [Node.children_map, Node.children_flip] at hu
        obtain ⟨v, hv, rfl⟩ := List.mem_map.1 hu
        exact ih v hv (h.parts v hv)

theorem operands_closed {Q : Ty → Prop} (hparts : ∀ t, Q t → ∀ u ∈ t.node.children, Q u) {a b : Ty}
    (ha : Q a) (hb : Q b) : Plan.Operands Q
      (fun u v => Q u ∧ Q v ∧ u.height + v.height < a.height + b.height) a a.node b b.node := by
  have h := operands_lt_height a b
  have ha' := hparts a ha
  have hb' := hparts b hb
  exact {
    left := ha
    right := hb
    leftParts := ha'
    rightParts := hb'
    leftWhole := fun v hv => ⟨ha, hb' v hv, h.leftWhole v hv⟩
    rightWhole := fun u hu => ⟨ha' u hu, hb, h.rightWhole u hu⟩
    parts := fun u hu v hv => ⟨ha' u hu, hb' v hv, h.parts u hu v hv⟩ }

theorem total_fits {Q : Ty → Prop} (hparts : ∀ t, Q t → ∀ u ∈ t.node.children, Q u) {a b : Ty}
    (ha : Q a) (hb : Q b) : (Plan.ofTotal a a.node b b.node).Fits Q
      (fun u v => Q u ∧ Q v ∧ u.height + v.height < a.height + b.height) :=
  Plan.fits_ofTotal (fun u v h => ⟨h.2.1, h.1, by omega⟩) (operands_closed hparts ha hb)

/-- A property of trees is kept by meets if it is kept by components, duals and built layers. -/
theorem inf_closed {Q : Ty → Prop} (hparts : ∀ t, Q t → ∀ u ∈ t.node.children, Q u)
    (hdual : ∀ t, Q t → Q t.dual)
    (hbuild : ∀ a b l, Q a → Q b → Plan.ofTotal a a.node b b.node = .build l → ∀ f : Piece Ty → Ty,
      (∀ u ∈ (l.map f).children, Q u) → Q (build (l.map f)))
    {a b : Ty} (ha : Q a) (hb : Q b) : Q (inf a b) := by
  induction a, b using pair_induction with
  | h a b ih =>
      rw [inf_eq]
      split
      · exact ha
      · have hfits := total_fits hparts ha hb
        cases hp : Plan.ofTotal a a.node b b.node with
        | clash u v => rw [hp] at hfits; exact hfits.1
        | keep u => rw [hp] at hfits; exact hfits
        | meet u v =>
            rw [hp] at hfits
            obtain ⟨hu, hv, hlt⟩ := hfits
            exact ih u v hlt hu hv
        | build l =>
            apply hbuild a b l ha hb hp
            intro w hw
            rw [Node.children_map] at hw
            obtain ⟨q, hq, rfl⟩ := List.mem_map.1 hw
            rw [hp] at hfits
            have hq := hfits q hq
            cases q with
            | keep u => exact hq
            | meet u v =>
                obtain ⟨hu, hv, hlt⟩ := hq
                exact ih u v hlt hu hv
            | join u v =>
                obtain ⟨hu, hv, hlt⟩ := hq
                have hu' := height_dual_le u
                have hv' := height_dual_le v
                exact hdual _ (ih u.dual v.dual (by omega) (hdual u hu) (hdual v hv))

theorem normal_inf {a b : Ty} (ha : a.Normal) (hb : b.Normal) : (inf a b).Normal := by
  apply inf_closed (fun _ h => Everywhere.parts h) (fun _ => normal_dual) ?_ ha hb
  intro a b l ha hb hp f hl
  have htidy := Plan.tidy_ofTotal (x := a) (y := b) ha.layer.tidy hb.layer.tidy
  rw [hp] at htidy
  exact normal_build ((Node.tidy_map f l).2 htidy) hl

theorem of_inf {K : Kind → Prop} (hscalar : K .scalar) (hoop : K .oop) {a b : Ty} (ha : a.Of K)
    (hb : b.Of K) : (inf a b).Of K := by
  apply inf_closed (fun _ h => Everywhere.parts h) (fun _ => of_dual) ?_ ha hb
  intro a b l ha hb hp f hl
  have hends := Plan.ends_ofTotal (x := a) (y := b) ha.layer hb.layer hscalar hoop
  rw [hp] at hends
  exact of_build (by rw [Node.kind_map]; exact hends) hl

theorem normal_sup {a b : Ty} (ha : a.Normal) (hb : b.Normal) : (sup a b).Normal :=
  normal_dual (normal_inf (normal_dual ha) (normal_dual hb))

theorem of_sup {K : Kind → Prop} (hscalar : K .scalar) (hoop : K .oop) {a b : Ty} (ha : a.Of K)
    (hb : b.Of K) : (sup a b).Of K :=
  of_dual (of_inf hscalar hoop (of_dual ha) (of_dual hb))

theorem kind_unname_of {K : Kind → Prop} {t : Ty} (h : t.Of K) : K t.unname.node.kind := by
  induction t using unname_induction with
  | bare t hname =>
      rw [unname_of_ne hname]
      exact h.layer
  | name l t ih =>
      rw [unname_name]
      exact ih (h.parts t (List.mem_singleton_self t))

theorem stays_eq_false_of_value {a b : Ty} (ha : a.Of (· ≠ .ctrl)) :
    Plan.stays a.node b.node = false := by
  apply Bool.eq_false_iff.2
  intro hs
  obtain ⟨i, z, hn, -, hz⟩ := Plan.exists_of_stays hs
  have hmem : z ∈ a.node.children := by
    rw [hn]
    exact List.mem_singleton_self z
  have hparts : z.Of (· ≠ .ctrl) := ha.parts z hmem
  exact kind_unname_of hparts hz

theorem meet_eq_ok {a b : Ty} (ha : a.Of (· ≠ .ctrl)) (hb : b.Of (· ≠ .ctrl)) :
    meet a b = .ok (inf a b) := by
  induction a, b using pair_induction with
  | h a b ih =>
      rw [meet_eq, inf_eq]
      split
      · rfl
      · have hne : ∀ u v, Plan.ofPair a a.node b b.node ≠ .clash u v := by
          have hclash {j k : Kind} (hj : j ≠ .ctrl) (hk : k ≠ .ctrl) : ¬j.Clashes k := by
            rintro (⟨h, -⟩ | ⟨h, -⟩)
            · exact hk h
            · exact hj h
          exact fun u v => Plan.ofPair_ne_clash (hclash ha.layer hb.layer) (hclash hb.layer ha.layer)
        have htotal := Plan.ofTotal_of_ne_clash (stays_eq_false_of_value ha)
          (stays_eq_false_of_value hb) hne
        rw [htotal]
        apply Plan.run_eq_ok hne
        have hfits := total_fits (fun _ h => Everywhere.parts h) ha hb
        rw [htotal] at hfits
        refine hfits.mono (fun _ _ => trivial) fun u v ⟨hu, hv, hlt⟩ => ⟨ih u v hlt hu hv, ?_⟩
        have hu' := height_dual_le u
        have hv' := height_dual_le v
        rw [join, ih u.dual v.dual (by omega) (of_dual hu) (of_dual hv)]
        rfl

theorem join_eq_ok {a b : Ty} (ha : a.Of (· ≠ .ctrl)) (hb : b.Of (· ≠ .ctrl)) :
    join a b = .ok (sup a b) := by
  rw [join, meet_eq_ok (of_dual ha) (of_dual hb)]
  rfl

end Ty

end TypeLattice
