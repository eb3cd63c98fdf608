import TypeLattice.Proofs.MeetRules

namespace TypeLattice

namespace Kind

def isWord : Kind → Bool
  | ctrl | int | flt | funPtr | func | rpc => true
  | _ => false

theorem ne_of_isWord {k : Kind} (h : k.isWord = true) :
    k.isCore = true ∧ k ≠ .scalar ∧ k ≠ .oop ∧ k.isPointer = false := by
  revert h
  cases k <;> decide

theorem ne_of_isPointer {k : Kind} (h : k.isPointer = true) : k.isCore = true ∧ k ≠ .scalar := by
  revert h
  cases k <;> decide

end Kind

namespace Node

variable {α : Type}

def arity : Node α → Nat
  | func _ ps _ => ps.length
  | tuple _ es => es.length
  | _ => 0

/-- Types of one shape have a meet of the same shape. -/
def shape (n : Node α) : Kind × Nat := (n.kind, n.arity)

/-- Two layers of one shape, the scalars and the pointers in general apart. -/
inductive Alike : Node α → Node α → Prop
  | ctrl (h k : Half) : Alike (.atom (.ctrl h)) (.atom (.ctrl k))
  | int (c d : Numeric IntWidth Int64) : Alike (.atom (.int c)) (.atom (.int d))
  | flt (c d : Numeric FltWidth Binary64) : Alike (.atom (.flt c)) (.atom (.flt d))
  | funPtr (h : Half) (s : OrdSet Nat) (k : Half) (t : OrdSet Nat) :
      Alike (.atom (.funPtr h s)) (.atom (.funPtr k t))
  | rpc (h : Half) (s : OrdSet Nat) (k : Half) (t : OrdSet Nat) :
      Alike (.atom (.rpc h s)) (.atom (.rpc k t))
  | func (h : Half) (ps : List α) (r : α) (k : Half) (qs : List α) (q : α)
      (length : ps.length = qs.length) : Alike (.func h ps r) (.func k qs q)
  | strs (h k : Half) : Alike (.atom (.str h)) (.atom (.str k))
  | strConst (h : Half) (v : String) : Alike (.atom (.str h)) (.atom (.strConst v))
  | constStr (u : String) (k : Half) : Alike (.atom (.strConst u)) (.atom (.str k))
  | consts (u v : String) : Alike (.atom (.strConst u)) (.atom (.strConst v))
  | struct (h : Half) (fs : List (String × α)) (k : Half) (gs : List (String × α)) :
      Alike (.struct h fs) (.struct k gs)
  | tuple (h : Half) (es : List α) (k : Half) (ds : List α) (length : es.length = ds.length) :
      Alike (.tuple h es) (.tuple k ds)

theorem alike_of_shape_eq {n k : Node α} (hcore : n.kind.isCore = true) (hscalar : n.kind ≠ .scalar)
    (hoop : n.kind ≠ .oop) (h : n.shape = k.shape) : Alike n k := by
  rw [shape, shape, Prod.mk.injEq] at h
  obtain ⟨hkind, harity⟩ := h
  cases n with
  | atom a =>
      cases k with
      | atom b =>
          cases a with
          | universal | nil => cases hcore
          | scalar => exact absurd rfl hscalar
          | oop => exact absurd rfl hoop
          | _ =>
              cases b <;> first | constructor | cases hkind
      | _ => cases a <;> cases hkind <;> cases hcore
  | nullable | name => cases hcore
  | func =>
      cases k with
      | atom b => cases b <;> cases hkind
      | func => exact .func _ _ _ _ _ _ harity
      | _ => cases hkind
  | struct =>
      cases k with
      | atom b => cases b <;> cases hkind
      | struct => constructor
      | _ => cases hkind
  | tuple =>
      cases k with
      | atom b => cases b <;> cases hkind
      | tuple => exact .tuple _ _ _ _ harity
      | _ => cases hkind

theorem alike_of_isWord {n k : Node α} (hn : n.kind.isWord = true) (h : n.shape = k.shape) :
    Alike n k := by
  obtain ⟨hcore, hscalar, hoop, -⟩ := Kind.ne_of_isWord hn
  exact alike_of_shape_eq hcore hscalar hoop h

theorem alike_of_isPointer {n k : Node α} (hn : n.kind.isPointer = true) (hoop : n.kind ≠ .oop)
    (h : n.shape = k.shape) : Alike n k := by
  obtain ⟨hcore, hscalar⟩ := Kind.ne_of_isPointer hn
  exact alike_of_shape_eq hcore hscalar hoop h

theorem lengths_of_arity_ne {n k : Node α} (hkind : n.kind = k.kind) (harity : n.arity ≠ k.arity) :
    (∃ h ps r j qs q, n = .func h ps r ∧ k = .func j qs q ∧ ps.length ≠ qs.length) ∨
      ∃ h es j ds, n = .tuple h es ∧ k = .tuple j ds ∧ es.length ≠ ds.length := by
  cases n with
  | func h ps r =>
      cases k with
      | atom b => cases b <;> cases hkind
      | func j qs q => exact .inl ⟨h, ps, r, j, qs, q, rfl, rfl, harity⟩
      | _ => cases hkind
  | tuple h es =>
      cases k with
      | atom b => cases b <;> cases hkind
      | tuple j ds => exact .inr ⟨h, es, j, ds, rfl, rfl, harity⟩
      | _ => cases hkind
  | atom a =>
      cases k with
      | func | tuple => cases a <;> cases hkind
      | _ => exact absurd rfl harity
  | _ =>
      cases k with
      | func | tuple => cases hkind
      | _ => exact absurd rfl harity

end Node

namespace Ty

variable {x y : Ty}

abbrev anyScalar : Ty := ofAtom (.scalar .top)

abbrev scalar : Ty := ofAtom (.scalar .bottom)

abbrev anyOop : Ty := ofAtom (.oop .top)

abbrev oop : Ty := ofAtom (.oop .bottom)

/-- Types of one shape meet in that shape, and the half of the meet is the meet of the halves. -/
theorem alike_inf (h : x.node.Alike y.node) (hn : x.Normal) :
    (inf x y).node.shape = x.node.shape ∧
      (inf x y).node.half = x.node.half.inf y.node.half := by
  obtain ⟨n⟩ := x
  obtain ⟨k⟩ := y
  cases h with
  | ctrl => rw [inf_ctrl]; exact ⟨rfl, rfl⟩
  | int c d => rw [inf_int]; exact ⟨rfl, Numeric.half_inf c d⟩
  | flt c d => rw [inf_flt]; exact ⟨rfl, Numeric.half_inf c d⟩
  | funPtr h s k t => rw [inf_funPtr]; exact ⟨rfl, by cases h <;> cases k <;> rfl⟩
  | rpc h s k t => rw [inf_rpc]; exact ⟨rfl, by cases h <;> cases k <;> rfl⟩
  | func h ps r k qs q hlen =>
      rw [inf_func fun p hp => hn.parts p (List.mem_append_left _ hp), if_pos hlen]
      refine ⟨?_, rfl⟩
      simp [Node.shape, Node.kind, Node.arity, node, hlen]
  | strs => rw [inf_str]; exact ⟨rfl, rfl⟩
  | strConst h v =>
      cases h with
      | top => rw [inf_anyStr_const]; exact ⟨rfl, rfl⟩
      | bottom => rw [inf_str_const]; exact ⟨rfl, rfl⟩
  | constStr u k =>
      rw [inf_comm]
      cases k with
      | top => rw [inf_anyStr_const]; exact ⟨rfl, rfl⟩
      | bottom => rw [inf_str_const]; exact ⟨rfl, rfl⟩
  | consts u v =>
      by_cases huv : u = v
      · rw [huv, inf_self]; exact ⟨rfl, rfl⟩
      · rw [inf_consts huv]; exact ⟨rfl, rfl⟩
  | struct h fs k gs => rw [inf_struct]; exact ⟨rfl, by cases h <;> cases k <;> rfl⟩
  | tuple h es k ds hlen =>
      rw [inf_tuple, if_pos hlen]
      refine ⟨?_, rfl⟩
      simp [Node.shape, Node.kind, Node.arity, node, hlen]

theorem core_cases (h : x.IsCore) :
    x = anyScalar ∨ x = scalar ∨ x.node.kind.isPointer = true ∨ x.node.kind.isWord = true := by
  obtain ⟨n⟩ := x
  cases n with
  | atom a =>
      cases a with
      | scalar i => cases i <;> simp
      | universal | nil => cases h
      | _ => exact .inr (.inr (by first | exact .inl rfl | exact .inr rfl))
  | nullable | name => cases h
  | _ => exact .inr (.inr (by first | exact .inl rfl | exact .inr rfl))

theorem inf_word_pointer (hx : x.node.kind.isWord = true) (hy : y.node.kind.isPointer = true) :
    inf x y = scalar := by
  obtain ⟨hxc, hxs, -, hxp⟩ := Kind.ne_of_isWord hx
  obtain ⟨hyc, hys⟩ := Kind.ne_of_isPointer hy
  refine inf_of_kind_ne hxc hyc hxs hys (fun h => ?_) (by rw [hxp, Bool.false_and])
  rw [h, hy] at hxp
  cases hxp

theorem inf_words_of_ne (hx : x.node.kind.isWord = true) (hy : y.node.kind.isWord = true)
    (hn : x.Normal) (h : x.node.shape ≠ y.node.shape) : inf x y = scalar := by
  obtain ⟨hxc, hxs, -, hxp⟩ := Kind.ne_of_isWord hx
  obtain ⟨hyc, hys, -, -⟩ := Kind.ne_of_isWord hy
  by_cases hk : x.node.kind = y.node.kind
  · have harity : x.node.arity ≠ y.node.arity := fun ha => h (Prod.ext hk ha)
    obtain ⟨n⟩ := x
    obtain ⟨k⟩ := y
    rcases Node.lengths_of_arity_ne hk harity with
      ⟨i, ps, r, j, qs, q, rfl, rfl, hlen⟩ | ⟨i, es, j, ds, rfl, rfl, hlen⟩
    · rw [inf_func fun p hp => hn.parts p (List.mem_append_left _ hp), if_neg hlen]
    · cases hx
  · exact inf_of_kind_ne hxc hyc hxs hys hk (by rw [hxp, Bool.false_and])

theorem inf_pointers_of_ne (hx : x.node.kind.isPointer = true) (hy : y.node.kind.isPointer = true)
    (hxo : x.node.kind ≠ .oop) (hyo : y.node.kind ≠ .oop) (h : x.node.shape ≠ y.node.shape) :
    inf x y = oop := by
  by_cases hk : x.node.kind = y.node.kind
  · have harity : x.node.arity ≠ y.node.arity := fun ha => h (Prod.ext hk ha)
    obtain ⟨n⟩ := x
    obtain ⟨k⟩ := y
    rcases Node.lengths_of_arity_ne hk harity with
      ⟨i, ps, r, j, qs, q, rfl, rfl, hlen⟩ | ⟨i, es, j, ds, rfl, rfl, hlen⟩
    · cases hx
    · rw [inf_tuple, if_neg hlen]
  · exact inf_of_pointers hx hy hxo hyo hk

theorem oop_cases (h : x.node.kind = .oop) : x = anyOop ∨ x = oop := by
  obtain ⟨n⟩ := x
  cases n with
  | atom a =>
      cases a with
      | oop i => cases i <;> simp
      | _ => cases h
  | _ => cases h

theorem inf_word_word (hx : x.node.kind.isWord = true) (hy : y.node.kind.isWord = true)
    (hn : x.Normal) : inf x y = scalar ∨
      (inf x y).node.kind.isWord = true ∧ (inf x y).node.half = x.node.half.inf y.node.half := by
  by_cases h : x.node.shape = y.node.shape
  · obtain ⟨hshape, hhalf⟩ := alike_inf (Node.alike_of_isWord hx h) hn
    have hkind : (inf x y).node.kind = x.node.kind := congrArg Prod.fst hshape
    exact .inr ⟨by rw [hkind, hx], hhalf⟩
  · exact .inl (inf_words_of_ne hx hy hn h)

theorem isPointer_inf (hx : x.node.kind.isPointer = true) (hy : y.node.kind.isPointer = true)
    (hn : x.Normal) : (inf x y).node.kind.isPointer = true := by
  by_cases hxo : x.node.kind = .oop
  · rcases oop_cases hxo with rfl | rfl
    · rw [inf_anyOop hy, hy]
    · rw [inf_oop hy]
      rfl
  · by_cases hyo : y.node.kind = .oop
    · rw [inf_comm]
      rcases oop_cases hyo with rfl | rfl
      · rw [inf_anyOop hx, hx]
      · rw [inf_oop hx]
        rfl
    · by_cases h : x.node.shape = y.node.shape
      · obtain ⟨hshape, -⟩ := alike_inf (Node.alike_of_isPointer hx hxo h) hn
        have hkind : (inf x y).node.kind = x.node.kind := congrArg Prod.fst hshape
        rw [hkind, hx]
      · rw [inf_pointers_of_ne hx hy hxo hyo h]
        rfl

theorem isCore_inf (hx : x.IsCore) (hy : y.IsCore) (hn : x.Normal) : (inf x y).IsCore := by
  rcases core_cases hx with rfl | rfl | hxp | hxw
  · rw [inf_anyScalar hy]; exact hy
  · rw [inf_scalar hy]; exact hx
  · rcases core_cases hy with rfl | rfl | hyp | hyw
    · rw [inf_comm, inf_anyScalar hx]; exact hx
    · rw [inf_comm, inf_scalar hx]; exact hy
    · exact (Kind.ne_of_isPointer (isPointer_inf hxp hyp hn)).1
    · rw [inf_comm, inf_word_pointer hyw hxp]; rfl
  · rcases core_cases hy with rfl | rfl | hyp | hyw
    · rw [inf_comm, inf_anyScalar hx]; exact hx
    · rw [inf_comm, inf_scalar hx]; exact hy
    · rw [inf_word_pointer hxw hyp]; rfl
    · rcases inf_word_word hxw hyw hn with h | ⟨h, -⟩
      · rw [h]; rfl
      · exact (Kind.ne_of_isWord h).1

end Ty

end TypeLattice
