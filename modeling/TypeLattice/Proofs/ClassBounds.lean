import TypeLattice.Proofs.ShapeClasses

namespace TypeLattice.Ty

variable {γ : Type} {top bot : Ty} {P : Ty → Prop} {cls : Ty → γ} {x y z : Ty}

/-- Types in classes that have only two bounds in common. -/
structure Bounded (top bot : Ty) (P : Ty → Prop) (cls : Ty → γ) : Prop where
  normal : ∀ {x}, P x → x.Normal
  dual : ∀ {x}, P x → P x.dual ∧ cls x.dual = cls x
  dual_top : top.dual = bot
  dual_bot : bot.dual = top
  top_bot : inf top bot = bot
  top_inf : ∀ {x}, P x → inf top x = x
  bot_inf : ∀ {x}, P x → inf bot x = bot
  inf_ne : ∀ {x y}, P x → P y → cls x ≠ cls y → inf x y = bot
  inf_same : ∀ {x y}, P x → P y → cls x = cls y → P (inf x y) ∧ cls (inf x y) = cls x

inductive Within (top bot : Ty) (P : Ty → Prop) : Ty → Prop
  | top : Within top bot P top
  | bot : Within top bot P bot
  | mem {x : Ty} (h : P x) : Within top bot P x

def Assoc (x y z : Ty) : Prop := inf (inf x y) z = inf x (inf y z)

def Absorbs (x y : Ty) : Prop := inf x (sup x y) = x

namespace Bounded

variable (h : Bounded top bot P cls)

include h

theorem inf_top (hx : Within top bot P x) : inf x top = x := by
  rw [inf_comm]
  cases hx with
  | top => exact inf_self top
  | bot => exact h.top_bot
  | mem hx => exact h.top_inf hx

theorem inf_bot (hx : Within top bot P x) : inf x bot = bot := by
  cases hx with
  | top => exact h.top_bot
  | bot => exact inf_self bot
  | mem hx => rw [inf_comm, h.bot_inf hx]

theorem within_inf (hx : Within top bot P x) (hy : Within top bot P y) :
    Within top bot P (inf x y) := by
  cases hx with
  | top => rwa [inf_comm, h.inf_top hy]
  | bot => rw [inf_comm, h.inf_bot hy]; exact .bot
  | mem hx =>
      cases hy with
      | top => rw [h.inf_top (.mem hx)]; exact .mem hx
      | bot => rw [h.inf_bot (.mem hx)]; exact .bot
      | mem hy =>
          by_cases hc : cls x = cls y
          · exact .mem (h.inf_same hx hy hc).1
          · rw [h.inf_ne hx hy hc]; exact .bot

theorem assoc (hx : Within top bot P x) (hy : Within top bot P y) (hz : Within top bot P z)
    (hsame : P x → P y → P z → cls x = cls y → cls y = cls z → Assoc x y z) : Assoc x y z := by
  rw [Assoc]
  cases hx with
  | top => rw [inf_comm top, h.inf_top hy, inf_comm top, h.inf_top (h.within_inf hy hz)]
  | bot =>
      rw [inf_comm bot, h.inf_bot hy, inf_comm bot, h.inf_bot hz, inf_comm bot,
        h.inf_bot (h.within_inf hy hz)]
  | mem hx =>
      cases hy with
      | top => rw [h.inf_top (.mem hx), inf_comm top, h.inf_top hz]
      | bot => rw [h.inf_bot (.mem hx), inf_comm bot, h.inf_bot hz, h.inf_bot (.mem hx)]
      | mem hy =>
          cases hz with
          | top => rw [h.inf_top (.mem hy), h.inf_top (h.within_inf (.mem hx) (.mem hy))]
          | bot =>
              rw [h.inf_bot (.mem hy), h.inf_bot (.mem hx),
                h.inf_bot (h.within_inf (.mem hx) (.mem hy))]
          | mem hz =>
              by_cases hxy : cls x = cls y
              · by_cases hyz : cls y = cls z
                · exact hsame hx hy hz hxy hyz
                · obtain ⟨hp, hcls⟩ := h.inf_same hx hy hxy
                  rw [h.inf_ne hp hz (hcls ▸ hxy ▸ hyz), h.inf_ne hy hz hyz, h.inf_bot (.mem hx)]
              · rw [h.inf_ne hx hy hxy, inf_comm bot, h.inf_bot (.mem hz)]
                by_cases hyz : cls y = cls z
                · obtain ⟨hp, hcls⟩ := h.inf_same hy hz hyz
                  rw [h.inf_ne hx hp (hcls ▸ hxy)]
                · rw [h.inf_ne hy hz hyz, h.inf_bot (.mem hx)]

theorem absorbs (hx : Within top bot P x) (hy : Within top bot P y)
    (hsame : P x → P y → cls x = cls y → Absorbs x y) : Absorbs x y := by
  have hdual {t : Ty} (ht : Within top bot P t) : Within top bot P t.dual ∧ t.dual.dual = t := by
    cases ht with
    | top => rw [h.dual_top, h.dual_bot]; exact ⟨.bot, rfl⟩
    | bot => rw [h.dual_bot, h.dual_top]; exact ⟨.top, rfl⟩
    | mem ht => exact ⟨.mem (h.dual ht).1, dual_dual (h.normal ht)⟩
  have htop {t : Ty} (ht : Within top bot P t) : sup t top = top := by
    rw [sup, h.dual_top, h.inf_bot (hdual ht).1, h.dual_bot]
  have hbot {t : Ty} (ht : Within top bot P t) : sup t bot = t := by
    rw [sup, h.dual_bot, h.inf_top (hdual ht).1, (hdual ht).2]
  rw [Absorbs]
  cases hx with
  | top => rw [sup_comm, htop hy, inf_self]
  | bot => rw [sup_comm, hbot hy, inf_comm, h.inf_bot hy]
  | mem hx =>
      cases hy with
      | top => rw [htop (.mem hx), h.inf_top (.mem hx)]
      | bot => rw [hbot (.mem hx), inf_self]
      | mem hy =>
          by_cases hc : cls x = cls y
          · exact hsame hx hy hc
          · obtain ⟨hpx, hcx⟩ := h.dual hx
            obtain ⟨hpy, hcy⟩ := h.dual hy
            rw [sup, h.inf_ne hpx hpy (by rwa [hcx, hcy]), h.dual_bot, h.inf_top (.mem hx)]

end Bounded

theorem bounded_strings : Bounded (ofAtom (.str .top)) (ofAtom (.str .bottom))
    (fun x => ∃ v, x = ofAtom (.strConst v)) id where
  normal := by
    rintro _ ⟨v, rfl⟩
    exact .mk trivial nofun
  dual := by
    rintro _ ⟨v, rfl⟩
    exact ⟨⟨v, rfl⟩, rfl⟩
  dual_top := rfl
  dual_bot := rfl
  top_bot := inf_str .top .bottom
  top_inf := by
    rintro _ ⟨v, rfl⟩
    exact inf_anyStr_const v
  bot_inf := by
    rintro _ ⟨v, rfl⟩
    exact inf_str_const v
  inf_ne := by
    rintro _ _ ⟨u, rfl⟩ ⟨v, rfl⟩ hne
    apply inf_consts
    rintro rfl
    exact hne rfl
  inf_same := by
    rintro x _ hx hy rfl
    rw [id, inf_self]
    exact ⟨hx, rfl⟩

theorem within_strings (hx : x.node.kind = .str) : Within (ofAtom (.str .top))
    (ofAtom (.str .bottom)) (fun x => ∃ v, x = ofAtom (.strConst v)) x := by
  obtain ⟨n⟩ := x
  cases n with
  | atom a =>
      cases a with
      | str i =>
          cases i with
          | top => exact .top
          | bottom => exact .bot
      | strConst v => exact .mem ⟨v, rfl⟩
      | _ => cases hx
  | _ => cases hx

theorem shape_dual (hx : x.Normal) : x.dual.node.shape = x.node.shape := by
  rw [dual_of_normal hx]
  cases hn : x.node <;> simp [Node.shape, Node.kind, Node.arity, Node.flip, Node.map, node]

theorem bounded_pointers : Bounded anyOop oop
    (fun x => x.Normal ∧ x.node.kind.isPointer = true ∧ x.node.kind ≠ .oop)
    (fun x => x.node.shape) where
  normal hx := hx.1
  dual hx := ⟨⟨normal_dual hx.1, by rw [kind_dual hx.1]; exact hx.2⟩, shape_dual hx.1⟩
  dual_top := rfl
  dual_bot := rfl
  top_bot := inf_anyOop rfl
  top_inf hx := inf_anyOop hx.2.1
  bot_inf hx := inf_oop hx.2.1
  inf_ne hx hy hne := inf_pointers_of_ne hx.2.1 hy.2.1 hx.2.2 hy.2.2 hne
  inf_same := by
    intro x y hx hy hshape
    obtain ⟨hinf, -⟩ := alike_inf (Node.alike_of_isPointer hx.2.1 hx.2.2 hshape) hx.1
    have hkind : (inf x y).node.kind = x.node.kind := congrArg Prod.fst hinf
    refine ⟨⟨normal_inf hx.1 hy.1, ?_⟩, hinf⟩
    rw [hkind]
    exact hx.2

theorem within_pointers (hn : x.Normal) (hx : x.node.kind.isPointer = true) : Within anyOop oop
    (fun x => x.Normal ∧ x.node.kind.isPointer = true ∧ x.node.kind ≠ .oop) x := by
  by_cases hoop : x.node.kind = .oop
  · rcases oop_cases hoop with rfl | rfl
    · exact .top
    · exact .bot
  · exact .mem ⟨hn, hx, hoop⟩

def coreClass (x : Ty) : Option (Kind × Nat) :=
  if x.node.kind.isPointer then none else some x.node.shape

theorem coreClass_pointer (hx : x.node.kind.isPointer = true) : coreClass x = none := if_pos hx

theorem coreClass_word (hx : x.node.kind.isWord = true) : coreClass x = some x.node.shape := by
  rw [coreClass, (Kind.ne_of_isWord hx).2.2.2]
  rfl

theorem cases_of_coreClass_eq (hx : x.node.kind.isPointer = true ∨ x.node.kind.isWord = true)
    (hy : y.node.kind.isPointer = true ∨ y.node.kind.isWord = true)
    (h : coreClass x = coreClass y) :
    (x.node.kind.isPointer = true ∧ y.node.kind.isPointer = true) ∨
      x.node.kind.isWord = true ∧ y.node.kind.isWord = true ∧ x.node.shape = y.node.shape := by
  rcases hx with hx | hx <;> rcases hy with hy | hy
  · exact .inl ⟨hx, hy⟩
  · rw [coreClass_pointer hx, coreClass_word hy] at h
    cases h
  · rw [coreClass_word hx, coreClass_pointer hy] at h
    cases h
  · rw [coreClass_word hx, coreClass_word hy] at h
    exact .inr ⟨hx, hy, Option.some.inj h⟩

theorem bounded_cores : Bounded anyScalar scalar
    (fun x => x.Normal ∧ (x.node.kind.isPointer = true ∨ x.node.kind.isWord = true))
    coreClass where
  normal hx := hx.1
  dual := by
    intro x hx
    rw [coreClass, coreClass, kind_dual hx.1, shape_dual hx.1]
    exact ⟨⟨normal_dual hx.1, hx.2⟩, rfl⟩
  dual_top := rfl
  dual_bot := rfl
  top_bot := inf_anyScalar rfl
  top_inf := by
    rintro x ⟨-, hp | hw⟩
    · exact inf_anyScalar (Kind.ne_of_isPointer hp).1
    · exact inf_anyScalar (Kind.ne_of_isWord hw).1
  bot_inf := by
    rintro x ⟨-, hp | hw⟩
    · exact inf_scalar (Kind.ne_of_isPointer hp).1
    · exact inf_scalar (Kind.ne_of_isWord hw).1
  inf_ne := by
    rintro x y ⟨hn, hxp | hxw⟩ ⟨-, hyp | hyw⟩ hne
    · rw [coreClass_pointer hxp, coreClass_pointer hyp] at hne
      exact absurd rfl hne
    · rw [inf_comm, inf_word_pointer hyw hxp]
    · exact inf_word_pointer hxw hyp
    · apply inf_words_of_ne hxw hyw hn
      intro hshape
      apply hne
      rw [coreClass_word hxw, coreClass_word hyw, hshape]
  inf_same := by
    intro x y ⟨hn, hx⟩ ⟨hm, hy⟩ heq
    rcases cases_of_coreClass_eq hx hy heq with ⟨hxp, hyp⟩ | ⟨hxw, -, hshape⟩
    · have hp := isPointer_inf hxp hyp hn
      rw [coreClass_pointer hp, coreClass_pointer hxp]
      exact ⟨⟨normal_inf hn hm, .inl hp⟩, rfl⟩
    · obtain ⟨hinf, -⟩ := alike_inf (Node.alike_of_isWord hxw hshape) hn
      have hkind : (inf x y).node.kind = x.node.kind := congrArg Prod.fst hinf
      refine ⟨⟨normal_inf hn hm, .inr (hkind ▸ hxw)⟩, ?_⟩
      rw [coreClass, coreClass, hkind, hinf]

theorem within_cores (hn : x.Normal) (hx : x.IsCore) : Within anyScalar scalar
    (fun x => x.Normal ∧ (x.node.kind.isPointer = true ∨ x.node.kind.isWord = true)) x := by
  rcases core_cases hx with rfl | rfl | h
  · exact .top
  · exact .bot
  · exact .mem ⟨hn, h⟩

end TypeLattice.Ty
