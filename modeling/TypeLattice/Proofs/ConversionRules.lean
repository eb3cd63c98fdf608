import Mathlib.Data.List.Forall2
import TypeLattice.Proofs.Simulation
import TypeLattice.Ty.Lattice

namespace TypeLattice

theorem Verdict.rank_freeIf_le {p : Bool} {r : Nat} (hr : r ≤ 1) :
    (freeIf p).rank ≤ r ↔ p = true := by
  cases p
  · simp only [freeIf, Bool.false_eq_true, if_false, rank, iff_false]
    omega
  · simp only [freeIf, if_true, rank, Nat.zero_le]

theorem Fields.find?_map {α β : Type} (f : α → β) (l : String) (fs : List (String × α)) :
    find? (fs.map fun p => (p.1, f p.2)) l = (find? fs l).map f := by
  rw [find?, Ascending.find?_map, find?, Option.map_map, Option.map_map]
  rfl

theorem Fields.mem_of_find? {α : Type} {l : String} {fs : List (String × α)} {x : α}
    (h : find? fs l = some x) : (l, x) ∈ fs := by
  obtain ⟨f, hf, rfl⟩ := Option.map_eq_some_iff.1 h
  obtain ⟨hmem, hl⟩ := Ascending.mem_of_find? hf
  rwa [← Std.LawfulEqCmp.eq_of_compare hl]

/-- The components that a conversion may come to. Functions are compared as a whole. -/
def Node.openParts {α : Type} : Node α → List α
  | .func _ _ _ => []
  | n => n.children

theorem Node.openParts_subset {α : Type} (n : Node α) : n.openParts ⊆ n.children := by
  cases n with
  | func => exact List.nil_subset _
  | _ => exact List.Subset.refl _

theorem Node.openParts_map {α β : Type} (f : α → β) (n : Node α) :
    (n.map f).openParts = n.openParts.map f := by
  cases n <;> simp [map, openParts, children]

namespace Inquiry

variable {α β : Type}

def map (f : α → β) : Inquiry α → Inquiry β
  | settled v => settled v
  | through x y => through (f x) (f y)
  | worstOf ps => worstOf (ps.map fun p => (p.1.map f, f p.2))

def Asks (R : α → α → Prop) : Inquiry α → Prop
  | settled _ => True
  | through x y => R x y
  | worstOf ps => ∀ p ∈ ps, ∀ x, p.1 = some x → R x p.2

theorem Asks.mono {R R' : α → α → Prop} {q : Inquiry α} (h : q.Asks R)
    (hR : ∀ x y, R x y → R' x y) : q.Asks R' := by
  cases q with
  | settled => trivial
  | through => exact hR _ _ h
  | worstOf => exact fun p hp x hx => hR _ _ (h p hp x hx)

theorem Asks.and {R R' : α → α → Prop} {q : Inquiry α} (h : q.Asks R) (h' : q.Asks R') :
    q.Asks fun x y => R x y ∧ R' x y := by
  cases q with
  | settled => trivial
  | through => exact ⟨h, h'⟩
  | worstOf => exact fun p hp x hx => ⟨h p hp x hx, h' p hp x hx⟩

theorem foldl_worst_congr {γ : Type} {ps : List γ} {f g : γ → Verdict} (h : ∀ p ∈ ps, f p = g p)
    (v : Verdict) :
    ps.foldl (fun v p => v.worst (f p)) v = ps.foldl (fun v p => v.worst (g p)) v := by
  induction ps generalizing v with
  | nil => rfl
  | cons p ps ih =>
      rw [List.forall_mem_cons] at h
      rw [List.foldl_cons, List.foldl_cons, h.1, ih h.2]

theorem answer_congr {c c' : α → α → Verdict} {q : Inquiry α}
    (h : q.Asks fun x y => c x y = c' x y) : q.answer c = q.answer c' := by
  cases q with
  | settled => rfl
  | through => exact h
  | worstOf ps =>
      apply foldl_worst_congr
      intro p hp
      cases hx : p.1 with
      | none => rfl
      | some x => exact h p hp x hx

theorem answer_map (f : α → β) (c : β → β → Verdict) (q : Inquiry α) :
    (q.map f).answer c = q.answer fun x y => c (f x) (f y) := by
  cases q with
  | settled | through => rfl
  | worstOf ps =>
      rw [map, answer, List.foldl_map]
      apply foldl_worst_congr
      intro p _
      cases p.1 <;> rfl

theorem map_toNil (f : α → β) (x : α) (n : Node α) (t : Option α) :
    (toNil x n t).map f = toNil (f x) (n.map f) (t.map f) := by
  cases n with
  | atom a => cases a <;> cases t <;> rfl
  | _ => cases t <;> rfl

theorem toAtom_map (f : α → β) (n : Node α) (a : Atom) : toAtom (n.map f) a = toAtom n a := by
  cases n with
  | atom b => cases b <;> cases a <;> rfl
  | _ => cases a <;> rfl

def toTarget (x : α) (n : Node α) : Node α → Inquiry α
  | .atom .nil => toNil x n none
  | .nullable _ y => toNil x n (some y)
  | .atom a => settled (toAtom n a)
  | .struct _ gs => toStruct gs n
  | .tuple _ ds => toTuple ds n
  | .func _ _ _ | .name _ _ => settled .incompatible

theorem ofNodes_eq (x : α) (n k : Node α) : ofNodes x n k =
    if n.kind = .universal ∨ n.kind = .ctrl then settled .incompatible else toTarget x n k := by
  cases n with
  | atom a =>
      cases a with
      | universal | ctrl => rfl
      | _ =>
          cases k with
          | atom b => cases b <;> rfl
          | _ => rfl
  | _ =>
      cases k with
      | atom b => cases b <;> rfl
      | _ => rfl

theorem map_toTarget (f : α → β) (x : α) (n k : Node α) :
    (toTarget x n k).map f = toTarget (f x) (n.map f) (k.map f) := by
  cases k with
  | atom a =>
      cases a with
      | nil => exact map_toNil f x n none
      | _ => exact congrArg settled (toAtom_map f n _).symm
  | nullable i y => exact map_toNil f x n (some y)
  | func | name => rfl
  | struct i gs =>
      cases n with
      | atom a => cases a <;> rfl
      | struct j fs =>
          simp only [toTarget, Node.map, toStruct, map, List.map_map, Function.comp_def,
            Fields.find?_map]
      | _ => rfl
  | tuple i ds =>
      cases n with
      | atom a => cases a <;> rfl
      | tuple j es =>
          simp only [toTarget, Node.map, toTuple, List.length_map]
          split
          · simp only [map, List.map_zipWith, List.zipWith_map, Option.map_some]
          · rfl
      | _ => rfl

theorem map_ofNodes (f : α → β) (x : α) (n k : Node α) :
    (ofNodes x n k).map f = ofNodes (f x) (n.map f) (k.map f) := by
  rw [ofNodes_eq, ofNodes_eq, Node.kind_map]
  split
  · rfl
  · exact map_toTarget f x n k

theorem asks_toNil {R : α → α → Prop} {x y : α} {n : Node α} (hwhole : R x y)
    (hparts : ∀ u ∈ n.openParts, R u y) : (toNil x n (some y)).Asks R := by
  cases n with
  | atom a =>
      cases a with
      | nil => trivial
      | _ => exact hwhole
  | nullable i z => exact hparts z (List.mem_singleton_self z)
  | _ => exact hwhole

theorem asks_ofNodes {R : α → α → Prop} {x : α} {n k : Node α} (hwhole : ∀ y ∈ k.openParts, R x y)
    (hparts : ∀ u ∈ n.openParts, ∀ v ∈ k.openParts, R u v) : (ofNodes x n k).Asks R := by
  rw [ofNodes_eq]
  split
  · trivial
  · cases k with
    | atom a =>
        cases a with
        | nil =>
            cases n with
            | atom b => cases b <;> trivial
            | _ => trivial
        | _ => trivial
    | nullable i y =>
        have hy : y ∈ (Node.nullable i y).openParts := List.mem_singleton_self y
        exact asks_toNil (hwhole y hy) fun u hu => hparts u hu y hy
    | func | name => trivial
    | struct i gs =>
        cases n with
        | atom a => cases a <;> trivial
        | struct j fs =>
            intro p hp u hu
            obtain ⟨g, hg, rfl⟩ := List.mem_map.1 hp
            exact hparts u (List.mem_map_of_mem (Fields.mem_of_find? hu)) g.2 (List.mem_map_of_mem hg)
        | _ => trivial
    | tuple i ds =>
        cases n with
        | atom a => cases a <;> trivial
        | tuple j es =>
            simp only [toTarget, toTuple]
            split
            · intro p hp u hu
              obtain ⟨v, hv, w, hw, rfl⟩ := Plan.exists_of_mem_zipWith hp
              cases hu
              exact hparts u hv w hw
            · trivial
        | _ => trivial

def Grants (r : Nat) (R : α → α → Prop) : Inquiry α → Prop
  | settled v => v.rank ≤ r
  | through x y => R x y
  | worstOf ps => ∀ p ∈ ps, ∃ x, p.1 = some x ∧ R x p.2

theorem rank_foldl_worst_le {γ : Type} {r : Nat} {f : γ → Verdict} {ps : List γ} {v : Verdict} :
    (ps.foldl (fun u p => u.worst (f p)) v).rank ≤ r ↔ v.rank ≤ r ∧ ∀ p ∈ ps, (f p).rank ≤ r := by
  induction ps generalizing v with
  | nil => simp
  | cons p ps ih =>
      rw [List.foldl_cons, ih, Verdict.rank_worst, Nat.max_le, List.forall_mem_cons, and_assoc]

theorem rank_answer_le {r : Nat} (hr : r ≤ 1) {c : α → α → Verdict} {q : Inquiry α} :
    (q.answer c).rank ≤ r ↔ q.Grants r fun x y => (c x y).rank ≤ r := by
  cases q with
  | settled | through => rfl
  | worstOf ps =>
      rw [answer, rank_foldl_worst_le, Grants]
      refine (and_iff_right (Nat.zero_le r)).trans (forall₂_congr fun p _ => ?_)
      cases p.1 with
      | none =>
          simp only [Option.elim_none, Verdict.rank, reduceCtorEq, false_and, exists_false, iff_false]
          omega
      | some x => simp

/-- What the outer layers must be for a conversion that is no worse than the rank: free, or
changing bits where the rank allows it. -/
inductive Rule (r : Nat) (R : α → α → Prop) (source : α) : Node α → Node α → Prop
  | scalar {n : Node α} {h : Half} (hu : n.kind ≠ .universal) (hc : n.kind ≠ .ctrl) :
      Rule r R source n (.atom (.scalar h))
  | ints {a : Numeric IntWidth Int64} {h : Half} {w : IntWidth} (hw : a.width ≤ w) :
      Rule r R source (.atom (.int a)) (.atom (.int (.range h w)))
  | intToFlt {a : Numeric IntWidth Int64} {h : Half} {w : FltWidth} (hr : 1 ≤ r)
      (hw : a.isExactAt w = true) : Rule r R source (.atom (.int a)) (.atom (.flt (.range h w)))
  | fltConst {c : Binary64} {h : Half} {w : FltWidth} (hw : FltWidth.ofConst c ≤ w) :
      Rule r R source (.atom (.flt (.const c))) (.atom (.flt (.range h w)))
  | flts {i h : Half} {v w : FltWidth} (hw : v = w ∨ 1 ≤ r ∧ v ≤ w) :
      Rule r R source (.atom (.flt (.range i v))) (.atom (.flt (.range h w)))
  | funPtr {i h : Half} {s t : OrdSet Nat} (hst : s.isSubset t = true) :
      Rule r R source (.atom (.funPtr i s)) (.atom (.funPtr h t))
  | rpc {i h : Half} {s t : OrdSet Nat} (hst : s.isSubset t = true) :
      Rule r R source (.atom (.rpc i s)) (.atom (.rpc h t))
  | nilToPointer {k : Node α} (hk : k.kind.isPointer = true) : Rule r R source (.atom .nil) k
  | nilToNullable {h : Half} {y : α} : Rule r R source (.atom .nil) (.nullable h y)
  | nullables {i h : Half} {x y : α} (hxy : R x y) :
      Rule r R source (.nullable i x) (.nullable h y)
  | toNullable {n : Node α} {h : Half} {y : α} (hu : n.kind ≠ .universal) (hc : n.kind ≠ .ctrl)
      (hn : n.kind ≠ .nil) (hy : R source y) : Rule r R source n (.nullable h y)
  | oop {n : Node α} {h : Half} (hn : n.kind.isPointer = true) :
      Rule r R source n (.atom (.oop h))
  | str {n : Node α} {h : Half} (hn : n.kind = .str) : Rule r R source n (.atom (.str h))
  | struct {i h : Half} {fs gs : List (String × α)}
      (hfields : ∀ g ∈ gs, ∃ x, Fields.find? fs g.1 = some x ∧ R x g.2) :
      Rule r R source (.struct i fs) (.struct h gs)
  | tuple {i h : Half} {es ds : List α} (hparts : List.Forall₂ R es ds) :
      Rule r R source (.tuple i es) (.tuple h ds)

section rule

variable {r : Nat} {R : α → α → Prop} {x : α} {n k : Node α}

theorem forall₂_of_zipWith {es ds : List α} (hlen : es.length = ds.length)
    (h : ∀ p ∈ es.zipWith (fun u v => (some u, v)) ds, ∃ u, p.1 = some u ∧ R u p.2) :
    List.Forall₂ R es ds := by
  rw [List.forall₂_iff_zip]
  refine ⟨hlen, fun {u v} huv => ?_⟩
  obtain ⟨w, hw, hR⟩ := h (some u, v) (by
    rw [← List.map_uncurry_zip_eq_zipWith]
    exact List.mem_map_of_mem huv)
  cases hw
  exact hR

theorem not_rank_incompatible_le (hr : r ≤ 1) : ¬Verdict.incompatible.rank ≤ r := by
  change ¬3 ≤ r
  omega

theorem rule_of_toAtom (hr : r ≤ 1) {b : Atom} (hu : n.kind ≠ .universal) (hc : n.kind ≠ .ctrl)
    (hnil : b ≠ .nil) (h : (toAtom n b).rank ≤ r) : Rule r R x n (.atom b) := by
  have hno {P : Prop} (h : Verdict.incompatible.rank ≤ r) : P :=
    absurd h (not_rank_incompatible_le hr)
  cases b with
  | universal | ctrl => exact hno h
  | nil => exact absurd rfl hnil
  | scalar => exact .scalar hu hc
  | int b =>
      cases n with
      | atom a =>
          cases a with
          | int a =>
              have hw := (Verdict.rank_freeIf_le hr).1 h
              cases b with
              | const => cases hw
              | range => exact .ints (of_decide_eq_true hw)
          | _ => exact hno h
      | _ => exact hno h
  | flt b =>
      cases b with
      | const =>
          cases n with
          | atom a =>
              cases a with
              | flt a => cases a <;> exact hno h
              | _ => exact hno h
          | _ => exact hno h
      | range i w =>
          cases n with
          | atom a =>
              cases a with
              | int a =>
                  simp only [toAtom, ofIntToFlt] at h
                  split at h
                  · next hw => exact .intToFlt h hw
                  · exact hno h
              | flt a =>
                  cases a with
                  | const => exact .fltConst (of_decide_eq_true ((Verdict.rank_freeIf_le hr).1 h))
                  | range j v =>
                      simp only [toAtom, ofFlts] at h
                      split at h
                      · next hw => exact .flts (.inl hw)
                      · split at h
                        · next hw => exact .flts (.inr ⟨h, hw⟩)
                        · exact hno h
              | _ => exact hno h
          | _ => exact hno h
  | funPtr =>
      cases n with
      | atom a =>
          cases a with
          | funPtr => exact .funPtr ((Verdict.rank_freeIf_le hr).1 h)
          | _ => exact hno h
      | _ => exact hno h
  | rpc =>
      cases n with
      | atom a =>
          cases a with
          | rpc => exact .rpc ((Verdict.rank_freeIf_le hr).1 h)
          | _ => exact hno h
      | _ => exact hno h
  | oop =>
      cases n with
      | atom a =>
          cases a with
          | nil => exact .nilToPointer rfl
          | _ => exact .oop ((Verdict.rank_freeIf_le hr).1 h)
      | _ => exact .oop ((Verdict.rank_freeIf_le hr).1 h)
  | str =>
      cases n with
      | atom a =>
          cases a with
          | nil => exact .nilToPointer rfl
          | _ => exact .str (of_decide_eq_true ((Verdict.rank_freeIf_le hr).1 h))
      | _ => exact .str (of_decide_eq_true ((Verdict.rank_freeIf_le hr).1 h))
  | strConst =>
      cases n with
      | atom a =>
          cases a with
          | nil => exact .nilToPointer rfl
          | _ => exact hno h
      | _ => exact hno h

theorem rule_of_grants (hr : r ≤ 1) (hne : n ≠ k) (h : (ofNodes x n k).Grants r R) :
    Rule r R x n k := by
  have hno {P : Prop} (h : Verdict.incompatible.rank ≤ r) : P :=
    absurd h (not_rank_incompatible_le hr)
  rw [ofNodes_eq] at h
  split at h
  · exact hno h
  · next hvalue =>
      obtain ⟨hu, hc⟩ := not_or.1 hvalue
      cases k with
      | atom b =>
          cases b with
          | nil =>
              cases n with
              | atom a =>
                  cases a with
                  | nil => exact absurd rfl hne
                  | _ => exact hno h
              | _ => exact hno h
          | _ => exact rule_of_toAtom hr hu hc nofun h
      | nullable i y =>
          cases n with
          | atom a =>
              cases a with
              | nil => exact .nilToNullable
              | universal => exact absurd rfl hu
              | ctrl => exact absurd rfl hc
              | _ => exact .toNullable nofun nofun nofun h
          | nullable => exact .nullables h
          | _ => exact .toNullable nofun nofun nofun h
      | func | name => exact hno h
      | struct i gs =>
          cases n with
          | atom a =>
              cases a with
              | nil => exact .nilToPointer rfl
              | _ => exact hno h
          | struct j fs => exact .struct fun g hg => h _ (List.mem_map_of_mem hg)
          | _ => exact hno h
      | tuple i ds =>
          cases n with
          | atom a =>
              cases a with
              | nil => exact .nilToPointer rfl
              | _ => exact hno h
          | tuple j es =>
              simp only [toTarget, toTuple] at h
              split at h
              · next hlen => exact .tuple (forall₂_of_zipWith hlen h)
              · exact hno h
          | _ => exact hno h

theorem grants_of_rule (hr : r ≤ 1) (h : Rule r R x n k) : (ofNodes x n k).Grants r R := by
  have hfree {p : Bool} (hp : p = true) : (Verdict.freeIf p).rank ≤ r :=
    (Verdict.rank_freeIf_le hr).2 hp
  have hvalue {m : Node α} (hu : m.kind ≠ .universal) (hc : m.kind ≠ .ctrl)
      (hm : (toTarget x m k).Grants r R) : (ofNodes x m k).Grants r R := by
    rwa [ofNodes_eq, if_neg (not_or.2 ⟨hu, hc⟩)]
  cases h with
  | scalar hu hc => exact hvalue hu hc (Nat.zero_le r)
  | ints hw => exact hfree (decide_eq_true hw)
  | intToFlt h hw =>
      simp only [ofNodes, Grants, toAtom, ofIntToFlt, hw, if_true]
      exact h
  | fltConst hw => exact hfree (decide_eq_true hw)
  | flts hw =>
      simp only [ofNodes, Grants, toAtom, ofFlts]
      rcases hw with hw | ⟨h, hw⟩
      · rw [if_pos hw]
        exact Nat.zero_le r
      · split
        · exact Nat.zero_le r
        · exact h
  | funPtr hst => exact hfree hst
  | rpc hst => exact hfree hst
  | nilToPointer hk =>
      cases k with
      | atom b =>
          cases b with
          | oop | str | strConst => exact Nat.zero_le r
          | _ => cases hk
      | struct | tuple => exact Nat.zero_le r
      | _ => cases hk
  | nilToNullable => exact Nat.zero_le r
  | nullables hxy => exact hxy
  | toNullable hu hc hn hy =>
      apply hvalue hu hc
      cases n with
      | atom a =>
          cases a with
          | nil => exact absurd rfl hn
          | _ => exact hy
      | nullable => exact absurd rfl hn
      | _ => exact hy
  | oop hn =>
      cases n with
      | atom a =>
          cases a with
          | oop | str | strConst => exact hfree hn
          | _ => cases hn
      | struct | tuple => exact hfree hn
      | _ => cases hn
  | str hn =>
      cases n with
      | atom a =>
          cases a with
          | str | strConst => exact hfree rfl
          | _ => cases hn
      | _ => cases hn
  | struct hfields =>
      intro p hp
      obtain ⟨g, hg, rfl⟩ := List.mem_map.1 hp
      exact hfields g hg
  | tuple hparts =>
      rename_i es ds
      rw [List.forall₂_iff_zip] at hparts
      simp only [ofNodes, toTuple, hparts.1, if_true]
      intro p hp
      rw [← List.map_uncurry_zip_eq_zipWith] at hp
      obtain ⟨q, hq, rfl⟩ := List.mem_map.1 hp
      exact ⟨q.1, rfl, hparts.2 hq⟩

theorem grants_iff_rule (hr : r ≤ 1) (hne : n ≠ k) :
    (ofNodes x n k).Grants r R ↔ Rule r R x n k :=
  ⟨rule_of_grants hr hne, grants_of_rule hr⟩

end rule

end Inquiry

namespace Ty

theorem unname_unname (t : Ty) : t.unname.unname = t.unname := by
  induction t using unname_induction with
  | bare t hname => rw [unname_of_ne hname, unname_of_ne hname]
  | name l t ih => rw [unname_name, ih]

theorem unname_le {μ : Ty → Nat} (hμ : ∀ n : Node Ty, ∀ t ∈ n.children, μ t < μ (.mk n)) (t : Ty) :
    μ t.unname ≤ μ t := by
  induction t using unname_induction with
  | bare t hname => exact Nat.le_of_eq (congrArg μ (unname_of_ne hname))
  | name l t ih =>
      rw [unname_name]
      exact Nat.le_trans ih (Nat.le_of_lt (hμ (.name l t) t (List.mem_singleton_self t)))

theorem height_unname_le (t : Ty) : t.unname.height ≤ t.height :=
  unname_le (fun _ _ => height_lt_of_mem) t

theorem height_lt_of_mem_unname {t u : Ty} (h : u ∈ t.unname.node.children) :
    u.height < t.height :=
  Nat.lt_of_lt_of_le (height_lt_of_mem_node h) (height_unname_le t)

theorem asks_lt_height (a b : Ty) :
    (Inquiry.ofNodes a.unname a.unname.node b.unname.node).Asks
      fun u v => u.height + v.height < a.height + b.height := by
  have ha := height_unname_le a
  apply Inquiry.asks_ofNodes
  · intro v hv
    have := height_lt_of_mem_unname (Node.openParts_subset _ hv)
    omega
  · intro u hu v hv
    have := height_lt_of_mem_unname (Node.openParts_subset _ hu)
    have := height_lt_of_mem_unname (Node.openParts_subset _ hv)
    omega

theorem classifyWithin_congr {n m : Nat} {a b : Ty} (hn : a.height + b.height ≤ n)
    (hm : a.height + b.height ≤ m) :
    reader.classifyWithin n a b = reader.classifyWithin m a b := by
  induction n generalizing m a b with
  | zero => have := height_pos a; omega
  | succ n ih =>
      cases m with
      | zero => have := height_pos a; omega
      | succ m =>
          have hanswer : (Inquiry.ofNodes a.unname a.unname.node b.unname.node).answer
              (reader.classifyWithin n) =
              (Inquiry.ofNodes a.unname a.unname.node b.unname.node).answer
                (reader.classifyWithin m) := by
            apply Inquiry.answer_congr
            exact (asks_lt_height a b).mono fun u v huv => ih (by omega) (by omega)
          simp only [Reader.classifyWithin]
          split
          · rfl
          · split
            · rfl
            · exact hanswer

theorem classify_eq (a b : Ty) : classify a b =
    if a.half.isTop || b.half.isTop then .unknown
    else if a.unname = b.unname then .free
    else (Inquiry.ofNodes a.unname a.unname.node b.unname.node).answer classify := by
  have ha := height_pos a
  obtain ⟨n, hn⟩ : ∃ n, a.height + b.height = n + 1 := ⟨a.height + b.height - 1, by omega⟩
  have hanswer : (Inquiry.ofNodes a.unname a.unname.node b.unname.node).answer
      (reader.classifyWithin n) =
      (Inquiry.ofNodes a.unname a.unname.node b.unname.node).answer classify := by
    apply Inquiry.answer_congr
    refine (asks_lt_height a b).mono fun u v huv => ?_
    exact classifyWithin_congr (by omega) (Nat.le_refl _)
  rw [← hanswer, classify, hn]
  rfl

/-- Values of the one type are also values of the other, at a cost of no more than the rank. -/
def Converts (r : Nat) (a b : Ty) : Prop := (classify a b).rank ≤ r

theorem converts_iff {r : Nat} (hr : r ≤ 1) {a b : Ty} : Converts r a b ↔
    a.half = .bottom ∧ b.half = .bottom ∧ (a.unname = b.unname ∨
      Inquiry.Rule r (Converts r) a.unname a.unname.node b.unname.node) := by
  have hunknown : ¬Verdict.unknown.rank ≤ r := by
    change ¬2 ≤ r
    omega
  rw [Converts, classify_eq]
  cases ha : a.half with
  | top => simp [Half.isTop, hunknown]
  | bottom =>
      cases hb : b.half with
      | top => simp [Half.isTop, hunknown]
      | bottom =>
          simp only [Half.isTop, Bool.or_self, Bool.false_eq_true, if_false, true_and]
          by_cases hab : a.unname = b.unname
          · rw [if_pos hab]
            exact ⟨fun _ => .inl hab, fun _ => Nat.zero_le r⟩
          · rw [if_neg hab, or_iff_right hab, Inquiry.rank_answer_le hr,
              Inquiry.grants_iff_rule hr fun h => hab (eq_of_node h)]
            rfl

end Ty

namespace Store

variable {s : Store} {a b : Handle}

theorem half_tree (hs : s.Descends) (ha : s.Holds a) :
    s.reader.half a = Ty.reader.half (s.tree a) := by
  obtain ⟨hu, htu⟩ := unname_spec hs ha
  change (s.node (s.unname a)).half = (s.tree a).unname.node.half
  rw [← htu, tree_eq hs hu, Ty.node, Node.half_map]

theorem classifyWithin_tree (hs : s.Sound) {n : Nat} (ha : s.Holds a) (hb : s.Holds b) :
    s.reader.classifyWithin n a b = Ty.reader.classifyWithin n (s.tree a) (s.tree b) := by
  induction n generalizing a b with
  | zero => rfl
  | succ n ih =>
      obtain ⟨hu, htu⟩ := unname_spec hs.descends ha
      obtain ⟨hv, htv⟩ := unname_spec hs.descends hb
      have hnodes : Inquiry.ofNodes (s.tree a).unname (s.tree a).unname.node (s.tree b).unname.node =
          (Inquiry.ofNodes (s.unname a) (s.node (s.unname a)) (s.node (s.unname b))).map s.tree := by
        rw [Inquiry.map_ofNodes, ← htu, ← htv, tree_eq hs.descends hv]
        nth_rewrite 2 [tree_eq hs.descends hu]
        rfl
      have hanswer : (Inquiry.ofNodes (s.unname a) (s.node (s.unname a))
          (s.node (s.unname b))).answer (s.reader.classifyWithin n) =
          (Inquiry.ofNodes (s.tree a).unname (s.tree a).unname.node (s.tree b).unname.node).answer
            (Ty.reader.classifyWithin n) := by
        rw [hnodes, Inquiry.answer_map]
        apply Inquiry.answer_congr
        apply Inquiry.asks_ofNodes
        · exact fun y hy => ih hu (hs.descends.holds hv (Node.openParts_subset _ hy))
        · exact fun x hx y hy => ih (hs.descends.holds hu (Node.openParts_subset _ hx))
            (hs.descends.holds hv (Node.openParts_subset _ hy))
      have hsame : s.unname a = s.unname b ↔ (s.tree a).unname = (s.tree b).unname :=
        Denotes.eq_iff hs ⟨hu, htu⟩ ⟨hv, htv⟩
      simp only [Reader.classifyWithin, half_tree hs.descends ha, half_tree hs.descends hb]
      split
      · rfl
      · exact ite_congr (propext hsame) (fun _ => rfl) fun _ => hanswer

theorem classify_tree (hs : s.Sound) (ha : s.Holds a) (hb : s.Holds b) :
    s.classify a b = Ty.classify (s.tree a) (s.tree b) := by
  have hta := height_tree_le hs.descends ha
  have htb := height_tree_le hs.descends hb
  rw [classify, classifyWithin_tree hs ha hb]
  exact Ty.classifyWithin_congr (by omega) (Nat.le_refl _)

end Store

end TypeLattice
