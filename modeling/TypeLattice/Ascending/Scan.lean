namespace TypeLattice.Ascending

variable {α β γ : Type} {m : Type → Type} [Monad m]

/-- Walk two lists in step, always past the head that compares smaller. Heads that
compare equal are passed together and give one element; what remains of either
list at the end is kept. -/
def unionM (cmp : α → β → m Ordering) (left : α → γ) (right : β → γ) (both : α → β → m γ) :
    List α → List β → m (List γ)
  | [], bs => pure (bs.map right)
  | as, [] => pure (as.map left)
  | a :: as, b :: bs => do
    match ← cmp a b with
    | .lt => return left a :: (← unionM cmp left right both as (b :: bs))
    | .gt => return right b :: (← unionM cmp left right both (a :: as) bs)
    | .eq =>
      let c ← both a b
      return c :: (← unionM cmp left right both as bs)
termination_by as bs => as.length + bs.length

def interM (cmp : α → β → m Ordering) (both : α → β → m γ) : List α → List β → m (List γ)
  | [], _ => pure []
  | _, [] => pure []
  | a :: as, b :: bs => do
    match ← cmp a b with
    | .lt => interM cmp both as (b :: bs)
    | .gt => interM cmp both (a :: as) bs
    | .eq =>
      let c ← both a b
      return c :: (← interM cmp both as bs)
termination_by as bs => as.length + bs.length

def union (cmp : α → β → Ordering) (left : α → γ) (right : β → γ) (both : α → β → γ)
    (as : List α) (bs : List β) : List γ :=
  Id.run (unionM (fun a b => pure (cmp a b)) left right (fun a b => pure (both a b)) as bs)

def inter (cmp : α → β → Ordering) (both : α → β → γ) (as : List α) (bs : List β) : List γ :=
  Id.run (interM (fun a b => pure (cmp a b)) (fun a b => pure (both a b)) as bs)

section

variable (cmp : α → β → Ordering) (left : α → γ) (right : β → γ) (both : α → β → γ)
  (a : α) (as : List α) (b : β) (bs : List β)

@[simp] theorem union_nil_left : union cmp left right both [] bs = bs.map right := by
  rw [union, unionM]; rfl

@[simp] theorem union_nil_right : union cmp left right both as [] = as.map left := by
  cases as with
  | nil => simp
  | cons => rw [union, unionM]; rfl; simp

theorem union_cons_cons : union cmp left right both (a :: as) (b :: bs) =
    match cmp a b with
    | .lt => left a :: union cmp left right both as (b :: bs)
    | .gt => right b :: union cmp left right both (a :: as) bs
    | .eq => both a b :: union cmp left right both as bs := by
  rw [union, unionM]
  simp only [pure_bind]
  cases cmp a b <;> rfl

@[simp] theorem inter_nil_left : inter cmp both [] bs = [] := by
  rw [inter, interM]; rfl

@[simp] theorem inter_nil_right : inter cmp both as [] = [] := by
  cases as with
  | nil => simp
  | cons => rw [inter, interM]; rfl; simp

theorem inter_cons_cons : inter cmp both (a :: as) (b :: bs) =
    match cmp a b with
    | .lt => inter cmp both as (b :: bs)
    | .gt => inter cmp both (a :: as) bs
    | .eq => both a b :: inter cmp both as bs := by
  rw [inter, interM]
  simp only [pure_bind]
  cases cmp a b <;> rfl

end

end TypeLattice.Ascending
