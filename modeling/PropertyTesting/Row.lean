/-!
Rows: finite lists whose elements are computed one by one, as they are looked
at. Whoever stops early pays for no more than was seen. For all that is stated
about it a row is the list of its elements, and every operation comes with what
it does to that list.
-/

namespace PropertyTesting

universe u v w

/-- A finite list that is computed element by element. -/
inductive Row (α : Type u) where
  | nil
  | cons (head : α) (rest : Unit → Row α)

namespace Row

variable {α : Type u} {β : Type v}

def foldl (f : β → α → β) (b : β) : Row α → β
  | nil => b
  | cons a rest => foldl f (f b a) (rest ())

def toList (r : Row α) : List α :=
  (r.foldl (fun as a => a :: as) []).reverse

theorem foldl_cons_reverse (r : Row α) (as : List α) :
    (r.foldl (fun as a => a :: as) as).reverse = as.reverse ++ r.toList := by
  induction r generalizing as with
  | nil => exact (List.append_nil _).symm
  | cons a rest ih =>
    have h := ih () [a]
    simp only [toList, foldl] at h ⊢
    rw [h, ← toList, ih]
    simp

@[simp] theorem toList_nil : (nil : Row α).toList = [] := rfl

@[simp] theorem toList_cons (a : α) (rest : Unit → Row α) :
    (cons a rest).toList = a :: (rest ()).toList :=
  foldl_cons_reverse (rest ()) [a]

@[simp] theorem foldl_toList (f : β → α → β) (b : β) (r : Row α) :
    r.toList.foldl f b = r.foldl f b := by
  induction r generalizing b with
  | nil => rfl
  | cons a rest ih => simp [foldl, ih]

/-- To stack up what each element stands for is to put it all in a row, newest
first. -/
theorem foldl_eq_flatMap {f : List β → α → List β} {g : α → List β}
    (h : ∀ bs a, f bs a = (g a).reverse ++ bs) (r : Row α) (bs : List β) :
    r.foldl f bs = (r.toList.flatMap g).reverse ++ bs := by
  induction r generalizing bs with
  | nil => rfl
  | cons a rest ih => simp [foldl, h, ih]

/-- Rows with the same elements are the same. -/
theorem ext {r s : Row α} (h : r.toList = s.toList) : r = s := by
  induction r generalizing s with
  | nil => cases s <;> simp_all
  | cons a rest ih =>
    cases s with
    | nil => simp at h
    | cons b more =>
      simp only [toList_cons, List.cons.injEq] at h
      obtain ⟨rfl, h⟩ := h
      rw [show rest = more from funext fun _ => ih () h]

def ofList : List α → Row α
  | [] => nil
  | a :: as => cons a fun _ => ofList as

@[simp] theorem toList_ofList (as : List α) : (ofList as).toList = as := by
  induction as with
  | nil => rfl
  | cons a as ih => simp [ofList, ih]

def isEmpty : Row α → Bool
  | nil => true
  | cons _ _ => false

@[simp] theorem isEmpty_toList (r : Row α) : r.toList.isEmpty = r.isEmpty := by
  cases r <;> simp [isEmpty]

def head? : Row α → Option α
  | nil => none
  | cons a _ => some a

def get? : Row α → Nat → Option α
  | nil, _ => none
  | cons a _, 0 => some a
  | cons _ rest, i + 1 => get? (rest ()) i

@[simp] theorem getElem?_toList (r : Row α) (i : Nat) : r.toList[i]? = r.get? i := by
  induction r generalizing i with
  | nil => simp [get?]
  | cons a rest ih => cases i <;> simp [get?, ih]

def get : (r : Row α) → (i : Nat) → i < r.toList.length → α
  | nil, _, h => absurd h (by simp)
  | cons a _, 0, _ => a
  | cons _ rest, i + 1, h => get (rest ()) i (by simpa using h)

theorem get_eq_getElem (r : Row α) (i : Nat) (h : i < r.toList.length) :
    r.get i h = r.toList[i] := by
  induction r generalizing i with
  | nil => simp at h
  | cons a rest ih => cases i <;> simp [get, ih]

/-- A row as long as another, with an element for each of its positions. -/
def tabulate : (r : Row α) → ((i : Nat) → i < r.toList.length → β) → Row β
  | nil, _ => nil
  | cons _ rest, f =>
    cons (f 0 (by simp)) fun _ => tabulate (rest ()) fun i h => f (i + 1) (by simpa using h)

@[simp] theorem toList_tabulate (r : Row α) (f : (i : Nat) → i < r.toList.length → β) :
    (r.tabulate f).toList = List.ofFn fun i : Fin r.toList.length => f i i.isLt := by
  induction r with
  | nil => rfl
  | cons a rest ih =>
    apply List.ext_getElem
    · simp [tabulate, ih]
    · intro i _ _
      cases i <;> simp [tabulate, ih]

def append : Row α → (Unit → Row α) → Row α
  | nil, s => s ()
  | cons a rest, s => cons a fun _ => append (rest ()) s

@[simp] theorem toList_append (r : Row α) (s : Unit → Row α) :
    (r.append s).toList = r.toList ++ (s ()).toList := by
  induction r with
  | nil => simp [append]
  | cons a rest ih => simp [append, ih]

def map (f : α → β) : Row α → Row β
  | nil => nil
  | cons a rest => cons (f a) fun _ => map f (rest ())

@[simp] theorem toList_map (f : α → β) (r : Row α) : (r.map f).toList = r.toList.map f := by
  induction r with
  | nil => rfl
  | cons a rest ih => simp [map, ih]

@[simp] theorem map_id_fun (r : Row α) : (r.map fun a => a) = r :=
  ext (by simp)

theorem map_map {γ : Type w} (g : β → γ) (f : α → β) (r : Row α) :
    (r.map f).map g = r.map (g ∘ f) :=
  ext (by simp)

theorem map_append (f : α → β) (r : Row α) (s : Unit → Row α) :
    (r.append s).map f = (r.map f).append fun _ => (s ()).map f :=
  ext (by simp)

def filter (p : α → Bool) : Row α → Row α
  | nil => nil
  | cons a rest => if p a then cons a fun _ => filter p (rest ()) else filter p (rest ())

@[simp] theorem toList_filter (p : α → Bool) (r : Row α) :
    (r.filter p).toList = r.toList.filter p := by
  induction r with
  | nil => rfl
  | cons a rest ih => cases h : p a <;> simp [filter, h, ih]

/-- Leave out what follows after `a` and is the same as its neighbour before. -/
def eraseRepsAfter [BEq α] (a : α) : Row α → Row α
  | nil => nil
  | cons b rest =>
    if a == b then eraseRepsAfter a (rest ()) else cons b fun _ => eraseRepsAfter b (rest ())

/-- Of equal neighbours keep the first only. -/
def eraseReps [BEq α] : Row α → Row α
  | nil => nil
  | cons a rest => cons a fun _ => eraseRepsAfter a (rest ())

end Row

end PropertyTesting
