import PropertyTesting.Tree.Rose

/-!
Shrink trees. A shrink tree holds a value above the trees of its simpler
candidates, has finitely many children at every node and may be infinitely
deep. It is given by what can be seen of it to each depth, and two trees that
look the same to every depth are equal. Every operation takes the same form:
it says what is at the root of a state and which states lie below it.
-/

namespace PropertyTesting

/-- A tree of any depth, as the family of its finite parts. -/
structure Tree (α : Type) where
  /-- The part that lies at most the given number of steps below the root. -/
  approx : Nat → Rose α
  coherent : ∀ n, (approx (n + 1)).truncate n = approx n

namespace Tree

universe u
variable {α β : Type} {σ : Type u}

@[ext] theorem ext {t u : Tree α} (h : ∀ n, t.approx n = u.approx n) : t = u := by
  cases t
  cases u
  congr
  exact funext h

/-- The tree of everything that can be reached from a state. -/
def generate (label : σ → α) (next : σ → Row σ) (s : σ) : Tree α where
  approx n := Rose.grow label next n s
  coherent n := Rose.truncate_grow label next n s

/-- The tree of everything that can be reached from a state made of trees. A
finite part of it needs only the finite parts of those trees. -/
def generateFrom (label : σ → α) (next : σ → Row σ) (cut : Nat → σ → σ)
    (label_cut : ∀ n s, label (cut n s) = label s)
    (next_cut : ∀ n s,
      (next (cut (n + 1) s)).toList.map (cut n) = (next s).toList.map (cut n))
    (s : Nat → σ) (coherent : ∀ n, cut n (s (n + 1)) = s n) : Tree α where
  approx n := Rose.grow label next n (s n)
  coherent n := by
    rw [Rose.truncate_grow, ← Rose.grow_cut cut label_cut next_cut, coherent]

theorem children_approx_generateFrom (label : σ → α) (next : σ → Row σ) (cut : Nat → σ → σ)
    (label_cut : ∀ n s, label (cut n s) = label s)
    (next_cut : ∀ n s,
      (next (cut (n + 1) s)).toList.map (cut n) = (next s).toList.map (cut n))
    (s : Nat → σ) (coherent : ∀ n, cut n (s (n + 1)) = s n) (n : Nat) :
    ((generateFrom label next cut label_cut next_cut s coherent).approx (n + 1)).children =
      ((next (s (n + 1))).toList.map (cut n)).map (Rose.grow label next n) := by
  rw [List.map_map]
  exact (Rose.children_grow_succ ..).trans
    (List.map_congr_left fun s _ => (Rose.grow_cut cut label_cut next_cut n s).symm)

def value (t : Tree α) : α :=
  (t.approx 0).value

theorem value_approx (t : Tree α) (n : Nat) : (t.approx n).value = t.value := by
  induction n with
  | zero => rfl
  | succ n ih => rw [← ih, ← t.coherent n, Rose.value_truncate]

theorem length_children_approx (t : Tree α) (n : Nat) :
    (t.approx (n + 1)).children.length = (t.approx 1).children.length := by
  induction n with
  | zero => rfl
  | succ n ih => rw [← ih, ← t.coherent (n + 1), Rose.children_truncate_succ, List.length_map]

theorem length_row_approx (t : Tree α) (n : Nat) :
    (t.approx (n + 1)).row.toList.length = (t.approx 1).row.toList.length :=
  length_children_approx t n

def child (t : Tree α) (i : Nat) (h : i < (t.approx 1).row.toList.length) : Tree α where
  approx n := (t.approx (n + 1)).row.get i (by rw [length_row_approx]; exact h)
  coherent n := by
    have hc : (t.approx (n + 1)).children = (t.approx (n + 2)).children.map (Rose.truncate n) := by
      rw [← t.coherent (n + 1), Rose.children_truncate_succ]
    simp only [Row.get_eq_getElem, Rose.toList_row, hc, List.getElem_map]

/-- The children of the root as a row, computed as far as it is looked at. -/
def row (t : Tree α) : Row (Tree α) :=
  (t.approx 1).row.tabulate t.child

def children (t : Tree α) : List (Tree α) :=
  t.row.toList

@[simp] theorem toList_row (t : Tree α) : t.row.toList = t.children := rfl

theorem map_approx_children (t : Tree α) (n : Nat) :
    t.children.map (·.approx n) = (t.approx (n + 1)).children := by
  rw [children, row, Row.toList_tabulate]
  apply List.ext_getElem
  · simp [length_children_approx]
  · intro i _ _
    simp [child, Row.get_eq_getElem]

theorem map_approx_row (t : Tree α) (n : Nat) :
    t.row.map (·.approx n) = (t.approx (n + 1)).row :=
  Row.ext (by simp [map_approx_children])

/-- What is seen of a tree one step deeper is its root above what is seen of
its children. -/
theorem approx_succ (t : Tree α) (n : Nat) :
    t.approx (n + 1) = Rose.node (fun _ => t.value) fun _ => t.row.map (·.approx n) :=
  Rose.ext (value_approx t _) (by simp [map_approx_children])

theorem truncate_approx (t : Tree α) (n : Nat) : (t.approx n).truncate n = t.approx n := by
  rw [← t.coherent n, Rose.truncate_self]

/-- The children of a tree are known once they are known to every depth. -/
theorem children_eq {t : Tree α} {us : List (Tree α)}
    (h : ∀ n, (t.approx (n + 1)).children = us.map (·.approx n)) : t.children = us := by
  have hlen : t.children.length = us.length := by
    simpa using congrArg List.length ((map_approx_children t 0).trans (h 0))
  apply List.ext_getElem hlen
  intro i h₁ h₂
  ext1 n
  have hn : t.children.map (·.approx n) = us.map (·.approx n) :=
    (map_approx_children t n).trans (h n)
  simpa [h₁, h₂] using congrArg (·[i]?) hn

theorem ext_children {t u : Tree α} (hv : t.value = u.value) (hc : t.children = u.children) :
    t = u := by
  ext1 n
  cases n with
  | zero =>
    refine Rose.ext hv ?_
    rw [← t.coherent 0, ← u.coherent 0, Rose.children_truncate_zero,
      Rose.children_truncate_zero]
  | succ n => rw [approx_succ, approx_succ, hv, Row.ext hc]

/-- Two families of trees are equal if their members have the same values and
their children are members again, by the same rule. -/
theorem ext_family {ι : Type u} (next : ι → List ι) {f g : ι → Tree α}
    (hv : ∀ i, (f i).value = (g i).value) (hf : ∀ i, (f i).children = (next i).map f)
    (hg : ∀ i, (g i).children = (next i).map g) (i : ι) : f i = g i := by
  ext1 n
  induction n generalizing i with
  | zero =>
    refine Rose.ext (hv i) ?_
    rw [← (f i).coherent 0, ← (g i).coherent 0, Rose.children_truncate_zero,
      Rose.children_truncate_zero]
  | succ n ih =>
    refine Rose.ext ?_ ?_
    · rw [value_approx, value_approx, hv]
    · rw [← map_approx_children, ← map_approx_children, hf, hg, List.map_map, List.map_map]
      exact List.map_congr_left fun j _ => ih j

@[simp] theorem value_generate (label : σ → α) (next : σ → Row σ) (s : σ) :
    (generate label next s).value = label s := rfl

@[simp] theorem children_generate (label : σ → α) (next : σ → Row σ) (s : σ) :
    (generate label next s).children = (next s).toList.map (generate label next) :=
  children_eq fun n => by simp [generate]

def node (value : α) (children : List (Tree α)) : Tree α where
  approx
    | 0 => Rose.node (fun _ => value) fun _ => .nil
    | n + 1 => Rose.node (fun _ => value) fun _ => (Row.ofList children).map (·.approx n)
  coherent := by
    intro n
    cases n with
    | zero => exact Rose.ext rfl rfl
    | succ n =>
      refine Rose.ext rfl ?_
      simp only [Rose.children_truncate_succ, Rose.children_node, Row.toList_map,
        Row.toList_ofList, List.map_map]
      exact List.map_congr_left fun t _ => t.coherent n

@[simp] theorem value_node (value : α) (children : List (Tree α)) :
    (node value children).value = value := rfl

@[simp] theorem children_node (value : α) (children : List (Tree α)) :
    (node value children).children = children :=
  children_eq fun _ => by simp [node]

def leaf (value : α) : Tree α :=
  node value []

@[simp] theorem value_leaf (value : α) : (leaf value).value = value := rfl

@[simp] theorem children_leaf (value : α) : (leaf value).children = [] :=
  children_node ..

/-- The tree in which `shrink` gives the children of every value. -/
def unfold (shrink : α → Row α) (value : α) : Tree α :=
  generate id shrink value

@[simp] theorem value_unfold (shrink : α → Row α) (value : α) :
    (unfold shrink value).value = value := rfl

@[simp] theorem children_unfold (shrink : α → Row α) (value : α) :
    (unfold shrink value).children = (shrink value).toList.map (unfold shrink) :=
  children_generate ..

def map (f : α → β) (t : Tree α) : Tree β :=
  generateFrom (f ·.value) Rose.row Rose.truncate (by simp) (by simp) t.approx t.coherent

@[simp] theorem value_map (f : α → β) (t : Tree α) : (t.map f).value = f t.value := rfl

@[simp] theorem children_map (f : α → β) (t : Tree α) :
    (t.map f).children = t.children.map (map f) :=
  children_eq fun n => by
    simp [map, generateFrom, ← map_approx_children, Function.comp_def]

/-- Cut away every subtree whose root is rejected, below a root that is kept. -/
def prune (p : α → Bool) (t : Tree α) : Tree α :=
  generateFrom Rose.value (fun r => r.row.filter (p ·.value)) Rose.truncate
    (by simp) (by simp [List.filter_map, Function.comp_def]) t.approx t.coherent

@[simp] theorem value_prune (p : α → Bool) (t : Tree α) : (t.prune p).value = t.value := rfl

@[simp] theorem children_prune (p : α → Bool) (t : Tree α) :
    (t.prune p).children = (t.children.filter (p ·.value)).map (prune p) :=
  children_eq fun n => by
    simp [prune, generateFrom, ← map_approx_children, List.filter_map, Function.comp_def,
      value_approx]

/-- Cut away every subtree whose root is rejected. Nothing is left if the root
of the whole tree is. -/
def filter (p : α → Bool) (t : Tree α) : Option (Tree α) :=
  if p t.value then some (t.prune p) else none

end Tree

end PropertyTesting
