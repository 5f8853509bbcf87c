import Mathlib.Data.List.Forall2
import Mathlib.Logic.Relation
import PropertyTesting.Tree.Path

/-!
What lies in a tree. A node reaches another if a way down through children
leads there; `reaches_iff_descend` says that these are the nodes that a path of
child positions finds. A way is kept as the list of the nodes on it where it
matters which nodes were passed.
-/

namespace PropertyTesting

namespace Branching

variable {τ α : Type} [Branching τ α]

/-- The node `u` is `t` itself or lies somewhere below it. -/
def Reaches (t u : τ) : Prop :=
  Relation.ReflTransGen (fun t u : τ => u ∈ children t) t u

/-- The nodes on a way down from a root to a node, the root first. -/
inductive Way (root : τ) : List τ → τ → Prop where
  | here : Way root [root] root
  | down {ts : List τ} {t c : τ} : Way root ts t → c ∈ children t → Way root (ts ++ [c]) c

@[refl] theorem Reaches.refl (t : τ) : Reaches t t :=
  Relation.ReflTransGen.refl

theorem Reaches.down {t u c : τ} (h : Reaches t u) (hc : c ∈ children u) : Reaches t c :=
  Relation.ReflTransGen.tail h hc

theorem Reaches.below {t c u : τ} (hc : c ∈ children t) (h : Reaches c u) : Reaches t u :=
  Relation.ReflTransGen.head hc h

/-- What holds of a node, and with every node of its children, holds of all
that the node reaches. -/
theorem Reaches.keeps {I : τ → Prop} (hI : ∀ t, I t → ∀ c ∈ children t, I c) {t u : τ}
    (h : Reaches t u) (ht : I t) : I u := by
  induction h with
  | refl => exact ht
  | tail _ hc ih => exact hI _ ih _ hc

/-- The nodes that are reached are those at the ends of paths. -/
theorem reaches_iff_descend {t u : τ} {place : Nat} :
    Reaches t u ↔ ∃ path, descend path t place = .ok u := by
  constructor
  · intro h
    -- Induction from the root down, because a path is read in that order.
    induction h using Relation.ReflTransGen.head_induction_on generalizing place with
    | refl => exact ⟨[], rfl⟩
    | head hc _ ih =>
      obtain ⟨path, hpath⟩ := @ih (place + 1)
      obtain ⟨i, hi⟩ := List.mem_iff_getElem?.1 hc
      exact ⟨i :: path, by simp [descend_cons, hi, hpath]⟩
  · rintro ⟨path, hpath⟩
    induction path generalizing t place with
    | nil =>
      obtain rfl : t = u := by simpa using hpath
      rfl
    | cons i path ih =>
      rw [descend_cons] at hpath
      cases hi : (children t)[i]? with
      | none => simp [hi] at hpath
      | some c =>
        simp only [hi] at hpath
        exact .below (List.mem_of_getElem? hi) (ih hpath)

namespace Way

variable {root t : τ} {ts : List τ}

theorem reaches (h : Way root ts t) : Reaches root t := by
  induction h with
  | here => rfl
  | down _ hc ih => exact ih.down hc

/-- A measure that is smaller at every child is smallest at the end of a way. -/
theorem measure_le {I : τ → Prop} (hI : ∀ t, I t → ∀ c ∈ children t, I c) {μ : τ → Nat}
    (hμ : ∀ t, I t → ∀ c ∈ children t, μ c < μ t) (hroot : I root) (h : Way root ts t) :
    ∀ u ∈ ts, μ t ≤ μ u := by
  induction h with
  | here => simp
  | down h hc ih =>
    intro u hu
    have hlt := hμ _ (h.reaches.keeps hI hroot) _ hc
    rcases List.mem_append.1 hu with hu | hu
    · exact Nat.le_trans (Nat.le_of_lt hlt) (ih u hu)
    · exact Nat.le_of_eq (by rw [List.mem_singleton.1 hu])

end Way

/-- To replace one node of a list by one of its children is to take a slot. -/
theorem mem_slots {ts us : List τ} :
    us ∈ (slots ts).toList ↔
      ∃ (i : Nat) (h : i < ts.length), ∃ c ∈ children ts[i], us = ts.set i c := by
  induction ts generalizing us with
  | nil => simp
  | cons t ts ih =>
    rw [toList_slots_cons, List.mem_append, List.mem_map, List.mem_map]
    constructor
    · rintro (⟨c, hc, rfl⟩ | ⟨vs, hvs, rfl⟩)
      · exact ⟨0, by simp, c, hc, rfl⟩
      · obtain ⟨i, hi, c, hc, rfl⟩ := ih.1 hvs
        exact ⟨i + 1, by simpa using hi, c, hc, rfl⟩
    · rintro ⟨i, hi, c, hc, rfl⟩
      cases i with
      | zero => exact .inl ⟨c, hc, rfl⟩
      | succ i => exact .inr ⟨_, ih.2 ⟨i, by simpa using hi, c, hc, rfl⟩, rfl⟩

/-- What each node of a list has to do with its counterpart stays so when a slot is taken,
if it passes on to children. -/
theorem forall₂_of_mem_slots {β : Type} {R : τ → β → Prop}
    (hR : ∀ t b, R t b → ∀ c ∈ children t, R c b) {ts us : List τ} {bs : List β}
    (h : List.Forall₂ R ts bs) (hus : us ∈ (slots ts).toList) : List.Forall₂ R us bs := by
  induction h generalizing us with
  | nil => simp at hus
  | cons ht h ih =>
    rw [toList_slots_cons] at hus
    rcases List.mem_append.1 hus with hus | hus
    · obtain ⟨c, hc, rfl⟩ := List.mem_map.1 hus
      exact .cons (hR _ _ ht c hc) h
    · obtain ⟨vs, hvs, rfl⟩ := List.mem_map.1 hus
      exact .cons ht (ih hvs)

end Branching

end PropertyTesting
