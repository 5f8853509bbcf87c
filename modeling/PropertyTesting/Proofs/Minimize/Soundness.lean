import PropertyTesting.Proofs.Minimize.Search
import PropertyTesting.Proofs.Text.Form

/-!
What minimizing a failing value gives. Every accepted value fails and was found
on one way down the tree; and if the limit of steps was not what ended the
search, nothing below the last node is both new and failing. The set of written
forms that were met carries the argument: whatever is in it was accepted or
has passed.
-/

namespace PropertyTesting

open Branching Inspect

/-- The verdict on a value depends on no more than its written form. -/
def ReadsForm {α : Type} [Inspect α] (check : α → Verdict) : Prop :=
  ∀ v w, inspect v = inspect w → (check v = .pass ↔ check w = .pass)

theorem ReadsForm.of_injective {α : Type} [Inspect α]
    (h : Function.Injective (inspect : α → String)) (check : α → Verdict) : ReadsForm check :=
  fun v w hvw => by rw [h hvw]

namespace Minimize

variable {τ α : Type} [Branching τ α] [Inspect α]

/-- What is known when a search that started at a failing root has come to a
node. -/
structure Sound (check : α → Verdict) (root t : τ) (p : Progress α) : Prop where
  /-- The accepted values lie on the way to the node, in that order. -/
  way : ∃ ts, Way root ts t ∧ p.accepted.reverse.Sublist (ts.map value)
  /-- The first of them is the value of the root. -/
  oldest : p.accepted.getLast? = some (value root)
  /-- The last of them is written like the node. -/
  newest : ∃ v, p.accepted.head? = some v ∧ inspect v = p.form
  form : inspect (value t) = p.form
  failing : ∀ v ∈ p.accepted, check v ≠ .pass
  /-- Whatever was met was accepted or has passed. -/
  met : ∀ form ∈ p.met, ∃ v, inspect v = form ∧ (v ∈ p.accepted ∨ check v = .pass)

namespace Sound

variable {check : α → Verdict} {root t : τ} {p : Progress α}

theorem start (hroot : check (value root) ≠ .pass) :
    Sound check root root (Progress.start (value root)) where
  way := ⟨[root], .here, by simp⟩
  oldest := rfl
  newest := ⟨value root, rfl, rfl⟩
  form := rfl
  failing := by simpa using hroot
  met := fun form hform => ⟨value root, ((Progress.mem_met_start _).1 hform).symm, .inl (by simp)⟩

theorem note (h : Sound check root t p) {v : α} (hv : check v = .pass) :
    Sound check root t (p.note v) where
  way := h.way
  oldest := h.oldest
  newest := h.newest
  form := h.form
  failing := h.failing
  met form hform := by
    rcases p.mem_met_note v |>.1 hform with rfl | hform
    · exact ⟨v, rfl, .inr hv⟩
    · exact h.met form hform

theorem accept (h : Sound check root t p) {c : τ} (hc : c ∈ children t) {panic : Option String}
    (hfail : check (value c) = .fail panic) :
    Sound check root c ((p.note (value c)).accept (value c) panic) where
  way := by
    obtain ⟨ts, hts, hsub⟩ := h.way
    refine ⟨ts ++ [c], hts.down hc, ?_⟩
    simpa using hsub.append (List.Sublist.refl [value c])
  oldest := by
    have hne : p.accepted ≠ [] := by
      intro hnil
      simpa [hnil] using h.oldest
    obtain ⟨v, vs, hvs⟩ := List.exists_cons_of_ne_nil hne
    simpa [hvs] using h.oldest
  newest := ⟨value c, rfl, rfl⟩
  form := rfl
  failing := by
    intro v hv
    rcases List.mem_cons.1 hv with rfl | hv
    · simp [hfail]
    · exact h.failing v hv
  met form hform := by
    rcases p.mem_met_note (value c) |>.1 hform with rfl | hform
    · exact ⟨value c, rfl, .inl (by simp)⟩
    · obtain ⟨v, hv, hacc | hpass⟩ := h.met form hform
      · exact ⟨v, hv, .inl (List.mem_cons_of_mem _ hacc)⟩
      · exact ⟨v, hv, .inr hpass⟩

theorem sideways (h : Sound check root t p) {c : τ} (hc : c ∈ children t)
    (hform : inspect (value c) = p.form) : Sound check root c p where
  way := by
    -- The way goes on, but nothing new is accepted on it.
    obtain ⟨ts, hts, hsub⟩ := h.way
    refine ⟨ts ++ [c], hts.down hc, ?_⟩
    simpa using hsub.trans (List.sublist_append_left _ [value c])
  oldest := h.oldest
  newest := h.newest
  form := hform
  failing := h.failing
  met := h.met

theorem invariant (check : α → Verdict) (root : τ) : Invariant check (Sound check root) where
  expand h := ⟨h.way, h.oldest, h.newest, h.form, h.failing, h.met⟩
  note h _ _ hpass := h.note hpass
  accept h hc _ hfail := h.accept hc hfail
  sideways h hc hform := h.sideways hc hform

/-- What a sound search accepted last, and so the node that it has come to,
fails. -/
theorem value_failing (h : Sound check root t p) (hcheck : ReadsForm check) :
    check (value t) ≠ .pass := by
  obtain ⟨v, hv, hform⟩ := h.newest
  rw [Ne, ← hcheck v (value t) (hform.trans h.form.symm)]
  exact h.failing v (List.mem_of_mem_head? hv)

/-- A form that is that of the current node or was met is that of an accepted
value, unless all values of that form pass. -/
theorem accepted_or_pass (h : Sound check root t p) (hcheck : ReadsForm check) {v : α}
    (hv : inspect v = p.form ∨ inspect v ∈ p.met) :
    (∃ w ∈ p.accepted, inspect w = inspect v) ∨ check v = .pass := by
  rcases hv with hv | hv
  · obtain ⟨w, hw, hform⟩ := h.newest
    exact .inl ⟨w, List.mem_of_mem_head? hw, hform.trans hv.symm⟩
  · obtain ⟨w, hw, hacc | hpass⟩ := h.met _ hv
    · exact .inl ⟨w, hacc, hw⟩
    · exact .inr ((hcheck w v hw).1 hpass)

end Sound

/-- A search from a failing root ends in a sound state. Unless the limit of
steps ended it, every child of the last node is written like an accepted value
or passes. -/
theorem minimize_sound (limit : Nat) {check : α → Verdict} (hcheck : ReadsForm check)
    {root : τ} (hroot : check (value root) ≠ .pass) :
    ∃ u q exhausted, minimize limit check root = q.finish (value u) exhausted ∧
      Sound check root u q ∧ (exhausted = false → ∀ c ∈ children u,
        (∃ v ∈ q.accepted, inspect v = inspect (value c)) ∨ check (value c) = .pass) := by
  obtain ⟨u, q, exhausted, hend, hsound, hmet⟩ :=
    (Sound.invariant check root).search limit limit (Sound.start hroot)
  exact ⟨u, q, exhausted, hend, hsound, fun he c hc =>
    hsound.accepted_or_pass hcheck (hmet he c hc)⟩

end Minimize

/-- The outcome of going down a tree along some nodes to the last of them. -/
structure Minimized.Descent {α : Type} [Inspect α] (m : Minimized α) (check : α → Verdict)
    (t : Tree α) (nodes : List (Tree α)) (last : Tree α) : Prop where
  way : Way t nodes last
  /-- The accepted values lie on the way, in that order. -/
  on_way : m.progression.Sublist (nodes.map Tree.value)
  starts : m.progression.head? = some t.value
  failing : ∀ v ∈ m.progression, check v ≠ .pass
  value_failing : check m.value ≠ .pass
  steps : m.steps + 1 = m.progression.length
  value : m.value = last.value
  /-- The last accepted value is written like the result. -/
  ends : ∃ v, m.progression.getLast? = some v ∧ inspect v = inspect m.value
  /-- Below the last node nothing is both new and failing. -/
  minimal : m.exhausted = false → ∀ c ∈ last.children,
    (∃ v ∈ m.progression, inspect v = inspect c.value) ∨ check c.value = .pass

/-- Minimizing a failing value goes down one way of the tree, accepts failing
values only, and ends at a node that is locally minimal unless the limit of
steps ended it. -/
theorem Tree.minimize_descent {α : Type} [Inspect α] (limit : Nat) (check : α → Verdict)
    (hcheck : ReadsForm check) (t : Tree α) (hroot : check t.value ≠ .pass) :
    ∃ nodes last, (t.minimize limit check).Descent check t nodes last := by
  obtain ⟨u, q, exhausted, hend, hsound, hmin⟩ :=
    Minimize.minimize_sound limit hcheck (show check (Branching.value t) ≠ .pass from hroot)
  obtain ⟨nodes, hway, hsub⟩ := hsound.way
  obtain ⟨v, hv, hform⟩ := hsound.newest
  rw [Tree.minimize_eq, hend]
  refine ⟨nodes, u, ⟨hway, hsub, ?_, ?_, hsound.value_failing hcheck, ?_, rfl, ?_, ?_⟩⟩
  · exact (List.head?_reverse ..).trans hsound.oldest
  · exact fun w hw => hsound.failing w (List.mem_reverse.1 hw)
  · exact ((List.length_reverse ..).trans q.length_accepted).symm
  · exact ⟨v, (List.getLast?_reverse ..).trans hv, hform.trans hsound.form.symm⟩
  · intro he c hc
    rcases hmin he c hc with ⟨w, hw, hwc⟩ | hpass
    · exact .inl ⟨w, List.mem_reverse.2 hw, hwc⟩
    · exact .inr hpass

/-- A tree whose only improvement lies below a child that is written like the
root. -/
theorem Tree.minimize_descent_sideways :
    let t : Tree Int64 := .node 30 [.node 30 [.leaf 0, .leaf 12]]
    let check : Int64 → Verdict := fun n => if n < 10 then .pass else .fail none
    ReadsForm check ∧ check t.value ≠ .pass ∧
      ∃ nodes last, (t.minimize 10 check).Descent check t nodes last :=
  have hcheck := ReadsForm.of_injective inspect_int64_injective _
  have hroot : (if (30 : Int64) < 10 then Verdict.pass else .fail none) ≠ .pass := by decide
  ⟨hcheck, hroot, Tree.minimize_descent 10 _ hcheck _ hroot⟩

end PropertyTesting
