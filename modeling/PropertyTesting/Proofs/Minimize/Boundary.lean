import Mathlib.Algebra.Group.Nat.Defs
import Mathlib.Order.WellFounded
import PropertyTesting.Proofs.Minimize.Search
import PropertyTesting.Proofs.Shrink.Integer
import PropertyTesting.Proofs.Text.Form

/-!
Integers shrink to the exact boundary of a threshold, also under a function that
maps many of them to one. On the way from a destination to a value the function
must not decrease. Then at each node the search goes on to the first candidate
whose image reaches the threshold, be it a step or a move sideways, and every
such move halves the distance that is left to the boundary.
-/

namespace PropertyTesting

open Branching Inspect PropertyTesting.Shrink

/-- The verdict that lets everything below a threshold pass. -/
def Verdict.below (threshold y : Int64) : Verdict :=
  if y < threshold then .pass else .fail none

theorem Verdict.below_eq_pass {threshold y : Int64} :
    Verdict.below threshold y = .pass ↔ y < threshold := by
  unfold Verdict.below
  split <;> simp_all

/-- The integer `x` lies on the way from `d` to `v`. -/
def Between (d v x : Int64) : Prop :=
  d.toInt ≤ x.toInt ∧ x.toInt ≤ v.toInt ∨ v.toInt ≤ x.toInt ∧ x.toInt ≤ d.toInt

/-- On the way from `d` to `v` a function does not decrease. -/
def MonotoneFrom (d v : Int64) (f : Int64 → Int64) : Prop :=
  ∀ x y, Between d v x → Between d v y → gap d x ≤ gap d y → f x ≤ f y

/-- The integer on the way from `d` to `v` that is nearest to `d` among those
whose image reaches a threshold. -/
structure IsBoundary (d v : Int64) (f : Int64 → Int64) (threshold x : Int64) : Prop where
  between : Between d v x
  reaches : threshold ≤ f x
  nearest : ∀ y, Between d v y → threshold ≤ f y → gap d x ≤ gap d y

section Candidates

variable {d v x c : Int64}

theorem Between.sameSide (hside : SameSide d.toInt v.toInt) (h : Between d v x) :
    SameSide d.toInt x.toInt := by
  unfold Between at h
  unfold SameSide at *
  omega

theorem Between.of_mem_long (h : Between d v x) (hc : c ∈ long d x) :
    Between d v c ∧ gap d c < gap d x := by
  have := mem_towards (mem_long.1 hc)
  unfold Between gap at *
  omega

theorem IsBoundary.unique {f : Int64 → Int64} {threshold y : Int64}
    (hx : IsBoundary d v f threshold x) (hy : IsBoundary d v f threshold y) : x = y := by
  have hle := hx.nearest y hy.between hy.reaches
  have hge := hy.nearest x hx.between hx.reaches
  have hbx := hx.between
  have hby := hy.between
  unfold gap Between at *
  exact Int64.toInt_inj.1 (by omega)

theorem IsBoundary.exists {f : Int64 → Int64} {threshold : Int64} (hv : threshold ≤ f v) :
    ∃ x, IsBoundary d v f threshold x := by
  have hmem : Between d v v ∧ threshold ≤ f v := ⟨by unfold Between; omega, hv⟩
  obtain ⟨x, ⟨hx, hreach⟩, hmin⟩ := (measure (gap d)).wf.has_min
    {x | Between d v x ∧ threshold ≤ f x} ⟨v, hmem⟩
  exact ⟨x, hx, hreach, fun y hy hreachy => Nat.le_of_not_lt (hmin y ⟨hy, hreachy⟩)⟩

/-- A candidate below the threshold is not as far from the destination as the
boundary. -/
theorem IsBoundary.gap_lt {f : Int64 → Int64} {threshold b : Int64}
    (hb : IsBoundary d v f threshold b) (hf : MonotoneFrom d v f) (hx : Between d v x)
    (hc : c ∈ long d x) (hlt : f c < threshold) : gap d c < gap d b := by
  refine Nat.lt_of_not_le fun hle => ?_
  have := hf b c hb.between (hx.of_mem_long hc).1 hle
  exact Int64.not_lt.2 (Int64.le_trans hb.reaches this) hlt

end Candidates

/-- The first candidate for `x` whose image reaches a threshold is `c`. -/
def FirstReaching (d : Int64) (f : Int64 → Int64) (threshold x c : Int64) : Prop :=
  threshold ≤ f c ∧
    ∃ before after, long d x = before ++ c :: after ∧ ∀ b ∈ before, f b < threshold

/-- At most `k` halvings of the distance lead to the boundary at distance `m`.
When the destination is the boundary, the first move leads there. -/
def Close (d : Int64) (m k : Nat) (x : Int64) : Prop :=
  gap d x - m < 2 ^ k ∨ m = 0 ∧ 0 < k

namespace FirstReaching

variable {d v x c b : Int64} {f : Int64 → Int64} {threshold : Int64}

theorem mem (h : FirstReaching d f threshold x c) : c ∈ long d x := by
  obtain ⟨-, before, after, hlong, -⟩ := h
  simp [hlong]

theorem close (h : FirstReaching d f threshold x c) (hside : SameSide d.toInt v.toInt)
    (hf : MonotoneFrom d v f) (hb : IsBoundary d v f threshold b) (hx : Between d v x)
    {k : Nat} (hk : Close d (gap d b) k x) :
    ∃ j, k = j + 1 ∧ Close d (gap d b) j c := by
  have hmem := h.mem
  obtain ⟨hreach, before, after, hlong, hbefore⟩ := h
  obtain ⟨hc, hlt⟩ := hx.of_mem_long hmem
  have hle := hb.nearest c hc hreach
  have hgap : ∀ y ∈ before, gap d y < gap d b := fun y hy =>
    hb.gap_lt hf hx (by simp [hlong, hy]) (hbefore y hy)
  have htowards : towards d.toInt x.toInt =
      before.map Int64.toInt ++ c.toInt :: after.map Int64.toInt := by
    rw [← long_toInt, hlong, List.map_append, List.map_cons]
  have hhalf : 2 * (gap d c - gap d b) ≤ gap d x - gap d b :=
    (hx.sameSide hside).halves htowards (by simpa [gap] using hgap) hle
  cases k with
  | zero =>
    simp only [Close, Nat.pow_zero] at hk
    omega
  | succ j =>
    refine ⟨j, rfl, .inl ?_⟩
    rcases hk with hk | ⟨hzero, -⟩
    · rw [Nat.pow_succ] at hk
      omega
    · -- The destination is the boundary, and it comes first.
      have hnil : before = [] := List.eq_nil_iff_forall_not_mem.2 fun y hy => by
        have := hgap y hy
        omega
      have hne : d.toInt ≠ x.toInt := by
        unfold gap at hlt
        omega
      have hd : c.toInt = d.toInt := by
        simpa [htowards, hnil] using towards_head? hne
      have : gap d c = 0 := by simp [gap, hd]
      rw [this, Nat.zero_sub]
      exact Nat.two_pow_pos j

end FirstReaching

/-- If no candidate's image reaches the threshold, the value itself is the
boundary. -/
theorem IsBoundary.of_forall_lt {d v x : Int64} {f : Int64 → Int64} {threshold : Int64}
    (hside : SameSide d.toInt v.toInt) (hf : MonotoneFrom d v f) (hx : Between d v x)
    (hreach : threshold ≤ f x) (hlt : ∀ c ∈ long d x, f c < threshold) :
    IsBoundary d v f threshold x := by
  refine ⟨hx, hreach, fun y hy hreachy => Nat.le_of_not_lt fun hgap => ?_⟩
  have hne : d ≠ x := by
    rintro rfl
    simp [gap] at hgap
  -- One unit nearer the image is below the threshold already.
  have hmem := nearer_mem_long (hx.sameSide hside) hne
  have hunit := gap_nearer hne
  have hle : gap d y ≤ gap d (nearer d x) := by omega
  have := hf y _ hy (hx.of_mem_long hmem).1 hle
  exact Int64.not_lt.2 (Int64.le_trans hreachy this) (hlt _ hmem)

/-- Minimizing was complete, with at most so many steps to a value. -/
structure Minimized.CompleteAt {α : Type} (m : Minimized α) (v : α) (steps : Nat) : Prop where
  value : m.value = v
  exhausted : m.exhausted = false
  steps_le : m.steps ≤ steps

namespace Minimize

/-- What is known when the search for a boundary has come to `x`. -/
structure Climb (d v : Int64) (f : Int64 → Int64) (threshold x : Int64)
    (p : Progress Int64) : Prop where
  between : Between d v x
  reaches : threshold ≤ f x
  form : p.form = inspect (f x)
  /-- What was met is below the threshold or no smaller than what is left. -/
  met : ∀ form ∈ p.met, ∃ y, inspect y = form ∧ (y < threshold ∨ f x ≤ y)

namespace Climb

variable {d v x c : Int64} {f : Int64 → Int64} {threshold : Int64} {p q : Progress Int64}

theorem start (hv : threshold ≤ f v) : Climb d v f threshold v (Progress.start (f v)) where
  between := by
    unfold Between
    omega
  reaches := hv
  form := rfl
  met form hform := ⟨f v, ((Progress.mem_met_start _).1 hform).symm, .inr (Int64.le_refl _)⟩

theorem expand (h : Climb d v f threshold x p) : Climb d v f threshold x p.expand :=
  ⟨h.between, h.reaches, h.form, h.met⟩

theorem note (h : Climb d v f threshold x p) {y : Int64} (hy : y < threshold ∨ f x ≤ y) :
    Climb d v f threshold x (p.note y) where
  between := h.between
  reaches := h.reaches
  form := h.form
  met form hform := by
    rcases p.mem_met_note y |>.1 hform with rfl | hform
    · exact ⟨y, rfl, hy⟩
    · exact h.met form hform

theorem passOver (h : Climb d v f threshold x p) {ts : List (Tree Int64)}
    (hpass : PassOver (Verdict.below threshold) p ts q) : Climb d v f threshold x q :=
  hpass.keeps (fun _ _ _ hr _ hc => hr.note (.inl (Verdict.below_eq_pass.1 hc))) h

/-- The search goes on to a candidate whose image reaches the threshold. -/
theorem go (h : Climb d v f threshold x p) (hf : MonotoneFrom d v f) (hc : c ∈ long d x)
    (hreach : threshold ≤ f c) (hform : q.form = inspect (f c))
    (hmet : ∀ form ∈ q.met, form = inspect (f c) ∨ form ∈ p.met) :
    Climb d v f threshold c q := by
  obtain ⟨hbetween, hgap⟩ := h.between.of_mem_long hc
  refine ⟨hbetween, hreach, hform, fun form hmem => ?_⟩
  rcases hmet form hmem with rfl | hmem
  · exact ⟨f c, rfl, .inr (Int64.le_refl _)⟩
  · obtain ⟨y, hy, hlt | hle⟩ := h.met form hmem
    · exact ⟨y, hy, .inl hlt⟩
    · exact ⟨y, hy, .inr (Int64.le_trans (hf c x hbetween h.between (Nat.le_of_lt hgap)) hle)⟩

/-- A candidate whose image was met, and is not that of `x` itself, is below
the threshold. -/
theorem lt_of_met (h : Climb d v f threshold x p) (hf : MonotoneFrom d v f)
    (hc : c ∈ long d x) (hne : f c ≠ f x) (hmet : inspect (f c) ∈ p.met) : f c < threshold := by
  obtain ⟨hbetween, hgap⟩ := h.between.of_mem_long hc
  obtain ⟨y, hy, hlt | hle⟩ := h.met _ hmet
  · exact inspect_int64_injective hy ▸ hlt
  · have := hf c x hbetween h.between (Nat.le_of_lt hgap)
    rw [inspect_int64_injective hy] at hle
    exact absurd (Int64.le_antisymm this hle) hne

/-- The node of `x` in a tree that is mapped by `f`. -/
abbrev node (d : Int64) (f : Int64 → Int64) (x : Int64) : Tree Int64 :=
  (Tree.integer d x).map f

theorem children_node (d : Int64) (f : Int64 → Int64) (x : Int64) :
    Branching.children (node d f x) = (long d x).map (node d f) := by
  rw [children_tree, Tree.children_map, Tree.children_integer, List.map_map]
  rfl

/-- A candidate that the search has passed over, and whose image is not that of
`x`, is below the threshold. -/
theorem lt_of_passOver (h : Climb d v f threshold x p) (hf : MonotoneFrom d v f)
    {ts : List (Tree Int64)} (hpass : PassOver (Verdict.below threshold) p ts q)
    (hc : c ∈ long d x) (hmem : node d f c ∈ ts) (hne : f c ≠ f x) : f c < threshold := by
  have hq := h.passOver hpass
  rcases hpass.covers _ hmem with hform | hmet
  · exact absurd (inspect_int64_injective (hform.trans hq.form)) hne
  · exact hq.lt_of_met hf hc hne hmet

/-- A look that improves finds the first candidate that reaches the threshold. -/
theorem of_improved (h : Climb d v f threshold x p) (hf : MonotoneFrom d v f) {u : Tree Int64}
    (hlook : look (Verdict.below threshold) p none (row (node d f x)) = .improved u q) :
    ∃ c, u = node d f c ∧ FirstReaching d f threshold x c ∧ Climb d v f threshold c q ∧
      q.steps = p.steps + 1 := by
  obtain ⟨_, _, r, panic, hts, hpass, hfresh, hfail, rfl⟩ := of_look_improved hlook
  rw [toList_row, children_node, List.map_eq_append_iff] at hts
  obtain ⟨before, rest, hlong, rfl, hrest⟩ := hts
  obtain ⟨c, after, rfl, rfl, rfl⟩ := List.map_eq_cons_iff.1 hrest
  have hr := h.passOver hpass
  have hmem : c ∈ long d x := by simp [hlong]
  have hreach : threshold ≤ f c := by
    refine Int64.not_lt.1 fun hlt => ?_
    have hpass : Verdict.below threshold (f c) = .pass := Verdict.below_eq_pass.2 hlt
    exact absurd (hpass.symm.trans hfail) (by simp)
  refine ⟨c, rfl, ⟨hreach, before, after, hlong, fun b hb => ?_⟩,
    hr.go hf hmem hreach rfl fun form => (Progress.mem_met_note ..).1, ?_⟩
  · have hbmem : b ∈ long d x := by simp [hlong, hb]
    -- An image equal to that of `x` would force that of `c` to be equal too.
    have hne : f b ≠ f x := by
      intro heq
      have hbc : gap d b ≤ gap d c := by
        have hpair := (towards_pairwise d.toInt x.toInt)
        rw [← long_toInt, hlong, List.map_append, List.pairwise_append] at hpair
        exact Nat.le_of_lt (hpair.2.2 _ (List.mem_map_of_mem hb) c.toInt (by simp))
      have hcx := h.between.of_mem_long hmem
      have hle := hf b c (h.between.of_mem_long hbmem).1 hcx.1 hbc
      have hge := hf c x hcx.1 h.between (Nat.le_of_lt hcx.2)
      refine hfresh.1 ?_
      rw [hr.form]
      exact congrArg inspect (Int64.le_antisymm hge (heq ▸ hle))
    exact h.lt_of_passOver hf hpass hbmem (List.mem_map_of_mem hb) hne
  · rw [Progress.steps_accept, Progress.steps_note, hpass.steps_eq]

/-- A look that is stuck without a way sideways ends at the boundary. -/
theorem of_stuck (h : Climb d v f threshold x p) (hside : SameSide d.toInt v.toInt)
    (hf : MonotoneFrom d v f)
    (hlook : look (Verdict.below threshold) p none (row (node d f x)) = .stuck q none) :
    IsBoundary d v f threshold x ∧ q.steps = p.steps := by
  obtain ⟨hpass, hnone⟩ := of_look_stuck hlook
  rw [toList_row, children_node] at hpass hnone
  refine ⟨.of_forall_lt hside hf h.between h.reaches fun c hc => ?_, hpass.steps_eq⟩
  have hmem := List.mem_map_of_mem (f := node d f) hc
  refine h.lt_of_passOver hf hpass hc hmem fun heq => ?_
  have hform : inspect (f c) = p.form := by rw [heq, h.form]
  exact List.find?_eq_none.1 hnone.symm _ hmem (decide_eq_true hform)

/-- A look that is stuck with a way sideways has found that the first candidate
that reaches the threshold has the image of `x`. -/
theorem of_sideways (h : Climb d v f threshold x p) (hf : MonotoneFrom d v f) {u : Tree Int64}
    (hlook : look (Verdict.below threshold) p none (row (node d f x)) = .stuck q (some u)) :
    ∃ c, u = node d f c ∧ FirstReaching d f threshold x c ∧ Climb d v f threshold c q ∧
      q.steps = p.steps := by
  obtain ⟨hpass, hu⟩ := of_look_stuck hlook
  rw [toList_row, children_node] at hpass hu
  have hq := h.passOver hpass
  obtain ⟨hform, as, bs, hsplit, has⟩ := List.find?_eq_some_iff_append.1 hu.symm
  obtain ⟨before, rest, hlong, rfl, hrest⟩ := List.map_eq_append_iff.1 hsplit
  obtain ⟨c, after, rfl, rfl, rfl⟩ := List.map_eq_cons_iff.1 hrest
  have hmem : c ∈ long d x := by simp [hlong]
  have hform : inspect (f c) = p.form := of_decide_eq_true hform
  have heq : f c = f x := inspect_int64_injective (hform.trans h.form)
  have hreach : threshold ≤ f c := heq ▸ h.reaches
  refine ⟨c, rfl, ⟨hreach, before, after, hlong, fun b hb => ?_⟩,
    hq.go hf hmem hreach (hpass.form_eq.trans hform.symm) fun _ => .inr, hpass.steps_eq⟩
  have hbmem : b ∈ long d x := by simp [hlong, hb]
  refine h.lt_of_passOver hf hpass hbmem (List.mem_map_of_mem hbmem) fun heq => ?_
  -- An earlier child with the form of the node would have been kept instead.
  have hbform : inspect (f b) = p.form := by rw [heq, h.form]
  have hnot := has _ (List.mem_map_of_mem hb)
  rw [Bool.not_eq_true'] at hnot
  exact absurd hbform (of_decide_eq_false hnot)

/-- From a place close to the boundary `b` the search ends there. Every step and
every sideways move uses up one halving. -/
theorem search (hside : SameSide d.toInt v.toInt) (hf : MonotoneFrom d v f) {b : Int64}
    (hb : IsBoundary d v f threshold b) (steps moves : Nat) (t : Tree Int64)
    (p : Progress Int64) :
    ∀ {x k}, t = node d f x → Climb d v f threshold x p → Close d (gap d b) k x → k < steps →
      k ≤ moves → (Minimize.search (Verdict.below threshold) steps moves t p).CompleteAt (f b)
        (p.steps + k) := by
  fun_induction Minimize.search (Verdict.below threshold) steps moves t p
  case case1 =>
    intro x k _ _ _ hsteps
    omega
  case case2 moves t p below p' steps u q hlook ih =>
    rintro x k rfl h hk hsteps hmoves
    obtain ⟨c, rfl, hfirst, hclimb, hcounted⟩ := h.expand.of_improved hf hlook
    obtain ⟨j, rfl, hj⟩ := hfirst.close hside hf hb h.between hk
    obtain ⟨hvalue, hexhausted, hle⟩ := ih rfl hclimb hj (by omega) (by omega)
    rw [Progress.steps_expand] at hcounted
    exact ⟨hvalue, hexhausted, by omega⟩
  case case3 moves t p below p' steps q hlook =>
    rintro x k rfl h hk hsteps hmoves
    obtain ⟨hx, hcounted⟩ := h.expand.of_stuck hside hf hlook
    refine ⟨?_, rfl, ?_⟩
    · rw [hx.unique hb]
      rfl
    · exact Nat.le_trans (Nat.le_of_eq hcounted) (Nat.le_add_right _ _)
  case case4 t p below p' steps q u hlook =>
    rintro x k rfl h hk hsteps hmoves
    obtain ⟨c, rfl, hfirst, -⟩ := h.expand.of_sideways hf hlook
    obtain ⟨j, rfl, -⟩ := hfirst.close hside hf hb h.between hk
    omega
  case case5 t p below p' steps q u hlook moves ih =>
    rintro x k rfl h hk hsteps hmoves
    obtain ⟨c, rfl, hfirst, hclimb, hcounted⟩ := h.expand.of_sideways hf hlook
    obtain ⟨j, rfl, hj⟩ := hfirst.close hside hf hb h.between hk
    obtain ⟨hvalue, hexhausted, hle⟩ := ih rfl hclimb hj (by omega) (by omega)
    rw [Progress.steps_expand] at hcounted
    exact ⟨hvalue, hexhausted, by omega⟩

end Climb

end Minimize

/-- The limits of a 64-bit integer allow for 63 halvings. -/
theorem Close.start {d v b : Int64} (hside : SameSide d.toInt v.toInt) :
    Close d (gap d b) 63 v := by
  have hd := d.le_toInt
  have hd' := d.toInt_lt
  have hv := v.le_toInt
  have hv' := v.toInt_lt
  unfold SameSide at hside
  unfold Close gap
  omega

/-- An integer between `lo` and `hi` shrinks to the exact boundary of a threshold,
under any function that does not decrease on the way to it. At most 63 steps
lead there. -/
theorem Tree.minimize_boundary {lo hi v : Int64} (hlo : lo ≤ v) (hhi : v ≤ hi)
    {f : Int64 → Int64} (hf : MonotoneFrom (destination lo hi) v f) {threshold : Int64}
    (hv : threshold ≤ f v) {limit : Nat} (hlimit : 64 ≤ limit) :
    let d := destination lo hi
    let m := ((Tree.integer d v).map f).minimize limit (Verdict.below threshold)
    ∃ x, IsBoundary d v f threshold x ∧ (∀ y, IsBoundary d v f threshold y → y = x) ∧
      m.CompleteAt (f x) 63 := by
  intro d m
  have hside : SameSide d.toInt v.toInt := destination_sameSide hlo hhi
  obtain ⟨x, hx⟩ := IsBoundary.exists (d := d) hv
  have hcomplete :=
    Minimize.Climb.search hside hf hx limit limit _ _ rfl (Minimize.Climb.start hv)
      (Close.start hside) (by omega) (by omega)
  have hm : m = Minimize.minimize limit (Verdict.below threshold) _ := Tree.minimize_eq ..
  rw [hm]
  exact ⟨x, hx, fun y hy => hy.unique hx, hcomplete⟩

theorem monotoneFrom_tenths : MonotoneFrom (destination (-1000) 1000) 137 (· / 10) := by
  intro x y hx hy hle
  rw [show destination (-1000) 1000 = 0 by decide] at hx hy hle
  simp only [Between, gap, show (0 : Int64).toInt = 0 by decide,
    show (137 : Int64).toInt = 137 by decide] at hx hy hle
  rw [Int64.le_iff_toInt_le, Int64.toInt_div_of_ne_right _ _ (by decide),
    Int64.toInt_div_of_ne_right _ _ (by decide), Int.tdiv_eq_ediv_of_nonneg (by omega),
    Int.tdiv_eq_ediv_of_nonneg (by omega)]
  exact Int.ediv_le_ediv (by decide) (by omega)

/-- A number above fifty of which only the tenths are seen. -/
theorem Tree.minimize_boundary_tenths :
    let d := destination (-1000) 1000
    let f : Int64 → Int64 := (· / 10)
    let m := ((Tree.integer d 137).map f).minimize 64 (Verdict.below 5)
    ((-1000 : Int64) ≤ 137 ∧ (137 : Int64) ≤ 1000) ∧ MonotoneFrom d 137 f ∧ 5 ≤ f 137 ∧
      ∃ x, IsBoundary d 137 f 5 x ∧ (∀ y, IsBoundary d 137 f 5 y → y = x) ∧
        m.CompleteAt (f x) 63 :=
  ⟨⟨by decide, by decide⟩, monotoneFrom_tenths, by decide,
    Tree.minimize_boundary (by decide) (by decide) monotoneFrom_tenths (by decide)
      (Nat.le_refl 64)⟩

end PropertyTesting
