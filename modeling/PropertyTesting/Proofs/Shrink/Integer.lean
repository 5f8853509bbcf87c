import Mathlib.Data.List.Chain
import PropertyTesting.Proofs.Shrink.Repeats
import PropertyTesting.Shrink.Integer
import PropertyTesting.Tree.Basic

/-!
Where the candidates for an integer lie. Going down the list they move away
from the destination and stop before the value, and from each candidate to the
next the distance to the value is halved. The last one is a unit away from the
value, as long as value and destination are on one side of zero; for a
destination that is the origin of a range they are.
-/

namespace PropertyTesting.Shrink

theorem tdiv_two_spec (n : Int) :
    (0 ≤ n → n ≤ 2 * n.tdiv 2 + 1 ∧ 2 * n.tdiv 2 ≤ n) ∧
      (n ≤ 0 → n ≤ 2 * n.tdiv 2 ∧ 2 * n.tdiv 2 ≤ n + 1) := by
  constructor
  · intro hn
    rw [Int.tdiv_eq_ediv_of_nonneg hn]
    omega
  · intro hn
    obtain ⟨m, rfl⟩ : ∃ m, n = -m := ⟨-n, by omega⟩
    rw [Int.neg_tdiv, Int.tdiv_eq_ediv_of_nonneg (by omega)]
    omega

@[simp] theorem halvings_zero : halvings 0 = [] := by
  simp [halvings]

theorem halvings_of_ne {n : Int} (hn : n ≠ 0) : halvings n = n :: halvings (n.tdiv 2) := by
  rw [halvings, if_neg hn]

theorem mem_halvings {n s : Int} (hs : s ∈ halvings n) : 0 < s ∧ s ≤ n ∨ s < 0 ∧ n ≤ s := by
  fun_induction halvings n with
  | case1 => simp at hs
  | case2 n hn ih =>
    have half := tdiv_two_spec n
    rcases List.mem_cons.1 hs with rfl | hs
    · omega
    · have := ih hs
      omega

theorem halvings_pairwise (n : Int) :
    (halvings n).Pairwise fun r s => s.natAbs < r.natAbs := by
  fun_induction halvings n with
  | case1 => exact .nil
  | case2 n hn ih =>
    refine .cons (fun s hs => ?_) ih
    have half := tdiv_two_spec n
    have := mem_halvings hs
    omega

theorem halvings_isChain (n : Int) : (halvings n).IsChain fun r s => s = r.tdiv 2 := by
  fun_induction halvings n with
  | case1 => exact .nil
  | case2 n hn ih =>
    refine ih.cons fun s hs => ?_
    by_cases hz : n.tdiv 2 = 0
    · simp [hz] at hs
    · rw [halvings_of_ne hz] at hs
      simpa using hs.symm

theorem sign_mem_halvings {n : Int} (hn : n ≠ 0) : n.sign ∈ halvings n := by
  fun_induction halvings n with
  | case1 => contradiction
  | case2 n hn ih =>
    have half := tdiv_two_spec n
    by_cases hz : n.tdiv 2 = 0
    · -- The halves end here, at one or minus one.
      obtain rfl | rfl : n = 1 ∨ n = -1 := by omega
      · simp
      · simp
    · have hsign : n.sign = (n.tdiv 2).sign := by
        rcases Int.lt_or_gt_of_ne hn with hn | hn
        · rw [Int.sign_eq_neg_one_of_neg hn, Int.sign_eq_neg_one_of_neg (by omega)]
        · rw [Int.sign_eq_one_of_pos hn, Int.sign_eq_one_of_pos (by omega)]
      exact hsign ▸ List.mem_cons_of_mem _ (ih hz)

/-- Half the distance from one number to another, in which odd numbers count
as the even ones next to them towards zero. -/
def half (destination value : Int) : Int :=
  value.tdiv 2 - destination.tdiv 2

/-- Both numbers are on the same side of zero, the destination no farther. -/
def SameSide (destination value : Int) : Prop :=
  0 ≤ destination ∧ destination ≤ value ∨ value ≤ destination ∧ destination ≤ 0

theorem origin_mem {lo hi : Int} (h : lo ≤ hi) : lo ≤ origin lo hi ∧ origin lo hi ≤ hi := by
  unfold origin
  split
  · omega
  · split <;> omega

theorem origin_sameSide {lo hi v : Int} (hlo : lo ≤ v) (hhi : v ≤ hi) :
    SameSide (origin lo hi) v := by
  unfold origin SameSide
  split
  · omega
  · split <;> omega

section Half

variable {d v : Int}

theorem half_bounds :
    (d ≤ v → 0 ≤ half d v ∧ 2 * half d v ≤ v - d + 1) ∧
      (v ≤ d → half d v ≤ 0 ∧ v - d - 1 ≤ 2 * half d v) := by
  have hd := tdiv_two_spec d
  have hv := tdiv_two_spec v
  unfold half
  omega

theorem SameSide.le_half (h : SameSide d v) :
    (v - d).natAbs ≤ 2 * (half d v).natAbs + 1 := by
  have hd := tdiv_two_spec d
  have hv := tdiv_two_spec v
  unfold SameSide at h
  unfold half
  omega

end Half

/-- The candidates without duplicates to erase: next to its destination a value
has no other candidate. -/
theorem towards_cases {d v : Int} (h : d ≠ v) :
    (v - d).natAbs = 1 ∧ towards d v = [d] ∨
      2 ≤ (v - d).natAbs ∧ towards d v = d :: (halvings (half d v)).map (v - ·) := by
  have hhalf := half_bounds (d := d) (v := v)
  rw [towards, if_neg h, ← half]
  by_cases hone : (v - d).natAbs = 1
  · refine .inl ⟨hone, ?_⟩
    -- Half of one unit is nothing or the unit itself.
    obtain hz | hz : half d v = 0 ∨ half d v = v - d := by omega
    · simp [hz, List.eraseDups_cons]
    · obtain hu | hu : v - d = 1 ∨ v - d = -1 := by omega
      · simp [hz, hu, halvings, List.eraseDups_cons, show v - 1 = d by omega]
      · simp [hz, hu, halvings, List.eraseDups_cons, show v + 1 = d by omega]
  · refine .inr ⟨by omega, eraseDups_of_nodup (List.nodup_cons.2 ⟨?_, ?_⟩)⟩
    · intro hmem
      obtain ⟨s, hs, hds⟩ := List.mem_map.1 hmem
      have := mem_halvings hs
      omega
    · refine List.pairwise_map.2 ((halvings_pairwise _).imp fun hlt => ?_)
      omega

section Towards

variable {d v : Int}

theorem towards_self (d : Int) : towards d d = [] := by
  simp [towards]

theorem towards_head? (h : d ≠ v) : (towards d v).head? = some d := by
  rcases towards_cases h with ⟨-, ht⟩ | ⟨-, ht⟩ <;> rw [ht] <;> rfl

/-- Every candidate is nearer to the destination than the value is, and not
beyond it. -/
theorem mem_towards {c : Int} (hc : c ∈ towards d v) : d ≤ c ∧ c < v ∨ v < c ∧ c ≤ d := by
  have hdv : d ≠ v := by
    rintro rfl
    simp [towards_self] at hc
  have hhalf := half_bounds (d := d) (v := v)
  rcases towards_cases hdv with ⟨-, ht⟩ | ⟨htwo, ht⟩
  · obtain rfl : c = d := by simpa [ht] using hc
    omega
  · rw [ht] at hc
    rcases List.mem_cons.1 hc with rfl | hc
    · omega
    · obtain ⟨s, hs, rfl⟩ := List.mem_map.1 hc
      have := mem_halvings hs
      omega

/-- The candidates move away from the destination. -/
theorem towards_pairwise (d v : Int) :
    (towards d v).Pairwise fun b c => (b - d).natAbs < (c - d).natAbs := by
  by_cases hdv : d = v
  · simp [hdv, towards_self]
  have hhalf := half_bounds (d := d) (v := v)
  rcases towards_cases hdv with ⟨-, ht⟩ | ⟨htwo, ht⟩
  · simp [ht]
  · rw [ht, List.pairwise_cons, List.pairwise_map]
    constructor
    · intro c hc
      obtain ⟨s, hs, rfl⟩ := List.mem_map.1 hc
      have := mem_halvings hs
      omega
    · refine (halvings_pairwise _).imp_of_mem fun {r s} hr hs hlt => ?_
      have hr := mem_halvings hr
      have hs := mem_halvings hs
      omega

/-- From each candidate to the next one the distance to the value is halved,
rounding down. -/
theorem SameSide.towards_isChain (h : SameSide d v) :
    (towards d v).IsChain fun b c => (v - b).natAbs ≤ 2 * (v - c).natAbs + 1 := by
  by_cases hdv : d = v
  · simp [hdv, towards_self]
  rcases towards_cases hdv with ⟨-, ht⟩ | ⟨-, ht⟩
  · simp [ht]
  · rw [ht]
    refine List.IsChain.cons ?_ fun c hc => ?_
    · rw [List.isChain_map]
      refine (halvings_isChain _).imp fun r s hrs => ?_
      have half := tdiv_two_spec r
      omega
    · -- The first candidate after the destination is half the way.
      have hle := h.le_half
      by_cases hz : half d v = 0
      · simp [hz] at hc
      · obtain rfl : v - half d v = c := by simpa [halvings_of_ne hz] using hc
        omega

/-- The number one unit away from the value is a candidate. -/
theorem SameSide.unit_mem_towards (h : SameSide d v) (hdv : d ≠ v) :
    v - (v - d).sign ∈ towards d v := by
  rcases towards_cases hdv with ⟨hone, ht⟩ | ⟨htwo, ht⟩
  · rw [ht]
    obtain hu | hu : v - d = 1 ∨ v - d = -1 := by omega
    · simp [hu, show v - 1 = d by omega]
    · simp [hu, show v + 1 = d by omega]
  · have hle := h.le_half
    have hhalf := half_bounds (d := d) (v := v)
    have hsign : (v - d).sign = (half d v).sign := by
      rcases Int.lt_or_gt_of_ne hdv with hlt | hlt
      · rw [Int.sign_eq_one_of_pos (by omega), Int.sign_eq_one_of_pos (by omega)]
      · rw [Int.sign_eq_neg_one_of_neg (by omega), Int.sign_eq_neg_one_of_neg (by omega)]
    rw [ht, hsign]
    exact List.mem_cons_of_mem _
      (List.mem_map_of_mem (sign_mem_halvings (by omega)))

/-- A search for the first candidate at a distance of at least `m` from the
destination comes at least half of the remaining way closer to that distance. -/
theorem SameSide.halves (h : SameSide d v) {before after : List Int} {c : Int}
    (ht : towards d v = before ++ c :: after) {m : Nat}
    (hbefore : ∀ b ∈ before, (b - d).natAbs < m) (hc : m ≤ (c - d).natAbs) :
    2 * ((c - d).natAbs - m) ≤ (v - d).natAbs - m := by
  have hcmem := mem_towards (d := d) (v := v) (c := c) (by simp [ht])
  rcases List.eq_nil_or_concat before with rfl | ⟨before, b, rfl⟩
  · have hdv : d ≠ v := by omega
    have hd : c = d := by simpa [ht] using towards_head? hdv
    omega
  · have hbmem := mem_towards (d := d) (v := v) (c := b) (by simp [ht])
    have hlt := hbefore b (by simp)
    have hchain : (v - b).natAbs ≤ 2 * (v - c).natAbs + 1 :=
      List.isChain_iff_forall_rel_of_append_cons_cons.1 h.towards_isChain
        (by simpa using ht)
    omega

end Towards

section Long

variable {d v c : Int64}

theorem toInt_ofInt_of_between {d v : Int64} {c : Int}
    (h : d.toInt ≤ c ∧ c ≤ v.toInt ∨ v.toInt ≤ c ∧ c ≤ d.toInt) : (Int64.ofInt c).toInt = c := by
  have hd := d.le_toInt
  have hd' := d.toInt_lt
  have hv := v.le_toInt
  have hv' := v.toInt_lt
  exact Int64.toInt_ofInt_of_le (by omega) (by omega)

/-- No candidate for a 64-bit integer is cut short. -/
theorem long_toInt (d v : Int64) : (long d v).map Int64.toInt = towards d.toInt v.toInt := by
  rw [long, List.map_map]
  refine (List.map_congr_left fun c hc => ?_).trans (List.map_id _)
  have := mem_towards hc
  exact toInt_ofInt_of_between (d := d) (v := v) (by omega)

theorem mem_long : c ∈ long d v ↔ c.toInt ∈ towards d.toInt v.toInt := by
  rw [← long_toInt]
  exact (List.mem_map_of_injective fun a b hab => Int64.toInt_inj.1 hab).symm

theorem dest_mem_long (h : d ≠ v) : d ∈ long d v := by
  exact mem_long.2 (List.mem_of_mem_head? (towards_head? (mt Int64.toInt_inj.1 h)))

/-- How far an integer lies from a destination. -/
def gap (d x : Int64) : Nat :=
  (x.toInt - d.toInt).natAbs

theorem gap_lt_of_mem_long (hc : c ∈ long d v) : gap d c < gap d v := by
  have := mem_towards (mem_long.1 hc)
  unfold gap
  omega

/-- The value one unit nearer to a destination. -/
def nearer (destination value : Int64) : Int64 :=
  if destination < value then value - 1 else value + 1

theorem toInt_nearer (h : d ≠ v) :
    (nearer d v).toInt = v.toInt - (v.toInt - d.toInt).sign := by
  have hne : d.toInt ≠ v.toInt := mt Int64.toInt_inj.1 h
  have hd := d.le_toInt
  have hd' := d.toInt_lt
  have hv := v.le_toInt
  have hv' := v.toInt_lt
  rcases Int.lt_or_gt_of_ne hne with hlt | hlt
  · rw [nearer, if_pos (Int64.lt_iff_toInt_lt.2 hlt), Int64.toInt_sub,
      Int.sign_eq_one_of_pos (by omega)]
    exact Int.bmod_eq_of_le (by simp; omega) (by simp; omega)
  · rw [nearer, if_neg (fun h => by have := Int64.lt_iff_toInt_lt.1 h; omega), Int64.toInt_add,
      Int.sign_eq_neg_one_of_neg (by omega)]
    exact Int.bmod_eq_of_le (by simp; omega) (by simp; omega)

theorem gap_nearer (h : d ≠ v) : gap d (nearer d v) + 1 = gap d v := by
  have hnearer := toInt_nearer h
  rcases Int.lt_or_gt_of_ne (mt Int64.toInt_inj.1 h) with hlt | hlt
  · rw [Int.sign_eq_one_of_pos (by omega)] at hnearer
    unfold gap
    omega
  · rw [Int.sign_eq_neg_one_of_neg (by omega)] at hnearer
    unfold gap
    omega

/-- As long as value and destination are on one side of zero, the value one
unit nearer is a candidate. -/
theorem nearer_mem_long (hside : SameSide d.toInt v.toInt) (h : d ≠ v) :
    nearer d v ∈ long d v := by
  rw [mem_long, toInt_nearer h]
  exact hside.unit_mem_towards (mt Int64.toInt_inj.1 h)

/-- The number from `lo` to `hi` that is closest to zero, and so the one
towards which all numbers between them shrink. -/
def destination (lo hi : Int64) : Int64 :=
  Int64.ofInt (origin lo.toInt hi.toInt)

theorem toInt_destination {lo hi : Int64} (h : lo ≤ hi) :
    (destination lo hi).toInt = origin lo.toInt hi.toInt :=
  toInt_ofInt_of_between (.inl (origin_mem (Int64.le_iff_toInt_le.1 h)))

theorem destination_range {lo hi : Int64} (h : lo ≤ hi) :
    lo ≤ destination lo hi ∧ destination lo hi ≤ hi := by
  rw [Int64.le_iff_toInt_le, Int64.le_iff_toInt_le, toInt_destination h]
  exact origin_mem (Int64.le_iff_toInt_le.1 h)

/-- The candidates for a number from `lo` to `hi` are such numbers again. -/
theorem mem_long_range {lo hi : Int64} (hv : lo ≤ v ∧ v ≤ hi)
    (hc : c ∈ long (destination lo hi) v) : lo ≤ c ∧ c ≤ hi := by
  have hd := destination_range (Int64.le_trans hv.1 hv.2)
  have := mem_towards (mem_long.1 hc)
  simp only [Int64.le_iff_toInt_le] at *
  omega

theorem destination_sameSide {lo hi : Int64} (hlo : lo ≤ v) (hhi : v ≤ hi) :
    SameSide (destination lo hi).toInt v.toInt := by
  rw [toInt_destination (Int64.le_trans hlo hhi)]
  exact origin_sameSide (Int64.le_iff_toInt_le.1 hlo) (Int64.le_iff_toInt_le.1 hhi)

end Long

end PropertyTesting.Shrink

namespace PropertyTesting

/-- The tree of an integer that shrinks towards a destination. -/
def Tree.integer (d v : Int64) : Tree Int64 :=
  .unfold (.ofList ∘ Shrink.long d) v

@[simp] theorem Tree.value_integer (d v : Int64) : (Tree.integer d v).value = v := rfl

@[simp] theorem Tree.children_integer (d v : Int64) :
    (Tree.integer d v).children = (Shrink.long d v).map (Tree.integer d) := by
  rw [Tree.integer, Tree.children_unfold, Function.comp, Row.toList_ofList]
  rfl

end PropertyTesting
