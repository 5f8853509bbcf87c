import Mathlib.Data.List.Nodup
import Mathlib.Data.Nat.PSub
import PropertyTesting.Proofs.Shrink.Cut
import PropertyTesting.Proofs.Shrink.Repeats

/-!
The order of the cuts of a list. The guards under which a cut comes into question
let pass some that leave too few elements and some that were there before. A sieve
drops these afterwards, in one go in which nothing is ever taken from what is too
small for it. What is kept is legal, and the biggest comes first.
-/

namespace PropertyTesting

namespace Cut

variable {len min : Nat} {c : Cut} {seen cs : List Cut}

/-- Keep the legal cuts that were not seen before. -/
def sieve? (len min : Nat) (seen : List Cut) : List Cut → Option (List Cut)
  | [] => some []
  | c :: cs => do
    let size ← c.stop.psub c.start
    let left ← len.psub size
    let kept ← sieve? len min (c :: seen) cs
    return if c.start < c.stop ∧ c ∉ seen ∧ min ≤ left then c :: kept else kept

/-- The cuts that come into question for a list longer than `min`. -/
def drafts? (len min : Nat) : Option (List Cut) := do
  let half := len / 2
  let other ← len.psub half
  let most ← len.psub 1
  return [⟨min, len⟩]
    ++ (if min ≤ other then [⟨half, len⟩] else [])
    ++ (if 0 < half ∧ min ≤ other then [⟨0, half⟩] else [])
    ++ (if min ≤ most ∧ 1 < len then (List.range len).map fun i => ⟨i, i + 1⟩ else [])

/-- The cuts of a list that leave at least `min` elements, if all differences on
the way exist. -/
def sieved? (len min : Nat) : Option (List Cut) :=
  if len ≤ min then some [] else drafts? len min >>= sieve? len min []

theorem drafts?_eq (h : min < len) :
    drafts? len min = some (stretches len min ++ singles len min) := by
  have hhalf : len / 2 ≤ len := Nat.div_le_self len 2
  have hone : 1 ≤ len := by omega
  simp only [drafts?, Nat.psub_eq_sub hhalf, Nat.psub_eq_sub hone]
  rfl

theorem sieve?_cons (hstart : c.start ≤ c.stop) (hsize : c.size ≤ len) :
    sieve? len min seen (c :: cs) =
      (sieve? len min (c :: seen) cs).map fun kept =>
        if c ∉ seen ∧ c.Legal len min then c :: kept else kept := by
  have hcond : (c.start < c.stop ∧ c ∉ seen ∧ min ≤ len - (c.stop - c.start)) ↔
      c ∉ seen ∧ c.Legal len min := and_left_comm
  rw [size] at hsize
  simp only [sieve?, Nat.psub_eq_sub hstart, Nat.psub_eq_sub hsize, Option.bind_eq_bind,
    Option.bind_some, Option.map_eq_bind, hcond]
  rfl

theorem removeAll_cons_eq_filter (c : Cut) (seen cs : List Cut) :
    cs.removeAll (c :: seen) = (cs.removeAll seen).filter fun d => !d == c := by
  rw [List.removeAll_cons]
  simp only [List.removeAll, List.filter_filter, Bool.and_comm]

/-- The sieve keeps of each legal cut the first, unless it was seen before. -/
theorem sieve?_eq (h : ∀ c ∈ cs, c.start ≤ c.stop ∧ c.size ≤ len) :
    sieve? len min seen cs =
      some ((cs.removeAll seen).eraseDups.filter fun c => c.Legal len min) := by
  induction cs generalizing seen with
  | nil => rfl
  | cons c cs ih =>
    obtain ⟨⟨hstart, hsize⟩, hcs⟩ := List.forall_mem_cons.1 h
    rw [sieve?_cons hstart hsize, ih hcs, Option.map_some, removeAll_cons_eq_filter,
      List.cons_removeAll]
    by_cases hseen : c ∈ seen
    · -- A cut that was seen is not among those that are left either.
      have hne : ∀ d ∈ cs.removeAll seen, (!d == c) = true := by
        intro d hd
        have hd : d ∈ cs ∧ d ∉ seen := by simpa [List.removeAll] using hd
        simpa using fun hdc : d = c => hd.2 (hdc ▸ hseen)
      rw [List.filter_eq_self.2 hne]
      simp [hseen]
    · simp [hseen, List.eraseDups_cons, List.filter_cons]

theorem Legal.size_pos (h : c.Legal len min) : 0 < c.size :=
  Nat.sub_pos_of_lt h.1

/-- No legal cut is bigger than the one that takes everything above the minimum. -/
theorem Legal.size_le (h : c.Legal len min) (hstop : c.stop ≤ len) : c.size ≤ len - min := by
  have hleft := h.2
  rw [size] at hleft ⊢
  omega

theorem legal_everything (h : min < len) : Legal len min ⟨min, len⟩ :=
  ⟨h, by simp only [size]; omega⟩

theorem size_single (hc : c ∈ singles len min) : c.size = 1 := by
  obtain ⟨-, i, -, rfl⟩ := mem_singles.1 hc
  exact Nat.add_sub_cancel_left i 1

theorem nodup_singles (len min : Nat) : (singles len min).Nodup := by
  unfold singles
  split
  · refine List.Nodup.map (fun i j hij => ?_) List.nodup_range
    exact congrArg start hij
  · exact .nil

/-- Whatever comes into question lies within the list. -/
theorem drafts_within (h : min < len) (hc : c ∈ stretches len min ++ singles len min) :
    c.start ≤ c.stop ∧ c.stop ≤ len := by
  rcases List.mem_append.1 hc with hc | hc
  · refine ⟨?_, mem_stretches_stop_le hc⟩
    rcases mem_stretches hc with rfl | rfl | rfl
    · exact Nat.le_of_lt h
    · exact Nat.div_le_self len 2
    · exact Nat.zero_le _
  · obtain ⟨-, i, hi, rfl⟩ := mem_singles.1 hc
    exact ⟨Nat.le_succ i, hi⟩

/-- Of the cuts that come into question the legal ones do not become bigger. The second
half may be one element bigger than the first, and it stands before it. -/
theorem drafts_pairwise (len min : Nat) :
    (stretches len min ++ singles len min).Pairwise fun b c =>
      b.Legal len min → c.Legal len min → c.size ≤ b.size := by
  refine List.pairwise_append.2 ⟨?_, ?_, ?_⟩
  · refine List.Pairwise.sublist (stretches_sublist len min) ?_
    have hhalves : size ⟨0, len / 2⟩ ≤ size ⟨len / 2, len⟩ := by
      simp only [size]
      omega
    simp only [List.pairwise_cons, List.mem_cons, List.not_mem_nil, or_false, forall_eq_or_imp,
      forall_eq, false_imp_iff, implies_true, List.Pairwise.nil, and_true]
    refine ⟨⟨fun _ hc => ?_, fun _ hc => ?_⟩, fun _ _ => hhalves⟩
    · exact hc.size_le (Nat.le_refl len)
    · exact hc.size_le (Nat.div_le_self len 2)
  · refine List.pairwise_of_forall_mem_list fun b hb c hc _ _ => ?_
    exact Nat.le_of_eq ((size_single hc).trans (size_single hb).symm)
  · intro b _ c hc hb _
    rw [size_single hc]
    exact hb.size_pos

/-- The cuts are the legal ones among those that come into question, each where
it comes first. -/
theorem all_eq (h : min < len) :
    all len min =
      (stretches len min ++ singles len min).eraseDups.filter fun c => c.Legal len min := by
  have hshort : ((singles len min).filter fun c => !(stretches len min).eraseDups.contains c) =
      (singles len min).removeAll (stretches len min) := by
    refine List.filter_congr fun c _ => ?_
    simp
  rw [all, if_neg (by omega), List.eraseDups_append, ← hshort,
    eraseDups_of_nodup ((nodup_singles len min).filter _)]

theorem all_of_le (h : len ≤ min) : all len min = [] :=
  if_pos h

theorem nodup_all (len min : Nat) : (all len min).Nodup := by
  rcases Nat.lt_or_ge min len with h | h
  · rw [all_eq h]
    exact (nodup_eraseDups _).filter _
  · rw [all_of_le h]
    exact .nil

/-- The cuts do not become bigger. -/
theorem all_pairwise (len min : Nat) : (all len min).Pairwise fun b c => c.size ≤ b.size := by
  rcases Nat.lt_or_ge min len with h | h
  · rw [all_eq h, List.pairwise_filter]
    simp only [decide_eq_true_eq]
    exact (drafts_pairwise len min).sublist (eraseDups_sublist _)
  · rw [all_of_le h]
    exact .nil

theorem head?_all (h : min < len) : (all len min).head? = some ⟨min, len⟩ := by
  have hcons : stretches len min ++ singles len min =
      ⟨min, len⟩ :: ((stretches len min).tail ++ singles len min) := rfl
  rw [all_eq h, hcons, List.eraseDups_cons, List.filter_cons,
    if_pos (decide_eq_true (legal_everything h))]
  rfl

theorem all_eq_nil : all len min = [] ↔ len ≤ min := by
  refine ⟨fun hnil => ?_, all_of_le⟩
  by_contra h
  have hhead := head?_all (Nat.lt_of_not_le h)
  rw [hnil] at hhead
  cases hhead

/-- All differences on the way to the cuts exist. -/
theorem sieved?_eq (len min : Nat) : sieved? len min = some (all len min) := by
  rcases Nat.lt_or_ge min len with h | h
  · rw [sieved?, if_neg (by omega), drafts?_eq h, Option.bind_eq_bind, Option.bind_some,
      sieve?_eq, List.removeAll_nil, all_eq h]
    intro c hc
    obtain ⟨hstart, hstop⟩ := drafts_within h hc
    rw [size]
    exact ⟨hstart, by omega⟩
  · rw [sieved?, if_pos h, all_of_le h]

/-- The cuts of a list are legal, complete and biggest first. There are some as long as
the list is longer than it must be. All lie in the list, take something away and leave
enough; none occurs twice, and none is bigger than one before it. The first is as big as
any that is legal, and every single element has its cut. No difference that is formed on
the way to them goes below zero. -/
theorem all_biggest_first (len min : Nat) :
    (all len min = [] ↔ len ≤ min) ∧
    (∀ c ∈ all len min, c.stop ≤ len ∧ c.Legal len min) ∧
    (all len min).Nodup ∧
    ((all len min).Pairwise fun b c => c.size ≤ b.size) ∧
    (min < len → ∃ first, (all len min).head? = some first ∧
      ∀ c : Cut, c.stop ≤ len → c.Legal len min → c.size ≤ first.size) ∧
    (min < len → ∀ i < len, ⟨i, i + 1⟩ ∈ all len min) ∧
    sieved? len min = some (all len min) := by
  refine ⟨all_eq_nil, fun c hc => ⟨stop_le_of_mem_all hc, legal_of_mem_all hc⟩,
    nodup_all len min, all_pairwise len min, fun h => ⟨_, head?_all h, ?_⟩,
    fun h i hi => single_mem_all h hi, sieved?_eq len min⟩
  exact fun c hstop hc => hc.size_le hstop

/-- Of five elements three must stay. The second half comes into question, though it has
three elements; it is not legal and is dropped. -/
theorem all_biggest_first_odd :
    stretches 5 3 = [⟨3, 5⟩, ⟨2, 5⟩, ⟨0, 2⟩] ∧ ⟨2, 5⟩ ∉ all 5 3 ∧
      ⟨0, 2⟩ ∈ all 5 3 ∧ 2 ≤ 5 ∧ Legal 5 3 ⟨0, 2⟩ ∧ 3 < 5 ∧
      (∃ first, (all 5 3).head? = some first ∧
        ∀ c : Cut, c.stop ≤ 5 → c.Legal 5 3 → c.size ≤ first.size) ∧
      ∀ i < 5, ⟨i, i + 1⟩ ∈ all 5 3 := by
  have hmem : ⟨0, 2⟩ ∈ all 5 3 := by decide
  have h : 3 < 5 := by decide
  obtain ⟨-, hlegal, -, -, hfirst, hsingle, -⟩ := all_biggest_first 5 3
  exact ⟨by decide, by decide, hmem, (hlegal _ hmem).1, (hlegal _ hmem).2, h, hfirst h, hsingle h⟩

end Cut

end PropertyTesting
