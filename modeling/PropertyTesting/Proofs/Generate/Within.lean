import Mathlib.Data.Set.Basic
import PropertyTesting.Generate.Enumeration
import PropertyTesting.Generate.Join
import PropertyTesting.Proofs.Random.Yields
import PropertyTesting.Proofs.Shrink.Text
import PropertyTesting.Proofs.Tree.All

/-!
Arbitraries that stay in a set, with all three things that they give: samples,
whatever the samples shrink to, and edge cases. There is one lemma for each way
to make an arbitrary, and it says which set the arbitrary stays in if its parts
stay in theirs.
-/

namespace PropertyTesting

open PropertyTesting.Shrink

namespace Arbitrary

variable {α β : Type} {S T : Set α} {a : Arbitrary α}

/-- All samples, all that they shrink to, and all edge cases are in a set. -/
structure Within (a : Arbitrary α) (S : Set α) : Prop where
  sample : a.sample.Yields {s | s.shrinks.All S}
  edge : a.edge.Yields {e | ∀ v ∈ e, v ∈ S}

theorem Within.mono (h : a.Within S) (hST : S ⊆ T) : a.Within T where
  sample := h.sample.mono fun _ hs => hs.mono hST
  edge := h.edge.mono fun _ he v hv => hST (he v hv)

theorem within_ofSampler {sample : Attempt (Sample α)}
    (h : sample.Yields {s | s.shrinks.All S}) : (ofSampler sample).Within S :=
  ⟨h, Draw.yields_pure (by simp)⟩

theorem within_broken (reason : GeneratorFault) : (broken reason).Within S :=
  within_ofSampler (Attempt.yields_throw _)

theorem within_ofDraw {draw : Draw α} (h : draw.Yields S) : (ofDraw draw).Within S :=
  within_ofSampler ((Attempt.yields_lift h).bind fun _ hv =>
    Attempt.yields_pure (Tree.all_leaf hv))

theorem within_constant (v : α) : (constant v).Within {v} :=
  within_ofDraw (Draw.yields_pure rfl)

theorem within_shrinking {draw : Draw α} {shrink : α → Row α} (h : draw.Yields S)
    (hS : ∀ v ∈ S, ∀ c ∈ (shrink v).toList, c ∈ S) : (shrinking draw shrink).Within S :=
  within_ofSampler ((Attempt.yields_lift h).bind fun _ hv =>
    Attempt.yields_pure (Tree.all_unfold hS hv))

theorem Within.withEdges (h : a.Within S) (edges : List α) :
    (a.withEdges edges).Within (S ∪ {v | v ∈ edges}) where
  sample := h.sample.mono fun _ hs => hs.mono Set.subset_union_left
  edge := (Draw.choose_yields edges).mono fun _ he v hv => .inr (he v hv)

theorem Within.map (h : a.Within S) (f : α → β) : (a.map f).Within (f '' S) where
  sample := h.sample.bind fun _ hs => Attempt.yields_pure (hs.map f)
  edge := h.edge.bind fun e he => Draw.yields_pure fun w hw => by
    obtain ⟨v, hv, rfl⟩ := Option.map_eq_some_iff.1 hw
    exact Set.mem_image_of_mem f (he v hv)

/-- The tree of a sample that a filter accepts is a tree of the arbitrary, without what
the filter rejects. -/
theorem sampleAccepted_yields {P Q : Tree α → Prop} {p : α → Bool} (limit attempts : Nat)
    (h : a.sample.Yields {s | P s.shrinks}) (hprune : ∀ t, P t → p t.value → Q (t.prune p)) :
    (a.sampleAccepted p limit attempts).Yields {s | Q s.shrinks} := by
  induction attempts with
  | zero => exact Attempt.yields_throw _
  | succ attempts ih =>
    refine h.bind fun s hs => ?_
    by_cases hp : p s.shrinks.value
    · simp only [Tree.filter, hp, if_true]
      exact Attempt.yields_pure (hprune s.shrinks hs hp)
    · simp only [Tree.filter, hp]
      exact ih

theorem Within.filter (h : a.Within S) (p : α → Bool) (limit : Nat) :
    (a.filter p limit).Within {v | v ∈ S ∧ p v} where
  sample := sampleAccepted_yields (P := Tree.All S) limit limit h.sample fun _ ht hp => ht.prune hp
  edge := h.edge.bind fun e he => Draw.yields_pure fun v hv => by
    obtain ⟨hv, hp⟩ := Option.filter_eq_some_iff.1 hv
    exact ⟨he v hv, hp⟩

theorem Within.flatMap (h : a.Within S) {f : α → Arbitrary β} {U : α → Set β}
    (hf : ∀ v, (f v).Within (U v)) : (a.flatMap f).Within {w | ∃ v ∈ S, w ∈ U v} where
  sample := by
    refine h.sample.forked.bind fun s hs => ?_
    -- The shrinks of the outer sample are lost, so its root is all that counts.
    have hv : s.value ∈ S := s.root ▸ Tree.All.root hs
    exact (hf s.value).sample.forked.mono fun _ ht => ht.mono fun w hw => ⟨s.value, hv, hw⟩
  edge := by
    refine h.edge.forked.bind fun e he => ?_
    cases e with
    | none => exact Draw.yields_pure (by simp)
    | some v =>
      exact (hf v).edge.forked.mono fun _ hw w hmem => ⟨v, he v rfl, hw w hmem⟩

theorem within_longRange (lo hi : Int64) : (longRange lo hi).Within {n | lo ≤ n ∧ n ≤ hi} := by
  unfold longRange
  split
  · rename_i h
    have hdraw : Draw.Yields (do let n ← Draw.integer .wide h; return Int64.ofInt n)
        {n | lo ≤ n ∧ n ≤ hi} :=
      (Draw.integer_yields .wide h).bind fun n hn => Draw.yields_pure (by
        have hof := toInt_ofInt_of_between (.inl hn)
        simpa only [Set.mem_ofPred_eq, Int64.le_iff_toInt_le, hof] using hn)
    have hshrink := within_shrinking hdraw (fun v hv c hc => mem_long_range hv (by
      simpa using (show c ∈ (Row.ofList (Shrink.long (destination lo hi) v)).toList from hc)))
    refine (hshrink.withEdges (rangeEdges lo hi)).mono (Set.union_subset (fun _ => id) ?_)
    intro n hn
    simpa using (List.mem_filter.1 (List.mem_eraseDups.1 hn)).2
  · exact within_broken _

/-- Between the bounds of a 32-bit range nothing is cut off. -/
theorem toInt_toInt32_of_range {lo hi : Int32} {n : Int64}
    (hn : lo.toInt64 ≤ n ∧ n ≤ hi.toInt64) : n.toInt32.toInt = n.toInt := by
  have hlo := lo.le_toInt
  have hhi := hi.toInt_lt
  simp only [Int64.le_iff_toInt_le, Int32.toInt_toInt64] at hn
  rw [Int64.toInt_toInt32]
  exact Int.bmod_eq_of_le (by omega) (by omega)

theorem within_intRange (lo hi : Int32) : (intRange lo hi).Within {n | lo ≤ n ∧ n ≤ hi} := by
  refine ((within_longRange _ _).map Int64.toInt32).mono ?_
  rintro _ ⟨n, hn, rfl⟩
  rw [Set.mem_ofPred_eq, Int32.le_iff_toInt_le, Int32.le_iff_toInt_le, toInt_toInt32_of_range hn]
  simpa only [Set.mem_ofPred_eq, Int64.le_iff_toInt_le, Int32.toInt_toInt64] using hn

theorem string_closed {min max : Nat} {s t : String}
    (hs : s.toList ∈ listsOf Draw.printableChars min max) (ht : t ∈ (Shrink.string min s).toList) :
    t.toList ∈ listsOf Draw.printableChars min max := by
  rcases mem_string.1 ht with ⟨c, hc, ht⟩ | ht
  · exact ht ▸ listsOf_cut hs hc
  · obtain ⟨before, c, after, hcs, -, -, ht⟩ := simplifyFirst_eq_some ht
    obtain ⟨hlen, hall⟩ := hs
    rw [ht]
    refine ⟨by simpa [hcs] using hlen, fun b hb => ?_⟩
    rcases List.mem_append.1 hb with hb | hb
    · exact hall b (by simp [hcs, hb])
    · rcases List.mem_cons.1 hb with rfl | hb
      · exact Draw.mem_printableChars.2 (by decide)
      · exact hall b (by simp [hcs, hb])

theorem within_bool : bool.Within Set.univ :=
  within_shrinking (Draw.yields_univ _) fun _ _ _ _ => trivial

theorem within_char : char.Within Draw.printableChars := by
  refine within_shrinking Draw.printable_yields fun c hc b hb => ?_
  have hb := mem_char (by simpa using hb)
  rw [Draw.mem_printableChars] at *
  have ha : 'a'.toNat = 97 := rfl
  omega

theorem within_stringOf (min max : Nat) :
    (stringOf min max).Within {s | s.toList ∈ listsOf Draw.printableChars min max} := by
  unfold stringOf
  split
  · exact within_broken _
  · rename_i hle
    have hdraw : Draw.Yields
        (do let n ← Draw.between min max; let cs ← Draw.printables n; return String.ofList cs)
        {s | s.toList ∈ listsOf Draw.printableChars min max} :=
      (Draw.between_yields (Nat.le_of_not_lt hle)).bind fun n hn =>
        (Draw.printables_yields n).bind fun cs hcs => Draw.yields_pure (by
          rw [Set.mem_ofPred_eq, String.toList_ofList]
          exact ⟨hcs.1 ▸ hn, hcs.2⟩)
    have hshrink := within_shrinking hdraw fun s hs t ht => string_closed hs ht
    refine (hshrink.withEdges _).mono (Set.union_subset (fun _ => id) ?_)
    intro s hs
    split at hs
    · obtain rfl := List.mem_singleton.1 hs
      exact ⟨⟨by simp [*], Nat.zero_le _⟩, by simp⟩
    · simp at hs

theorem within_ofArray (values : Array α) (h : 0 < values.size) :
    (ofArray values h).Within {v | v ∈ values} :=
  within_ofDraw (Draw.Yields.bind (Draw.yields_univ (Draw.below .wide h)) fun i _ =>
    Draw.yields_pure (Array.getElem_mem i.isLt))

theorem firstEdge_yields {as : List (Arbitrary α)} (has : ∀ a ∈ as, a.Within S) :
    (firstEdge as).Yields {e | ∀ v ∈ e, v ∈ S} := by
  induction as with
  | nil => exact Draw.yields_pure (by simp)
  | cons a as ih =>
    obtain ⟨ha, has⟩ := List.forall_mem_cons.1 has
    refine ha.edge.bind fun e he => ?_
    cases e with
    | none => exact ih has
    | some v => exact Draw.yields_pure he

theorem within_oneOf {first : Arbitrary α} {rest : List (Arbitrary α)}
    (h : ∀ a ∈ first :: rest, a.Within S) : (oneOf first rest).Within S where
  sample := by
    refine Attempt.Yields.bind (Attempt.yields_lift (Draw.yields_univ _)) fun i _ => ?_
    exact (h _ (List.mem_toArray.1 (Array.getElem_mem i.isLt))).sample
  edge := by
    refine (Draw.shuffle_yields _).bind fun order horder => firstEdge_yields fun a ha => ?_
    exact h a (horder.mem_iff.1 ha)

/-- The tree of a sample of lists is made from as many trees of elements as the lengths
allow. -/
theorem sample_list_yields {P : Tree α → Prop} {Q : Tree (List α) → Prop} {min max : Nat}
    (h : a.sample.Yields {s | P s.shrinks})
    (hlist : ∀ ts ∈ listsOf {t | P t} min max, Q (.list ts min)) :
    (a.list min max).sample.Yields {s | Q s.shrinks} := by
  unfold Arbitrary.list
  split
  · exact Attempt.yields_throw _
  · rename_i hle
    have htree : Attempt.Yields
        (do let s ← Attempt.forked a.sample; return s.shrinks) {t | P t} :=
      h.forked.bind fun s hs => Attempt.yields_pure hs
    refine Attempt.Yields.bind
      (Attempt.yields_lift (Draw.between_yields (Nat.le_of_not_lt hle))) fun n hn => ?_
    refine (htree.times n).bind fun ts hts => Attempt.yields_pure (hlist ts ?_)
    exact ⟨hts.1 ▸ hn, hts.2⟩

theorem Within.list (h : a.Within S) (min max : Nat) :
    (a.list min max).Within (listsOf S min max) where
  sample := sample_list_yields (P := Tree.All S) h.sample fun _ hts => Tree.all_list hts
  edge := by
    unfold Arbitrary.list
    split
    · exact Draw.yields_pure (by simp)
    · have hchoose : ∀ single ∈ {ls | ∀ l ∈ ls, l ∈ listsOf S min max},
          (Draw.choose ((if min = 0 then [[]] else []) ++ single)).Yields
            {e | ∀ l ∈ e, l ∈ listsOf S min max} := by
        refine fun single hsingle => (Draw.choose_yields _).mono fun e he l hl => ?_
        rcases List.mem_append.1 (he l hl) with hl | hl
        · -- The empty list is offered only where no element is needed.
          split at hl
          · obtain rfl := List.mem_singleton.1 hl
            exact ⟨⟨by simp [*], Nat.zero_le _⟩, by simp⟩
          · simp at hl
        · exact hsingle l hl
      dsimp only
      split
      · rename_i hone
        refine h.edge.bind fun e he => Draw.Yields.bind (Draw.yields_pure ?_) hchoose
        intro l hl
        obtain ⟨v, hv, rfl⟩ := List.mem_map.1 hl
        exact ⟨hone, by simpa using he v (Option.mem_toList.1 hv)⟩
      · exact Draw.Yields.bind (Draw.yields_pure (by simp)) hchoose

theorem sample_option_yields {P : Tree α → Prop} {Q : Tree (Option α) → Prop}
    (h : a.sample.Yields {s | P s.shrinks}) (hnone : Q (.leaf none))
    (hsome : ∀ t, P t → Q t.optional) : a.option.sample.Yields {s | Q s.shrinks} := by
  refine Attempt.Yields.bind (Attempt.yields_lift (Draw.yields_univ _)) fun b _ => ?_
  cases b with
  | true => exact Attempt.yields_pure hnone
  | false => exact Attempt.Yields.bind h fun s hs => Attempt.yields_pure (hsome s.shrinks hs)

theorem Within.option (h : a.Within S) : a.option.Within {o | ∀ v ∈ o, v ∈ S} where
  sample := sample_option_yields (P := Tree.All S) h.sample (Tree.all_leaf (by simp))
    fun _ ht => ht.optional
  edge := by
    refine h.edge.bind fun e he => (Draw.choose_yields _).bind fun o ho =>
      Draw.yields_pure fun v hv w hw => ?_
    have hmem := ho (some v) (Option.join_eq_some_iff.1 hv)
    rcases List.mem_cons.1 hmem with heq | hmem
    · cases heq
      cases hw
    · obtain ⟨u, hu, rfl⟩ := Option.map_eq_some_iff.1 (List.mem_singleton.1 hmem).symm
      obtain rfl := Option.some.inj hw
      exact he _ hu

theorem Within.edgeOrSample_yields (h : a.Within S) :
    a.edgeOrSample.Yields {e | ∀ v ∈ e, v.2 ∈ S} := by
  refine h.edge.bind fun e he => ?_
  cases e with
  | some v => exact Draw.yields_pure (by simpa using he v rfl)
  | none =>
    have hsample : Draw.Yields a.sample.run {r | ∀ s, r = .ok s → s.shrinks.All S} :=
      fun rs s hs => h.sample rs s hs
    refine hsample.bind fun r hr => ?_
    cases r with
    | ok s => exact Draw.yields_pure (by simpa using s.root ▸ (hr s rfl).root)
    | error e => exact Draw.yields_pure (by simp)

theorem marked_mem {e : Option (Bool × α)} (he : ∀ v ∈ e, v.2 ∈ S) {v : α} (hv : v ∈ marked e) :
    v ∈ S := by
  unfold marked at hv
  split at hv
  · obtain rfl := Option.some.inj hv
    exact he _ rfl
  · cases hv

/-- Arbitraries that stay in given sets, each in its own. -/
def AllWithin (as : List (Arbitrary α)) (Ss : List (Set α)) : Prop :=
  List.Forall₂ Within as Ss

theorem trees_yields {as : List (Arbitrary α)} {Ss : List (Set α)} (h : AllWithin as Ss) :
    (trees as).Yields {ts | List.Forall₂ (fun t S => Tree.All S t) ts Ss} := by
  induction h with
  | nil => exact Attempt.yields_pure .nil
  | cons ha _ ih =>
    exact ha.sample.forked.bind fun s hs => ih.bind fun ts hts =>
      Attempt.yields_pure (.cons hs hts)

theorem edges_yields {as : List (Arbitrary α)} {Ss : List (Set α)} (h : AllWithin as Ss) :
    (edges as).Yields {e | ∀ vs ∈ e, vs.2 ∈ product Ss} := by
  induction h with
  | nil => exact Draw.yields_pure (by simp [product])
  | cons ha _ ih =>
    refine ha.edgeOrSample_yields.bind fun e he => ?_
    rcases e with _ | ⟨hit, v⟩
    · exact Draw.yields_pure (by simp)
    · refine ih.bind fun es hes => ?_
      rcases es with _ | ⟨hits, vs⟩
      · exact Draw.yields_pure (by simp)
      · refine Draw.yields_pure fun ws hws => ?_
        obtain rfl := Option.some.inj hws
        exact .cons (he _ rfl) (hes _ rfl)

theorem within_sequence {as : List (Arbitrary α)} {Ss : List (Set α)} (h : AllWithin as Ss) :
    (sequence as).Within (product Ss) where
  sample := (trees_yields h).bind fun _ hts => Attempt.yields_pure (Tree.all_sequence hts)
  edge := (edges_yields h).bind fun _ he => Draw.yields_pure fun _ => marked_mem he

end Arbitrary

/-- A row of arbitraries of which the trees and the edge cases stay in a set of
rows. -/
structure Inputs.Within {types : List Type} (as : Inputs types) (S : Set (Tuple types)) :
    Prop where
  trees : as.trees.Yields {ts | ts.product.All S}
  edges : as.edges.Yields {e | ∀ vs ∈ e, vs.2 ∈ S}

theorem Inputs.within_nil : @Inputs.Within [] () Set.univ where
  trees := Attempt.yields_pure Tree.all_product_nil
  edges := Draw.yields_pure fun _ _ => trivial

theorem Inputs.Within.cons {α : Type} {types : List Type} {a : Arbitrary α} {as : Inputs types}
    {S : Set α} {T : Set (Tuple types)} (ha : a.Within S) (has : as.Within T) :
    @Inputs.Within (α :: types) (a, as) {v | v.1 ∈ S ∧ v.2 ∈ T} where
  trees := ha.sample.forked.bind fun s hs => has.trees.bind fun ts hts =>
    Attempt.yields_pure (hs.product_cons hts)
  edges := by
    refine ha.edgeOrSample_yields.bind fun e he => ?_
    rcases e with _ | ⟨hit, v⟩
    · exact Draw.yields_pure (by simp)
    · refine has.edges.bind fun es hes => ?_
      rcases es with _ | ⟨hits, vs⟩
      · exact Draw.yields_pure (by simp)
      · refine Draw.yields_pure fun ws hws => ?_
        obtain rfl := Option.some.inj hws
        exact ⟨he _ rfl, hes _ rfl⟩

theorem Arbitrary.within_zip {types : List Type} {as : Inputs types} {S : Set (Tuple types)}
    (h : as.Within S) : (zip as).Within S where
  sample := h.trees.bind fun _ hts => Attempt.yields_pure hts
  edge := h.edges.bind fun _ he => Draw.yields_pure fun _ => marked_mem he

end PropertyTesting
