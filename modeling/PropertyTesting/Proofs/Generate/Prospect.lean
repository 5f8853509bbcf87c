import PropertyTesting.Generate.Enumeration
import PropertyTesting.Proofs.Generate.Fork
import PropertyTesting.Proofs.Random.Yields

/-!
Whether an edge case exists. An arbitrary may have one whatever source it is
asked with, or none, or it may depend on the source. The prospect of an arbitrary
follows from the prospects of its parts, and only an option brings luck into it:
it picks between its own edge case and that of its part, which may be missing.
-/

namespace PropertyTesting

variable {α β : Type} {types : List Type}

/-- Whether there is an edge case. -/
inductive Prospect where
  /-- From no source. -/
  | never
  /-- It depends on the source. -/
  | luck
  /-- From every source. -/
  | always
deriving DecidableEq, Repr

namespace Prospect

/-- Whether an edge case may be there, or may be missing. -/
def Admits : Prospect → Bool → Prop
  | never, found => found = false
  | luck, _ => True
  | always, found => found = true

/-- The prospect of at least one of two edge cases. -/
def either : Prospect → Prospect → Prospect
  | never, t => t
  | luck, always => always
  | luck, _ => luck
  | always, _ => always

theorem either_left_comm (s t u : Prospect) : s.either (t.either u) = t.either (s.either u) := by
  cases s <;> cases t <;> cases u <;> rfl

theorem Admits.either {s t : Prospect} {b c : Bool} (hb : s.Admits b) (hc : t.Admits c) :
    (s.either t).Admits (b || c) := by
  cases s <;> cases t <;> simp_all [Admits, Prospect.either]

theorem Admits.either_left {s t : Prospect} (h : s.Admits true) : (s.either t).Admits true := by
  cases s <;> cases t <;> simp_all [Admits, Prospect.either]

/-- The prospect of an edge case that is picked from a list. -/
def ofEdges (edges : List α) : Prospect :=
  if edges = [] then never else always

/-- The prospect of a list of so many elements, given that of an element. -/
def ofList (element : Prospect) (min : Nat) : Prospect :=
  match min with
  | 0 => always
  | 1 => element
  | _ => never

/-- The prospect of an option, given that of what it holds. -/
def ofOption : Prospect → Prospect
  | always => always
  | _ => luck

end Prospect

namespace Arbitrary

mutual

/-- Arbitraries that are put together from the primitive ones, with ranges that are not
empty, and the prospect that they have. Arbitraries of given values and of enumerations
are both of the form `ofArray`, and a choice is of the form `oneOf`. -/
inductive Assembled : {α : Type} → Arbitrary α → Prospect → Prop
  | longRange {lo hi : Int64} : lo ≤ hi → Assembled (.longRange lo hi) .always
  | intRange {lo hi : Int32} : lo ≤ hi → Assembled (.intRange lo hi) .always
  | bool : Assembled .bool .never
  | double : Assembled .double .always
  | char : Assembled .char .never
  | stringOf {min max : Nat} : min ≤ max → Assembled (.stringOf min max) (.ofList .never min)
  | constant {α : Type} (value : α) : Assembled (.constant value) .never
  | ofArray {α : Type} (values : Array α) (h : 0 < values.size) :
      Assembled (.ofArray values h) .never
  | withEdges {α : Type} {a : Arbitrary α} {s : Prospect} (edges : List α) :
      Assembled a s → Assembled (a.withEdges edges) (.ofEdges edges)
  | map {α β : Type} {a : Arbitrary α} {s : Prospect} (f : α → β) :
      Assembled a s → Assembled (a.map f) s
  | list {α : Type} {a : Arbitrary α} {s : Prospect} {min max : Nat} :
      Assembled a s → min ≤ max → Assembled (a.list min max) (.ofList s min)
  | option {α : Type} {a : Arbitrary α} {s : Prospect} :
      Assembled a s → Assembled a.option s.ofOption
  | oneOf {α : Type} {first : Arbitrary α} {rest : List (Arbitrary α)} {s : Prospect} :
      AllAssembled (first :: rest) s → Assembled (.oneOf first rest) s
  | zip {types : List Type} {as : Inputs types} {s : Prospect} :
      RowAssembled as s → Assembled (.zip as) s
  | bind {types : List Type} {β : Type} {as : Inputs types} {s : Prospect} (f : Tuple types → β) :
      RowAssembled as s → Assembled (.bind as f) s
  | sequence {α : Type} {as : List (Arbitrary α)} {s : Prospect} :
      AllAssembled as s → Assembled (.sequence as) s
  | bindAll {α β : Type} {as : List (Arbitrary α)} {s : Prospect} (f : List α → β) :
      AllAssembled as s → Assembled (.bindAll as f) s

/-- Lists of such arbitraries, and the prospect that at least one has an edge case. -/
inductive AllAssembled : {α : Type} → List (Arbitrary α) → Prospect → Prop
  | nil {α : Type} : AllAssembled ([] : List (Arbitrary α)) .never
  | cons {α : Type} {a : Arbitrary α} {as : List (Arbitrary α)} {s t : Prospect} :
      Assembled a s → AllAssembled as t → AllAssembled (a :: as) (s.either t)

/-- Rows of such arbitraries, and the prospect that at least one has an edge case. -/
inductive RowAssembled : {types : List Type} → Inputs types → Prospect → Prop
  | nil : RowAssembled .nil .never
  | cons {α : Type} {types : List Type} {a : Arbitrary α} {as : Inputs types} {s t : Prospect} :
      Assembled a s → RowAssembled as t → RowAssembled (.cons a as) (s.either t)

end

end Arbitrary

theorem Double.ceilFraction_one : Double.one.ceilFraction = 1 <<< 53 := by
  decide

/-- With a chance of one every draw is to be an edge case. -/
theorem EdgeChance.roll_always (rs : RandomSource) : always.roll rs = (true, rs.next.2) := by
  have hone : always.probability.ceilFraction = 1 <<< 53 := Double.ceilFraction_one
  have hlt : (rs.next.1 >>> 11).toNat < 1 <<< 53 := by
    have hword := rs.next.1.toNat_lt
    rw [UInt64.toNat_shiftRight, Nat.shiftRight_eq_div_pow]
    exact Nat.div_lt_of_lt_mul hword
  show (decide ((rs.next.1 >>> 11).toNat < always.probability.ceilFraction), rs.next.2) = _
  rw [hone, decide_eq_true hlt]

namespace Draw

theorem choose_yields_isSome (vs : List α) :
    (choose vs).Yields {o | (Prospect.ofEdges vs).Admits o.isSome} := by
  cases vs with
  | nil => exact yields_pure rfl
  | cons v vs =>
    refine (choose_cons_yields v vs).mono ?_
    rintro _ ⟨w, -, rfl⟩
    rfl

end Draw

namespace Arbitrary

variable {a : Arbitrary α} {as : List (Arbitrary α)} {s t : Prospect}

/-- Every sample is a value, and whether there is an edge case is as a prospect
says. -/
structure Settled (a : Arbitrary α) (s : Prospect) : Prop where
  sample : a.sample.Succeeds
  edge : a.edge.Yields {e | s.Admits e.isSome}

/-- The members of a list are settled, with the prospect that at least one has an
edge case. -/
inductive AllSettled : List (Arbitrary α) → Prospect → Prop
  | nil : AllSettled [] .never
  | cons {a : Arbitrary α} {as : List (Arbitrary α)} {s t : Prospect} :
      a.Settled s → AllSettled as t → AllSettled (a :: as) (s.either t)

theorem settled_ofDraw (draw : Draw α) : (ofDraw draw).Settled .never where
  sample := (Attempt.succeeds_lift draw).bind fun _ => Attempt.succeeds_pure _
  edge := Draw.yields_pure rfl

theorem settled_shrinking (draw : Draw α) (shrink : α → Row α) :
    (shrinking draw shrink).Settled .never where
  sample := (Attempt.succeeds_lift draw).bind fun _ => Attempt.succeeds_pure _
  edge := Draw.yields_pure rfl

theorem Settled.withEdges (h : a.Settled s) (edges : List α) :
    (a.withEdges edges).Settled (.ofEdges edges) where
  sample := h.sample
  edge := Draw.choose_yields_isSome edges

theorem Settled.map (h : a.Settled s) (f : α → β) : (a.map f).Settled s where
  sample := h.sample.bind fun _ => Attempt.succeeds_pure _
  edge := h.edge.bind fun e he => Draw.yields_pure <| by
    rwa [Set.mem_ofPred_eq, Option.isSome_map]

theorem mem_rangeEdges {lo hi : Int64} (h : lo ≤ hi) : lo ∈ rangeEdges lo hi :=
  List.mem_eraseDups.2 (List.mem_filter.2 ⟨by simp, by simp [h]⟩)

theorem settled_longRange {lo hi : Int64} (h : lo ≤ hi) : (longRange lo hi).Settled .always := by
  have hedges : Prospect.ofEdges (rangeEdges lo hi) = .always :=
    if_neg (List.ne_nil_of_mem (mem_rangeEdges h))
  unfold longRange
  rw [dif_pos (Int64.le_iff_toInt_le.1 h), ← hedges]
  exact (settled_shrinking _ _).withEdges _

theorem settled_intRange {lo hi : Int32} (h : lo ≤ hi) : (intRange lo hi).Settled .always := by
  refine (settled_longRange ?_).map _
  rwa [Int64.le_iff_toInt_le, Int32.toInt_toInt64, Int32.toInt_toInt64, ← Int32.le_iff_toInt_le]

theorem settled_stringOf {min max : Nat} (h : min ≤ max) :
    (stringOf min max).Settled (.ofList .never min) := by
  have hedges : Prospect.ofEdges (if min = 0 then [""] else []) = .ofList .never min := by
    rcases min with _ | _ | min
    · rfl
    · rfl
    · rfl
  unfold stringOf
  rw [if_neg (Nat.not_lt.2 h), ← hedges]
  exact (settled_shrinking _ _).withEdges _

theorem Settled.list {min max : Nat} (h : a.Settled s) (hlen : min ≤ max) :
    (a.list min max).Settled (.ofList s min) where
  sample := by
    rw [sample_list a hlen]
    exact (Attempt.succeeds_lift _).bind fun n => ((h.sample.forked.map _).times n).map _
  edge := by
    rw [edge_list a hlen]
    rcases min with _ | _ | min
    · -- The empty list is there to be picked.
      exact Draw.Yields.bind (Draw.yields_univ _) fun single _ =>
        Draw.choose_yields_isSome ([] :: single)
    · -- A single element is all that can be picked.
      rw [singles, if_pos ⟨Nat.le_refl 1, hlen⟩, bind_map_left]
      refine h.edge.bind fun e he => ?_
      cases e with
      | none => exact Draw.yields_pure he
      | some v =>
        refine (Draw.choose_cons_yields [v] []).mono ?_
        rintro _ ⟨w, -, rfl⟩
        exact he
    · rw [singles, if_neg (by omega), pure_bind]
      exact Draw.choose_yields_isSome []

theorem Settled.option (h : a.Settled s) : (option a).Settled s.ofOption where
  sample := by
    rw [sample_option]
    refine (Attempt.succeeds_lift _).bind fun absent => ?_
    cases absent with
    | true => exact Attempt.succeeds_pure _
    | false => exact h.sample.map _
  edge := by
    cases s with
    | never => exact Draw.yields_univ _
    | luck => exact Draw.yields_univ _
    | always =>
      rw [edge_option]
      refine h.edge.bind fun e he => ?_
      obtain ⟨v, rfl⟩ := Option.isSome_iff_exists.1 he
      refine (Draw.choose_cons_yields (some none) [some (some v)]).map ?_
      rintro _ ⟨w, hw, rfl⟩
      simp only [List.mem_cons, List.not_mem_nil, or_false] at hw
      rcases hw with rfl | rfl
      · rfl
      · rfl

section All

theorem AllSettled.sample_mem (h : AllSettled as s) : ∀ b ∈ as, b.sample.Succeeds := by
  induction h with
  | nil => simp
  | cons ha _ ih => exact List.forall_mem_cons.2 ⟨ha.sample, ih⟩

theorem AllSettled.perm {bs : List (Arbitrary α)} (h : AllSettled as s) (hp : as.Perm bs) :
    AllSettled bs s := by
  induction hp generalizing s with
  | nil => exact h
  | cons a _ ih =>
    cases h with
    | cons ha has => exact .cons ha (ih has)
  | swap a b as =>
    cases h with
    | cons hb h =>
      cases h with
      | cons ha has =>
        rw [Prospect.either_left_comm]
        exact .cons ha (.cons hb has)
  | trans _ _ ih₁ ih₂ => exact ih₂ (ih₁ h)

/-- The first edge case that is found is there if any of the edge cases is. -/
theorem AllSettled.firstEdge (h : AllSettled as s) :
    (firstEdge as).Yields {e | s.Admits e.isSome} := by
  induction h with
  | nil => exact Draw.yields_pure rfl
  | cons ha _ ih =>
    refine ha.edge.bind fun e he => ?_
    cases e with
    | none => exact ih.mono fun f hf => Prospect.Admits.either he hf
    | some v => exact Draw.yields_pure (Prospect.Admits.either_left he)

theorem AllSettled.oneOf {first : Arbitrary α} {rest : List (Arbitrary α)}
    (h : AllSettled (first :: rest) s) : (oneOf first rest).Settled s where
  sample := by
    rw [sample_oneOf]
    exact (Attempt.succeeds_lift _).bind fun i => h.sample_mem _ (List.get_mem _ i)
  edge := by
    rw [edge_oneOf]
    refine (Draw.shuffle_yields _).bind fun order horder => ?_
    exact (h.perm horder.symm).firstEdge

/-- There is a value of an input in any case, and it is marked as an edge case if
it is one. -/
theorem Settled.edgeOrSample (h : a.Settled s) :
    a.edgeOrSample.Yields {o | ∃ p, o = some p ∧ s.Admits p.1} := by
  refine h.edge.bind fun e he => ?_
  cases e with
  | some v => exact Draw.yields_pure ⟨_, rfl, he⟩
  | none =>
    have hsample : Draw.Yields a.sample.run {r | ∃ x, r = Except.ok x} := h.sample
    refine hsample.bind fun r hr => ?_
    obtain ⟨x, rfl⟩ := hr
    exact Draw.yields_pure ⟨_, rfl, he⟩

theorem AllSettled.trees (h : AllSettled as s) : (trees as).Succeeds := by
  induction h with
  | nil => exact Attempt.succeeds_pure _
  | cons ha _ ih => exact ha.sample.forked.bind fun _ => ih.bind fun _ => Attempt.succeeds_pure _

theorem AllSettled.edges (h : AllSettled as s) :
    (edges as).Yields {o | ∃ p, o = some p ∧ s.Admits p.1} := by
  induction h with
  | nil => exact Draw.yields_pure ⟨_, rfl, rfl⟩
  | cons ha _ ih =>
    refine ha.edgeOrSample.bind fun o ho => ?_
    obtain ⟨⟨hit, v⟩, rfl, hhit⟩ := ho
    refine ih.bind fun o ho => ?_
    obtain ⟨⟨hits, vs⟩, rfl, hhits⟩ := ho
    exact Draw.yields_pure ⟨_, rfl, hhit.either hhits⟩

theorem isSome_marked (p : Bool × β) : (marked (some p)).isSome = p.1 := by
  rcases p with ⟨_ | _, v⟩
  · rfl
  · rfl

theorem AllSettled.sequence (h : AllSettled as s) : (sequence as).Settled s where
  sample := by
    rw [sample_sequence]
    exact h.trees.map _
  edge := by
    rw [edge_sequence]
    refine h.edges.map ?_
    rintro _ ⟨p, rfl, hp⟩
    rwa [Set.mem_ofPred_eq, isSome_marked]

end All

section Row

/-- The inputs of a row are settled, with the prospect that at least one has an edge
case. -/
inductive RowSettled : {types : List Type} → Inputs types → Prospect → Prop
  | nil : RowSettled .nil .never
  | cons {α : Type} {types : List Type} {a : Arbitrary α} {as : Inputs types} {s t : Prospect} :
      a.Settled s → RowSettled as t → RowSettled (.cons a as) (s.either t)

variable {as : Inputs types}

theorem RowSettled.trees (h : RowSettled as s) : as.trees.Succeeds := by
  induction h with
  | nil => exact Attempt.succeeds_pure _
  | cons ha _ ih => exact ha.sample.forked.bind fun _ => ih.bind fun _ => Attempt.succeeds_pure _

theorem RowSettled.edges (h : RowSettled as s) :
    as.edges.Yields {o | ∃ p, o = some p ∧ s.Admits p.1} := by
  induction h with
  | nil => exact Draw.yields_pure ⟨_, rfl, rfl⟩
  | cons ha _ ih =>
    refine ha.edgeOrSample.bind fun o ho => ?_
    obtain ⟨⟨hit, v⟩, rfl, hhit⟩ := ho
    refine ih.bind fun o ho => ?_
    obtain ⟨⟨hits, vs⟩, rfl, hhits⟩ := ho
    exact Draw.yields_pure ⟨_, rfl, hhit.either hhits⟩

theorem RowSettled.zip (h : RowSettled as s) : (zip as).Settled s where
  sample := by
    rw [sample_zip]
    exact h.trees.map _
  edge := by
    rw [edge_zip]
    refine h.edges.map ?_
    rintro _ ⟨p, rfl, hp⟩
    rwa [Set.mem_ofPred_eq, isSome_marked]

end Row

mutual

/-- What is put together has the prospect that its parts give it. -/
theorem Assembled.settled : {α : Type} → {a : Arbitrary α} → {s : Prospect} → Assembled a s →
    a.Settled s
  | _, _, _, .longRange h => settled_longRange h
  | _, _, _, .intRange h => settled_intRange h
  | _, _, _, .bool => settled_shrinking _ _
  | _, _, _, .double => (settled_shrinking _ _).withEdges doubleEdges
  | _, _, _, .char => settled_shrinking _ _
  | _, _, _, .stringOf h => settled_stringOf h
  | _, _, _, .constant _ => settled_ofDraw _
  | _, _, _, .ofArray _ _ => settled_ofDraw _
  | _, _, _, .withEdges edges h => h.settled.withEdges edges
  | _, _, _, .map f h => h.settled.map f
  | _, _, _, .list h hlen => h.settled.list hlen
  | _, _, _, .option h => h.settled.option
  | _, _, _, .oneOf h => h.settled.oneOf
  | _, _, _, .zip h => h.settled.zip
  | _, _, _, .bind f h => h.settled.zip.map f
  | _, _, _, .sequence h => h.settled.sequence
  | _, _, _, .bindAll f h => h.settled.sequence.map f

theorem AllAssembled.settled : {α : Type} → {as : List (Arbitrary α)} → {s : Prospect} →
    AllAssembled as s → AllSettled as s
  | _, _, _, .nil => .nil
  | _, _, _, .cons ha has => .cons ha.settled has.settled

theorem RowAssembled.settled : {types : List Type} → {as : Inputs types} → {s : Prospect} →
    RowAssembled as s → RowSettled as s
  | _, _, _, .nil => .nil
  | _, _, _, .cons ha has => .cons ha.settled has.settled

end

/-- Every source gives an edge case, and a stream that is to be made of edge cases
has one at every position. -/
structure EdgeEverywhere (a : Arbitrary α) : Prop where
  edge : ∀ rs, (a.edge rs).1.isSome
  stream : ∀ source i, ∃ rs v,
    ((Generator.arbitrary a).generate source .always).drop i = .random a .always rs ∧
    (a.edge rs.next.2).1 = some v ∧
    ((Generator.arbitrary a).generate source .always).nth i = .ok (.plain v)

/-- No source gives an edge case, and a stream that is to be made of edge cases has a
fresh sample at every position. -/
structure EdgeNowhere (a : Arbitrary α) : Prop where
  edge : ∀ rs, (a.edge rs).1 = none
  stream : ∀ source i, ∃ rs x,
    ((Generator.arbitrary a).generate source .always).drop i = .random a .always rs ∧
    (a.sample (a.edge rs.next.2).2).1 = .ok x ∧
    ((Generator.arbitrary a).generate source .always).nth i = .ok x

theorem Settled.edgeEverywhere (h : a.Settled .always) : a.EdgeEverywhere := by
  have hedge (rs : RandomSource) : (a.edge rs).1.isSome := h.edge rs
  refine ⟨hedge, fun source i => ?_⟩
  obtain ⟨rs, result, rs', hdrop, hdraw, hnth⟩ := Samples.exists_nth_random a .always source i
  obtain ⟨v, hv⟩ := Option.isSome_iff_exists.1 (hedge rs.next.2)
  rw [Samples.draw_of_edge (EdgeChance.roll_always rs) (Prod.ext hv rfl)] at hdraw
  exact ⟨rs, v, hdrop, hv, hnth.trans (congrArg Prod.fst hdraw).symm⟩

theorem Settled.edgeNowhere (h : a.Settled .never) : a.EdgeNowhere := by
  have hedge (rs : RandomSource) : (a.edge rs).1 = none :=
    Option.not_isSome_iff_eq_none.1 (Bool.eq_false_iff.1 (h.edge rs))
  refine ⟨hedge, fun source i => ?_⟩
  obtain ⟨rs, result, rs', hdrop, hdraw, hnth⟩ := Samples.exists_nth_random a .always source i
  obtain ⟨x, hx⟩ := h.sample (a.edge rs.next.2).2
  rw [Samples.draw_of_no_edge (EdgeChance.roll_always rs) (Prod.ext (hedge _) rfl)] at hdraw
  rw [hdraw] at hx
  exact ⟨rs, x, hdrop, by rw [hdraw]; exact hx, hnth.trans hx⟩

/-- Without an option that brings luck into it, whether there is an edge case does not
depend on the source, and a stream that is to be made of edge cases is made of them
throughout or not at all. -/
theorem edge_not_by_luck (h : Assembled a s) (hs : s ≠ .luck) :
    a.EdgeEverywhere ∨ a.EdgeNowhere := by
  have hsettled := h.settled
  cases s with
  | always => exact .inl hsettled.edgeEverywhere
  | luck => exact absurd rfl hs
  | never => exact .inr hsettled.edgeNowhere

/-- Lists of coins, any of which may be missing, have an edge case, which is the empty
list. Pairs of coins have none. -/
theorem edge_not_by_luck_coins :
    (Assembled ((option bool).list 0 3) .always ∧ Prospect.always ≠ .luck ∧
      (((option bool).list 0 3).EdgeEverywhere ∨ ((option bool).list 0 3).EdgeNowhere)) ∧
    Assembled (sequence [bool, bool]) .never ∧ Prospect.never ≠ .luck ∧
      ((sequence [bool, bool]).EdgeEverywhere ∨ (sequence [bool, bool]).EdgeNowhere) :=
  have hlist : Assembled ((option bool).list 0 3) .always := .list (.option .bool) (by decide)
  have hpair : Assembled (sequence [bool, bool]) .never :=
    .sequence (.cons .bool (.cons .bool .nil))
  ⟨⟨hlist, by decide, edge_not_by_luck hlist (by decide)⟩, hpair, by decide,
    edge_not_by_luck hpair (by decide)⟩

/-- An option picks one of two places, of which the second is empty if what it holds has
no edge case. Then the pick of it leaves the option without one, although it has the
other. -/
theorem fst_edge_option (a : Arbitrary α) (rs : RandomSource) :
    ((option a).edge rs).1 =
      if (Draw.position (show 0 < 2 by decide) (a.edge rs).2).1 = 0 then some none
      else (a.edge rs).1.map some := by
  rw [edge_option, Draw.bind_apply, Draw.map_apply, Draw.fst_choose_pair, Option.join_some]

/-- An option of coins has an edge case from one source and none from another. -/
theorem option_edge_by_luck :
    Assembled (option bool) .luck ∧
      ¬((option bool).EdgeEverywhere ∨ (option bool).EdgeNowhere) := by
  refine ⟨.option .bool, ?_⟩
  have hmissing : ((option bool).edge (.seeded 4)).1 = none := rfl
  have hfound : ((option bool).edge (.seeded 0)).1 = some none := rfl
  rintro (h | h)
  · cases (congrArg Option.isSome hmissing).symm.trans (h.edge (.seeded 4))
  · cases hfound.symm.trans (h.edge (.seeded 0))

end Arbitrary

end PropertyTesting
