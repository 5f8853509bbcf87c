import PropertyTesting.Proofs.Generate.Prospect
import PropertyTesting.Proofs.Generate.Recipe
import PropertyTesting.Proofs.Tree.Descent

/-!
How samples shrink. Numbers, characters and texts have a measure that every step of
shrinking lowers, and everything that is built on them keeps what follows: that no way
down a shrink tree is endless, and, unless two values are taken for one somewhere, that no
value is met twice on a way. There is one lemma for each way to make an arbitrary.
-/

namespace PropertyTesting

namespace Shrink

theorem toNat_lt_of_mem_bool {b c : Bool} (hc : c ∈ bool b) : c.toNat < b.toNat := by
  cases b with
  | false => simp [bool] at hc
  | true =>
    obtain rfl : c = false := by simpa [bool] using hc
    exact Nat.zero_lt_one

/-- How far a character is from the letter `a`. -/
def charGap (c : Char) : Nat :=
  (c.toNat - 'a'.toNat : Int).natAbs

theorem charGap_lt_of_mem_char {b c : Char} (hb : b ∈ char c) : charGap b < charGap c := by
  have := mem_char hb
  unfold charGap
  omega

end Shrink

namespace Tree

variable {α : Type} {t : Tree α} {p q : Prop}

/-- No way down is endless, and if `p` holds no value is met twice on a way. -/
structure Descends (t : Tree α) (p : Prop) : Prop where
  grounded : t.Grounded
  distinct : p → t.Distinct

theorem Descends.imp (h : t.Descends p) (hqp : q → p) : t.Descends q :=
  ⟨h.grounded, fun hq => h.distinct (hqp hq)⟩

theorem descends_leaf (v : α) : (leaf v).Descends p :=
  ⟨grounded_leaf v, fun _ => distinct_leaf v⟩

theorem descends_unfold {shrink : α → Row α} {μ : α → Nat}
    (hμ : ∀ v, ∀ c ∈ (shrink v).toList, μ c < μ v) (v : α) : (unfold shrink v).Descends p :=
  ⟨grounded_unfold hμ v, fun _ => distinct_unfold hμ v⟩

end Tree

namespace Arbitrary

variable {α β : Type} {a : Arbitrary α} {S : Set α} {p q : Prop}

/-- No way down from a sample is endless, and if `p` holds no value is met twice on a way. -/
def Descends (a : Arbitrary α) (p : Prop) : Prop :=
  a.sample.Yields {s | s.shrinks.Descends p}

theorem Descends.imp (h : a.Descends p) (hqp : q → p) : a.Descends q :=
  h.mono fun _ hs => hs.imp hqp

theorem descends_broken (reason : GeneratorFault) : (broken reason : Arbitrary α).Descends p :=
  Attempt.yields_throw _

theorem descends_ofDraw (draw : Draw α) : (ofDraw draw).Descends p :=
  (Attempt.yields_lift (Draw.yields_univ draw)).bind fun v _ =>
    Attempt.yields_pure (Tree.descends_leaf v)

theorem descends_shrinking (draw : Draw α) {shrink : α → Row α} {μ : α → Nat}
    (hμ : ∀ v, ∀ c ∈ (shrink v).toList, μ c < μ v) : (shrinking draw shrink).Descends p :=
  (Attempt.yields_lift (Draw.yields_univ draw)).bind fun v _ =>
    Attempt.yields_pure (Tree.descends_unfold hμ v)

theorem Descends.withEdges (h : a.Descends p) (edges : List α) :
    (a.withEdges edges).Descends p :=
  h

theorem Descends.map (h : a.Descends p) (hS : a.Within S) (f : α → β) :
    (a.map f).Descends (p ∧ S.InjOn f) := by
  have hboth : a.sample.Yields {s | s.shrinks.Descends p ∧ s.shrinks.All S} :=
    fun rs s hs => ⟨h rs s hs, hS.sample rs s hs⟩
  refine hboth.bind fun s hs => Attempt.yields_pure ⟨hs.1.grounded.map f, ?_⟩
  exact fun hp => (hs.1.distinct hp.1).map hs.2 hp.2

theorem Descends.filter (h : a.Descends p) (keep : α → Bool) (limit : Nat) :
    (a.filter keep limit).Descends p :=
  sampleAccepted_yields (P := (·.Descends p)) (Q := (·.Descends p)) limit limit h fun _ ht _ =>
    ⟨ht.grounded.prune keep, fun hp => (ht.distinct hp).prune⟩

/-- What the outer sample shrinks to is lost, so nothing is asked of it. -/
theorem descends_flatMap (hS : a.Within S) {f : α → Arbitrary β}
    (hf : ∀ v ∈ S, (f v).Descends p) : (a.flatMap f).Descends p := by
  refine hS.sample.forked.bind fun s hs => ?_
  exact (hf s.value (s.root ▸ Tree.All.root hs)).forked

theorem descends_longRange (lo hi : Int64) : (longRange lo hi).Descends p := by
  unfold longRange
  split
  · apply Descends.withEdges
    apply descends_shrinking
    intro v c hc
    exact Shrink.gap_lt_of_mem_long (by simpa using hc)
  · exact descends_broken _

/-- No two integers of a 32-bit range are cut to one. -/
theorem injOn_toInt32 (lo hi : Int32) :
    {n : Int64 | lo.toInt64 ≤ n ∧ n ≤ hi.toInt64}.InjOn Int64.toInt32 := by
  intro m hm n hn heq
  rw [← Int64.toInt_inj, ← toInt_toInt32_of_range hm, ← toInt_toInt32_of_range hn, heq]

theorem descends_intRange (lo hi : Int32) : (intRange lo hi).Descends p :=
  ((descends_longRange _ _).map (within_longRange _ _) Int64.toInt32).imp fun hp =>
    ⟨hp, injOn_toInt32 lo hi⟩

theorem descends_bool : bool.Descends p := by
  apply descends_shrinking
  intro v c hc
  exact Shrink.toNat_lt_of_mem_bool (by simpa using hc)

theorem descends_char : char.Descends p := by
  apply descends_shrinking
  intro v c hc
  exact Shrink.charGap_lt_of_mem_char (by simpa using hc)

theorem descends_stringOf (min max : Nat) : (stringOf min max).Descends p := by
  unfold stringOf
  split
  · exact descends_broken _
  · apply Descends.withEdges
    apply descends_shrinking
    exact fun v c hc => Shrink.textWeight_lt_of_mem_string hc

theorem descends_oneOf {first : Arbitrary α} {rest : List (Arbitrary α)}
    (h : ∀ a ∈ first :: rest, a.Descends p) : (oneOf first rest).Descends p := by
  refine Attempt.Yields.bind (Attempt.yields_lift (Draw.yields_univ _)) fun i _ => ?_
  exact h _ (List.mem_toArray.1 (Array.getElem_mem i.isLt))

theorem Descends.list (h : a.Descends p) (min max : Nat) : (a.list min max).Descends p :=
  sample_list_yields (P := (·.Descends p)) (Q := (·.Descends p)) h fun _ hts =>
    ⟨Tree.grounded_list (fun t ht => (hts.2 t ht).grounded) min,
      fun hp => Tree.distinct_list (fun t ht => (hts.2 t ht).distinct hp) min⟩

theorem Descends.option (h : a.Descends p) : a.option.Descends p :=
  sample_option_yields (P := (·.Descends p)) (Q := (·.Descends p)) h (Tree.descends_leaf none)
    fun _ ht => ⟨ht.grounded.optional, fun hp => (ht.distinct hp).optional⟩

theorem trees_yields_descends {as : List (Arbitrary α)} (h : ∀ a ∈ as, a.Descends p) :
    (trees as).Yields {ts | ∀ t ∈ ts, t.Descends p} := by
  induction as with
  | nil => exact Attempt.yields_pure (by simp)
  | cons a as ih =>
    obtain ⟨ha, has⟩ := List.forall_mem_cons.1 h
    refine ha.forked.bind fun s hs => (ih has).bind fun ts hts => Attempt.yields_pure ?_
    exact List.forall_mem_cons.2 ⟨hs, hts⟩

theorem descends_sequence {as : List (Arbitrary α)} (h : ∀ a ∈ as, a.Descends p) :
    (sequence as).Descends p := by
  refine (trees_yields_descends h).bind fun ts hts => Attempt.yields_pure ?_
  exact ⟨Tree.grounded_sequence fun t ht => (hts t ht).grounded,
    fun hp => Tree.distinct_sequence fun t ht => (hts t ht).distinct hp⟩

end Arbitrary

namespace Inputs

variable {p q : Prop}

/-- The same for the products of the trees that a row of arbitraries gives. -/
def Descends {types : List Type} (as : Inputs types) (p : Prop) : Prop :=
  as.trees.Yields {ts | ts.product.Descends p}

theorem descends_nil : @Descends [] () p :=
  Attempt.yields_pure ⟨Tree.grounded_product_nil, fun _ => Tree.distinct_product_nil⟩

theorem Descends.cons {α : Type} {types : List Type} {a : Arbitrary α} {as : Inputs types}
    (ha : a.Descends p) (has : as.Descends q) : @Descends (α :: types) (a, as) (p ∧ q) := by
  refine ha.forked.bind fun s hs => has.bind fun ts hts => Attempt.yields_pure ?_
  exact ⟨hs.grounded.product_cons hts.grounded,
    fun hpq => (hs.distinct hpq.1).product_cons (hts.distinct hpq.2)⟩

theorem Descends.zip {types : List Type} {as : Inputs types} (h : as.Descends p) :
    (Arbitrary.zip as).Descends p :=
  h.bind fun _ hts => Attempt.yields_pure hts

end Inputs

mutual

/-- No function in a recipe that is applied to values, or puts values together, takes two
of the values that it may meet to one. -/
def Recipe.Faithful : {α : Type} → Recipe α → Prop
  | _, .longRange _ _ => True
  | _, .intRange _ _ => True
  | _, .bool => True
  | _, .char => True
  | _, .stringOf _ _ => True
  | _, .constant _ => True
  | _, .ofValues _ _ => True
  | _, .enumeration _ => True
  | _, .oneOf first rest => first.Faithful ∧ ∀ i, (rest i).Faithful
  | _, .list element _ _ => element.Faithful
  | _, .option inner => inner.Faithful
  | _, .zip inputs => inputs.Faithful
  | _, .bind inputs f => inputs.Faithful ∧ inputs.support.InjOn f
  | _, .sequence inputs => ∀ i, (inputs i).Faithful
  | _, .bindAll inputs f =>
    (∀ i, (inputs i).Faithful) ∧ (product (List.ofFn fun i => (inputs i).support)).InjOn f
  | _, .withEdges a _ => a.Faithful
  | _, .map a f => a.Faithful ∧ a.support.InjOn f
  | _, .filter a _ _ => a.Faithful
  | _, .flatMap a f => ∀ v ∈ a.support, (f v).Faithful

/-- The same for all recipes of a row. -/
def Recipes.Faithful : {types : List Type} → Recipes types → Prop
  | _, .nil => True
  | _, .cons first rest => first.Faithful ∧ rest.Faithful

end

theorem Arbitrary.descends_ofFn {α : Type} {n : Nat} {as : Fin n → Arbitrary α}
    {p : Fin n → Prop} (h : ∀ i, (as i).Descends (p i)) :
    ∀ a ∈ List.ofFn as, a.Descends (∀ i, p i) := by
  intro a ha
  obtain ⟨i, rfl⟩ := List.mem_ofFn.1 ha
  exact (h i).imp fun hp => hp i

mutual

theorem Recipe.descends : {α : Type} → (r : Recipe α) → r.arbitrary.Descends r.Faithful
  | _, .longRange lo hi => Arbitrary.descends_longRange lo hi
  | _, .intRange lo hi => Arbitrary.descends_intRange lo hi
  | _, .bool => Arbitrary.descends_bool
  | _, .char => Arbitrary.descends_char
  | _, .stringOf min max => Arbitrary.descends_stringOf min max
  | _, .constant _ => Arbitrary.descends_ofDraw _
  | _, .ofValues _ _ => Arbitrary.descends_ofDraw _
  | _, .enumeration _ => Arbitrary.descends_ofDraw _
  | _, .oneOf first rest => by
    refine Arbitrary.descends_oneOf (List.forall_mem_cons.2 ⟨?_, fun a ha => ?_⟩)
    · exact first.descends.imp fun h => h.1
    · exact (Arbitrary.descends_ofFn (fun i => (rest i).descends) a ha).imp fun h => h.2
  | _, .list element min max => element.descends.list min max
  | _, .option inner => inner.descends.option
  | _, .zip inputs => inputs.descends.zip
  | _, .bind inputs f => inputs.descends.zip.map (Arbitrary.within_zip inputs.within) f
  | _, .sequence inputs =>
    Arbitrary.descends_sequence (Arbitrary.descends_ofFn fun i => (inputs i).descends)
  | _, .bindAll inputs f =>
    (Arbitrary.descends_sequence (Arbitrary.descends_ofFn fun i => (inputs i).descends)).map
      (Arbitrary.within_sequence (Arbitrary.allWithin_ofFn fun i => (inputs i).within)) f
  | _, .withEdges a edges => a.descends.withEdges edges
  | _, .map a f => a.descends.map a.within f
  | _, .filter a keep limit => a.descends.filter keep limit
  | _, .flatMap a f =>
    Arbitrary.descends_flatMap a.within fun v hv => (f v).descends.imp fun h => h v hv

theorem Recipes.descends : {types : List Type} → (rs : Recipes types) →
    rs.inputs.Descends rs.Faithful
  | _, .nil => Inputs.descends_nil
  | _, .cons first rest => Inputs.Descends.cons first.descends rest.descends

end

/-- Whatever a recipe is made of, the shrink trees of its samples have no endless way down.
If its functions keep different values apart, then on every way down a value is met only
once. -/
theorem Recipe.shrinks_end {α : Type} (r : Recipe α) {rs : RandomSource} {s : Sample α}
    (hs : (r.arbitrary.sample rs).1 = .ok s) :
    (¬∃ way : Nat → Tree α, way 0 = s.shrinks ∧ ∀ n, way (n + 1) ∈ (way n).children) ∧
      (r.Faithful → ∀ ts t, Branching.Way s.shrinks ts t → (ts.map Tree.value).Nodup) := by
  have hdescends : s.shrinks.Descends r.Faithful := r.descends rs s hs
  exact ⟨hdescends.grounded.no_endless_way,
    fun hfaithful _ _ hway => (hdescends.distinct hfaithful).nodup_way hway⟩

/-- Lists of one to three pairs, each of a coin and a die that were thrown the other way
round. -/
theorem Recipe.shrinks_end_pairs :
    let pair : Recipe (Bool × Int64) :=
      .bind (.cons (.longRange 1 6) (.cons .bool .nil)) fun v => (v.2.1, v.1)
    let pairs := Recipe.list pair 1 3
    pairs.Faithful ∧ ∃ s, (pairs.arbitrary.sample (.seeded 42)).1 = .ok s ∧
      (¬∃ way : Nat → Tree (List (Bool × Int64)),
        way 0 = s.shrinks ∧ ∀ n, way (n + 1) ∈ (way n).children) ∧
      ∀ ts t, Branching.Way s.shrinks ts t → (ts.map Tree.value).Nodup := by
  intro pair pairs
  have hfaithful : pairs.Faithful := by
    refine ⟨⟨trivial, trivial, trivial⟩, fun v _ w _ heq => ?_⟩
    obtain ⟨hcoin, hdie⟩ := Prod.mk.inj heq
    exact Prod.ext hdie (Prod.ext hcoin rfl)
  have hpairs : pairs.arbitrary.Assembled _ :=
    .list (.bind _ (.cons (.longRange (by decide)) (.cons .bool .nil))) (by decide)
  obtain ⟨s, hs⟩ := hpairs.settled.sample (.seeded 42)
  have h := pairs.shrinks_end hs
  exact ⟨hfaithful, s, hs, h.1, h.2 hfaithful⟩

end PropertyTesting
