import Mathlib.Algebra.BigOperators.Group.List.Basic
import Mathlib.Algebra.Ring.Nat
import PropertyTesting.Proofs.Generate.Stream
import PropertyTesting.Proofs.Run.FirstFailure

/-!
What a run counts. A table is known once it is known which labels it has and how
often it counts each (`Tally.counts_eq`), and both are told of a merged table from
the tables that were merged. So a run that passes counts what is remarked in all of
its tests together, however the tests are put together.
-/

namespace PropertyTesting

namespace Tally

variable {s other : Tally} {label : String}

theorem getElem?_counts (h : label ∈ s.counts) : s.counts[label]? = some (s.count label) :=
  Std.ExtTreeMap.getElem?_eq_some_getD h

/-- Tables with the same labels and counts are the same. -/
theorem counts_eq (hlabels : ∀ label, label ∈ s.counts ↔ label ∈ other.counts)
    (hcounts : ∀ label, s.count label = other.count label) : s.counts = other.counts := by
  refine Std.ExtTreeMap.ext_getElem? fun label => ?_
  by_cases h : label ∈ s.counts
  · rw [getElem?_counts h, getElem?_counts ((hlabels label).1 h), hcounts label]
  · rw [Std.ExtTreeMap.getElem?_eq_none h,
      Std.ExtTreeMap.getElem?_eq_none (mt (hlabels label).2 h)]

theorem count_of_not_mem (h : label ∉ s.counts) : s.count label = 0 :=
  Std.ExtTreeMap.getD_eq_fallback h

@[simp] theorem mem_add {label' : String} {n : Nat} :
    label ∈ (s.add label' n).counts ↔ label' = label ∨ label ∈ s.counts := by
  rw [add, Std.ExtTreeMap.mem_insert, Std.LawfulEqCmp.compare_eq_iff_eq]

@[simp] theorem count_add (s : Tally) (label' label : String) (n : Nat) :
    (s.add label' n).count label = s.count label + if label' = label then n else 0 := by
  rw [add, count, count, Std.ExtTreeMap.getD_insert]
  by_cases h : label' = label
  · subst label'
    rw [if_pos Std.ReflCmp.compare_self, if_pos rfl]
  · rw [if_neg (mt Std.LawfulEqCmp.compare_eq_iff_eq.1 h), if_neg h, Nat.add_zero]

/-- Add a number of amounts, each to the count of its label. -/
def addAll (s : Tally) (amounts : List (String × Nat)) : Tally :=
  amounts.foldl (fun s (label, n) => s.add label n) s

theorem merge_eq (s other : Tally) : s.merge other = s.addAll other.entries := rfl

theorem total_addAll (s : Tally) (amounts : List (String × Nat)) :
    (s.addAll amounts).total = s.total := by
  induction amounts generalizing s with
  | nil => rfl
  | cons amount amounts ih => exact ih (s.add amount.1 amount.2)

theorem mem_addAll {amounts : List (String × Nat)} :
    label ∈ (s.addAll amounts).counts ↔ label ∈ s.counts ∨ label ∈ amounts.map Prod.fst := by
  induction amounts generalizing s with
  | nil => simp [addAll]
  | cons amount amounts ih =>
    have h := ih (s := s.add amount.1 amount.2)
    rw [mem_add] at h
    rw [List.map_cons, List.mem_cons]
    refine h.trans ?_
    rw [or_assoc, or_left_comm, eq_comm (a := label)]

theorem count_addAll (s : Tally) (amounts : List (String × Nat)) (label : String) :
    (s.addAll amounts).count label =
      s.count label + (amounts.map fun a => if a.1 = label then a.2 else 0).sum := by
  induction amounts generalizing s with
  | nil => simp [addAll]
  | cons amount amounts ih =>
    have h := ih (s.add amount.1 amount.2)
    rw [count_add, Nat.add_assoc] at h
    rw [List.map_cons, List.sum_cons]
    exact h

theorem mem_foldl_record {labels : List String} :
    label ∈ (labels.foldl record s).counts ↔ label ∈ s.counts ∨ label ∈ labels := by
  induction labels generalizing s with
  | nil => simp
  | cons label' labels ih =>
    rw [List.foldl_cons, ih, record, mem_add, List.mem_cons, or_assoc, or_left_comm,
      eq_comm (a := label)]

theorem count_foldl_record (s : Tally) (labels : List String) (label : String) :
    (labels.foldl record s).count label = s.count label + labels.count label := by
  induction labels generalizing s with
  | nil => rfl
  | cons label' labels ih =>
    rw [List.foldl_cons, ih, record, count_add, List.count_cons, Nat.add_assoc,
      Nat.add_comm (List.count ..)]
    simp only [beq_iff_eq]

theorem mem_entries {n : Nat} : (label, n) ∈ s.entries ↔ s.counts[label]? = some n :=
  Std.ExtTreeMap.mem_toList_iff_getElem?_eq_some

theorem mem_map_fst_entries : label ∈ s.entries.map Prod.fst ↔ label ∈ s.counts := by
  rw [Std.ExtTreeMap.mem_iff_isSome_getElem?, Option.isSome_iff_exists, List.mem_map]
  constructor
  · rintro ⟨⟨label, n⟩, h, rfl⟩
    exact ⟨n, mem_entries.1 h⟩
  · rintro ⟨n, h⟩
    exact ⟨(label, n), mem_entries.2 h, rfl⟩

theorem entries_pairwise (s : Tally) : s.entries.Pairwise fun a b => a.1 ≠ b.1 :=
  s.counts.distinct_keys_toList.imp fun h => mt Std.LawfulEqCmp.compare_eq_iff_eq.2 h

theorem sum_amounts_of_not_mem {amounts : List (String × Nat)}
    (h : ∀ a ∈ amounts, a.1 ≠ label) :
    (amounts.map fun a => if a.1 = label then a.2 else 0).sum = 0 := by
  refine List.sum_eq_zero fun n hn => ?_
  obtain ⟨a, ha, rfl⟩ := List.mem_map.1 hn
  exact if_neg (h a ha)

/-- An amount that is the only one of its label is all that the label gets. -/
theorem sum_amounts {amounts : List (String × Nat)} {n : Nat}
    (hdistinct : amounts.Pairwise fun a b => a.1 ≠ b.1) (h : (label, n) ∈ amounts) :
    (amounts.map fun a => if a.1 = label then a.2 else 0).sum = n := by
  induction hdistinct with
  | nil => exact absurd h List.not_mem_nil
  | @cons amount amounts hne _ ih =>
    rw [List.map_cons, List.sum_cons]
    rcases List.mem_cons.1 h with rfl | h
    · rw [if_pos rfl, sum_amounts_of_not_mem fun a ha => (hne a ha).symm]
      rfl
    · rw [if_neg (hne _ h), ih h, Nat.zero_add]

@[simp] theorem total_merge (s other : Tally) : (s.merge other).total = s.total :=
  total_addAll s other.entries

@[simp] theorem mem_merge :
    label ∈ (s.merge other).counts ↔ label ∈ s.counts ∨ label ∈ other.counts := by
  rw [merge_eq, mem_addAll, mem_map_fst_entries]

@[simp] theorem count_merge (s other : Tally) (label : String) :
    (s.merge other).count label = s.count label + other.count label := by
  rw [merge_eq, count_addAll]
  congr 1
  by_cases h : label ∈ other.counts
  · exact sum_amounts other.entries_pairwise (mem_entries.2 (getElem?_counts h))
  · rw [count_of_not_mem h]
    refine sum_amounts_of_not_mem fun a ha hlabel => h ?_
    exact mem_map_fst_entries.1 (List.mem_map.2 ⟨a, ha, hlabel⟩)

@[simp] theorem not_mem_empty : label ∉ empty.counts :=
  Std.ExtTreeMap.not_mem_empty

@[simp] theorem count_empty (label : String) : empty.count label = 0 :=
  count_of_not_mem not_mem_empty

theorem ext_counts (hcounts : s.counts = other.counts) (htotal : s.total = other.total) :
    s = other := by
  cases s
  cases other
  exact congr (congrArg mk hcounts) htotal

theorem merge_assoc (a b c : Tally) : (a.merge b).merge c = a.merge (b.merge c) := by
  refine ext_counts (counts_eq (fun label => ?_) fun label => ?_) ?_
  · simp only [mem_merge, or_assoc]
  · simp only [count_merge, Nat.add_assoc]
  · simp only [total_merge]

/-- Tables that are merged in either order have the same labels and counts. The
total is that of the table that was merged into. -/
theorem counts_merge_comm (a b : Tally) : (a.merge b).counts = (b.merge a).counts := by
  refine counts_eq (fun label => ?_) fun label => ?_
  · rw [mem_merge, mem_merge, or_comm]
  · rw [count_merge, count_merge, Nat.add_comm]

theorem merge_empty (a : Tally) : a.merge empty = a := by
  refine ext_counts (counts_eq (fun label => ?_) fun label => ?_) (total_merge a empty)
  · simp only [mem_merge, not_mem_empty, or_false]
  · rw [count_merge, count_empty, Nat.add_zero]

theorem counts_empty_merge (a : Tally) : (empty.merge a).counts = a.counts := by
  rw [counts_merge_comm, merge_empty]

end Tally

namespace Classification

variable {label : String}

/-- A remark records a label: its condition holds, or it selects the label. -/
def Records (label : String) : Classification → Prop
  | .when condition label' => condition = true ∧ label' = label
  | .either condition yes no => (if condition then yes else no) = label

instance (label : String) : DecidablePred (Records label)
  | .when condition label' => inferInstanceAs (Decidable (condition = true ∧ label' = label))
  | .either condition yes no =>
    inferInstanceAs (Decidable ((if condition then yes else no) = label))

theorem mem_labels {c : Classification} : label ∈ c.labels ↔ c.Records label := by
  cases c with
  | when condition label' => cases condition <;> simp [labels, Records, eq_comm]
  | either condition yes no => simp [labels, Records, eq_comm]

/-- No remark records a label twice. -/
theorem count_labels (c : Classification) (label : String) :
    c.labels.count label = if c.Records label then 1 else 0 := by
  have hnodup : c.labels.Nodup := by
    cases c with
    | when condition label' => cases condition <;> simp [labels]
    | either condition yes no => simp [labels]
  rw [hnodup.count]
  simp only [mem_labels]

theorem count_flatMap_labels (cs : List Classification) (label : String) :
    (cs.flatMap labels).count label = cs.countP fun c => c.Records label := by
  induction cs with
  | nil => rfl
  | cons c cs ih =>
    rw [List.flatMap_cons, List.count_append, ih, count_labels, List.countP_cons, Nat.add_comm]
    simp only [decide_eq_true_eq]

theorem count_table (cs : List Classification) (label : String) :
    (table cs).count label = cs.countP fun c => c.Records label := by
  rw [table, Tally.count_foldl_record, Tally.count_empty, Nat.zero_add, count_flatMap_labels]

theorem mem_table {cs : List Classification} :
    label ∈ (table cs).counts ↔ ∃ c ∈ cs, c.Records label := by
  simp only [table, Tally.mem_foldl_record, Tally.not_mem_empty, false_or, List.mem_flatMap,
    mem_labels]

end Classification

namespace Tally

/-- Tables merged one after the other into an empty one. -/
def gather (tables : List Tally) : Tally :=
  tables.foldl merge empty

/-- A table counts what is remarked in these invocations: each label as often as
it is recorded in all of them, and no label that is never recorded. -/
structure Counts (s : Tally) (invocations : List (List Classification)) : Prop where
  count : ∀ label, s.count label =
    (invocations.map fun remarks => remarks.countP fun c => c.Records label).sum
  mem : ∀ label, label ∈ s.counts ↔ ∃ remarks ∈ invocations, ∃ c ∈ remarks, c.Records label

namespace Counts

variable {s t : Tally} {xs ys : List (List Classification)}

theorem empty : Tally.empty.Counts [] where
  count label := count_empty label
  mem label := by simp only [not_mem_empty, List.not_mem_nil, false_and, exists_false]

theorem table (cs : List Classification) : (Classification.table cs).Counts [cs] where
  count label := by
    rw [List.map_singleton, List.sum_singleton]
    exact Classification.count_table cs label
  mem label := by
    simp only [List.mem_singleton, exists_eq_left]
    exact Classification.mem_table

/-- Merged tables count what is remarked in the invocations of both. -/
theorem merge (hs : s.Counts xs) (ht : t.Counts ys) : (s.merge t).Counts (xs ++ ys) where
  count label := by
    rw [count_merge, hs.count, ht.count, List.map_append, List.sum_append]
  mem label := by
    simp only [mem_merge, hs.mem, ht.mem, List.mem_append, or_and_right, exists_or]

theorem foldl_merge {β : Type} {tables : β → Tally} {invocations : β → List (List Classification)}
    (h : ∀ b, (tables b).Counts (invocations b)) (hs : s.Counts xs) (bs : List β) :
    ((bs.map tables).foldl Tally.merge s).Counts (xs ++ bs.flatMap invocations) := by
  induction bs generalizing s xs with
  | nil =>
    rw [List.flatMap_nil, List.append_nil]
    exact hs
  | cons b bs ih =>
    rw [List.flatMap_cons, ← List.append_assoc]
    exact ih (hs.merge (h b))

theorem gather {β : Type} {tables : β → Tally} {invocations : β → List (List Classification)}
    (h : ∀ b, (tables b).Counts (invocations b)) (bs : List β) :
    (gather (bs.map tables)).Counts (bs.flatMap invocations) :=
  foldl_merge h empty bs

theorem gather_tables {β : Type} (remarks : β → List Classification) (bs : List β) :
    (Tally.gather (bs.map fun b => Classification.table (remarks b))).Counts (bs.map remarks) := by
  rw [List.map_eq_flatMap (f := remarks)]
  exact gather (fun b => table (remarks b)) bs

/-- What a table counts of some invocations does not depend on their order. -/
theorem counts_eq_of_perm (hs : s.Counts xs) (ht : t.Counts ys) (h : xs.Perm ys) :
    s.counts = t.counts := by
  refine counts_eq (fun label => ?_) fun label => ?_
  · simp only [hs.mem, ht.mem, h.mem_iff]
  · rw [hs.count, ht.count, (h.map _).sum_eq]

end Counts

end Tally

namespace Property

variable {α : Type}

/-- Tests that pass gather a table for each sample, in their order. -/
theorem test_of_allPass {predicate : α → Trial} {n place : Nat} {tally : Tally}
    {samples : Samples α} {good : List (Sample α)} (hgood : AllPass predicate good)
    (h : samples.take n = good.map .ok) :
    test predicate n place tally samples = .ok (.passed
      ((good.map fun sample =>
        Classification.table (predicate sample.value).remarks).foldl Tally.merge tally)) := by
  induction n generalizing place tally samples good with
  | zero =>
    obtain rfl := List.map_eq_nil_iff.1 h.symm
    rfl
  | succ n ih =>
    obtain ⟨first, later, hnext⟩ : ∃ first later, samples.next = (first, later) := ⟨_, _, rfl⟩
    rw [Samples.take_succ, hnext] at h
    cases good with
    | nil => cases h
    | cons sample good =>
      obtain ⟨hsample, hgood⟩ := List.forall_mem_cons.1 hgood
      obtain ⟨rfl, hrest⟩ := List.cons.inj h
      rw [test, hnext]
      simp only [hsample]
      exact ih hgood hrest

variable [Inspect α]

/-- A run that passes has asked its predicate as often as its tests are many, and
has gathered the tables of what was remarked then. -/
theorem counts_of_run_passed {p : Property α} {config : Config} {source : RandomSource}
    {run : Passed} (h : p.runFrom config source = .ok (.pass run)) :
    ∃ calls, p.runWith (noting p.predicate) config source [] = (.ok (.pass run), calls) ∧
      calls.length = config.testLimit ∧ run.tally.total = config.testLimit ∧
      run.tally.Counts (calls.map fun v => (p.predicate v).remarks) := by
  cases hvalidate : p.validate config with
  | error fault =>
    rw [(run_refused source hvalidate (noting p.predicate) []).1] at h
    cases h
  | ok _ =>
    obtain ⟨calls, hwith, hreports⟩ := run_reports source hvalidate
    rw [h] at hwith hreports
    rw [runFrom_eq source hvalidate] at h
    generalize hstream : (p.gen.generate source config.edge).take config.testLimit = elements
      at hreports
    cases hreports with
    | @pass good _ hgood _ htotal =>
      have hlength := congrArg List.length hstream
      rw [Samples.take_eq_map_nth, List.length_map, List.length_range, List.length_map] at hlength
      rw [test_of_allPass hgood hstream] at h
      have htally := Tally.Counts.gather_tables (fun v => (p.predicate v).remarks)
        (good.map Sample.value)
      rw [List.map_map] at htally
      cases h
      refine ⟨_, hwith, ?_, htotal, ?_⟩
      · rw [List.length_map, hlength]
      · exact ⟨htally.count, htally.mem⟩

/-- The table of a run that passes counts every label as often as it is recorded
in all of its tests, and has no other labels. Tables are merged alike in groups
and in a row, so it does not matter which tests are put together first. Totals are
not merged: the table that another one is merged into keeps its own, and a run sets
it at the end. So it is labels and counts alone that do not depend on which of two
tables is merged into which, and that an empty table takes over unchanged. -/
theorem run_tallies :
    (∀ (p : Property α) (config : Config) (freshSeed : UInt64) (run : Passed),
      p.run config freshSeed = .ok (.pass run) →
      ∃ calls, p.runWith (noting p.predicate) config
            (.seeded (config.seed.getD freshSeed)) [] = (.ok (.pass run), calls) ∧
        calls.length = config.testLimit ∧ run.tally.total = config.testLimit ∧
        run.tally.Counts (calls.map fun v => (p.predicate v).remarks) ∧
        ∀ groups : List (List α), groups.flatten.Perm calls →
          (Tally.gather (groups.map fun group =>
            Tally.gather (group.map fun v =>
              Classification.table (p.predicate v).remarks))).counts = run.tally.counts) ∧
    (∀ a b c : Tally, (a.merge b).merge c = a.merge (b.merge c)) ∧
    (∀ a b : Tally, (a.merge b).counts = (b.merge a).counts ∧ (a.merge b).total = a.total) ∧
    ∀ a : Tally, a.merge .empty = a ∧ (Tally.empty.merge a).counts = a.counts := by
  refine ⟨fun p config freshSeed run h => ?_, Tally.merge_assoc,
    fun a b => ⟨a.counts_merge_comm b, a.total_merge b⟩,
    fun a => ⟨a.merge_empty, a.counts_empty_merge⟩⟩
  obtain ⟨calls, hwith, hlength, htotal, hcounts⟩ := counts_of_run_passed h
  refine ⟨calls, hwith, hlength, htotal, hcounts, fun groups hperm => ?_⟩
  have hgroups := Tally.Counts.gather (Tally.Counts.gather_tables fun v => (p.predicate v).remarks)
    groups
  refine hgroups.counts_eq_of_perm hcounts ?_
  rw [List.flatMap_def, ← List.map_flatten]
  exact hperm.map _

/-- A remark that selects among two labels that are the same records it each
time, and a label whose condition never holds is not in the table. -/
theorem run_tallies_same_label :
    let p : Property Bool :=
      ⟨.exhaustive .bool, fun b => ⟨[.either b "any" "any", .when false "none"], .pass⟩,
        none, none⟩
    let config : Config := { testLimit := 2, seed := some 7 }
    ∃ run, p.run config 0 = .ok (.pass run) ∧
      ∃ calls, p.runWith (noting p.predicate) config (.seeded 7) [] = (.ok (.pass run), calls) ∧
        calls = [false, true] ∧
        (∀ groups : List (List Bool), groups.flatten.Perm calls →
          (Tally.gather (groups.map fun group =>
            Tally.gather (group.map fun v =>
              Classification.table (p.predicate v).remarks))).counts = run.tally.counts) ∧
        run.tally.count "any" = 2 ∧ "none" ∉ run.tally.counts := by
  intro p config
  obtain ⟨run, hrun⟩ : ∃ run, p.run config 0 = .ok (.pass run) := ⟨_, rfl⟩
  obtain ⟨calls, hwith, -, -, hcounts, hgroups⟩ := run_tallies.1 p config 0 run hrun
  obtain rfl : [false, true] = calls := congrArg Prod.snd hwith
  refine ⟨run, hrun, _, hwith, rfl, hgroups, ?_, ?_⟩
  · rw [hcounts.count]
    decide
  · rw [hcounts.mem]
    decide

end Property

end PropertyTesting
