import PropertyTesting.Proofs.Generate.Attempt
import PropertyTesting.Proofs.Generate.Parts
import PropertyTesting.Generate.Scalar

/-!
Inputs that are generated side by side. Each is drawn from a fork of its own, so
what it gives depends on its place and on the source that the whole is drawn
from, and not on the inputs before it: `Drawn` says which trees those are, and
has no room for anything else. A fault is that of the first input that fails on
its fork.
-/

namespace PropertyTesting

variable {α β : Type}

namespace Arbitrary

/-- Trees of samples of arbitraries, each drawn from a fork of its own: the forks
are taken from a source in order. -/
inductive Drawn : RandomSource → List (Arbitrary α) → List (Tree α) → Prop where
  | nil {rs : RandomSource} : Drawn rs [] []
  | cons {rs : RandomSource} {a : Arbitrary α} {as : List (Arbitrary α)} {s : Sample α}
      {ts : List (Tree α)} : (a.sample rs.child).1 = .ok s → Drawn (rs.skip 1) as ts →
      Drawn rs (a :: as) (s.shrinks :: ts)

/-- The fault of the first input that fails on its fork, and the source after the draws
for the inputs up to that one. -/
def FirstFault (rs : RandomSource) (as : List (Arbitrary α)) (e : Fault) (rs' : RandomSource) :
    Prop :=
  ∃ before a after ts, as = before ++ a :: after ∧ Drawn rs before ts ∧
    (a.sample (rs.skip before.length).child).1 = .error e ∧ rs' = rs.skip (before.length + 1)

variable {rs rs' : RandomSource} {as : List (Arbitrary α)} {ts us : List (Tree α)}

theorem Drawn.length_eq (h : Drawn rs as ts) : ts.length = as.length := by
  induction h with
  | nil => rfl
  | cons _ _ ih => rw [List.length_cons, List.length_cons, ih]

/-- The trees are determined by the source. -/
theorem Drawn.unique (h : Drawn rs as ts) (h' : Drawn rs as us) : ts = us := by
  induction h generalizing us with
  | nil => cases h'; rfl
  | cons hs _ ih =>
    cases h' with
    | cons hs' h' =>
      obtain rfl := Except.ok.inj (hs.symm.trans hs')
      rw [ih h']

theorem drawn_append_cons {before after : List (Arbitrary α)} {a : Arbitrary α} :
    Drawn rs (before ++ a :: after) ts ↔
      ∃ xs s ys, ts = xs ++ s.shrinks :: ys ∧ Drawn rs before xs ∧
        (a.sample (rs.skip before.length).child).1 = .ok s ∧
        Drawn (rs.skip (before.length + 1)) after ys := by
  induction before generalizing rs ts with
  | nil =>
    constructor
    · rintro (_ | ⟨hs, h⟩)
      exact ⟨[], _, _, rfl, .nil, hs, h⟩
    · rintro ⟨_, s, ys, rfl, ⟨⟩, hs, h⟩
      exact .cons hs h
  | cons b before ih =>
    constructor
    · rintro (_ | ⟨hs, h⟩)
      obtain ⟨xs, t, ys, rfl, hxs, ht, hys⟩ := ih.1 h
      exact ⟨_, t, ys, rfl, .cons hs hxs, ht, hys⟩
    · rintro ⟨_, t, ys, rfl, _ | ⟨hs, hxs⟩, ht, hys⟩
      exact .cons hs (ih.2 ⟨_, t, ys, rfl, hxs, ht, hys⟩)

theorem trees_cons (a : Arbitrary α) (as : List (Arbitrary α)) :
    trees (a :: as) = (do
      let s ← Attempt.forked a.sample
      (s.shrinks :: ·) <$> trees as) := by
  simp only [trees, bind_pure_comp]

/-- Trees are drawn where every input gives a sample from its fork. It takes one
draw for each of them. -/
theorem trees_eq_ok :
    trees as rs = (.ok ts, rs') ↔ Drawn rs as ts ∧ rs' = rs.skip as.length := by
  induction as generalizing rs ts with
  | nil =>
    constructor
    · intro h
      cases h
      exact ⟨.nil, rfl⟩
    · rintro ⟨⟨⟩, rfl⟩
      rfl
  | cons a as ih =>
    rw [trees_cons, Attempt.bind_eq_ok]
    constructor
    · rintro ⟨s, rs₁, hfork, hrest⟩
      obtain ⟨hs, rfl⟩ := Attempt.forked_eq.1 hfork
      obtain ⟨us, htrees, rfl⟩ := Attempt.map_eq_ok.1 hrest
      obtain ⟨hus, rfl⟩ := ih.1 htrees
      exact ⟨.cons hs hus, rfl⟩
    · rintro ⟨_ | ⟨hs, h⟩, rfl⟩
      exact ⟨_, _, Attempt.forked_eq.2 ⟨hs, rfl⟩, Attempt.map_eq_ok.2 ⟨_, ih.2 ⟨h, rfl⟩, rfl⟩⟩

/-- No trees are drawn where an input fails on its fork. -/
theorem trees_eq_error {e : Fault} :
    trees as rs = (.error e, rs') ↔ FirstFault rs as e rs' := by
  induction as generalizing rs with
  | nil =>
    constructor
    · intro h
      cases h
    · rintro ⟨before, a, after, ts, h, -⟩
      simp at h
  | cons a as ih =>
    rw [trees_cons, Attempt.bind_eq_error]
    constructor
    · rintro (hfork | ⟨s, rs₁, hfork, hrest⟩)
      · obtain ⟨ha, rfl⟩ := Attempt.forked_eq.1 hfork
        exact ⟨[], a, as, [], rfl, .nil, ha, rfl⟩
      · obtain ⟨hs, rfl⟩ := Attempt.forked_eq.1 hfork
        obtain ⟨before, b, after, ts, rfl, hts, hb, rfl⟩ := ih.1 (Attempt.map_eq_error.1 hrest)
        exact ⟨a :: before, b, after, _, rfl, .cons hs hts, hb, rfl⟩
    · rintro ⟨before, b, after, ts, has, hts, hb, rfl⟩
      cases hts with
      | nil =>
        obtain ⟨rfl, rfl⟩ := List.cons.inj has
        exact .inl (Attempt.forked_eq.2 ⟨hb, rfl⟩)
      | cons hs hts =>
        obtain ⟨rfl, rfl⟩ := List.cons.inj has
        exact .inr ⟨_, _, Attempt.forked_eq.2 ⟨hs, rfl⟩,
          Attempt.map_eq_error.2 (ih.2 ⟨_, b, after, _, rfl, hts, hb, rfl⟩)⟩

end Arbitrary

namespace Nodes

variable {τ : Type → Type} {types : List Type}

theorem exists_cons (ts : Nodes τ (α :: types)) : ∃ t us, ts = cons t us :=
  ⟨ts.1, ts.2, rfl⟩

theorem cons_inj {t u : τ α} {ts us : Nodes τ types} (h : cons t ts = cons u us) :
    t = u ∧ ts = us :=
  Prod.mk.inj h

/-- Two rows of nodes as one. -/
def append {more : List Type} : {types : List Type} → Nodes τ types → Nodes τ more →
    Nodes τ (types ++ more)
  | [], _, us => us
  | _ :: _, (t, ts), us => cons t (append ts us)

end Nodes

namespace Inputs

variable {types more : List Type} {rs rs' : RandomSource}

def nil : Inputs [] :=
  ()

def cons (a : Arbitrary α) (as : Inputs types) : Inputs (α :: types) :=
  (a, as)

theorem exists_cons (as : Inputs (α :: types)) : ∃ a bs, as = cons a bs :=
  ⟨as.1, as.2, rfl⟩

/-- Two rows of arbitraries as one. -/
def append : {types : List Type} → Inputs types → Inputs more → Inputs (types ++ more)
  | [], _, bs => bs
  | _ :: _, (a, as), bs => cons a (append as bs)

/-- Trees of samples of a row of arbitraries, each drawn from a fork of its own. -/
def Drawn : {types : List Type} → RandomSource → Inputs types → Nodes Tree types → Prop
  | [], _, _, _ => True
  | _ :: _, rs, (a, as), (t, ts) =>
    (∃ s, (a.sample rs.child).1 = .ok s ∧ s.shrinks = t) ∧ Drawn (rs.skip 1) as ts

/-- The input at a place fails on its fork, and none of those before it does. -/
def FailsAt : {types : List Type} → RandomSource → Inputs types → Nat → Fault → Prop
  | [], _, _, _, _ => False
  | _ :: _, rs, (a, _), 0, e => (a.sample rs.child).1 = .error e
  | _ :: _, rs, (a, as), n + 1, e =>
    (∃ s, (a.sample rs.child).1 = .ok s) ∧ FailsAt (rs.skip 1) as n e

/-- The fault of the first input that fails on its fork, and the source after the draws
for the inputs up to that one. -/
def FirstFault (rs : RandomSource) (as : Inputs types) (e : Fault) (rs' : RandomSource) : Prop :=
  ∃ n, FailsAt rs as n e ∧ rs' = rs.skip (n + 1)

section Cons

variable {a : Arbitrary α} {as : Inputs types} {t : Tree α} {ts : Nodes Tree types} {e : Fault}

theorem drawn_cons : Drawn rs (cons a as) (.cons t ts) ↔
    (∃ s, (a.sample rs.child).1 = .ok s ∧ s.shrinks = t) ∧ Drawn (rs.skip 1) as ts :=
  Iff.rfl

theorem failsAt_zero : FailsAt rs (cons a as) 0 e ↔ (a.sample rs.child).1 = .error e :=
  Iff.rfl

theorem failsAt_succ {n : Nat} : FailsAt rs (cons a as) (n + 1) e ↔
    (∃ s, (a.sample rs.child).1 = .ok s) ∧ FailsAt (rs.skip 1) as n e :=
  Iff.rfl

theorem trees_cons (a : Arbitrary α) (as : Inputs types) :
    (cons a as).trees = (do
      let s ← Attempt.forked a.sample
      Nodes.cons s.shrinks <$> as.trees) := by
  simp only [cons, trees, bind_pure_comp]

end Cons

theorem Drawn.unique {types : List Type} {rs : RandomSource} {as : Inputs types}
    {ts us : Nodes Tree types} (h : Drawn rs as ts) (h' : Drawn rs as us) : ts = us := by
  induction types generalizing rs with
  | nil => rfl
  | cons α types ih =>
    obtain ⟨a, as, rfl⟩ := as.exists_cons
    obtain ⟨t, ts, rfl⟩ := ts.exists_cons
    obtain ⟨u, us, rfl⟩ := us.exists_cons
    obtain ⟨⟨s, hs, rfl⟩, hts⟩ := drawn_cons.1 h
    obtain ⟨⟨s', hs', rfl⟩, hus⟩ := drawn_cons.1 h'
    obtain rfl := Except.ok.inj (hs.symm.trans hs')
    rw [ih hts hus]

theorem drawn_append_cons {before : Inputs types} {a : Arbitrary α} {after : Inputs more}
    {ts : Nodes Tree (types ++ α :: more)} :
    Drawn rs (before.append (cons a after)) ts ↔
      ∃ xs s ys, ts = xs.append (.cons s.shrinks ys) ∧ Drawn rs before xs ∧
        (a.sample (rs.skip types.length).child).1 = .ok s ∧
        Drawn (rs.skip (types.length + 1)) after ys := by
  induction types generalizing rs with
  | nil =>
    obtain ⟨t, ts, rfl⟩ := Nodes.exists_cons ts
    constructor
    · intro h
      obtain ⟨⟨s, hs, rfl⟩, hts⟩ := drawn_cons.1 h
      exact ⟨.nil, s, ts, rfl, trivial, hs, hts⟩
    · rintro ⟨xs, s, ys, hts, -, hs, h⟩
      obtain ⟨rfl, rfl⟩ := Nodes.cons_inj hts
      exact drawn_cons.2 ⟨⟨s, hs, rfl⟩, h⟩
  | cons β types ih =>
    obtain ⟨b, before, rfl⟩ := before.exists_cons
    obtain ⟨t, ts, rfl⟩ := Nodes.exists_cons ts
    constructor
    · intro h
      obtain ⟨hb, hts⟩ := drawn_cons.1 h
      obtain ⟨xs, s, ys, rfl, hxs, hs, hys⟩ := ih.1 hts
      exact ⟨.cons t xs, s, ys, rfl, ⟨hb, hxs⟩, hs, hys⟩
    · rintro ⟨xs, s, ys, hts, hxs, hs, hys⟩
      obtain ⟨x, xs, rfl⟩ := xs.exists_cons
      obtain ⟨rfl, rfl⟩ := Nodes.cons_inj hts
      obtain ⟨hb, hxs⟩ := drawn_cons.1 hxs
      exact drawn_cons.2 ⟨hb, ih.2 ⟨xs, s, ys, rfl, hxs, hs, hys⟩⟩

theorem trees_eq_ok {as : Inputs types} {ts : Nodes Tree types} :
    as.trees rs = (.ok ts, rs') ↔ Drawn rs as ts ∧ rs' = rs.skip types.length := by
  induction types generalizing rs with
  | nil =>
    constructor
    · intro h
      cases h
      exact ⟨trivial, rfl⟩
    · rintro ⟨-, rfl⟩
      rfl
  | cons α types ih =>
    obtain ⟨a, as, rfl⟩ := as.exists_cons
    obtain ⟨t, ts, rfl⟩ := ts.exists_cons
    rw [trees_cons, Attempt.bind_eq_ok, drawn_cons]
    constructor
    · rintro ⟨s, rs₁, hfork, hrest⟩
      obtain ⟨hs, rfl⟩ := Attempt.forked_eq.1 hfork
      obtain ⟨us, htrees, hts⟩ := Attempt.map_eq_ok.1 hrest
      obtain ⟨rfl, rfl⟩ := Nodes.cons_inj hts
      obtain ⟨hus, rfl⟩ := ih.1 htrees
      exact ⟨⟨⟨s, hs, rfl⟩, hus⟩, rfl⟩
    · rintro ⟨⟨⟨s, hs, rfl⟩, h⟩, rfl⟩
      exact ⟨s, _, Attempt.forked_eq.2 ⟨hs, rfl⟩, Attempt.map_eq_ok.2 ⟨ts, ih.2 ⟨h, rfl⟩, rfl⟩⟩

theorem trees_eq_error {as : Inputs types} {e : Fault} :
    as.trees rs = (.error e, rs') ↔ FirstFault rs as e rs' := by
  induction types generalizing rs with
  | nil =>
    constructor
    · intro h
      cases h
    · rintro ⟨n, h, -⟩
      exact h.elim
  | cons α types ih =>
    obtain ⟨a, as, rfl⟩ := as.exists_cons
    rw [trees_cons, Attempt.bind_eq_error]
    constructor
    · rintro (hfork | ⟨s, rs₁, hfork, hrest⟩)
      · obtain ⟨ha, rfl⟩ := Attempt.forked_eq.1 hfork
        exact ⟨0, ha, rfl⟩
      · obtain ⟨hs, rfl⟩ := Attempt.forked_eq.1 hfork
        obtain ⟨n, hn, rfl⟩ := ih.1 (Attempt.map_eq_error.1 hrest)
        exact ⟨n + 1, failsAt_succ.2 ⟨⟨s, hs⟩, hn⟩, rfl⟩
    · rintro ⟨_ | n, hn, rfl⟩
      · exact .inl (Attempt.forked_eq.2 ⟨failsAt_zero.1 hn, rfl⟩)
      · obtain ⟨⟨s, hs⟩, hn⟩ := failsAt_succ.1 hn
        exact .inr ⟨s, _, Attempt.forked_eq.2 ⟨hs, rfl⟩,
          Attempt.map_eq_error.2 (ih.2 ⟨n, hn, rfl⟩)⟩

end Inputs

namespace Arbitrary

variable {types more : List Type} {rs rs' : RandomSource} {e : Fault}

theorem sequence_eq_ok {as : List (Arbitrary α)} {s : Sample (List α)} :
    (sequence as).sample rs = (.ok s, rs') ↔
      ∃ ts, Drawn rs as ts ∧ s = .ofTree (.sequence ts) ∧ rs' = rs.skip as.length := by
  rw [sample_sequence, Attempt.map_eq_ok]
  constructor
  · rintro ⟨ts, h, rfl⟩
    obtain ⟨hts, rfl⟩ := trees_eq_ok.1 h
    exact ⟨ts, hts, rfl, rfl⟩
  · rintro ⟨ts, hts, rfl, rfl⟩
    exact ⟨ts, trees_eq_ok.2 ⟨hts, rfl⟩, rfl⟩

theorem sequence_eq_error {as : List (Arbitrary α)} :
    (sequence as).sample rs = (.error e, rs') ↔ FirstFault rs as e rs' := by
  rw [sample_sequence, Attempt.map_eq_error, trees_eq_error]

theorem zip_eq_ok {as : Inputs types} {s : Sample (Tuple types)} :
    (zip as).sample rs = (.ok s, rs') ↔
      ∃ ts, as.Drawn rs ts ∧ s = .ofTree ts.product ∧ rs' = rs.skip types.length := by
  rw [sample_zip, Attempt.map_eq_ok]
  constructor
  · rintro ⟨ts, h, rfl⟩
    obtain ⟨hts, rfl⟩ := Inputs.trees_eq_ok.1 h
    exact ⟨ts, hts, rfl, rfl⟩
  · rintro ⟨ts, hts, rfl, rfl⟩
    exact ⟨ts, Inputs.trees_eq_ok.2 ⟨hts, rfl⟩, rfl⟩

theorem zip_eq_error {as : Inputs types} :
    (zip as).sample rs = (.error e, rs') ↔ as.FirstFault rs e rs' := by
  rw [sample_zip, Attempt.map_eq_error, Inputs.trees_eq_error]

theorem times_element (a : Arbitrary α) (n : Nat) :
    Attempt.times n a.element = trees (List.replicate n a) := by
  induction n with
  | zero => rfl
  | succ n ih =>
    simp only [Attempt.times, element, bind_map_left, List.replicate_succ, trees, ← ih]

theorem skip_of_flatMap {a : Arbitrary α} {f : α → Arbitrary β} {s : Sample β}
    (h : (a.flatMap f).sample rs = (.ok s, rs')) : rs' = rs.skip 2 := by
  obtain ⟨outer, rs₁, houter, hinner⟩ := Attempt.bind_eq_ok.1 h
  obtain ⟨-, rfl⟩ := Attempt.forked_eq.1 houter
  obtain ⟨-, rfl⟩ := Attempt.forked_eq.1 hinner
  rfl

/-- A list is drawn with the draws of its length and one more for each element. -/
theorem skip_of_list {a : Arbitrary α} {min max : Nat} {s : Sample (List α)}
    (h : (a.list min max).sample rs = (.ok s, rs')) :
    s.value.length = (Draw.between min max rs).1 ∧
      rs' = (Draw.between min max rs).2.skip s.value.length := by
  rcases Nat.lt_or_ge max min with hlt | hle
  · rw [list_of_lt a hlt] at h
    cases h
  · rw [sample_list a hle, Attempt.lift_bind_apply, Attempt.map_eq_ok, times_element] at h
    obtain ⟨ts, hts, rfl⟩ := h
    obtain ⟨hdrawn, rfl⟩ := trees_eq_ok.1 hts
    have hlength : (Sample.ofTree (Tree.list ts min)).value.length =
        (Draw.between min max rs).1 := by
      show (Tree.list ts min).value.length = _
      rw [Tree.value_list, List.length_map, hdrawn.length_eq, List.length_replicate]
    rw [hlength, List.length_replicate]
    exact ⟨rfl, rfl⟩

/-- An input of a sequence leaves no trace in what the others give. -/
theorem sequence_independent {before after : List (Arbitrary α)} {a b : Arbitrary α}
    {rs₁ rs₂ : RandomSource} {s t : Sample (List α)}
    (hs : (sequence (before ++ a :: after)).sample rs = (.ok s, rs₁))
    (ht : (sequence (before ++ b :: after)).sample rs = (.ok t, rs₂)) :
    rs₁ = rs.skip (before ++ a :: after).length ∧ rs₂ = rs₁ ∧
      ∃ xs x y ys, Drawn rs before xs ∧ Drawn (rs.skip (before.length + 1)) after ys ∧
        s = .ofTree (.sequence (xs ++ x :: ys)) ∧ t = .ofTree (.sequence (xs ++ y :: ys)) := by
  obtain ⟨ts, hts, rfl, rfl⟩ := sequence_eq_ok.1 hs
  obtain ⟨us, hus, rfl, rfl⟩ := sequence_eq_ok.1 ht
  obtain ⟨xs, x, ys, rfl, hxs, -, hys⟩ := drawn_append_cons.1 hts
  obtain ⟨xs', y, ys', rfl, hxs', -, hys'⟩ := drawn_append_cons.1 hus
  -- In both the other trees are drawn from the same forks, and so they are the same.
  obtain rfl := hxs.unique hxs'
  obtain rfl := hys.unique hys'
  exact ⟨rfl, by simp only [List.length_append, List.length_cons], xs, _, _, ys, hxs, hys, rfl, rfl⟩

/-- An input of a row leaves no trace in what the others give, even if its type
changes. -/
theorem zip_independent {before : Inputs types} {after : Inputs more} {a : Arbitrary α}
    {b : Arbitrary β} {rs₁ rs₂ : RandomSource} {s : Sample (Tuple (types ++ α :: more))}
    {t : Sample (Tuple (types ++ β :: more))}
    (hs : (zip (before.append (.cons a after))).sample rs = (.ok s, rs₁))
    (ht : (zip (before.append (.cons b after))).sample rs = (.ok t, rs₂)) :
    rs₁ = rs.skip (types ++ α :: more).length ∧ rs₂ = rs₁ ∧
      ∃ xs x y ys, before.Drawn rs xs ∧ after.Drawn (rs.skip (types.length + 1)) ys ∧
        s = .ofTree (xs.append (.cons x ys)).product ∧
        t = .ofTree (xs.append (.cons y ys)).product := by
  obtain ⟨ts, hts, rfl, rfl⟩ := zip_eq_ok.1 hs
  obtain ⟨us, hus, rfl, rfl⟩ := zip_eq_ok.1 ht
  obtain ⟨xs, x, ys, rfl, hxs, -, hys⟩ := Inputs.drawn_append_cons.1 hts
  obtain ⟨xs', y, ys', rfl, hxs', -, hys'⟩ := Inputs.drawn_append_cons.1 hus
  obtain rfl := hxs.unique hxs'
  obtain rfl := hys.unique hys'
  exact ⟨rfl, by simp only [List.length_append, List.length_cons], xs, _, _, ys, hxs, hys, rfl, rfl⟩

/-- Forked inputs do not interfere. Whatever arbitrary is put in the place of one
input of a list or of a row, if both versions give a sample then the trees of the
other inputs are the same, and the source has advanced by one draw for each input.
In the same way what depends on a drawn value advances the source by two draws, and
a list by the draws of its length and one for each element. -/
theorem forks_do_not_interfere :
    (∀ {α : Type} {before after : List (Arbitrary α)} {a b : Arbitrary α}
        {rs rs₁ rs₂ : RandomSource} {s t : Sample (List α)},
      (sequence (before ++ a :: after)).sample rs = (.ok s, rs₁) →
      (sequence (before ++ b :: after)).sample rs = (.ok t, rs₂) →
      rs₁ = rs.skip (before ++ a :: after).length ∧ rs₂ = rs₁ ∧
        ∃ xs x y ys, Drawn rs before xs ∧ Drawn (rs.skip (before.length + 1)) after ys ∧
          s = .ofTree (.sequence (xs ++ x :: ys)) ∧ t = .ofTree (.sequence (xs ++ y :: ys))) ∧
    (∀ {types more : List Type} {α β : Type} {before : Inputs types} {after : Inputs more}
        {a : Arbitrary α} {b : Arbitrary β} {rs rs₁ rs₂ : RandomSource}
        {s : Sample (Tuple (types ++ α :: more))} {t : Sample (Tuple (types ++ β :: more))},
      (zip (before.append (.cons a after))).sample rs = (.ok s, rs₁) →
      (zip (before.append (.cons b after))).sample rs = (.ok t, rs₂) →
      rs₁ = rs.skip (types ++ α :: more).length ∧ rs₂ = rs₁ ∧
        ∃ xs x y ys, before.Drawn rs xs ∧ after.Drawn (rs.skip (types.length + 1)) ys ∧
          s = .ofTree (xs.append (.cons x ys)).product ∧
          t = .ofTree (xs.append (.cons y ys)).product) ∧
    (∀ {α β : Type} {a : Arbitrary α} {f : α → Arbitrary β} {rs rs' : RandomSource} {s : Sample β},
      (a.flatMap f).sample rs = (.ok s, rs') → rs' = rs.skip 2) ∧
    ∀ {α : Type} {a : Arbitrary α} {min max : Nat} {rs rs' : RandomSource} {s : Sample (List α)},
      (a.list min max).sample rs = (.ok s, rs') →
      s.value.length = (Draw.between min max rs).1 ∧
        rs' = (Draw.between min max rs).2.skip s.value.length :=
  ⟨sequence_independent, zip_independent, skip_of_flatMap, skip_of_list⟩

/-- A coin among coins, in whose place comes one that is tossed until it shows heads. -/
theorem forks_do_not_interfere_coins :
    (∃ s t rs₁ rs₂,
      (sequence ([bool] ++ bool :: [bool])).sample (.seeded 42) = (.ok s, rs₁) ∧
      (sequence ([bool] ++ bool.filter id 9 :: [bool])).sample (.seeded 42) = (.ok t, rs₂) ∧
      rs₁ = (RandomSource.seeded 42).skip 3 ∧ rs₂ = rs₁ ∧
        ∃ xs x y ys, Drawn (.seeded 42) [bool] xs ∧
          Drawn ((RandomSource.seeded 42).skip 2) [bool] ys ∧
          s = .ofTree (.sequence (xs ++ x :: ys)) ∧ t = .ofTree (.sequence (xs ++ y :: ys))) ∧
    (∃ s t rs₁ rs₂,
      (zip ((Inputs.cons bool .nil).append (.cons bool .nil))).sample (.seeded 42) = (.ok s, rs₁) ∧
      (zip ((Inputs.cons bool .nil).append (.cons char .nil))).sample (.seeded 42) = (.ok t, rs₂) ∧
      rs₁ = (RandomSource.seeded 42).skip 2 ∧ rs₂ = rs₁ ∧
        ∃ xs x y ys, (Inputs.cons bool .nil).Drawn (.seeded 42) xs ∧
          Inputs.Drawn ((RandomSource.seeded 42).skip 2) .nil ys ∧
          s = .ofTree (xs.append (.cons x ys)).product ∧
          t = .ofTree (xs.append (.cons y ys)).product) ∧
    (∃ s rs', (bool.flatMap fun b => bool.filter (· == b) 9).sample (.seeded 42) = (.ok s, rs') ∧
      rs' = (RandomSource.seeded 42).skip 2) ∧
    ∃ s rs', ((bool.filter id 9).list 1 3).sample (.seeded 42) = (.ok s, rs') ∧
      s.value.length = (Draw.between 1 3 (.seeded 42)).1 ∧
        rs' = (Draw.between 1 3 (.seeded 42)).2.skip s.value.length := by
  obtain ⟨s, rs₁, hs⟩ : ∃ s rs₁,
      (sequence ([bool] ++ bool :: [bool])).sample (.seeded 42) = (.ok s, rs₁) := ⟨_, _, rfl⟩
  obtain ⟨t, rs₂, ht⟩ : ∃ t rs₂,
      (sequence ([bool] ++ bool.filter id 9 :: [bool])).sample (.seeded 42) = (.ok t, rs₂) :=
    ⟨_, _, rfl⟩
  obtain ⟨p, rs₃, hp⟩ : ∃ p rs₃, (zip ((Inputs.cons bool .nil).append (.cons bool .nil))).sample
      (.seeded 42) = (.ok p, rs₃) := ⟨_, _, rfl⟩
  obtain ⟨q, rs₄, hq⟩ : ∃ q rs₄, (zip ((Inputs.cons bool .nil).append (.cons char .nil))).sample
      (.seeded 42) = (.ok q, rs₄) := ⟨_, _, rfl⟩
  obtain ⟨u, rs₅, hu⟩ : ∃ u rs₅,
      (bool.flatMap fun b => bool.filter (· == b) 9).sample (.seeded 42) = (.ok u, rs₅) :=
    ⟨_, _, rfl⟩
  obtain ⟨v, rs₆, hv⟩ : ∃ v rs₆,
      ((bool.filter id 9).list 1 3).sample (.seeded 42) = (.ok v, rs₆) := ⟨_, _, rfl⟩
  exact ⟨⟨s, t, rs₁, rs₂, hs, ht, forks_do_not_interfere.1 hs ht⟩,
    ⟨p, q, rs₃, rs₄, hp, hq, forks_do_not_interfere.2.1 hp hq⟩,
    ⟨u, rs₅, hu, forks_do_not_interfere.2.2.1 hu⟩,
    v, rs₆, hv, forks_do_not_interfere.2.2.2 hv⟩

end Arbitrary

end PropertyTesting
