import PropertyTesting.Run.Property

/-!
Searches and runs with a predicate that keeps a state. Such a predicate may say
something else each time that it is asked, and its state can tell what it was
asked. A search is a loop of turns here. It counts its moves up to their
limits, and nothing else bounds it; `Stage.left_lt_of_turn` is why it ends.
-/

namespace PropertyTesting

variable {σ τ α : Type}

/-- Ask a predicate that has no state, and note what it was asked. -/
def noting {ρ : Type} (f : α → ρ) : α → StateM (List α) ρ :=
  fun v asked => (f v, asked ++ [v])

namespace Minimize

variable [Branching τ α] [Inspect α]

open Branching Inspect

/-- Look at children one after the other until one fails that is neither known
nor written like the node. -/
def lookWith (ask : α → StateM σ Verdict) (p : Progress α) (sideways : Option τ) :
    Row τ → StateM σ (Look τ α)
  | .nil => return .stuck p sideways
  | .cons t rest =>
    let v := value t
    let form := inspect v
    if form = p.form then
      lookWith ask p (sideways <|> some t) (rest ())
    else if p.met.contains form then
      lookWith ask p sideways (rest ())
    else do
      match ← ask v with
      | .pass => lookWith ask (p.note v) sideways (rest ())
      | .fail panic => return .improved t ((p.note v).accept v panic)

namespace Look

/-- What is known when a look is over. -/
def known : Look τ α → Progress α
  | improved _ p => p
  | stuck p _ => p

/-- How many steps a look accepts. -/
def taken : Look τ α → Nat
  | improved _ _ => 1
  | stuck _ _ => 0

end Look

/-- A look counts the step that it accepts. -/
theorem steps_lookWith (ask : α → StateM σ Verdict) (p : Progress α) (sideways : Option τ)
    (ts : Row τ) (s : σ) :
    (lookWith ask p sideways ts s).1.known.steps =
      p.steps + (lookWith ask p sideways ts s).1.taken := by
  induction ts generalizing p sideways s with
  | nil => rfl
  | cons t rest ih =>
    have ih := ih ()
    rw [lookWith]
    split
    · exact ih p (sideways <|> some t) s
    · split
      · exact ih p sideways s
      · simp only [bind, StateT.bind]
        generalize ask (value t) s = answer
        match answer with
        | (.pass, s') => exact ih (p.note (value t)) sideways s'
        | (.fail panic, s') => rfl

/-- Where a search stands before a turn, and how many sideways moves it has made
to come there. -/
structure Stage (τ α : Type) where
  node : τ
  known : Progress α
  moves : Nat

namespace Stage

/-- How many accepted steps brought a search to a stage. -/
def steps (g : Stage τ α) : Nat :=
  g.known.steps

/-- How many moves the limit leaves. -/
def left (limit : Nat) (g : Stage τ α) : Nat :=
  (limit - g.steps) + (limit - g.moves)

/-- After a look at the children the search goes on, or it is over. -/
def settle (limit : Nat) (g : Stage τ α) : Look τ α → Minimized α ⊕ Stage τ α
  | .improved t p => .inr ⟨t, p, g.moves⟩
  | .stuck p none => .inl (p.finish (value g.node) false)
  | .stuck p (some t) =>
    if g.moves < limit then .inr ⟨t, p, g.moves + 1⟩
    else .inl (p.finish (value g.node) false)

/-- One turn of a search: the children of one node are asked for. -/
def turn (limit : Nat) (ask : α → StateM σ Verdict) (g : Stage τ α) :
    StateM σ (Minimized α ⊕ Stage τ α) :=
  let below := row g.node
  let p := g.known.expand
  if limit ≤ g.steps then
    return .inl (p.finish (value g.node) !below.isEmpty)
  else do
    let found ← lookWith ask p none below
    return g.settle limit found

omit [Inspect α] in
/-- After a look the search is over, or it goes on and takes up an accepted step
or a sideways move. Either way it knows what it knew after the look. -/
theorem settle_spec (limit : Nat) (g : Stage τ α) (found : Look τ α) :
    g.settle limit found = .inl (found.known.finish (value g.node) false) ∨
      ∃ g', g.settle limit found = .inr g' ∧ g'.known = found.known ∧
        (found.taken = 1 ∧ g'.moves = g.moves ∨
          found.taken = 0 ∧ g'.moves = g.moves + 1 ∧ g.moves < limit) := by
  match found with
  | .improved t p => exact .inr ⟨_, rfl, rfl, .inl ⟨rfl, rfl⟩⟩
  | .stuck p none => exact .inl rfl
  | .stuck p (some t) =>
    by_cases hmoves : g.moves < limit
    · exact .inr ⟨_, if_pos hmoves, rfl, .inr ⟨rfl, rfl, hmoves⟩⟩
    · exact .inl (if_neg hmoves)

omit [Inspect α] in
theorem left_lt_of_settle {limit : Nat} {g g' : Stage τ α} (hsteps : g.steps < limit)
    {found : Look τ α} (hfound : found.known.steps = g.steps + found.taken)
    (h : g.settle limit found = .inr g') : g'.left limit < g.left limit := by
  rcases settle_spec limit g found with hover | ⟨g₁, hon, hknown, hmove⟩
  · cases hover.symm.trans h
  · obtain rfl := Sum.inr.inj (hon.symm.trans h)
    have hcounted : g₁.steps = g.steps + found.taken :=
      (congrArg Progress.steps hknown).trans hfound
    show limit - g₁.steps + (limit - g₁.moves) < limit - g.steps + (limit - g.moves)
    omega

/-- Whatever the predicate says, a turn takes up one of the moves that are left
or ends the search. -/
theorem left_lt_of_turn {limit : Nat} {ask : α → StateM σ Verdict} {g g' : Stage τ α}
    {s s' : σ} (h : g.turn limit ask s = (.inr g', s')) : g'.left limit < g.left limit := by
  unfold turn at h
  split at h
  · cases h
  · rename_i hsteps
    exact left_lt_of_settle (Nat.lt_of_not_le hsteps) (steps_lookWith ask g.known.expand none _ s)
      (congrArg Prod.fst h)

/-- Take turns until the search is over. -/
def search (limit : Nat) (ask : α → StateM σ Verdict) (g : Stage τ α) (s : σ) :
    Minimized α × σ :=
  match _h : g.turn limit ask s with
  | (.inl m, s) => (m, s)
  | (.inr g', s) => search limit ask g' s
termination_by g.left limit
decreasing_by exact left_lt_of_turn _h

/-- Where a search starts. -/
def start (t : τ) : Stage τ α :=
  ⟨t, Progress.start (value t), 0⟩

end Stage

/-- Minimize the failing value at a node with a predicate that keeps a state. -/
def consult (limit : Nat) (ask : α → StateM σ Verdict) (t : τ) : StateM σ (Minimized α) :=
  Stage.search limit ask (Stage.start t)

end Minimize

namespace Property

variable [Inspect α]

/-- Test the samples of a stream with a predicate that keeps a state. -/
def testWith (ask : α → StateM σ Trial) :
    Nat → Nat → Tally → Samples α → StateM σ (Except Fault (Tested α))
  | 0, _, tally, _ => return .ok (.passed tally)
  | n + 1, place, tally, samples =>
    match samples.next with
    | (.error fault, _) => return .error fault
    | (.ok sample, samples) => do
      let trial ← ask sample.value
      match trial.verdict with
      | .fail panic => return .ok (.failed place sample panic)
      | .pass =>
        testWith ask n (place + 1) (tally.merge (Classification.table trial.remarks)) samples

/-- Run a property with a predicate that keeps a state in the place of its own. -/
def runWith (p : Property α) (ask : α → StateM σ Trial) (config : Config)
    (source : RandomSource) : StateM σ (Except Fault Outcome) :=
  match p.validate config with
  | .error fault => return .error fault
  | .ok () => do
    match ← testWith ask config.testLimit 0 .empty (p.gen.generate source config.edge) with
    | .error fault => return .error fault
    | .ok (.passed tally) => return .ok (.pass (p.passed config source.seed tally))
    | .ok (.failed place sample panic) => do
      let shrunk ← Minimize.consult config.shrinkLimit
        (fun v => do
          let trial ← ask v
          return trial.verdict)
        sample.shrinks
      return .ok (.fail (p.failed source.seed (place + 1) sample panic shrunk))

end Property

end PropertyTesting
