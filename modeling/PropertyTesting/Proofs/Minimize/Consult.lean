import PropertyTesting.Proofs.Minimize.Search
import PropertyTesting.Run.Consult

/-!
Searches with a predicate that keeps a state. All that such a predicate is
asked about is new, so that whatever it says, a predicate without a state could
have said: `exists_minimize_eq`. What holds of every search with a predicate
that has no state therefore holds of these searches, too.
-/

namespace PropertyTesting

variable {σ τ α ρ : Type}

/-- The predicate is asked about some values in turn, and this is what it says
of each, while its state goes from the one to the other. -/
inductive Asked (ask : α → StateM σ ρ) : σ → List (α × ρ) → σ → Prop where
  | nil {s : σ} : Asked ask s [] s
  | cons {s s' s'' : σ} {v : α} {r : ρ} {calls : List (α × ρ)} : ask v s = (r, s') →
      Asked ask s' calls s'' → Asked ask s ((v, r) :: calls) s''

/-- A predicate without a state says the same. -/
def Agrees (f : α → ρ) (calls : List (α × ρ)) : Prop :=
  ∀ c ∈ calls, f c.1 = c.2

namespace Asked

variable {ask : α → StateM σ ρ} {s s' s'' : σ} {calls more : List (α × ρ)}

theorem append (h : Asked ask s calls s') (hmore : Asked ask s' more s'') :
    Asked ask s (calls ++ more) s'' := by
  induction h with
  | nil => exact hmore
  | cons hv _ ih => exact .cons hv (ih hmore)

/-- If the state makes no difference to what is said, what is said is known
beforehand. -/
theorem agrees {f : α → ρ} (hf : ∀ v s, (ask v s).1 = f v) (h : Asked ask s calls s') :
    Agrees f calls := by
  induction h with
  | nil => simp [Agrees]
  | @cons s _ _ v r _ hv _ ih =>
    refine List.forall_mem_cons.2 ⟨?_, ih⟩
    rw [← hf v s, hv]

theorem eq_append_of_noting {f : α → ρ} {asked asked' : List α}
    (h : Asked (noting f) asked calls asked') : asked' = asked ++ calls.map Prod.fst := by
  induction h with
  | nil => simp
  | @cons s s' _ v _ _ hv _ ih =>
    have hs : s' = s ++ [v] := (congrArg Prod.snd hv).symm
    rw [ih, hs, List.append_assoc]
    rfl

end Asked

namespace Minimize

variable [Branching τ α] [Inspect α]

open Branching Inspect

/-- The written forms of the values that were asked about. -/
def forms (calls : List (α × Verdict)) : List String :=
  calls.map fun c => inspect c.1

/-- By asking about some values a search comes from what it knew to what it
knows. -/
structure Learned (ask : α → StateM σ Verdict) (p : Progress α) (s : σ)
    (calls : List (α × Verdict)) (q : Progress α) (s' : σ) : Prop where
  asked : Asked ask s calls s'
  tried : q.tried = (calls.map Prod.fst).reverse ++ p.tried
  met : ∀ form, form ∈ q.met ↔ form ∈ p.met ∨ form ∈ forms calls
  /-- No two of the values are written alike. -/
  once : (forms calls).Nodup
  /-- None is written like a value that was met before. -/
  fresh : ∀ form ∈ forms calls, form ∉ p.met

namespace Learned

variable {ask : α → StateM σ Verdict} {p q r : Progress α} {s s' s'' : σ}
  {calls more : List (α × Verdict)}

theorem refl : Learned ask p s [] p s where
  asked := .nil
  tried := rfl
  met form := by simp [forms]
  once := List.nodup_nil
  fresh := by simp [forms]

theorem note {v : α} {verdict : Verdict} (hv : inspect v ∉ p.met)
    (h : ask v s = (verdict, s')) : Learned ask p s [(v, verdict)] (p.note v) s' where
  asked := .cons h .nil
  tried := rfl
  met form := by
    rw [Progress.mem_met_note, or_comm]
    simp [forms]
  once := by simp [forms]
  fresh := by simpa [forms] using hv

theorem trans (h : Learned ask p s calls q s') (hmore : Learned ask q s' more r s'') :
    Learned ask p s (calls ++ more) r s'' where
  asked := h.asked.append hmore.asked
  tried := by
    rw [hmore.tried, h.tried, List.map_append, List.reverse_append, List.append_assoc]
  met form := by
    rw [hmore.met, h.met, or_assoc, forms, forms, forms, List.map_append, List.mem_append]
  once := by
    rw [forms, List.map_append, List.nodup_append]
    refine ⟨h.once, hmore.once, ?_⟩
    -- What is asked about later is written unlike all that was met until then.
    intro form hform _ hlater heq
    exact hmore.fresh _ hlater ((h.met _).2 (.inr (heq ▸ hform)))
  fresh := by
    intro form hform
    rw [forms, List.map_append, List.mem_append] at hform
    rcases hform with hform | hform
    · exact h.fresh form hform
    · intro hmet
      exact hmore.fresh form hform ((h.met form).2 (.inl hmet))

theorem accept (h : Learned ask p s calls q s') (v : α) (panic : Option String) :
    Learned ask p s calls (q.accept v panic) s' :=
  ⟨h.asked, h.tried, h.met, h.once, h.fresh⟩

theorem of_expand (h : Learned ask p.expand s calls q s') : Learned ask p s calls q s' :=
  ⟨h.asked, h.tried, h.met, h.once, h.fresh⟩

end Learned

section Look

variable (ask : α → StateM σ Verdict) {p : Progress α} (sideways : Option τ) {t : τ}
  (rest : Unit → Row τ) {s s' : σ}

theorem lookWith_same (h : inspect (value t) = p.form) :
    lookWith ask p sideways (.cons t rest) = lookWith ask p (sideways <|> some t) (rest ()) := by
  simp [lookWith, h]

theorem lookWith_known (h : inspect (value t) ≠ p.form) (hm : inspect (value t) ∈ p.met) :
    lookWith ask p sideways (.cons t rest) = lookWith ask p sideways (rest ()) := by
  simp [lookWith, h, hm]

theorem lookWith_pass (h : p.Fresh (value t)) (hask : ask (value t) s = (.pass, s')) :
    lookWith ask p sideways (.cons t rest) s =
      lookWith ask (p.note (value t)) sideways (rest ()) s' := by
  rw [lookWith, if_neg h.1, if_neg (by simpa using h.2)]
  simp only [bind, StateT.bind, hask]

theorem lookWith_fail (h : p.Fresh (value t)) {panic : Option String}
    (hask : ask (value t) s = (.fail panic, s')) :
    lookWith ask p sideways (.cons t rest) s =
      (.improved t ((p.note (value t)).accept (value t) panic), s') := by
  rw [lookWith, if_neg h.1, if_neg (by simpa using h.2)]
  simp only [bind, StateT.bind, hask]
  rfl

end Look

/-- What a look with a predicate that keeps a state finds, a look with any
predicate that says the same finds, too. -/
theorem lookWith_spec (ask : α → StateM σ Verdict) (p : Progress α) (sideways : Option τ)
    (ts : Row τ) (s : σ) :
    ∃ found calls s', lookWith ask p sideways ts s = (found, s') ∧
      Learned ask p s calls found.known s' ∧
      ∀ check, Agrees check calls → look check p sideways ts = found := by
  induction ts generalizing p sideways s with
  | nil => exact ⟨.stuck p sideways, [], s, rfl, .refl, fun _ _ => rfl⟩
  | cons t rest ih =>
    have ih := ih ()
    -- A child looks like the node, or was met, or is asked about.
    by_cases hf : inspect (value t) = p.form
    · obtain ⟨found, calls, s', hlook, hlearned, hsame⟩ := ih p (sideways <|> some t) s
      refine ⟨found, calls, s', ?_, hlearned, ?_⟩
      · rw [lookWith_same ask sideways rest hf, hlook]
      · intro check hcheck
        rw [look_same check sideways rest hf, hsame check hcheck]
    · by_cases hm : inspect (value t) ∈ p.met
      · obtain ⟨found, calls, s', hlook, hlearned, hsame⟩ := ih p sideways s
        refine ⟨found, calls, s', ?_, hlearned, ?_⟩
        · rw [lookWith_known ask sideways rest hf hm, hlook]
        · intro check hcheck
          rw [look_known check sideways rest hf hm, hsame check hcheck]
      · obtain ⟨verdict, s₁, hask⟩ : ∃ verdict s₁, ask (value t) s = (verdict, s₁) := ⟨_, _, rfl⟩
        have hnote := Learned.note hm hask
        cases verdict with
        | fail panic =>
          refine ⟨_, _, _, lookWith_fail ask sideways rest ⟨hf, hm⟩ hask,
            hnote.accept (value t) panic, ?_⟩
          intro check hcheck
          exact look_fail check sideways rest ⟨hf, hm⟩ (hcheck _ (.head _))
        | pass =>
          obtain ⟨found, calls, s', hlook, hlearned, hsame⟩ := ih (p.note (value t)) sideways s₁
          refine ⟨found, _, s', ?_, hnote.trans hlearned, ?_⟩
          · rw [lookWith_pass ask sideways rest ⟨hf, hm⟩ hask, hlook]
          · intro check hcheck
            rw [look_pass check sideways rest ⟨hf, hm⟩ (hcheck _ (.head _))]
            exact hsame check fun c hc => hcheck c (.tail _ hc)

/-- A look with a predicate that has no state counts the step that it accepts, too. -/
theorem steps_look (check : α → Verdict) (p : Progress α) (sideways : Option τ) (ts : Row τ) :
    (look check p sideways ts).known.steps = p.steps + (look check p sideways ts).taken := by
  have hspec := look_spec check p sideways ts
  cases hlook : look check p sideways ts with
  | improved u q =>
    rw [hlook] at hspec
    obtain ⟨before, after, r, panic, -, hpass, -, -, rfl⟩ := hspec
    rw [Look.known, Progress.steps_accept, Progress.steps_note, hpass.steps_eq, Look.taken]
  | stuck q u =>
    rw [hlook] at hspec
    exact hspec.1.steps_eq

namespace Stage

/-- The search from a stage on, with a predicate that has no state. -/
def onward (check : α → Verdict) (limit : Nat) (g : Stage τ α) : Minimized α :=
  Minimize.search check (limit - g.steps) (limit - g.moves) g.node g.known

theorem onward_of_limit_le (check : α → Verdict) {limit : Nat} {g : Stage τ α}
    (h : limit ≤ g.steps) :
    g.onward check limit = g.known.expand.finish (value g.node) !(row g.node).isEmpty := by
  rw [onward, Nat.sub_eq_zero_of_le h, Minimize.search]

/-- After a look the search with a predicate that has no state goes on, or is
over, just like a turn. -/
theorem onward_of_lt {check : α → Verdict} {limit : Nat} {g : Stage τ α} (h : g.steps < limit)
    {found : Look τ α} (hfound : look check g.known.expand none (row g.node) = found) :
    g.onward check limit =
      match g.settle limit found with
      | .inl m => m
      | .inr g' => g'.onward check limit := by
  obtain ⟨k, hk⟩ : ∃ k, limit - g.steps = k + 1 := ⟨limit - g.steps - 1, by omega⟩
  have hcounted : found.known.steps = g.steps + found.taken := hfound ▸ steps_look ..
  rw [onward, hk, Minimize.search.eq_def]
  simp only [hfound]
  cases found with
  | improved t p =>
    have hk' : limit - p.steps = k := by
      rw [show p.steps = g.steps + 1 from hcounted]
      omega
    simp only [settle, onward, steps, hk']
  | stuck p sideways =>
    cases sideways with
    | none => rfl
    | some t =>
      have hk' : limit - p.steps = k + 1 := by rw [show p.steps = g.steps from hcounted, hk]
      by_cases hmoves : g.moves < limit
      · obtain ⟨j, hj⟩ : ∃ j, limit - g.moves = j + 1 := ⟨limit - g.moves - 1, by omega⟩
        have hj' : limit - (g.moves + 1) = j := by omega
        simp only [settle, hmoves, if_true, hj, onward, steps, hk', hj']
      · have hj : limit - g.moves = 0 := by omega
        simp only [settle, hmoves, if_false, hj]

theorem turn_of_limit_le (ask : α → StateM σ Verdict) {limit : Nat} {g : Stage τ α}
    (h : limit ≤ g.steps) (s : σ) :
    g.turn limit ask s =
      (.inl (g.known.expand.finish (value g.node) !(row g.node).isEmpty), s) := by
  rw [turn, if_pos h]
  rfl

theorem turn_of_lt {ask : α → StateM σ Verdict} {limit : Nat} {g : Stage τ α}
    (h : g.steps < limit) {s s' : σ} {found : Look τ α}
    (hfound : lookWith ask g.known.expand none (row g.node) s = (found, s')) :
    g.turn limit ask s = (g.settle limit found, s') := by
  rw [turn, if_neg (Nat.not_le_of_lt h)]
  show (fun r => (g.settle limit r.1, r.2)) (lookWith ask g.known.expand none (row g.node) s) = _
  rw [hfound]

/-- How a turn comes out: the search ends with what was learned in it, or goes
on from there. With any predicate that says the same it does so, too. -/
theorem turn_spec (limit : Nat) (ask : α → StateM σ Verdict) (g : Stage τ α) (s : σ) :
    ∃ calls s',
      (∃ q v exhausted, g.turn limit ask s = (.inl (q.finish v exhausted), s') ∧
        Learned ask g.known s calls q s' ∧
        ∀ check, Agrees check calls → g.onward check limit = q.finish v exhausted) ∨
      (∃ g', g.turn limit ask s = (.inr g', s') ∧ Learned ask g.known s calls g'.known s' ∧
        ∀ check, Agrees check calls → g.onward check limit = g'.onward check limit) := by
  by_cases hsteps : limit ≤ g.steps
  · refine ⟨[], s, .inl ⟨_, _, _, turn_of_limit_le ask hsteps s, Learned.refl.of_expand, ?_⟩⟩
    intro check _
    exact onward_of_limit_le check hsteps
  · have hsteps : g.steps < limit := Nat.lt_of_not_le hsteps
    obtain ⟨found, calls, s', hlook, hlearned, hsame⟩ :=
      lookWith_spec ask g.known.expand none (row g.node) s
    have hturn := turn_of_lt hsteps hlook
    refine ⟨calls, s', ?_⟩
    rcases settle_spec limit g found with hsettle | ⟨g', hsettle, hknown, -⟩
    · refine .inl ⟨_, _, _, hsettle ▸ hturn, hlearned.of_expand, ?_⟩
      intro check hcheck
      rw [onward_of_lt hsteps (hsame check hcheck), hsettle]
    · refine .inr ⟨g', hsettle ▸ hturn, hknown ▸ hlearned.of_expand, ?_⟩
      intro check hcheck
      rw [onward_of_lt hsteps (hsame check hcheck), hsettle]

theorem search_of_turn_inl {limit : Nat} {ask : α → StateM σ Verdict} {g : Stage τ α} {s s' : σ}
    {m : Minimized α} (h : g.turn limit ask s = (.inl m, s')) :
    g.search limit ask s = (m, s') := by
  rw [search]
  split
  · rename_i heq
    obtain ⟨⟩ := h.symm.trans heq
    rfl
  · rename_i heq
    cases h.symm.trans heq

theorem search_of_turn_inr {limit : Nat} {ask : α → StateM σ Verdict} {g g' : Stage τ α}
    {s s' : σ} (h : g.turn limit ask s = (.inr g', s')) :
    g.search limit ask s = g'.search limit ask s' := by
  rw [search]
  split
  · rename_i heq
    cases h.symm.trans heq
  · rename_i heq
    obtain ⟨⟩ := h.symm.trans heq
    rfl

/-- How a search comes out: with what it learned by asking about new values. A
predicate without a state that says the same gives the same outcome. -/
theorem search_spec (limit : Nat) (ask : α → StateM σ Verdict) (g : Stage τ α) (s : σ) :
    ∃ calls s' q v exhausted, g.search limit ask s = (q.finish v exhausted, s') ∧
      Learned ask g.known s calls q s' ∧
      ∀ check, Agrees check calls → g.onward check limit = q.finish v exhausted := by
  -- Induction on the moves that are left, of which every turn but the last takes one.
  induction hn : g.left limit using Nat.strongRecOn generalizing g s with
  | _ n ih =>
    obtain ⟨calls, s', ⟨q, v, exhausted, hturn, hlearned, hsame⟩ | ⟨g', hturn, hlearned, hsame⟩⟩ :=
      turn_spec limit ask g s
    · exact ⟨calls, s', q, v, exhausted, search_of_turn_inl hturn, hlearned, hsame⟩
    · obtain ⟨more, s'', q, v, exhausted, hsearch, hmore, hlater⟩ :=
        ih _ (hn ▸ left_lt_of_turn hturn) g' s' rfl
      refine ⟨calls ++ more, s'', q, v, exhausted, ?_, hlearned.trans hmore, ?_⟩
      · rw [search_of_turn_inr hturn, hsearch]
      · intro check hcheck
        rw [hsame check fun c hc => hcheck c (List.mem_append_left _ hc)]
        exact hlater check fun c hc => hcheck c (List.mem_append_right _ hc)

end Stage

/-- The predicate without a state that says of a value what was said of the
first value that is written like it. -/
def echo (calls : List (α × Verdict)) (v : α) : Verdict :=
  match calls.find? fun c => inspect c.1 = inspect v with
  | some c => c.2
  | none => .pass

/-- If no two values are written alike, what was said of each is echoed. -/
theorem agrees_echo {calls : List (α × Verdict)} (h : (forms calls).Nodup) :
    Agrees (echo calls) calls := by
  induction calls with
  | nil => simp [Agrees]
  | cons c calls ih =>
    obtain ⟨hc, hcalls⟩ := List.nodup_cons.1 h
    refine List.forall_mem_cons.2 ⟨by simp [echo], ?_⟩
    intro d hd
    have hne : inspect c.1 ≠ inspect d.1 := by
      intro heq
      have hd : inspect d.1 ∈ forms calls := List.mem_map_of_mem hd
      rw [← heq] at hd
      exact hc hd
    rw [echo, List.find?_cons_of_neg (by simpa using hne)]
    exact ih hcalls d hd

/-- How minimizing with a predicate that keeps a state comes out. -/
theorem consult_spec (limit : Nat) (ask : α → StateM σ Verdict) (t : τ) (s : σ) :
    ∃ calls m s', consult limit ask t s = (m, s') ∧ Asked ask s calls s' ∧
      m.tried = calls.map Prod.fst ∧ (inspect (value t) :: forms calls).Nodup ∧
      ∀ check, Agrees check calls → minimize limit check t = m := by
  obtain ⟨calls, s', q, v, exhausted, hsearch, hlearned, hsame⟩ :=
    Stage.search_spec limit ask (Stage.start t) s
  refine ⟨calls, _, s', hsearch, hlearned.asked, ?_, ?_, hsame⟩
  · have htried : q.tried = (calls.map Prod.fst).reverse ++ [] := hlearned.tried
    rw [Progress.finish, htried, List.append_nil, List.reverse_reverse]
  · refine List.nodup_cons.2 ⟨?_, hlearned.once⟩
    intro hroot
    exact hlearned.fresh _ hroot ((Progress.mem_met_start _).2 rfl)

/-- Whatever a predicate with a state says in a search, some predicate without
one leads to the same outcome. -/
theorem exists_minimize_eq (limit : Nat) (ask : α → StateM σ Verdict) (t : τ) (s : σ) :
    ∃ check : α → Verdict, (consult limit ask t s).1 = minimize limit check t := by
  obtain ⟨calls, m, s', hconsult, -, -, honce, hsame⟩ := consult_spec limit ask t s
  refine ⟨echo calls, ?_⟩
  rw [hconsult, hsame _ (agrees_echo honce.of_cons)]

/-- If the state makes no difference to what the predicate says, it makes none
to the outcome. -/
theorem consult_fst_eq {limit : Nat} {ask : α → StateM σ Verdict} {check : α → Verdict}
    (h : ∀ v s, (ask v s).1 = check v) (t : τ) (s : σ) :
    (consult limit ask t s).1 = minimize limit check t := by
  obtain ⟨calls, m, s', hconsult, hasked, -, -, hsame⟩ := consult_spec limit ask t s
  rw [hconsult, hsame check (hasked.agrees h)]

/-- A search that notes what it asks notes what it says that it tried. -/
theorem consult_noting (limit : Nat) (check : α → Verdict) (t : τ) (asked : List α) :
    consult limit (noting check) t asked =
      (minimize limit check t, asked ++ (minimize limit check t).tried) := by
  obtain ⟨calls, m, asked', hconsult, hasked, htried, -, hsame⟩ :=
    consult_spec limit (noting check) t asked
  rw [hconsult, hsame check (hasked.agrees fun _ _ => rfl), htried, hasked.eq_append_of_noting]

end Minimize

end PropertyTesting
