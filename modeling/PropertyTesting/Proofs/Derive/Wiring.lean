import Mathlib.Data.List.Forall2
import Mathlib.Data.List.Nodup
import Std.Data.String.ToInt
import PropertyTesting.Derive.Instance

/-!
For which declarations an instance is derived, and what it is made of. Each step
of a derivation refuses just what it is meant to refuse, and gives what it is meant
to give for anything else: `Answers` says both at once. It is carried from the
entries of an attribute up to the variants of an enumeration, so that a refusal
anywhere inside comes out at the top and no field is dropped or met twice.
-/

namespace PropertyTesting.Derive

/-- An attempt is refused if something is wrong with what it is made for, and
only then. Otherwise it gives what is meant. -/
inductive Answers {β : Type} (wrong : Prop) (meant : β → Prop) : Except Refusal β → Prop where
  | refused {refusal : Refusal} : wrong → Answers wrong meant (.error refusal)
  | given {b : β} : ¬ wrong → meant b → Answers wrong meant (.ok b)

namespace Answers

variable {α β γ : Type} {wrong wrong' : Prop} {meant : β → Prop} {x : Except Refusal β}

theorem congr (h : Answers wrong meant x) (hwrong : wrong ↔ wrong') : Answers wrong' meant x := by
  cases h with
  | refused h => exact .refused (hwrong.1 h)
  | given h hb => exact .given (mt hwrong.2 h) hb

theorem bind {meant' : γ → Prop} {f : β → Except Refusal γ} (hx : Answers wrong meant x)
    (hf : ∀ b, meant b → Answers wrong' meant' (f b)) :
    Answers (wrong ∨ wrong') meant' (x >>= f) := by
  cases hx with
  | refused h => exact .refused (.inl h)
  | @given b h hb => exact (hf b hb).congr (or_iff_right h).symm

/-- Nothing more can be wrong once what is meant was given. -/
theorem bind_ok {meant' : γ → Prop} {f : β → γ} (hx : Answers wrong meant x)
    (hf : ∀ b, meant b → meant' (f b)) : Answers wrong meant' (x >>= fun b => .ok (f b)) :=
  (hx.bind fun b hb => .given not_false (hf b hb)).congr (or_iff_left not_false)

/-- Something is wrong with a list if something is wrong with one of its elements. -/
theorem mapM {f : α → Except Refusal β} {wrong : α → Prop} {meant : α → β → Prop}
    (h : ∀ a, Answers (wrong a) (meant a) (f a)) (as : List α) :
    Answers (∃ a ∈ as, wrong a) (List.Forall₂ meant as) (as.mapM f) := by
  induction as with
  | nil => exact .given (by simp) .nil
  | cons a as ih =>
    rw [List.mapM_cons]
    refine ((h a).bind fun b hb => ih.bind_ok fun bs hbs => .cons hb hbs).congr ?_
    exact (List.exists_mem_cons_iff ..).symm

theorem error_iff (h : Answers wrong meant x) : (∃ refusal, x = .error refusal) ↔ wrong := by
  cases h with
  | refused h => exact ⟨fun _ => h, fun _ => ⟨_, rfl⟩⟩
  | given h hb => exact ⟨fun ⟨_, hx⟩ => (nomatch hx), fun hwrong => absurd hwrong h⟩

theorem of_ok {b : β} (h : Answers wrong meant (.ok b)) : meant b := by
  cases h with
  | given _ hb => exact hb

end Answers

/-- The last of some expressions, or else what was found before them. -/
def latest (found : Option String) (expressions : List String) : Option String :=
  expressions.getLast?.or found

theorem latest_append (found : Option String) (xs ys : List String) :
    latest found (xs ++ ys) = latest (latest found xs) ys := by
  rw [latest, latest, latest, List.getLast?_append, Option.or_assoc]

/-- The expressions that arguments give, in their order. -/
def Arguments.expressions (arguments : Arguments) : List String :=
  arguments.entries.filterMap Prod.snd

/-- There is a key of which nothing is known or which has no value, or the reader
does not get to the end. -/
def Arguments.Rejected (arguments : Arguments) : Prop :=
  (∃ entry ∈ arguments.entries, entry.1 ≠ "with" ∨ entry.2 = none) ∨ arguments.complaint ≠ none

def Attribute.expressions (a : Attribute) : List String :=
  if a.path = "arb" then a.arguments.expressions else []

def Attribute.Rejected (a : Attribute) : Prop :=
  a.path = "arb" ∧ a.arguments.Rejected

def Field.expressions (f : Field) : List String :=
  f.attributes.flatMap Attribute.expressions

/-- What a field is to be drawn from: the last expression that is given for it,
or else what its type has by default. -/
inductive Field.Draws (f : Field) : FieldArbitrary → Prop where
  | given {expression : String} : f.expressions.getLast? = some expression →
      f.Draws (.given f.type expression)
  | standard : f.expressions = [] → f.Draws (.standard f.type)

theorem readEntries_answers (found : Option String) (entries : List (String × Option String)) :
    Answers (∃ entry ∈ entries, entry.1 ≠ "with" ∨ entry.2 = none)
      (· = latest found (entries.filterMap Prod.snd)) (readEntries found entries) := by
  induction entries generalizing found with
  | nil => exact .given (by simp) rfl
  | cons entry entries ih =>
    obtain ⟨key, value⟩ := entry
    cases value with
    | none =>
      rw [readEntries]
      split
      · exact .refused (by simp)
      · exact .refused (by simp)
    | some expression =>
      rw [readEntries]
      split
      · rename_i hkey
        have hlatest := latest_append found [expression] (entries.filterMap Prod.snd)
        rw [List.singleton_append] at hlatest
        rw [List.filterMap_cons, hlatest]
        exact (ih (some expression)).congr (by simp [hkey])
      · rename_i hkey
        exact .refused (by simp [hkey])

theorem readArguments_answers (found : Option String) (arguments : Arguments) :
    Answers arguments.Rejected (· = latest found arguments.expressions)
      (readArguments found arguments) := by
  refine (readEntries_answers found arguments.entries).bind fun r hr => ?_
  cases arguments.complaint with
  | none => exact .given (by simp) hr
  | some complaint => exact .refused (by simp)

theorem readAttributes_answers (found : Option String) (attributes : List Attribute) :
    Answers (∃ a ∈ attributes, a.Rejected)
      (· = latest found (attributes.flatMap Attribute.expressions))
      (readAttributes found attributes) := by
  induction attributes generalizing found with
  | nil => exact .given (by simp) rfl
  | cons a attributes ih =>
    rw [readAttributes, List.flatMap_cons, latest_append, Attribute.expressions]
    simp only [List.exists_mem_cons_iff]
    split
    · rename_i hpath
      refine ((readArguments_answers found a.arguments).bind fun r hr => ?_).congr
        (or_congr_left (and_iff_right hpath).symm)
      rw [← hr]
      exact ih r
    · rename_i hpath
      exact (ih found).congr (or_iff_right fun h => hpath h.1).symm

theorem fieldArbitrary_answers (f : Field) :
    Answers (∃ a ∈ f.attributes, a.Rejected) f.Draws (fieldArbitrary f) := by
  refine ((readAttributes_answers none f.attributes).bind fun r hr => ?_).congr
    (or_iff_left not_false)
  rw [latest, Option.or_none] at hr
  cases r with
  | none => exact .given not_false (.standard (List.getLast?_eq_none_iff.1 hr.symm))
  | some expression => exact .given not_false (.given hr.symm)

/-- No instance can be derived for a type with such a body. -/
def Body.Refused (body : Body) : Prop :=
  12 < body.fields.length ∨ ∃ f ∈ body.fields, ∃ a ∈ f.attributes, a.Rejected

/-- Each field has an input that it is drawn from and a variable, and the variable
is handed to it, by its name if it has one. -/
structure Body.Wired (body : Body) (inputs : List FieldArbitrary) (names : List String)
    (arguments : List Argument) : Prop where
  length_inputs : inputs.length = body.fields.length
  length_names : names.length = body.fields.length
  length_arguments : arguments.length = body.fields.length
  names_nodup : names.Nodup
  field : ∀ (i : Nat) (f : Field), body.fields[i]? = some f →
    (∃ input, inputs[i]? = some input ∧ f.Draws input) ∧
    names[i]? = some s!"field_{i}" ∧
    arguments[i]? =
      some (Argument.mk (if body.shape = .named then some f.name else none) s!"field_{i}")

/-- What a body is to be built by. -/
inductive Body.BuiltBy (target : Target) (body : Body) : BodyArbitrary → Prop where
  | constant : body.fields = [] → body.BuiltBy target (.constant ⟨target, body.shape, []⟩)
  | bind {inputs : List FieldArbitrary} {names : List String} {arguments : List Argument} :
      body.fields ≠ [] → body.Wired inputs names arguments →
      body.BuiltBy target (.bind inputs names ⟨target, body.shape, arguments⟩)

theorem variableAt_injective : Function.Injective variableAt :=
  fun _ _ h => Nat.repr_injective ((String.append_right_inj _).1 h)

theorem wired {body : Body} {inputs : List FieldArbitrary}
    (h : List.Forall₂ Field.Draws body.fields inputs) :
    let names := (List.range body.fields.length).map variableAt
    body.Wired inputs names (wire body names) where
  length_inputs := h.length_eq.symm
  length_names := by rw [List.length_map, List.length_range]
  length_arguments := by
    rw [wire, List.length_zipWith, List.length_map, List.length_range, Nat.min_self]
  names_nodup := List.nodup_range.map variableAt_injective
  field i f hf := by
    obtain ⟨hi, rfl⟩ := List.getElem?_eq_some_iff.1 hf
    have hname : ((List.range body.fields.length).map variableAt)[i]? = some (variableAt i) := by
      rw [List.getElem?_map, List.getElem?_range hi]
      rfl
    have hinput : i < inputs.length := h.length_eq ▸ hi
    refine ⟨⟨inputs[i], List.getElem?_eq_getElem hinput, h.get hi hinput⟩, hname, ?_⟩
    rw [wire, List.getElem?_zipWith, hf, hname]
    rfl

theorem bodyArbitrary_answers (target : Target) (body : Body) :
    Answers body.Refused (body.BuiltBy target) (bodyArbitrary target body) := by
  rw [bodyArbitrary]
  split
  · rename_i hmany
    exact .refused (.inl hmany)
  · rename_i hfew
    have hinputs := Answers.mapM fieldArbitrary_answers body.fields
    refine (hinputs.bind fun inputs h => ?_).congr
      ((or_iff_left not_false).trans (or_iff_right hfew).symm)
    split
    · rename_i hempty
      rw [List.isEmpty_iff] at hempty
      have hbuilt (names : List String) :
          body.BuiltBy target (.constant ⟨target, body.shape, wire body names⟩) := by
        rw [wire, hempty, List.zipWith_nil_left]
        exact .constant hempty
      exact .given not_false (hbuilt _)
    · rename_i hsome
      rw [List.isEmpty_iff] at hsome
      exact .given not_false (.bind hsome (wired h))

/-- The bodies that a declaration has. -/
def Declaration.bodies : Declaration → List Body
  | .structure body => [body]
  | .enumeration variants => variants.map Variant.body
  | .union => []

/-- No instance can be derived for a type that is declared so. -/
def Declaration.Refused (d : Declaration) : Prop :=
  d = .union ∨ d = .enumeration [] ∨ ∃ body ∈ d.bodies, body.Refused

/-- What a type is to be made by: a structure by what builds its body, and an
enumeration by what builds its variants, in their order. -/
inductive Declaration.MadeBy : Declaration → TypeArbitrary → Prop where
  | single {body : Body} {b : BodyArbitrary} : body.BuiltBy .whole b →
      MadeBy (.structure body) (.single b)
  | oneOf {variants : List Variant} {first : BodyArbitrary} {rest : List BodyArbitrary} :
      List.Forall₂ (fun v b => v.body.BuiltBy (.variant v.name) b) variants (first :: rest) →
      MadeBy (.enumeration variants) (.oneOf first rest)

theorem typeArbitrary_answers (d : Declaration) :
    Answers d.Refused d.MadeBy (typeArbitrary d) := by
  match d with
  | .structure body =>
    refine ((bodyArbitrary_answers .whole body).bind_ok fun b hb => .single hb).congr ?_
    simp [Declaration.Refused, Declaration.bodies]
  | .enumeration variants =>
    have hbodies := Answers.mapM
      (fun v : Variant => bodyArbitrary_answers (.variant v.name) v.body) variants
    have hall : Answers ((∃ v ∈ variants, v.body.Refused) ∨ variants = [])
        (Declaration.enumeration variants).MadeBy (typeArbitrary (.enumeration variants)) := by
      refine hbodies.bind fun bodies h => ?_
      cases h with
      | nil => exact .refused rfl
      | cons h hs => exact .given (by simp) (.oneOf (.cons h hs))
    exact hall.congr (by simp [Declaration.Refused, Declaration.bodies, or_comm])
  | .union => exact .refused (.inl rfl)

/-- A parameter of a type, and the same as a parameter of its instance. Only types
are bounded. -/
inductive Parameter.Bounded : Parameter → Parameter → Prop where
  | type {name : String} {bounds : List String} :
      Bounded (.type name bounds) (.type name (bounds ++ ["::kestrel::Arbitrary"]))
  | lifetime {name : String} {bounds : List String} :
      Bounded (.lifetime name bounds) (.lifetime name bounds)
  | const {name valueType : String} : Bounded (.const name valueType) (.const name valueType)

theorem Parameter.bounded_constrain (p : Parameter) : p.Bounded p.constrain := by
  cases p with
  | type name bounds => exact .type
  | lifetime name bounds => exact .lifetime
  | const name valueType => exact .const

/-- The instance is one for the type that is declared. -/
structure Item.DerivedTo (item : Item) (i : Instance) : Prop where
  name : i.name = item.name
  parameters : List.Forall₂ Parameter.Bounded item.parameters i.parameters
  conditions : i.conditions = item.conditions
  arbitrary : item.declaration.MadeBy i.arbitrary

theorem derive_answers (item : Item) :
    Answers item.declaration.Refused item.DerivedTo (derive item) := by
  refine (typeArbitrary_answers item.declaration).bind_ok fun arbitrary h => ⟨rfl, ?_, rfl, h⟩
  rw [List.forall₂_map_right_iff, List.forall₂_same]
  exact fun p _ => p.bounded_constrain

/-- The declarations that are to be refused are refused, and no others. What is
derived from any other one meets every field once, in its place. -/
theorem derive_wires (item : Item) :
    ((∃ refusal, derive item = .error refusal) ↔ item.declaration.Refused) ∧
      ∀ i, derive item = .ok i → item.DerivedTo i :=
  ⟨(derive_answers item).error_iff, fun _ h => (h ▸ derive_answers item).of_ok⟩

/-- Two expressions are given for a field, in two attributes that have another one
between them. -/
theorem derive_wires_last_expression :
    let item : Item :=
      { name := "Choice"
        parameters := [.lifetime "a" [], .type "T" ["Clone"], .const "N" "usize"]
        conditions := ["T: Debug"]
        declaration := .enumeration
          [⟨"Empty", .unit, []⟩,
            ⟨"Pair", .positional,
              [⟨"", "T", []⟩,
                ⟨"", "i32",
                  [⟨"arb", ⟨[("with", some "first")], none⟩⟩, ⟨"doc", ⟨[("hidden", none)], none⟩⟩,
                    ⟨"arb", ⟨[("with", some "last")], none⟩⟩]⟩]⟩] }
    ∃ i, derive item = .ok i ∧ item.DerivedTo i ∧ ¬ item.declaration.Refused ∧
      i.parameters =
        [.lifetime "a" [], .type "T" ["Clone", "::kestrel::Arbitrary"], .const "N" "usize"] ∧
      i.arbitrary = .oneOf (.constant ⟨.variant "Empty", .unit, []⟩)
        [.bind [.standard "T", .given "i32" "last"] ["field_0", "field_1"]
          ⟨.variant "Pair", .positional, [⟨none, "field_0"⟩, ⟨none, "field_1"⟩]⟩] := by
  intro item
  obtain ⟨i, hi⟩ : ∃ i, derive item = .ok i := ⟨_, rfl⟩
  obtain ⟨hrefused, hwired⟩ := derive_wires item
  refine ⟨i, hi, hwired i hi, fun h => ?_, ?_, ?_⟩
  · obtain ⟨refusal, herror⟩ := hrefused.2 h
    cases hi.symm.trans herror
  · cases hi
    rfl
  · cases hi
    rfl

end PropertyTesting.Derive
