import PropertyTesting.Proofs.Shrink.Cut
import PropertyTesting.Proofs.Shrink.Integer
import PropertyTesting.Proofs.Shrink.Repeats
import PropertyTesting.Shrink.Text

/-!
What the candidates for characters and texts are. Those for a character lie
between it and the letter `a`. Those for a text have lost a stretch of it or
have one character replaced by that letter.
-/

namespace PropertyTesting

namespace Shrink

theorem toNat_of_charAt? {n : Int} {c : Char} (h : charAt? n = some c) : c.toNat = n.toNat := by
  by_cases hv : n.toNat.isValidChar
  · rw [charAt?, dif_pos hv] at h
    obtain rfl := Option.some.inj h
    rfl
  · rw [charAt?, dif_neg hv] at h
    cases h

theorem mem_char {c b : Char} (hb : b ∈ char c) :
    'a'.toNat ≤ b.toNat ∧ b.toNat < c.toNat ∨ c.toNat < b.toNat ∧ b.toNat ≤ 'a'.toNat := by
  obtain ⟨n, hn, hb⟩ := List.mem_filterMap.1 hb
  have := mem_towards hn
  have := toNat_of_charAt? hb
  omega

/-- The first candidate for a character is the letter `a`, however many of the others are
no characters. -/
theorem char_head? {c : Char} (h : c ≠ 'a') : (char c).head? = some 'a' := by
  have hne : (('a'.toNat : Nat) : Int) ≠ (c.toNat : Nat) := by
    intro heq
    exact h (Char.toNat_inj.1 (Int.ofNat_inj.1 heq)).symm
  obtain ⟨rest, hrest⟩ := List.head?_eq_some_iff.1 (towards_head? hne)
  rw [char, hrest]
  rfl

theorem simplifyFirst_cons_of_ne {c : Char} (h : c ≠ 'a') (cs : List Char) :
    simplifyFirst (c :: cs) = some ('a' :: cs) := by
  rw [simplifyFirst, if_neg h, char_head? h, Option.map_some]

/-- The first character that is not the letter `a` is replaced by it. -/
theorem simplifyFirst_eq_some {cs ds : List Char} (h : simplifyFirst cs = some ds) :
    ∃ before c after, cs = before ++ c :: after ∧ (∀ b ∈ before, b = 'a') ∧ c ≠ 'a' ∧
      ds = before ++ 'a' :: after := by
  induction cs generalizing ds with
  | nil => cases h
  | cons c cs ih =>
    by_cases hc : c = 'a'
    · rw [simplifyFirst, if_pos hc] at h
      obtain ⟨es, hes, rfl⟩ := Option.map_eq_some_iff.1 h
      obtain ⟨before, b, after, rfl, hbefore, hb, rfl⟩ := ih hes
      exact ⟨c :: before, b, after, rfl, List.forall_mem_cons.2 ⟨hc, hbefore⟩, hb, rfl⟩
    · obtain rfl := Option.some.inj ((simplifyFirst_cons_of_ne hc cs).symm.trans h)
      exact ⟨[], c, cs, rfl, by simp, hc, rfl⟩

theorem mem_string {min : Nat} {s t : String} :
    t ∈ (string min s).toList ↔
      (∃ c ∈ Cut.all s.toList.length min, t.toList = c.apply s.toList) ∨
        simplifyFirst s.toList = some t.toList := by
  simp only [string, Row.mem_eraseReps, Row.toList_append, Row.toList_map, Row.toList_ofList,
    List.mem_append, List.mem_map, Option.mem_toList, Option.map_eq_some_iff]
  constructor
  · rintro (⟨c, hc, rfl⟩ | ⟨cs, hcs, rfl⟩)
    · exact .inl ⟨c, hc, String.toList_ofList⟩
    · exact .inr (hcs.trans (congrArg some String.toList_ofList.symm))
  · rintro (⟨c, hc, ht⟩ | ht)
    · exact .inl ⟨c, hc, ht ▸ String.ofList_toList⟩
    · exact .inr ⟨_, ht, String.ofList_toList⟩

/-- The length of a text and the number of its characters that are not the letter `a`. -/
def textWeight (s : String) : Nat :=
  s.toList.length + s.toList.countP (· ≠ 'a')

theorem textWeight_lt_of_mem_string {min : Nat} {s t : String}
    (ht : t ∈ (string min s).toList) : textWeight t < textWeight s := by
  unfold textWeight
  rcases mem_string.1 ht with ⟨c, hc, ht⟩ | ht
  · have hlength := Cut.length_apply_lt hc
    have hcount := (Cut.apply_sublist hc).countP_le (p := (· ≠ 'a'))
    rw [ht]
    omega
  · obtain ⟨before, c, after, hs, -, hc, ht⟩ := simplifyFirst_eq_some ht
    simp [hs, ht, hc]

end Shrink

end PropertyTesting
