import Mathlib.Computability.RegularExpressions

/-!
# Regular expressions of character classes

What `[..]`, `[..]*`, `[..]+` and `?` match.
-/
namespace Promscale.Lib.CharClasses

variable {α : Type} [DecidableEq α]

/-- `[..]` -/
def oneOf (cs : List α) : RegularExpression α :=
  cs.foldr (fun c r => .char c + r) 0

/-- `r?` -/
def zeroOrOne (r : RegularExpression α) : RegularExpression α := 1 + r

/-- `r+` -/
def oneOrMore (r : RegularExpression α) : RegularExpression α := r * r.star

theorem oneOf_rmatch {cs x : List α} : (oneOf cs).rmatch x = true ↔ ∃ c ∈ cs, x = [c] := by
  induction cs with
  | nil => simp [oneOf]
  | cons c cs ih =>
    change (RegularExpression.char c + oneOf cs).rmatch x = true ↔ _
    rw [RegularExpression.add_rmatch_iff, RegularExpression.char_rmatch_iff, ih]
    simp

theorem zeroOrOne_rmatch {r : RegularExpression α} {x : List α} :
    (zeroOrOne r).rmatch x = true ↔ x = [] ∨ r.rmatch x = true := by
  rw [zeroOrOne, RegularExpression.add_rmatch_iff, RegularExpression.one_rmatch_iff]

theorem star_oneOf_rmatch {cs x : List α} :
    (oneOf cs).star.rmatch x = true ↔ ∀ c ∈ x, c ∈ cs := by
  rw [RegularExpression.star_rmatch_iff]
  constructor
  · rintro ⟨S, rfl, hS⟩ c hc
    obtain ⟨l, hl, hc⟩ := List.mem_flatten.mp hc
    obtain ⟨c', hc', rfl⟩ := oneOf_rmatch.mp (hS l hl).2
    rwa [List.mem_singleton.mp hc]
  · intro hx
    refine ⟨x.map fun c => [c], by simp [← List.flatMap_def], ?_⟩
    intro l hl
    obtain ⟨c, hc, rfl⟩ := List.mem_map.mp hl
    exact ⟨List.cons_ne_nil _ _, oneOf_rmatch.mpr ⟨c, hx c hc, rfl⟩⟩

theorem oneOrMore_oneOf_rmatch {cs x : List α} :
    (oneOrMore (oneOf cs)).rmatch x = true ↔ x ≠ [] ∧ ∀ c ∈ x, c ∈ cs := by
  rw [oneOrMore, RegularExpression.mul_rmatch_iff]
  constructor
  · rintro ⟨t, u, rfl, ht, hu⟩
    obtain ⟨c, hc, rfl⟩ := oneOf_rmatch.mp ht
    refine ⟨by simp, ?_⟩
    intro c' hc'
    rcases List.mem_cons.mp hc' with rfl | hc'
    · exact hc
    · exact star_oneOf_rmatch.mp hu c' hc'
  · rintro ⟨hne, hx⟩
    cases x with
    | nil => exact absurd rfl hne
    | cons c x =>
      refine ⟨[c], x, rfl, oneOf_rmatch.mpr ⟨c, hx c List.mem_cons_self, rfl⟩, ?_⟩
      exact star_oneOf_rmatch.mpr fun c' hc' => hx c' (List.mem_cons_of_mem _ hc')

end Promscale.Lib.CharClasses
