import Mathlib.Data.List.Basic

/-!
# Frames without a length

A stream of bodies, each after a marker that only depends on its position. No body
carries its length, yet the stream can be cut in one way only: the bodies avoid some
symbol `z` in which every marker ends, so a body that ran into the next marker would
have to imitate a shifted copy of it up to that `z`.
-/
namespace Promscale.Lib

variable {α : Type}

/-- The bodies from position `n` on, each after its marker. -/
def framesFrom (marker : Nat → List α) : Nat → List (List α) → List α
  | _, [] => []
  | n, body :: rest => marker n ++ (body ++ framesFrom marker (n + 1) rest)

/-- A word that ends in `z` does not overlap itself after a nonempty `z`-free string. -/
theorem append_ne_shifted {z : α} {r : List α} (hr : z ∉ r) (hne : r ≠ []) (b tail tail' : List α)
    (hb : b.getLast? = some z) : b ++ tail ≠ r ++ (b ++ tail') := by
  induction hlen : b.length using Nat.strongRecOn generalizing b with
  | ind n ih =>
    intro heq
    have hz : z ∈ b := List.mem_of_getLast? hb
    rcases List.append_eq_append_iff.mp heq with ⟨c, hrc, _⟩ | ⟨c, hbc, hrest⟩
    · -- the word would lie within the string
      exact hr (by rw [hrc]; exact List.mem_append_left c hz)
    · -- the string is a proper prefix of the word, and the rest of the word shifts alike
      have hc : c ≠ [] := by
        rintro rfl
        rw [List.append_nil] at hbc
        exact hr (hbc ▸ hz)
      have hclast : c.getLast? = some z := by
        rw [hbc, List.getLast?_append_of_ne_nil _ hc] at hb
        exact hb
      have hshorter : c.length < n := by
        have := List.length_pos_iff.mpr hne
        rw [← hlen, hbc, List.length_append]
        omega
      apply ih c.length hshorter c hclast rfl
      rw [← List.append_assoc, ← hbc]
      exact hrest.symm

/-- What can follow a body: nothing, or a word that starts with the next marker. -/
def Follows (next tail : List α) : Prop := tail = [] ∨ ∃ rest, tail = next ++ rest

theorem follows_framesFrom (marker : Nat → List α) (n : Nat) (bodies : List (List α)) :
    Follows (marker n) (framesFrom marker n bodies) := by
  cases bodies with
  | nil => exact .inl rfl
  | cons body rest => exact .inr ⟨_, rfl⟩

/-- A longer body would have to swallow part of the next marker. -/
private theorem no_overrun {z : α} {next r tail tail' : List α} (hnext : next.getLast? = some z)
    (hr : z ∉ r) (htail : Follows next tail) (htail' : Follows next tail')
    (heq : tail = r ++ tail') : r = [] := by
  by_contra hne
  rcases htail with rfl | ⟨rest, rfl⟩
  · exact hne (List.append_eq_nil_iff.mp heq.symm).1
  · rcases htail' with rfl | ⟨rest', rfl⟩
    · apply hr
      rw [List.append_nil] at heq
      rw [← heq]
      exact List.mem_append_left _ (List.mem_of_getLast? hnext)
    · exact append_ne_shifted hr hne next rest rest' hnext heq

/-- Where a body ends is determined by what follows. -/
theorem body_unique {z : α} {next p q tail tail' : List α} (hnext : next.getLast? = some z)
    (hp : z ∉ p) (hq : z ∉ q) (htail : Follows next tail) (htail' : Follows next tail')
    (heq : p ++ tail = q ++ tail') : p = q ∧ tail = tail' := by
  rcases List.append_eq_append_iff.mp heq with ⟨r, rfl, hr⟩ | ⟨r, rfl, hr⟩
  · have : r = [] := no_overrun hnext (fun h => hq (by simp [h])) htail htail' hr
    subst this
    simpa using hr
  · have : r = [] := no_overrun hnext (fun h => hp (by simp [h])) htail' htail hr
    subst this
    simpa using hr.symm

/-- Equal streams have equal bodies, as long as every marker in use ends in `z`. -/
theorem framesFrom_injective {z : α} {marker : Nat → List α} {limit : Nat}
    (hmarker : ∀ i < limit, (marker i).getLast? = some z) (n : Nat) (xs ys : List (List α))
    (hxs : ∀ x ∈ xs, z ∉ x) (hys : ∀ y ∈ ys, z ∉ y)
    (hnx : n + xs.length ≤ limit) (hny : n + ys.length ≤ limit)
    (heq : framesFrom marker n xs = framesFrom marker n ys) : xs = ys := by
  have hnonempty : ∀ i < limit, marker i ≠ [] := by
    intro i hi hnil
    have := hmarker i hi
    rw [hnil] at this
    cases this
  induction xs generalizing n ys with
  | nil =>
    cases ys with
    | nil => rfl
    | cons y ys =>
      rw [List.length_cons] at hny
      have := (List.append_eq_nil_iff.mp heq.symm).1
      exact absurd this (hnonempty n (by omega))
  | cons x xs ih =>
    rw [List.length_cons] at hnx
    cases ys with
    | nil =>
      have := (List.append_eq_nil_iff.mp heq).1
      exact absurd this (hnonempty n (by omega))
    | cons y ys =>
      rw [List.length_cons] at hny
      have hbody := List.append_cancel_left heq
      have hcut : x = y ∧ framesFrom marker (n + 1) xs = framesFrom marker (n + 1) ys := by
        by_cases hlast : n + 1 < limit
        · exact body_unique (hmarker (n + 1) hlast) (hxs x (by simp)) (hys y (by simp))
            (follows_framesFrom marker (n + 1) xs) (follows_framesFrom marker (n + 1) ys) hbody
        · -- neither stream goes on
          have hxnil : xs = [] := List.eq_nil_of_length_eq_zero (by omega)
          have hynil : ys = [] := List.eq_nil_of_length_eq_zero (by omega)
          subst hxnil hynil
          simpa [framesFrom] using hbody
      obtain ⟨rfl, hrest⟩ := hcut
      have := ih (n + 1) ys (fun x hx => hxs x (by simp [hx])) (fun y hy => hys y (by simp [hy]))
        (by omega) (by omega) hrest
      rw [this]

end Promscale.Lib
