import Mathlib.Data.List.Chain
import Mathlib.Data.Set.Card
import Mathlib.Order.WellFounded
import Mathlib.Data.Fintype.EquivFin

/-!
# Descents

A descent is the list of elements from an ancestor down to one of its descendants under a
parent relation. Where every element has at most one parent and none is its own ancestor,
the descent between two elements is unique. Over finitely many elements, descents from a
start are of bounded length exactly when no cycle can be reached from it.
-/
namespace Promscale.Lib

open Relation

variable {α : Type*} {parent : α → α → Prop}

inductive Descent (parent : α → α → Prop) (a : α) : α → List α → Prop
  | refl : Descent parent a a [a]
  | child {b d : α} {c : List α} :
      Descent parent a b c → parent b d → Descent parent a d (c ++ [d])

namespace Descent

variable {a b d : α} {c : List α}

theorem ne_nil (h : Descent parent a b c) : c ≠ [] := by
  cases h <;> simp

theorem length_pos (h : Descent parent a b c) : 0 < c.length :=
  List.length_pos_of_ne_nil h.ne_nil

theorem eq_singleton (h : Descent parent a b c) (hlength : c.length = 1) : a = b ∧ c = [a] := by
  cases h with
  | refl => exact ⟨rfl, rfl⟩
  | child h _ => simp [h.ne_nil] at hlength

theorem cons (h : Descent parent a b c) (hp : parent d a) : Descent parent d b (d :: c) := by
  induction h with
  | refl => exact Descent.refl.child hp
  | child _ hbd ih => exact ih.child hbd

/-- A descent also starts with its first element. -/
theorem eq_cons (h : Descent parent a b c) :
    c = [a] ∧ a = b ∨ ∃ x c', c = a :: c' ∧ parent a x ∧ Descent parent x b c' := by
  induction h with
  | refl => exact .inl ⟨rfl, rfl⟩
  | @child b d c h hp ih =>
    rcases ih with ⟨rfl, rfl⟩ | ⟨x, c', rfl, hx, h'⟩
    · exact .inr ⟨d, [d], rfl, hp, .refl⟩
    · exact .inr ⟨x, c' ++ [d], rfl, hx, h'.child hp⟩

theorem head (h : Descent parent a b c) : c.head? = some a := by
  rcases h.eq_cons with ⟨rfl, _⟩ | ⟨x, c', rfl, _⟩ <;> rfl

theorem reflTransGen (h : Descent parent a b c) : ReflTransGen parent a b := by
  induction h with
  | refl => exact .refl
  | child _ hp ih => exact ih.tail hp

theorem exists_iff : (∃ c, Descent parent a b c) ↔ ReflTransGen parent a b := by
  constructor
  · rintro ⟨c, h⟩
    exact h.reflTransGen
  · intro h
    induction h with
    | refl => exact ⟨[a], .refl⟩
    | tail _ hp ih =>
      obtain ⟨c, h⟩ := ih
      exact ⟨_, h.child hp⟩

/-- Each element of a descent lies between its ends. -/
theorem mem (h : Descent parent a b c) {x : α} (hx : x ∈ c) :
    ReflTransGen parent a x ∧ ReflTransGen parent x b := by
  induction h with
  | refl =>
    rw [List.mem_singleton.mp hx]
    exact ⟨.refl, .refl⟩
  | child h hp ih =>
    rcases List.mem_append.mp hx with hx | hx
    · exact ⟨(ih hx).1, (ih hx).2.tail hp⟩
    · rw [List.mem_singleton.mp hx]
      exact ⟨h.reflTransGen.tail hp, .refl⟩

/-- Where no cycle can be reached, a descent does not meet an element twice. -/
theorem nodup (h : Descent parent a b c)
    (hacyclic : ∀ x, ReflTransGen parent a x → ¬ TransGen parent x x) : c.Nodup := by
  induction h with
  | refl => exact List.nodup_singleton _
  | @child b d c h hp ih =>
    rw [List.nodup_append]
    refine ⟨ih, List.nodup_singleton _, ?_⟩
    intro x hx y hy heq
    rw [List.mem_singleton.mp hy] at heq
    subst heq
    exact hacyclic x (h.mem hx).1 (TransGen.tail' (h.mem hx).2 hp)

theorem reverse (h : Descent parent a b c) :
    Descent (fun x y => parent y x) b a c.reverse := by
  induction h with
  | refl => exact .refl
  | child _ hp ih =>
    rw [List.reverse_append]
    exact ih.cons hp

end Descent

theorem ncard_of_nodup {l : List α} (h : l.Nodup) {s : Set α} (hs : ∀ x, x ∈ s ↔ x ∈ l) :
    s.ncard = l.length := by
  classical
  have heq : s = (l.toFinset : Set α) := by
    ext x
    simp [hs]
  rw [heq, Set.ncard_coe_finset, List.toFinset_card_of_nodup h]

section Unique
variable {a a' b : α} {c c' : List α}

/-- Of two descents to one element, one is the end of the other. -/
theorem Descent.compare (hunique : ∀ p q x, parent p x → parent q x → p = q)
    (h : Descent parent a b c) (h' : Descent parent a' b c') :
    c = c' ∨ (c <:+ c' ∧ TransGen parent a' a) ∨ (c' <:+ c ∧ TransGen parent a a') := by
  induction h generalizing c' with
  | refl =>
    cases h' with
    | refl => exact .inl rfl
    | child h' hp =>
      exact .inr (.inl ⟨List.suffix_append _ _, TransGen.tail' h'.reflTransGen hp⟩)
  | @child p d c h hp ih =>
    cases h' with
    | refl => exact .inr (.inr ⟨List.suffix_append _ _, TransGen.tail' h.reflTransGen hp⟩)
    | child h' hq =>
      cases hunique _ _ _ hp hq
      rcases ih h' with rfl | ⟨⟨e, rfl⟩, hreach⟩ | ⟨⟨e, rfl⟩, hreach⟩
      · exact .inl rfl
      · exact .inr (.inl ⟨⟨e, (List.append_assoc ..).symm⟩, hreach⟩)
      · exact .inr (.inr ⟨⟨e, (List.append_assoc ..).symm⟩, hreach⟩)

/-- The descent between two elements is unique. -/
theorem Descent.unique (hunique : ∀ p q x, parent p x → parent q x → p = q)
    (hacyclic : ∀ x, ¬ TransGen parent x x) (h : Descent parent a b c)
    (h' : Descent parent a b c') : c = c' := by
  rcases h.compare hunique h' with heq | ⟨_, hcycle⟩ | ⟨_, hcycle⟩
  · exact heq
  · exact absurd hcycle (hacyclic a)
  · exact absurd hcycle (hacyclic a)

/-- An element has one ancestor at each distance. -/
theorem Descent.unique_of_length_eq (hunique : ∀ p q x, parent p x → parent q x → p = q)
    (h : Descent parent a b c) (h' : Descent parent a' b c') (hlength : c.length = c'.length) :
    a = a' ∧ c = c' := by
  have hc : c = c' := by
    rcases h.compare hunique h' with heq | ⟨hsuffix, _⟩ | ⟨hsuffix, _⟩
    · exact heq
    · exact hsuffix.eq_of_length hlength
    · exact (hsuffix.eq_of_length hlength.symm).symm
  refine ⟨?_, hc⟩
  have hhead := h.head
  rw [hc, h'.head] at hhead
  exact (Option.some.inj hhead).symm

/-- A descent from a root ends with every descent to the same element. -/
theorem Descent.suffix_of_root (hunique : ∀ p q x, parent p x → parent q x → p = q)
    (hroot : ∀ p, ¬ parent p a) (h : Descent parent a b c) (h' : Descent parent a' b c') :
    c' <:+ c := by
  rcases h.compare hunique h' with rfl | ⟨_, hreach⟩ | ⟨hsuffix, _⟩
  · exact List.suffix_refl _
  · obtain ⟨p, _, hp⟩ := TransGen.tail'_iff.mp hreach
    exact absurd hp (hroot p)
  · exact hsuffix

theorem Descent.unique_of_roots (hunique : ∀ p q x, parent p x → parent q x → p = q)
    (hroot : ∀ p, ¬ parent p a) (hroot' : ∀ p, ¬ parent p a') (h : Descent parent a b c)
    (h' : Descent parent a' b c') : c = c' :=
  (h'.suffix_of_root hunique hroot' h).eq_of_length_le
    (h.suffix_of_root hunique hroot h').length_le

/-- A descent from a root passes each proper ancestor of its end once. -/
theorem Descent.ncard_ancestors (hunique : ∀ p q x, parent p x → parent q x → p = q)
    (hacyclic : ∀ x, ¬ TransGen parent x x) (hroot : ∀ p, ¬ parent p a)
    (h : Descent parent a b c) : c.length = 1 + {x | TransGen parent x b}.ncard := by
  have hancestors : ∀ x, x ∈ {x | TransGen parent x b} ↔ x ∈ c.dropLast := by
    intro x
    rw [Set.mem_ofPred_eq]
    constructor
    · intro hx
      obtain ⟨p, hxp, hp⟩ := TransGen.tail'_iff.mp hx
      obtain ⟨c', h'⟩ := Descent.exists_iff.mpr hxp
      obtain ⟨e, he⟩ := h.suffix_of_root hunique hroot (h'.child hp)
      rw [← he, ← List.append_assoc, List.dropLast_concat]
      exact List.mem_append_right _ (List.mem_of_mem_head? (by rw [h'.head]; rfl))
    · intro hx
      cases h with
      | refl => cases hx
      | child h hp =>
        rw [List.dropLast_concat] at hx
        exact TransGen.tail' (h.mem hx).2 hp
  have hnodup : c.dropLast.Nodup := (h.nodup fun x _ => hacyclic x).sublist (List.dropLast_sublist _)
  have hlength := h.length_pos
  rw [ncard_of_nodup hnodup hancestors, List.length_dropLast]
  omega

/-- Over finitely many elements, every one descends from a root. -/
theorem exists_descent_from_root {members : List α}
    (hmembers : ∀ p x, parent p x → p ∈ members) (hacyclic : ∀ x, ¬ TransGen parent x x)
    (hb : b ∈ members) : ∃ a ∈ members, (∀ p, ¬ parent p a) ∧ ∃ c, Descent parent a b c := by
  let above (x y : {x // x ∈ members}) : Prop := TransGen parent x.1 y.1
  have htrans : IsTrans _ above := ⟨fun _ _ _ hxy hyz => hxy.trans hyz⟩
  have hirrefl : Std.Irrefl above := ⟨fun x => hacyclic x.1⟩
  have hfinite : Finite {x // x ∈ members} := List.finite_toSet members
  have hwf : WellFounded above := Finite.wellFounded_of_trans_of_irrefl above
  suffices ∀ x : {x // x ∈ members},
      ∃ a ∈ members, (∀ p, ¬ parent p a) ∧ ∃ c, Descent parent a x.1 c from this ⟨b, hb⟩
  intro x
  induction x using hwf.induction with
  | _ x ih =>
    by_cases hroot : ∃ p, parent p x.1
    · obtain ⟨p, hp⟩ := hroot
      obtain ⟨a, ha, haroot, c, h⟩ := ih ⟨p, hmembers p x.1 hp⟩ (TransGen.single hp)
      exact ⟨a, ha, haroot, c ++ [x.1], h.child hp⟩
    · exact ⟨x.1, x.2, fun p hp => hroot ⟨p, hp⟩, [x.1], .refl⟩

end Unique

section Bounded

theorem Descent.tail_subset {a b : α} {c members : List α}
    (hmembers : ∀ p x, parent p x → x ∈ members) (h : Descent parent a b c) :
    c.tail ⊆ members := by
  induction h with
  | refl => simp
  | child h hp ih =>
    rw [List.tail_append_of_ne_nil h.ne_nil]
    exact List.append_subset.mpr ⟨ih, by simpa using hmembers _ _ hp⟩

theorem Descent.length_le {a b : α} {c members : List α}
    (hmembers : ∀ p x, parent p x → x ∈ members) (hnodup : c.Nodup)
    (h : Descent parent a b c) : c.length ≤ members.length + 1 := by
  have htail := (hnodup.sublist (List.tail_sublist c)).subperm (h.tail_subset hmembers)
  have := htail.length_le
  rw [List.length_tail] at this
  omega

/-- From an element that reaches a cycle there are descents of every length. -/
theorem exists_descent_of_cycle {a b : α} (hreach : ReflTransGen parent a b)
    (hcycle : TransGen parent b b) (n : Nat) :
    ∃ d c, Descent parent a d c ∧ c.length = n + 1 := by
  induction n generalizing a with
  | zero => exact ⟨a, [a], .refl, rfl⟩
  | succ n ih =>
    have hnext : ∃ x, parent a x ∧ ReflTransGen parent x b := by
      rcases hreach.cases_head with rfl | hnext
      · exact TransGen.head'_iff.mp hcycle
      · exact hnext
    obtain ⟨x, hx, hreach⟩ := hnext
    obtain ⟨d, c, h, hlength⟩ := ih hreach
    exact ⟨d, a :: c, h.cons hx, by simp [hlength]⟩

/-- Descents from a start are of bounded length exactly when it reaches no cycle. -/
theorem descents_bounded_iff (parent : α → α → Prop) (start : α → Prop) {members : List α}
    (hmembers : ∀ p x, parent p x → x ∈ members) :
    (∃ n, ∀ a, start a → ∀ b c, Descent parent a b c → c.length ≠ n + 1) ↔
      ∀ a, start a → ∀ b, ReflTransGen parent a b → ¬ TransGen parent b b := by
  constructor
  · rintro ⟨n, hn⟩ a ha b hreach hcycle
    obtain ⟨d, c, h, hlength⟩ := exists_descent_of_cycle hreach hcycle n
    exact hn a ha d c h hlength
  · intro hacyclic
    refine ⟨members.length + 1, ?_⟩
    intro a ha b c h
    have := h.length_le hmembers (h.nodup (hacyclic a ha))
    omega

end Bounded

end Promscale.Lib
