import Mathlib.Data.List.Forall2

/-!
# Lists related element by element
-/
namespace Promscale.Lib

variable {α β : Type}

theorem exists_left {R : α → β → Prop} {as : List α} {bs : List β}
    (h : List.Forall₂ R as bs) {b : β} (hb : b ∈ bs) : ∃ a ∈ as, R a b := by
  induction h with
  | nil => cases hb
  | cons hab _ ih =>
    rcases List.mem_cons.mp hb with rfl | hb
    · exact ⟨_, List.mem_cons_self, hab⟩
    · obtain ⟨a, ha, hab⟩ := ih hb
      exact ⟨a, List.mem_cons_of_mem _ ha, hab⟩

theorem exists_right {R : α → β → Prop} {as : List α} {bs : List β}
    (h : List.Forall₂ R as bs) {a : α} (ha : a ∈ as) : ∃ b ∈ bs, R a b :=
  exists_left h.flip ha

/-- A lookup that finds everything finds it in order. -/
theorem forall₂_of_filterMap_length {f : α → Option β} {as : List α}
    (h : as.length = (as.filterMap f).length) :
    List.Forall₂ (fun a b => f a = some b) as (as.filterMap f) := by
  induction as with
  | nil => exact .nil
  | cons a as ih =>
    cases hf : f a with
    | none =>
      have := List.length_filterMap_le f as
      rw [List.filterMap_cons_none hf, List.length_cons] at h
      omega
    | some b =>
      rw [List.filterMap_cons_some hf] at h ⊢
      exact .cons hf (ih (by simpa using h))

/-- Lists that stand over a list and over one it starts. -/
theorem prefix_of_forall₂ {R R' : α → β → Prop} {as as' : List α} {bs bs' : List β}
    (hbegins : as <+: as') (h : List.Forall₂ R as bs) (h' : List.Forall₂ R' as' bs')
    (hunique : ∀ a ∈ as, ∀ b b', R a b → R' a b' → b = b') : bs <+: bs' := by
  induction h generalizing as' bs' with
  | nil => exact List.nil_prefix
  | cons hab hrest ih =>
    obtain ⟨more, rfl⟩ := hbegins
    cases h' with
    | cons hab' hrest' =>
      rw [hunique _ (by simp) _ _ hab hab']
      rw [List.prefix_cons_inj]
      exact ih ⟨more, rfl⟩ hrest' fun a ha => hunique a (List.mem_cons_of_mem _ ha)

theorem length_flatMap_le {R : α → List β → Prop} {f : α → List β} {ls : List α}
    {outs : List (List β)} (h : List.Forall₂ R ls outs)
    (hle : ∀ l ∈ ls, ∀ out, R l out → (f l).length ≤ out.length) :
    (ls.flatMap f).length ≤ outs.flatten.length := by
  induction h with
  | nil => exact Nat.le_refl _
  | cons hr _ ih =>
    rw [List.flatMap_cons, List.flatten_cons, List.length_append, List.length_append]
    exact Nat.add_le_add (hle _ List.mem_cons_self _ hr)
      (ih fun l hl => hle l (List.mem_cons_of_mem _ hl))

/-- Lists that are no shorter than others one by one, and the same when joined, are the same one
by one. -/
theorem forall_of_flatten_eq {R : α → List β → Prop} {f : α → List β} {ls : List α}
    {outs : List (List β)} (h : List.Forall₂ R ls outs)
    (hle : ∀ l ∈ ls, ∀ out, R l out → (f l).length ≤ out.length)
    (heq : outs.flatten = ls.flatMap f) : ∀ l ∈ ls, R l (f l) := by
  induction h with
  | nil => exact fun l hl => absurd hl List.not_mem_nil
  | cons hr hrest ih =>
    have hle' := fun l hl => hle l (List.mem_cons_of_mem _ hl)
    have hfirst := hle _ List.mem_cons_self _ hr
    have hothers := length_flatMap_le hrest hle'
    rw [List.flatten_cons, List.flatMap_cons] at heq
    have hsum := congrArg List.length heq
    rw [List.length_append, List.length_append] at hsum
    obtain ⟨hout, htail⟩ := List.append_inj heq (by omega)
    exact List.forall_mem_cons.mpr ⟨hout ▸ hr, ih hle' htail⟩

end Promscale.Lib
