import Mathlib.Order.Lattice
import Mathlib.Data.List.Nodup

/-!
# Latest-wins cells

A cell holds at most one timestamped value and keeps the later of any two. Over
an arbitrary linear order of timestamps the merge of two cells is associative
with unit `none`, so the cell of a list of values only depends on how the list
is split, and on distinct timestamps not even on its order.
-/
namespace Promscale.Lib

variable {τ β : Type*} [LinearOrder τ]

/-- The later of two cells; on equal timestamps the left value stays. -/
def later : Option (τ × β) → Option (τ × β) → Option (τ × β)
  | none, o => o
  | some a, none => some a
  | some a, some b => if a.1 < b.1 then some b else some a

@[simp] theorem later_none_left (o : Option (τ × β)) : later none o = o := rfl

@[simp] theorem later_none_right (o : Option (τ × β)) : later o none = o := by
  cases o <;> rfl

theorem later_assoc (a b c : Option (τ × β)) :
    later (later a b) c = later a (later b c) := by
  rcases a with _ | a
  · simp
  rcases b with _ | b
  · simp
  rcases c with _ | c
  · simp
  by_cases hab : a.1 < b.1
  · by_cases hbc : b.1 < c.1
    · simp [later, hab, hbc, hab.trans hbc]
    · simp [later, hab, hbc]
  · by_cases hbc : b.1 < c.1
    · simp [later, hab, hbc]
    · have hac : ¬ a.1 < c.1 :=
        not_lt.mpr ((not_lt.mp hbc).trans (not_lt.mp hab))
      simp [later, hab, hbc, hac]

/-- The cell of a list of timestamped values. -/
def latest (l : List (τ × β)) : Option (τ × β) :=
  l.foldl (fun cell s => later cell (some s)) none

@[simp] theorem latest_nil : latest ([] : List (τ × β)) = none := rfl

private theorem foldl_later (l : List (τ × β)) (cell : Option (τ × β)) :
    l.foldl (fun cell s => later cell (some s)) cell = later cell (latest l) := by
  induction l generalizing cell with
  | nil => simp
  | cons s rest ih =>
    rw [latest, List.foldl_cons, List.foldl_cons, ih, ih, later_assoc, later_none_left]

theorem latest_append (l₁ l₂ : List (τ × β)) :
    latest (l₁ ++ l₂) = later (latest l₁) (latest l₂) := by
  rw [latest, List.foldl_append, foldl_later]
  rfl

theorem latest_cons (s : τ × β) (l : List (τ × β)) :
    latest (s :: l) = later (some s) (latest l) :=
  latest_append [s] l

theorem later_some_ne_none (a : τ × β) (o : Option (τ × β)) : later (some a) o ≠ none := by
  cases o with
  | none => simp
  | some b =>
    simp only [later]
    split <;> simp

@[simp] theorem latest_eq_none_iff {l : List (τ × β)} : latest l = none ↔ l = [] := by
  cases l with
  | nil => simp
  | cons a rest => simp [latest_cons, later_some_ne_none]

/-- The cell is a member of the list no other member is later than. -/
theorem latest_spec {l : List (τ × β)} {s : τ × β} (h : latest l = some s) :
    s ∈ l ∧ ∀ r ∈ l, r.1 ≤ s.1 := by
  induction l generalizing s with
  | nil => simp at h
  | cons a rest ih =>
    rw [latest_cons] at h
    cases hrest : latest rest with
    | none =>
      rw [latest_eq_none_iff] at hrest
      subst hrest
      simp only [latest_nil, later_none_right, Option.some.injEq] at h
      subst h
      simp
    | some c =>
      obtain ⟨hmem, hmax⟩ := ih hrest
      rw [hrest] at h
      simp only [later] at h
      split at h
      next hlt =>
        cases h
        refine ⟨List.mem_cons_of_mem _ hmem, ?_⟩
        intro r hr
        rcases List.mem_cons.mp hr with rfl | hr
        · exact hlt.le
        · exact hmax r hr
      next hnot =>
        cases h
        refine ⟨List.mem_cons_self, ?_⟩
        intro r hr
        rcases List.mem_cons.mp hr with rfl | hr
        · exact le_rfl
        · exact (hmax r hr).trans (not_lt.mp hnot)

/-- With distinct timestamps the latest member is the only one that is maximal. -/
theorem latest_eq_some_iff {l : List (τ × β)} (hdistinct : (l.map Prod.fst).Nodup)
    {s : τ × β} : latest l = some s ↔ s ∈ l ∧ ∀ r ∈ l, r.1 ≤ s.1 := by
  refine ⟨latest_spec, ?_⟩
  rintro ⟨hmem, hmax⟩
  cases h : latest l with
  | none =>
    rw [latest_eq_none_iff] at h
    simp [h] at hmem
  | some r =>
    obtain ⟨hr, hrmax⟩ := latest_spec h
    have htime : r.1 = s.1 := le_antisymm (hmax r hr) (hrmax s hmem)
    rw [List.inj_on_of_nodup_map hdistinct hr hmem htime]

/-- On distinct timestamps the order of the list does not matter. -/
theorem latest_perm {l₁ l₂ : List (τ × β)} (hperm : l₁.Perm l₂)
    (hdistinct : (l₁.map Prod.fst).Nodup) : latest l₁ = latest l₂ := by
  have hdistinct₂ : (l₂.map Prod.fst).Nodup := (hperm.map _).nodup_iff.mp hdistinct
  cases h : latest l₁ with
  | none =>
    rw [latest_eq_none_iff] at h
    subst h
    rw [hperm.nil_eq.symm]
    rfl
  | some s =>
    obtain ⟨hmem, hmax⟩ := latest_spec h
    symm
    rw [latest_eq_some_iff hdistinct₂]
    exact ⟨hperm.mem_iff.mp hmem, fun r hr => hmax r (hperm.mem_iff.mpr hr)⟩

/-- Cutting the list from below cuts the cell: values that are too early never
hide one that is late enough. -/
theorem latest_filter_upward (l : List (τ × β)) (late : τ → Bool)
    (hup : ∀ a b, a ≤ b → late a = true → late b = true) :
    latest (l.filter fun s => late s.1) = (latest l).filter fun s => late s.1 := by
  induction l with
  | nil => rfl
  | cons a rest ih =>
    rw [latest_cons, List.filter_cons]
    by_cases ha : late a.1 = true
    · rw [if_pos ha, latest_cons, ih]
      cases latest rest with
      | none => simp [Option.filter, ha]
      | some c =>
        by_cases hc : late c.1 = true
        · by_cases hac : a.1 < c.1 <;> simp [later, Option.filter, ha, hc, hac]
        · have hac : ¬ a.1 < c.1 := fun h => hc (hup _ _ h.le ha)
          simp [later, Option.filter, ha, hc, hac]
    · rw [if_neg ha, ih]
      cases latest rest with
      | none => simp [Option.filter, ha]
      | some c =>
        by_cases hac : a.1 < c.1
        · simp [later, Option.filter, hac]
        · have hc : ¬ late c.1 = true := fun h => ha (hup _ _ (not_lt.mp hac) h)
          simp [later, Option.filter, ha, hc, hac]

end Promscale.Lib
