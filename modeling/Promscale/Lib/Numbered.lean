import Mathlib.Data.List.Nodup

/-!
# Rows under fresh numbers

A table whose rows are known by their numbers; a new row gets the next number of a sequence. A
statement that calls a deleting function for each row it selects deletes rows by their numbers,
in the order it reads them in. The rows that go and the number of those that stay depend on the
selection, not on that order.
-/
namespace Promscale.Lib

structure Numbered (ρ : Type) (id : ρ → Nat) where
  rows : List ρ
  seq : Nat
  nodup : (rows.map id).Nodup
  le_seq : ∀ r ∈ rows, id r ≤ seq

namespace Numbered

variable {ρ : Type} {id : ρ → Nat}

/-- The row under the next number. -/
def add (t : Numbered ρ id) (row : Nat → ρ) (hid : ∀ i, id (row i) = i) : Numbered ρ id where
  rows := t.rows ++ [row (t.seq + 1)]
  seq := t.seq + 1
  nodup := by
    rw [List.map_append, List.nodup_append]
    refine ⟨t.nodup, List.nodup_singleton _, ?_⟩
    intro i hi j hj
    obtain ⟨r, hr, rfl⟩ := List.mem_map.mp hi
    have hle := t.le_seq r hr
    rw [List.map_singleton, List.mem_singleton, hid] at hj
    omega
  le_seq := by
    intro r hr
    rcases List.mem_append.mp hr with hr | hr
    · exact Nat.le_succ_of_le (t.le_seq r hr)
    · cases List.mem_singleton.mp hr
      exact Nat.le_of_eq (hid _)

def delete (t : Numbered ρ id) (i : Nat) : Numbered ρ id where
  rows := t.rows.filter fun r => id r ≠ i
  seq := t.seq
  nodup := t.nodup.sublist (List.filter_sublist.map id)
  le_seq r hr := t.le_seq r (List.mem_filter.mp hr).1

/-- The rows of a list, one after the other. -/
def deleteAll (t : Numbered ρ id) (selected : List ρ) : Numbered ρ id :=
  selected.foldl (fun t r => t.delete (id r)) t

variable {t : Numbered ρ id}

theorem ext {t t' : Numbered ρ id} (hrows : t.rows = t'.rows) (hseq : t.seq = t'.seq) : t = t' := by
  cases t
  cases t'
  cases hrows
  cases hseq
  rfl

@[simp] theorem seq_deleteAll (selected : List ρ) : (t.deleteAll selected).seq = t.seq := by
  induction selected generalizing t with
  | nil => rfl
  | cons r selected ih => exact ih

/-- Two rows of one number are one row. -/
theorem eq_of_id {r r' : ρ} (hr : r ∈ t.rows) (hr' : r' ∈ t.rows) (h : id r = id r') : r = r' :=
  List.inj_on_of_nodup_map t.nodup hr hr' h

theorem rows_deleteAll (selected : List ρ) :
    (t.deleteAll selected).rows = t.rows.filter fun r => id r ∉ selected.map id := by
  induction selected generalizing t with
  | nil => simp [deleteAll]
  | cons r selected ih =>
    have hrest : (t.deleteAll (r :: selected)).rows = ((t.delete (id r)).deleteAll selected).rows :=
      rfl
    rw [hrest, ih]
    simp only [delete, List.filter_filter, List.map_cons, List.mem_cons, not_or, Bool.decide_and]
    simp only [ne_eq, Bool.and_comm]

theorem mem_deleteAll {selected : List ρ} (hselected : ∀ s ∈ selected, s ∈ t.rows) {r : ρ} :
    r ∈ (t.deleteAll selected).rows ↔ r ∈ t.rows ∧ r ∉ selected := by
  rw [rows_deleteAll, List.mem_filter, decide_eq_true_iff]
  apply and_congr_right
  intro hr
  refine not_congr ⟨?_, List.mem_map_of_mem⟩
  intro hid
  obtain ⟨s, hs, hsr⟩ := List.mem_map.mp hid
  rwa [← eq_of_id (hselected s hs) hr hsr]

/-- All rows that meet a condition, read in any order. -/
theorem rows_deleteAll_filter {p : ρ → Bool} {selected : List ρ}
    (hperm : selected.Perm (t.rows.filter p)) :
    (t.deleteAll selected).rows = t.rows.filter fun r => !p r := by
  have hmem : ∀ s, s ∈ selected ↔ s ∈ t.rows ∧ p s = true := by
    intro s
    rw [hperm.mem_iff, List.mem_filter]
  rw [rows_deleteAll]
  apply List.filter_congr
  intro r hr
  have hkept : id r ∈ selected.map id ↔ p r = true := by
    constructor
    · intro hid
      obtain ⟨s, hs, hsr⟩ := List.mem_map.mp hid
      rw [← eq_of_id ((hmem s).mp hs).1 hr hsr]
      exact ((hmem s).mp hs).2
    · exact fun hp => List.mem_map_of_mem ((hmem r).mpr ⟨hr, hp⟩)
  cases hp : p r <;> simp [hkept, hp]

/-- Of the rows that meet a condition the first `k`, in whatever order they are read. -/
theorem countP_deleteAll_take {p : ρ → Bool} {scanned : List ρ}
    (hperm : scanned.Perm (t.rows.filter p)) (k : Nat) :
    (t.deleteAll (scanned.take k)).rows.countP p = t.rows.countP p - k := by
  have hmem : ∀ s ∈ scanned.take k, s ∈ t.rows ∧ p s = true :=
    fun s hs => List.mem_filter.mp (hperm.subset (List.mem_of_mem_take hs))
  have hnodup : t.rows.Nodup := t.nodup.of_map
  -- what stays and what goes are together the rows that meet the condition
  have hsplit : ((t.deleteAll (scanned.take k)).rows.filter p ++ scanned.take k).Perm
      (t.rows.filter p) := by
    have hstay : ((t.deleteAll (scanned.take k)).rows.filter p).Nodup := by
      rw [rows_deleteAll]
      exact (hnodup.filter _).filter _
    have hgo : (scanned.take k).Nodup :=
      (hperm.nodup_iff.mpr (hnodup.filter p)).sublist (List.take_sublist k scanned)
    have hdisjoint : ∀ a ∈ (t.deleteAll (scanned.take k)).rows.filter p,
        ∀ b ∈ scanned.take k, a ≠ b := by
      rintro a ha b hb rfl
      exact ((mem_deleteAll fun s hs => (hmem s hs).1).mp (List.mem_filter.mp ha).1).2 hb
    apply (List.perm_ext_iff_of_nodup (List.nodup_append.mpr ⟨hstay, hgo, hdisjoint⟩)
      (hnodup.filter p)).mpr
    intro a
    rw [List.mem_append, List.mem_filter, List.mem_filter, mem_deleteAll fun s hs => (hmem s hs).1]
    by_cases ha : a ∈ scanned.take k
    · simp [ha, hmem a ha]
    · simp [ha]
  have hlength := hsplit.length_eq
  rw [List.length_append, List.length_take, hperm.length_eq] at hlength
  rw [List.countP_eq_length_filter, List.countP_eq_length_filter]
  omega

/-! ## New rows -/

/-- Rows have come under numbers that the table had not given yet. -/
structure Extends (t t' : Numbered ρ id) (new : List ρ) : Prop where
  rows_eq : t'.rows = t.rows ++ new
  seq_lt : ∀ r ∈ new, t.seq < id r
  seq_le : t.seq ≤ t'.seq

namespace Extends

theorem refl (t : Numbered ρ id) : Extends t t [] :=
  ⟨(List.append_nil _).symm, by simp, Nat.le_refl _⟩

theorem add {t t' : Numbered ρ id} {new : List ρ} (h : Extends t t' new) {row : Nat → ρ}
    (hid : ∀ i, id (row i) = i) :
    Extends t (t'.add row hid) (new ++ [row (t'.seq + 1)]) where
  rows_eq := by
    rw [← List.append_assoc, ← h.rows_eq]
    rfl
  seq_lt := by
    have hle := h.seq_le
    intro r hr
    rcases List.mem_append.mp hr with hr | hr
    · exact h.seq_lt r hr
    · rw [List.mem_singleton.mp hr, hid]
      omega
  seq_le := Nat.le_succ_of_le h.seq_le

end Extends

end Numbered

end Promscale.Lib
