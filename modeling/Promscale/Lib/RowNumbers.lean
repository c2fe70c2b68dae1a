import Mathlib.Data.List.Pairwise
import Mathlib.Data.List.Sort

/-!
# Row numbers

`row_number() OVER (ORDER BY ..)`. Where no two rows are in the same place of the order, a row's
number is one more than how many rows come before it.
-/
namespace Promscale.Lib

variable {α : Type} (r : α → α → Prop) [DecidableRel r]

def rowNumbers (rows : List α) : List (α × Nat) := (rows.insertionSort r).zipIdx 1

/-- The rows that come before one. -/
def rowsBefore (rows : List α) (a : α) : List α := rows.filter fun b => r b a ∧ ¬ r a b

variable {r}

theorem mem_zipIdx_of_sorted {rows : List α} (hrefl : ∀ a, r a a)
    (hsorted : rows.Pairwise fun a b => r a b ∧ ¬ r b a) (a : α) (n k : Nat) :
    (a, n) ∈ rows.zipIdx k ↔ a ∈ rows ∧ n = k + (rowsBefore r rows a).length := by
  induction rows generalizing k with
  | nil => simp
  | cons b rows ih =>
    obtain ⟨hfirst, hsorted⟩ := List.pairwise_cons.mp hsorted
    rw [List.zipIdx_cons, List.mem_cons, ih hsorted, List.mem_cons]
    have hself : rowsBefore r (b :: rows) b = [] := by
      refine List.filter_eq_nil_iff.mpr ?_
      intro c hc
      rcases List.mem_cons.mp hc with rfl | hc
      · simp [hrefl]
      · simp [(hfirst c hc).2]
    have hlater : ∀ c ∈ rows, rowsBefore r (b :: rows) c = b :: rowsBefore r rows c := by
      intro c hc
      simp [rowsBefore, hfirst c hc]
    constructor
    · rintro (heq | ⟨ha, hn⟩)
      · cases heq
        exact ⟨.inl rfl, by rw [hself]; rfl⟩
      · refine ⟨.inr ha, ?_⟩
        rw [hlater a ha, hn, List.length_cons]
        omega
    · rintro ⟨rfl | ha, hn⟩
      · rw [hself] at hn
        exact .inl (by rw [hn]; rfl)
      · rw [hlater a ha, List.length_cons] at hn
        exact .inr ⟨ha, by omega⟩

variable [Std.Total r] [IsTrans α r]

/-- Sorting rows no two of which are in the same place. -/
theorem insertionSort_strict {rows : List α} (h : rows.Pairwise fun a b => ¬ (r a b ∧ r b a)) :
    (rows.insertionSort r).Pairwise fun a b => r a b ∧ ¬ r b a := by
  have hdistinct : (rows.insertionSort r).Pairwise fun a b => ¬ (r a b ∧ r b a) :=
    (List.perm_insertionSort r rows).symm.pairwise h fun hab hba => hab hba.symm
  exact ((List.pairwise_insertionSort r rows).and hdistinct).imp
    fun {a b} hab => ⟨hab.1, fun hba => hab.2 ⟨hab.1, hba⟩⟩

theorem mem_rowNumbers {rows : List α} (h : rows.Pairwise fun a b => ¬ (r a b ∧ r b a)) (a : α)
    (n : Nat) : (a, n) ∈ rowNumbers r rows ↔ a ∈ rows ∧ n = 1 + (rowsBefore r rows a).length := by
  have hperm := List.perm_insertionSort r rows
  have hbefore : (rowsBefore r (rows.insertionSort r) a).length = (rowsBefore r rows a).length :=
    (hperm.filter _).length_eq
  rw [rowNumbers, mem_zipIdx_of_sorted (fun a => (Std.Total.total a a).elim id id)
    (insertionSort_strict h), hperm.mem_iff, hbefore]

/-- Only the first row has the number 1. -/
theorem one_lt_rowNumber {rows : List α} (h : rows.Pairwise fun a b => ¬ (r a b ∧ r b a)) {a : α}
    {n : Nat} (ha : (a, n) ∈ rowNumbers r rows) : 1 < n ↔ ∃ b ∈ rows, r b a ∧ ¬ r a b := by
  rw [((mem_rowNumbers h a n).mp ha).2, Nat.lt_add_right_iff_pos, List.length_pos_iff_exists_mem]
  simp [rowsBefore]

theorem exists_rowNumber {r : α → α → Prop} [DecidableRel r] {rows : List α} {a : α}
    (ha : a ∈ rows) : ∃ n, (a, n) ∈ rowNumbers r rows := by
  obtain ⟨i, hi, rfl⟩ := List.mem_iff_getElem.mp ((List.perm_insertionSort r rows).mem_iff.mpr ha)
  exact ⟨i + 1, List.mk_mem_zipIdx_iff_le_and_getElem?_sub.mpr
    ⟨Nat.le_add_left 1 i, by simp [List.getElem?_eq_getElem hi]⟩⟩

theorem rowNumber_pos {r : α → α → Prop} [DecidableRel r] {rows : List α} {a : α} {n : Nat}
    (ha : (a, n) ∈ rowNumbers r rows) : a ∈ rows ∧ 1 ≤ n := by
  obtain ⟨hn, ha⟩ := List.mk_mem_zipIdx_iff_le_and_getElem?_sub.mp ha
  exact ⟨(List.perm_insertionSort r rows).mem_iff.mp (List.mem_of_getElem? ha), hn⟩

/-! ## By a number of their own -/

section
variable {number : α → Nat}

local instance totalByNumber : Std.Total fun a b : α => number a ≤ number b :=
  ⟨fun a b => Nat.le_total (number a) (number b)⟩

local instance transByNumber : IsTrans α fun a b => number a ≤ number b :=
  ⟨fun _ _ _ => Nat.le_trans⟩

/-- `ORDER BY` a column of numbers. -/
def orderBy (number : α → Nat) (rows : List α) : List α :=
  rows.insertionSort fun a b => number a ≤ number b

theorem perm_orderBy (number : α → Nat) (rows : List α) : (orderBy number rows).Perm rows :=
  List.perm_insertionSort _ rows

theorem mem_orderBy {rows : List α} {a : α} : a ∈ orderBy number rows ↔ a ∈ rows :=
  (perm_orderBy number rows).mem_iff

/-- There is one way to put rows into the order of their numbers, when these differ. -/
theorem orderBy_eq {rows sorted : List α} (hsorted : sorted.Pairwise fun a b => number a < number b)
    (hperm : sorted.Perm rows) : orderBy number rows = sorted := by
  have hle : sorted.Pairwise fun a b => number a ≤ number b := hsorted.imp Nat.le_of_lt
  refine List.Perm.eq_of_pairwise ?_ (List.pairwise_insertionSort _ rows) hle
    ((perm_orderBy number rows).trans hperm.symm)
  intro a b ha hb hab hba
  by_contra hne
  have hdiffer : sorted.Pairwise fun a b => number a ≠ number b := hsorted.imp Nat.ne_of_lt
  have : Std.Symm fun a b : α => number a ≠ number b := ⟨fun _ _ h => h.symm⟩
  have ha := hperm.mem_iff.mpr (mem_orderBy.mp ha)
  exact hdiffer.forall ha hb hne (Nat.le_antisymm hab hba)

theorem orderBy_strict {rows : List α} (h : rows.Pairwise fun a b => number a ≠ number b) :
    (orderBy number rows).Pairwise fun a b => number a < number b := by
  have hdiffer := insertionSort_strict (r := fun a b => number a ≤ number b)
    (h.imp fun hne hle => hne (Nat.le_antisymm hle.1 hle.2))
  exact hdiffer.imp fun hab => by omega

theorem orderBy_append {first last : List α} (h : first.Pairwise fun a b => number a ≠ number b)
    (h' : last.Pairwise fun a b => number a ≠ number b)
    (hlt : ∀ a ∈ first, ∀ b ∈ last, number a < number b) :
    orderBy number (first ++ last) = orderBy number first ++ orderBy number last := by
  refine orderBy_eq ?_ ((perm_orderBy number first).append (perm_orderBy number last))
  refine List.pairwise_append.mpr ⟨orderBy_strict h, orderBy_strict h', ?_⟩
  intro a ha b hb
  exact hlt a (mem_orderBy.mp ha) b (mem_orderBy.mp hb)

/-- A row with the greatest number comes last. -/
theorem orderBy_concat {rows : List α} (h : rows.Pairwise fun a b => number a ≠ number b) {a : α}
    (hlast : ∀ b ∈ rows, number b < number a) :
    orderBy number (rows ++ [a]) = orderBy number rows ++ [a] := by
  refine orderBy_append h (List.pairwise_singleton _ _) ?_
  intro b hb c hc
  rw [List.mem_singleton.mp hc]
  exact hlast b hb

theorem orderBy_filter {rows : List α} (h : rows.Pairwise fun a b => number a ≠ number b)
    (p : α → Bool) : orderBy number (rows.filter p) = (orderBy number rows).filter p :=
  orderBy_eq ((orderBy_strict h).filter p) ((perm_orderBy number rows).filter p)

theorem orderBy_map {β : Type} {number' : β → Nat} {f : α → β} {rows : List α}
    (h : ∀ a ∈ rows, number' (f a) = number a) :
    orderBy number' (rows.map f) = (orderBy number rows).map f := by
  refine (List.map_insertionSort _ _ f rows ?_).symm
  intro a ha b hb
  rw [h a ha, h b hb]

/-- One row comes before another one. -/
theorem pair_sublist_orderBy {rows : List α} (h : rows.Pairwise fun a b => number a ≠ number b)
    {a b : α} : [a, b].Sublist (orderBy number rows) ↔ a ∈ rows ∧ b ∈ rows ∧ number a < number b := by
  have hstrict := orderBy_strict h
  constructor
  · intro hsublist
    have hmem := hsublist.subset
    have hlt := hstrict.sublist hsublist
    exact ⟨mem_orderBy.mp (hmem (by simp)), mem_orderBy.mp (hmem (by simp)), by simpa using hlt⟩
  · rintro ⟨ha, hb, hlt⟩
    have ha : a ∈ orderBy number rows := mem_orderBy.mpr ha
    have hb : b ∈ orderBy number rows := mem_orderBy.mpr hb
    obtain ⟨before, after, hsplit⟩ := List.append_of_mem ha
    rw [hsplit] at hstrict hb ⊢
    obtain ⟨-, -, hbefore⟩ := List.pairwise_append.mp hstrict
    refine List.Sublist.trans (List.Sublist.cons_cons a ?_) (List.sublist_append_right before _)
    rw [List.singleton_sublist]
    rcases List.mem_append.mp hb with hb | hb
    · exact absurd (hbefore b hb a List.mem_cons_self) (by omega)
    · rcases List.mem_cons.mp hb with rfl | hb
      · exact absurd hlt (lt_irrefl _)
      · exact hb

/-- Row numbers are in the order that they number. -/
theorem rowNumber_lt {rows : List α} (h : rows.Pairwise fun a b => number a ≠ number b)
    {a b : α} {n m : Nat} (ha : (a, n) ∈ rowNumbers (fun a b => number a ≤ number b) rows)
    (hb : (b, m) ∈ rowNumbers (fun a b => number a ≤ number b) rows)
    (hlt : number a < number b) : n < m := by
  have ha : (a, n) ∈ (orderBy number rows).zipIdx 1 := ha
  have hb : (b, m) ∈ (orderBy number rows).zipIdx 1 := hb
  obtain ⟨hn, ha⟩ := List.mk_mem_zipIdx_iff_le_and_getElem?_sub.mp ha
  obtain ⟨hm, hb⟩ := List.mk_mem_zipIdx_iff_le_and_getElem?_sub.mp hb
  by_contra hge
  rcases Nat.eq_or_lt_of_le (Nat.sub_le_sub_right (Nat.le_of_not_lt hge) 1) with heq | hbefore
  · rw [heq, ha] at hb
    cases hb
    exact lt_irrefl _ hlt
  · obtain ⟨hi, rfl⟩ := List.getElem?_eq_some_iff.mp ha
    obtain ⟨hj, rfl⟩ := List.getElem?_eq_some_iff.mp hb
    exact Nat.lt_asymm hlt
      (List.pairwise_iff_getElem.mp (orderBy_strict h) _ _ hj hi hbefore)

end

end Promscale.Lib
