import Mathlib.Data.List.Nodup
import Mathlib.Data.List.Range
import Mathlib.Data.List.Flatten

/-!
# Recursive queries

`WITH RECURSIVE x AS (start UNION ALL step)` evaluates the recursive term over a working
table, at first the rows of the other term, until an iteration yields no row. The query
returns the rows of all working tables; it may run forever, so it comes with fuel.
-/
namespace Promscale.Lib

variable {ρ : Type*}

/-- The working table after `n` iterations. -/
def workingTable (step : ρ → List ρ) : List ρ → Nat → List ρ
  | start, 0 => start
  | start, n + 1 => workingTable step (start.flatMap step) n

/-- The rows of the query, when an iteration within the fuel finds its working table empty. -/
def recursiveQuery (step : ρ → List ρ) : Nat → List ρ → Option (List ρ)
  | 0, _ => none
  | fuel + 1, working =>
      if working.isEmpty then some []
      else (recursiveQuery step fuel (working.flatMap step)).map (working ++ ·)

/-- The rows of the first `n` working tables. -/
def tables (step : ρ → List ρ) (start : List ρ) (n : Nat) : List ρ :=
  (List.range n).flatMap (workingTable step start)

variable {step : ρ → List ρ} {start : List ρ}

@[simp] theorem workingTable_zero : workingTable step start 0 = start := rfl

@[simp] theorem workingTable_nil (n : Nat) : workingTable step [] n = [] := by
  induction n with
  | zero => rfl
  | succ n ih => exact ih

theorem workingTable_succ (n : Nat) :
    workingTable step start (n + 1) = (workingTable step start n).flatMap step := by
  induction n generalizing start with
  | zero => rfl
  | succ n ih => exact ih

theorem mem_workingTable_succ {n : Nat} {r : ρ} :
    r ∈ workingTable step start (n + 1) ↔ ∃ x ∈ workingTable step start n, r ∈ step x := by
  rw [workingTable_succ, List.mem_flatMap]

theorem mem_tables {n : Nat} {r : ρ} :
    r ∈ tables step start n ↔ ∃ m < n, r ∈ workingTable step start m := by
  simp [tables]

theorem tables_succ (n : Nat) :
    tables step start (n + 1) = start ++ tables step (start.flatMap step) n := by
  simp [tables, List.range_succ_eq_map, List.flatMap_map, workingTable]

/-- The query returns the tables up to the first empty one, or up to any later one. -/
theorem recursiveQuery_eq_some {n : Nat} (h : workingTable step start n = []) {fuel : Nat}
    (hfuel : n < fuel) : recursiveQuery step fuel start = some (tables step start n) := by
  induction n generalizing start fuel with
  | zero =>
    cases fuel with
    | zero => omega
    | succ fuel =>
      rw [workingTable_zero] at h
      simp [recursiveQuery, h, tables]
  | succ n ih =>
    cases fuel with
    | zero => omega
    | succ fuel =>
      by_cases hstart : start = []
      · simp [recursiveQuery, hstart, tables]
      · rw [recursiveQuery, if_neg (by simpa using hstart), ih h (by omega), tables_succ]
        rfl

theorem exists_empty_of_recursiveQuery {fuel : Nat} {out : List ρ}
    (h : recursiveQuery step fuel start = some out) : ∃ n, workingTable step start n = [] := by
  induction fuel generalizing start out with
  | zero => cases h
  | succ fuel ih =>
    by_cases hstart : start = []
    · exact ⟨0, hstart⟩
    · rw [recursiveQuery, if_neg (by simpa using hstart), Option.map_eq_some_iff] at h
      obtain ⟨rest, hrest, _⟩ := h
      obtain ⟨n, hn⟩ := ih hrest
      exact ⟨n + 1, hn⟩

/-- The query ends exactly when some working table is empty. -/
theorem recursiveQuery_terminates_iff :
    (∃ fuel, (recursiveQuery step fuel start).isSome = true) ↔
      ∃ n, workingTable step start n = [] := by
  constructor
  · rintro ⟨fuel, h⟩
    obtain ⟨out, hout⟩ := Option.isSome_iff_exists.mp h
    exact exists_empty_of_recursiveQuery hout
  · rintro ⟨n, hn⟩
    exact ⟨n + 1, by rw [recursiveQuery_eq_some hn (by omega)]; rfl⟩

/-- No row comes twice when no two rows yield the same row and no row is in two tables. -/
theorem nodup_tables {n : Nat} (hstart : start.Nodup) (hstep : ∀ x, (step x).Nodup)
    (hinj : ∀ m, ∀ x ∈ workingTable step start m, ∀ y ∈ workingTable step start m,
      ∀ r ∈ step x, r ∈ step y → x = y)
    (hlevel : ∀ i j r, r ∈ workingTable step start i → r ∈ workingTable step start j → i = j) :
    (tables step start n).Nodup := by
  have hnodup : ∀ m, (workingTable step start m).Nodup := by
    intro m
    induction m with
    | zero => exact hstart
    | succ m ih =>
      rw [workingTable_succ, List.nodup_flatMap]
      refine ⟨fun x _ => hstep x, ?_⟩
      refine ih.imp_of_mem ?_
      intro x y hx hy hne r hrx hry
      exact hne (hinj m x hx y hy r hrx hry)
  rw [tables, List.nodup_flatMap]
  refine ⟨fun m _ => hnodup m, ?_⟩
  refine List.nodup_range.imp ?_
  intro i j hne r hi hj
  exact hne (hlevel i j r hi hj)

end Promscale.Lib
