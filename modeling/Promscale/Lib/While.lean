import Mathlib.Logic.Function.Iterate
import Mathlib.Order.Nat

/-!
# While loops with fuel

A `while` loop may run forever; `whileFuel` gives it a number of rounds and returns
`none` when they do not suffice. A loop is characterised by the round in which its
condition first fails.
-/
namespace Promscale.Lib

variable {σ : Type*}

/-- `while cond s { s = body s }`, for at most `fuel` tests of the condition. -/
def whileFuel (cond : σ → Bool) (body : σ → σ) : Nat → σ → Option σ
  | 0, _ => none
  | fuel + 1, s => if cond s then whileFuel cond body fuel (body s) else some s

/-- The loop returns after `n` rounds when the condition fails there for the first time. -/
theorem whileFuel_eq_iterate {cond : σ → Bool} {body : σ → σ} {n : Nat} {s : σ}
    (hrun : ∀ i < n, cond (body^[i] s) = true) (hstop : cond (body^[n] s) = false)
    {fuel : Nat} (hfuel : n < fuel) : whileFuel cond body fuel s = some (body^[n] s) := by
  induction n generalizing s fuel with
  | zero =>
    cases fuel with
    | zero => omega
    | succ fuel =>
      have h : cond s = false := hstop
      simp [whileFuel, h]
  | succ n ih =>
    cases fuel with
    | zero => omega
    | succ fuel =>
      have h0 : cond s = true := hrun 0 (Nat.succ_pos n)
      rw [whileFuel, if_pos h0]
      exact ih (fun i hi => hrun (i + 1) (by omega)) hstop (by omega)

/-- A loop whose condition fails at some round returns at the first such round. -/
theorem whileFuel_terminates {cond : σ → Bool} {body : σ → σ} {s : σ}
    (h : ∃ n, cond (body^[n] s) = false) :
    ∃ n, (∀ i < n, cond (body^[i] s) = true) ∧ cond (body^[n] s) = false ∧
      ∀ fuel, n < fuel → whileFuel cond body fuel s = some (body^[n] s) := by
  classical
  have hrun : ∀ i < Nat.find h, cond (body^[i] s) = true :=
    fun i hi => by simpa using Nat.find_min h hi
  exact ⟨Nat.find h, hrun, Nat.find_spec h,
    fun fuel hfuel => whileFuel_eq_iterate hrun (Nat.find_spec h) hfuel⟩

/-- More rounds than suffice change nothing. -/
theorem whileFuel_mono {cond : σ → Bool} {body : σ → σ} {fuel fuel' : Nat} {s s' : σ}
    (h : whileFuel cond body fuel s = some s') (hle : fuel ≤ fuel') :
    whileFuel cond body fuel' s = some s' := by
  induction fuel generalizing s fuel' with
  | zero => cases h
  | succ fuel ih =>
    cases fuel' with
    | zero => omega
    | succ fuel' =>
      unfold whileFuel at h ⊢
      split
      · rename_i hcond
        rw [if_pos hcond] at h
        exact ih h (by omega)
      · rename_i hcond
        rwa [if_neg hcond] at h

/-- A loop whose condition never fails does not return. -/
theorem whileFuel_eq_none {cond : σ → Bool} {body : σ → σ} {s : σ}
    (h : ∀ n, cond (body^[n] s) = true) (fuel : Nat) : whileFuel cond body fuel s = none := by
  induction fuel generalizing s with
  | zero => rfl
  | succ fuel ih =>
    have hcond : cond s = true := h 0
    rw [whileFuel, if_pos hcond]
    exact ih fun n => h (n + 1)

/-- A state in which the loop runs its body, whether or not it ever returns. -/
def RunsBody (cond : σ → Bool) (body : σ → σ) (s s' : σ) : Prop :=
  ∃ n, (∀ i ≤ n, cond (body^[i] s) = true) ∧ body^[n] s = s'

/-! ## Computations with fuel -/

section Yields
variable {α β γ : Type*} {run : Nat → Option α}

/-- With enough fuel the computation has the value. -/
def Yields (run : Nat → Option α) (a : α) : Prop := ∃ n, ∀ fuel, n < fuel → run fuel = some a

def Halts (run : Nat → Option α) : Prop := ∃ a, Yields run a

theorem Yields.unique {a a' : α} (h : Yields run a) (h' : Yields run a') : a = a' := by
  obtain ⟨n, hn⟩ := h
  obtain ⟨n', hn'⟩ := h'
  have heq := (hn (max n n' + 1) (by omega)).symm.trans (hn' (max n n' + 1) (by omega))
  exact Option.some.inj heq

theorem Yields.const (a : α) : Yields (fun _ => some a) a := ⟨0, fun _ _ => rfl⟩

/-- What is computed from a value is yielded where the value is. -/
theorem Yields.of_eq {run' : Nat → Option β} {a : α} {b : β} (h : Yields run a)
    (heq : ∀ fuel, run fuel = some a → run' fuel = some b) : Yields run' b := by
  obtain ⟨n, hn⟩ := h
  exact ⟨n, fun fuel hfuel => heq fuel (hn fuel hfuel)⟩

theorem Yields.of_eq_of_eq {run' : Nat → Option β} {run'' : Nat → Option γ} {a : α} {b : β} {c : γ}
    (h : Yields run a) (h' : Yields run' b)
    (heq : ∀ fuel, run fuel = some a → run' fuel = some b → run'' fuel = some c) :
    Yields run'' c := by
  obtain ⟨n, hn⟩ := h
  obtain ⟨m, hm⟩ := h'
  exact ⟨max n m, fun fuel hfuel => heq fuel (hn fuel (by omega)) (hm fuel (by omega))⟩

theorem not_halts_of_none (h : ∀ fuel, run fuel = none) : ¬ Halts run := by
  rintro ⟨a, n, hn⟩
  have hsome := hn (n + 1) (Nat.lt_succ_self n)
  rw [h] at hsome
  cases hsome

end Yields

end Promscale.Lib
