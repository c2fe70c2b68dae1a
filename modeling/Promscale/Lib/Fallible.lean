import Mathlib.Data.List.Forall2

/-!
# Steps that may fail

What is known of the steps when a chain of them returns, and when it fails.
-/
namespace Promscale.Lib

variable {σ ε α β : Type}

theorem bind_eq_ok {x : Except ε α} {f : α → Except ε β} {b : β} (h : (x >>= f) = .ok b) :
    ∃ a, x = .ok a ∧ f a = .ok b := by
  cases x with
  | error e => cases h
  | ok a => exact ⟨a, rfl, h⟩

theorem bind_eq_error {x : Except ε α} {f : α → Except ε β} {e : ε} (h : (x >>= f) = .error e) :
    x = .error e ∨ ∃ a, x = .ok a ∧ f a = .error e := by
  cases x with
  | error e' =>
    cases h
    exact .inl rfl
  | ok a => exact .inr ⟨a, rfl, h⟩

section Checks
variable {p : Prop} [Decidable p] {e e' : ε} {a b : α}

/-- What comes after a guard returns. -/
theorem of_guard_ok {x : Except ε α} (h : (if p then .error e else x) = .ok a) :
    ¬ p ∧ x = .ok a := by
  split at h
  · cases h
  · exact ⟨‹_›, h⟩

theorem of_check_ok (h : (if p then .ok a else .error e : Except ε α) = .ok b) : p ∧ b = a := by
  split at h
  · cases h
    exact ⟨‹_›, rfl⟩
  · cases h

theorem of_check_error (h : (if p then .ok a else .error e : Except ε α) = .error e') :
    e' = e ∧ ¬ p := by
  split at h
  · cases h
  · cases h
    exact ⟨rfl, ‹_›⟩

end Checks

theorem mapM_eq_ok {f : α → Except ε β} {l : List α} {l' : List β} (h : l.mapM f = .ok l') :
    List.Forall₂ (fun a b => f a = .ok b) l l' := by
  induction l generalizing l' with
  | nil =>
    cases h
    exact .nil
  | cons a l ih =>
    rw [List.mapM_cons] at h
    obtain ⟨b, hb, h⟩ := bind_eq_ok h
    obtain ⟨bs, hbs, h⟩ := bind_eq_ok h
    cases h
    exact .cons hb (ih hbs)

theorem mapM_eq_ok_map {f : α → Except ε β} {g : α → β} {l : List α}
    (h : ∀ a ∈ l, f a = .ok (g a)) : l.mapM f = .ok (l.map g) := by
  induction l with
  | nil => rfl
  | cons a l ih =>
    rw [List.mapM_cons, h a List.mem_cons_self, ih fun b hb => h b (List.mem_cons_of_mem _ hb)]
    rfl

/-- What each step keeps, of the state and the items gone through, holds at the end. -/
theorem foldlM_invariant {step : σ → α → Except ε σ} {inv : List α → σ → Prop}
    (hstep : ∀ done a s s', inv done s → step s a = .ok s' → inv (done ++ [a]) s')
    {items done : List α} {s s' : σ} (hinit : inv done s) (h : items.foldlM step s = .ok s') :
    inv (done ++ items) s' := by
  induction items generalizing done s with
  | nil =>
    cases h
    rwa [List.append_nil]
  | cons a items ih =>
    rw [List.foldlM_cons] at h
    obtain ⟨t, ht, h⟩ := bind_eq_ok h
    have hrest := ih (hstep done a s t hinit ht) h
    rwa [List.append_assoc] at hrest

/-- A fold that fails does so in one of its steps. -/
theorem foldlM_eq_error {step : σ → α → Except ε σ} {items : List α} {s : σ} {e : ε}
    (h : items.foldlM step s = .error e) : ∃ a ∈ items, ∃ t, step t a = .error e := by
  induction items generalizing s with
  | nil => cases h
  | cons a items ih =>
    rw [List.foldlM_cons] at h
    rcases bind_eq_error h with hfirst | ⟨t, -, hrest⟩
    · exact ⟨a, List.mem_cons_self, s, hfirst⟩
    · obtain ⟨b, hb, hfails⟩ := ih hrest
      exact ⟨b, List.mem_cons_of_mem _ hb, hfails⟩

end Promscale.Lib
