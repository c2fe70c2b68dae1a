/-!
# Three-valued logic

Boolean expressions over atoms whose truth may be unknown, evaluated as SQL does. Two ways to
value the atoms that agree on which atoms are true need not agree on which expressions are;
they do where the atoms under an odd number of negations are false in both or in neither.
-/
namespace Promscale.Lib

inductive BoolExpr (α : Type) where
  | atom (a : α)
  | not (e : BoolExpr α)
  | and (e f : BoolExpr α)
  | or (e f : BoolExpr α)
  deriving DecidableEq, Repr

namespace Kleene

/-- `none` is unknown. -/
def not : Option Bool → Option Bool
  | some b => some (!b)
  | none => none

def and : Option Bool → Option Bool → Option Bool
  | some false, _ => some false
  | _, some false => some false
  | some true, some true => some true
  | _, _ => none

def or : Option Bool → Option Bool → Option Bool
  | some true, _ => some true
  | _, some true => some true
  | some false, some false => some false
  | _, _ => none

theorem not_eq_some_iff (x : Option Bool) (b : Bool) : not x = some b ↔ x = some (!b) := by
  rcases x with _ | _ | _ <;> cases b <;> simp [not]

theorem and_eq_true_iff (x y : Option Bool) : and x y = some true ↔ x = some true ∧ y = some true := by
  rcases x with _ | _ | _ <;> rcases y with _ | _ | _ <;> simp [and]

theorem and_eq_false_iff (x y : Option Bool) :
    and x y = some false ↔ x = some false ∨ y = some false := by
  rcases x with _ | _ | _ <;> rcases y with _ | _ | _ <;> simp [and]

theorem or_eq_true_iff (x y : Option Bool) : or x y = some true ↔ x = some true ∨ y = some true := by
  rcases x with _ | _ | _ <;> rcases y with _ | _ | _ <;> simp [or]

theorem or_eq_false_iff (x y : Option Bool) :
    or x y = some false ↔ x = some false ∧ y = some false := by
  rcases x with _ | _ | _ <;> rcases y with _ | _ | _ <;> simp [or]

end Kleene

namespace BoolExpr

variable {α : Type}

def eval (v : α → Option Bool) : BoolExpr α → Option Bool
  | atom a => v a
  | not e => Kleene.not (e.eval v)
  | and e f => Kleene.and (e.eval v) (f.eval v)
  | or e f => Kleene.or (e.eval v) (f.eval v)

def map {β : Type} (f : α → β) : BoolExpr α → BoolExpr β
  | atom a => atom (f a)
  | not e => not (e.map f)
  | and e g => and (e.map f) (g.map f)
  | or e g => or (e.map f) (g.map f)

theorem eval_map {β : Type} (f : α → β) (v : β → Option Bool) (e : BoolExpr α) :
    (e.map f).eval v = e.eval fun a => v (f a) := by
  induction e with
  | atom a => rfl
  | not e ih => rw [map, eval, eval, ih]
  | and e g ihe ihg => rw [map, eval, eval, ihe, ihg]
  | or e g ihe ihg => rw [map, eval, eval, ihe, ihg]

/-- The atom occurs under an even number of negations, or, for `false`, under an odd one. -/
def Occurs (even : Bool) (a : α) : BoolExpr α → Prop
  | atom b => even = true ∧ a = b
  | not e => e.Occurs (!even) a
  | and e f => e.Occurs even a ∨ f.Occurs even a
  | or e f => e.Occurs even a ∨ f.Occurs even a

/-- An expression is `b` in both or in neither valuation when its atoms are: `b` at even
occurrences, the opposite at odd ones. -/
theorem eval_eq_some_congr {v w : α → Option Bool} (e : BoolExpr α) (b : Bool)
    (heven : ∀ a, e.Occurs true a → (v a = some b ↔ w a = some b))
    (hodd : ∀ a, e.Occurs false a → (v a = some (!b) ↔ w a = some (!b))) :
    e.eval v = some b ↔ e.eval w = some b := by
  induction e generalizing b with
  | atom a => exact heven a ⟨rfl, rfl⟩
  | not e ih =>
    rw [eval, eval, Kleene.not_eq_some_iff, Kleene.not_eq_some_iff]
    refine ih (!b) hodd fun a ha => ?_
    rw [Bool.not_not]
    exact heven a ha
  | and e f ihe ihf =>
    have he := ihe b (fun a ha => heven a (.inl ha)) fun a ha => hodd a (.inl ha)
    have hf := ihf b (fun a ha => heven a (.inr ha)) fun a ha => hodd a (.inr ha)
    cases b with
    | true => rw [eval, eval, Kleene.and_eq_true_iff, Kleene.and_eq_true_iff, he, hf]
    | false => rw [eval, eval, Kleene.and_eq_false_iff, Kleene.and_eq_false_iff, he, hf]
  | or e f ihe ihf =>
    have he := ihe b (fun a ha => heven a (.inl ha)) fun a ha => hodd a (.inl ha)
    have hf := ihf b (fun a ha => heven a (.inr ha)) fun a ha => hodd a (.inr ha)
    cases b with
    | true => rw [eval, eval, Kleene.or_eq_true_iff, Kleene.or_eq_true_iff, he, hf]
    | false => rw [eval, eval, Kleene.or_eq_false_iff, Kleene.or_eq_false_iff, he, hf]

end BoolExpr

end Promscale.Lib
