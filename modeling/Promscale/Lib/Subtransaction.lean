/-!
# Blocks with exception handlers

A statement that fails has changed the state already when it does. Nothing of that is left: the
block around it is a subtransaction, and its handler starts where the block did.
-/
namespace Promscale.Lib

variable {σ ε α : Type}

/-- What a statement returns or raises, and the state it stands in then. -/
abbrev Attempt (σ ε α : Type) := σ → Except ε α × σ

namespace Attempt

/-- `BEGIN body EXCEPTION WHEN caught THEN handler END`; an error that is not caught ends the
block where it started, too. -/
def block (body : Attempt σ ε α) (caught : ε → Bool) (handler : Attempt σ ε α) :
    Attempt σ ε α := fun s =>
  match body s with
  | (.ok a, s') => (.ok a, s')
  | (.error e, _) => if caught e then handler s else (.error e, s)

variable {body handler : Attempt σ ε α} {caught : ε → Bool} {s : σ}

theorem block_of_ok {a : α} {s' : σ} (h : body s = (.ok a, s')) :
    block body caught handler s = (.ok a, s') := by
  rw [block, h]

theorem block_of_caught {e : ε} {s' : σ} (h : body s = (.error e, s')) (hcaught : caught e = true) :
    block body caught handler s = handler s := by
  rw [block, h]
  exact if_pos hcaught

/-- A body that ends as the handler would, or raises what is caught, can be left out. -/
theorem block_eq_handler (hok : ∀ a s', body s = (.ok a, s') → handler s = (.ok a, s'))
    (herror : ∀ e s', body s = (.error e, s') → caught e = true) :
    block body caught handler s = handler s := by
  match h : body s with
  | (.ok a, s') => rw [block_of_ok h, hok a s' h]
  | (.error e, s') => exact block_of_caught h (herror e s' h)

end Attempt

end Promscale.Lib
