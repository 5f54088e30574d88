import Mathlib.Tactic

-- The steps without defined behaviour. A failed assertion is one, as it aborts.
inductive Fault
  | assertFailed
  | divideByZero
  | nullDereference
  | outOfBounds
  | signedOverflow
  | useAfterFree
  deriving DecidableEq

-- Computations that can end without a result, by their first step.
namespace Except

variable {ε : Type*} {α β : Type u} {x : Except ε α} {f : α → Except ε β}

@[simp]
theorem ok_bind : (ok a : Except ε α) >>= f = f a :=
  rfl

@[simp]
theorem error_bind : (error e : Except ε α) >>= f = error e :=
  rfl

@[simp]
theorem pure_eq_ok : (pure a : Except ε α) = ok a :=
  rfl

@[simp]
theorem bind_ok : (x >>= fun a => ok a) = x := by
  cases x <;> rfl

theorem bind_eq_ok_iff : x >>= f = ok b ↔ ∃ a, x = ok a ∧ f a = ok b := by
  cases x <;> simp

end Except
