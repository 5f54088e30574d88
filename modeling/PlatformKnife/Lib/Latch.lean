import Mathlib.Tactic.Tauto

-- A flag of a machine, by the events that set it and that clear it.
namespace Latch

variable {σ ε : Type*} (step : σ → ε → σ) (set clear : σ → ε → Prop)

-- None of the events clears the flag.
def Kept : σ → List ε → Prop
  | _, [] => True
  | s, e :: es => ¬clear s e ∧ Kept (step s e) es

variable {step set clear}

section Run

variable (flag : σ → Prop) (h : ∀ s e, flag (step s e) ↔ set s e ∨ flag s ∧ ¬clear s e) (s : σ)

include h

end Run

end Latch
