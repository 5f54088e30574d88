import Mathlib.Tactic

-- Computations on a state that can fail. What was done to the state stays done.
def Fallible (σ α : Type) :=
  σ → Option α × σ

namespace Fallible

variable {σ α β : Type} {s s' : σ} {x : Fallible σ α} {f : α → Fallible σ β}

instance : Monad (Fallible σ) where
  pure a   := fun s => (some a, s)
  bind x f := fun s =>
    match x s with
    | (some a, s') => f a s'
    | (none, s') => (none, s')

def fail : Fallible σ α :=
  fun s => (none, s)

def get : Fallible σ σ :=
  fun s => (some s, s)

def modify (f : σ → σ) : Fallible σ Unit :=
  fun s => (some (), f s)

-- The computation whose failure is ignored.
def ignore (x : Fallible σ α) : Fallible σ Unit :=
  fun s => (some (), (x s).snd)

-- The computation with something to be done when it fails.
def onFail (x : Fallible σ α) (y : Fallible σ Unit) : Fallible σ α := fun s =>
  match x s with
  | (some a, s') => (some a, s')
  | (none, s') => (none, (y s').snd)

theorem pure_apply (a : α) (s : σ) : (pure a : Fallible σ α) s = (some a, s) :=
  rfl

theorem bind_apply (x : Fallible σ α) (f : α → Fallible σ β) (s : σ) :
    (x >>= f) s = match x s with
      | (some a, s') => f a s'
      | (none, s') => (none, s') :=
  rfl

@[simp]
theorem fail_apply (s : σ) : (fail : Fallible σ α) s = (none, s) :=
  rfl

@[simp]
theorem modify_apply (f : σ → σ) (s : σ) : modify f s = (some (), f s) :=
  rfl

theorem bind_of_some (h : x s = (some a, s')) : (x >>= f) s = f a s' := by
  rw [bind_apply, h]

theorem bind_of_none (h : x s = (none, s')) : (x >>= f) s = (none, s') := by
  rw [bind_apply, h]

theorem bind_pure_snd (x : Fallible σ α) (b : β) (s : σ) :
    ((x >>= fun _ => pure b) s).snd = (x s).snd := by
  rw [bind_apply]
  split
  case h_1 h => rw [h, pure_apply]
  case h_2 h => rw [h]

theorem bind_eq_some_iff :
    (x >>= f) s = (some b, s') ↔ ∃ a s₁, x s = (some a, s₁) ∧ f a s₁ = (some b, s') := by
  rw [bind_apply]
  split
  case h_1 a s₁ h => simp [h]
  case h_2 s₁ h => simp [h]

@[simp]
theorem get_bind (f : σ → Fallible σ β) (s : σ) : (get >>= f) s = f s s :=
  rfl

@[simp]
theorem modify_bind (g : σ → σ) (f : Unit → Fallible σ β) (s : σ) : (modify g >>= f) s = f () (g s) :=
  rfl

@[simp]
theorem ignore_bind (x : Fallible σ α) (f : Unit → Fallible σ β) (s : σ) :
    (ignore x >>= f) s = f () (x s).snd :=
  rfl

@[simp]
theorem pure_eq_some_iff : (pure a : Fallible σ α) s = (some b, s') ↔ a = b ∧ s = s' := by
  simp [pure_apply]

theorem onFail_eq_some_iff : onFail x y s = (some a, s') ↔ x s = (some a, s') := by
  rw [onFail]
  split
  case h_1 h => simp [h]
  case h_2 h => simp [h]

@[simp]
theorem fail_ne_some : (fail : Fallible σ α) s ≠ (some a, s') := by
  simp

section

variable {r : σ → σ → Prop}

theorem bind_snd (ht : ∀ {s₁ s₂ s₃}, r s₁ s₂ → r s₂ s₃ → r s₁ s₃)
    (hx : r s (x s).snd) (hf : ∀ a s', x s = (some a, s') → r s' (f a s').snd) :
    r s ((x >>= f) s).snd := by
  rw [bind_apply]
  split
  case h_1 a s₁ h =>
    rw [h] at hx
    exact ht hx (hf a s₁ h)
  case h_2 s₁ h =>
    rw [h] at hx
    exact hx

theorem foldlM_snd {f : β → α → Fallible σ β} (hr : ∀ s, r s s)
    (ht : ∀ {s₁ s₂ s₃}, r s₁ s₂ → r s₂ s₃ → r s₁ s₃) (hf : ∀ b a s, r s (f b a s).snd) (l : List α) :
    ∀ {b s}, r s (l.foldlM f b s).snd := by
  induction l
  case nil => exact hr _
  case cons a l hi => exact bind_snd ht (hf _ a _) fun _ _ _ => hi

theorem forM_snd {f : α → Fallible σ Unit} (hr : ∀ s, r s s)
    (ht : ∀ {s₁ s₂ s₃}, r s₁ s₂ → r s₂ s₃ → r s₁ s₃) (hf : ∀ a s, r s (f a s).snd) (l : List α) :
    ∀ {s}, r s (l.forM f s).snd := by
  induction l
  case nil => exact hr _
  case cons a l hi => exact bind_snd ht (hf a _) fun _ _ _ => hi

end

theorem foldlM_inv {q : β → σ → Prop} {f : β → α → Fallible σ β} {l : List α}
    (hf : ∀ a ∈ l, ∀ b s b' s', q b s → f b a s = (some b', s') → q b' s')
    (h : l.foldlM f b s = (some b', s')) (hb : q b s) : q b' s' := by
  induction l generalizing b s
  case nil =>
    obtain ⟨hv, hs⟩ := pure_eq_some_iff.mp h
    exact hv ▸ hs ▸ hb
  case cons a l hi =>
    obtain ⟨b₁, s₁, ha, h⟩ := bind_eq_some_iff.mp h
    exact hi (fun x hx => hf x (List.mem_cons_of_mem a hx)) h (hf a List.mem_cons_self b s b₁ s₁ hb ha)

-- A computation that never changes some part of the state, whether it fails or not.
def Keeps {γ : Type} (p : σ → γ) (x : Fallible σ α) : Prop :=
  ∀ s, p (x s).snd = p s

namespace Keeps

variable {γ : Type} {p : σ → γ}

protected theorem pure (a : α) : Keeps p (pure a : Fallible σ α) :=
  fun _ => rfl

protected theorem fail : Keeps p (fail : Fallible σ α) :=
  fun _ => rfl

protected theorem bind (hx : Keeps p x) (hf : ∀ a, Keeps p (f a)) : Keeps p (x >>= f) := by
  intro s
  rw [bind_apply, ← hx s]
  split
  case h_1 a s₁ h => rw [hf a s₁, h]
  case h_2 s₁ h => rw [h]

protected theorem ite {c : Prop} [Decidable c] {y : Fallible σ α} (hx : Keeps p x) (hy : Keeps p y) :
    Keeps p (if c then x else y) := by
  split
  case isTrue  => exact hx
  case isFalse => exact hy

end Keeps

end Fallible
