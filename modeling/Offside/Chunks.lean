/-!
# Cutting a list into chunks

A list is read from the left; each chunk is decided by its first element and what follows.

- `chunks`: the chunks of a list.
- `chunks_skip`: skipping elements is dropping them.
- `chunks_induction`: a list is read chunk by chunk.
-/
namespace Offside

set_option autoImplicit false

variable {α β : Type}

/-- The chunks of a list after its first `skip` elements. Where a chunk starts at `a`, before
`rest`, the step answers the chunk and how many elements of `rest` belong to it. -/
def chunks (step : α → List α → β × Nat) : Nat → List α → List β
  | _, [] => []
  | 0, a :: rest => (step a rest).1 :: chunks step (step a rest).2 rest
  | skip + 1, _ :: rest => chunks step skip rest

variable (step : α → List α → β × Nat)

@[simp] theorem chunks_nil (skip : Nat) : chunks step skip [] = [] := by
  cases skip <;> rfl

theorem chunks_skip (skip : Nat) (l : List α) :
    chunks step skip l = chunks step 0 (l.drop skip) := by
  induction l generalizing skip with
  | nil => simp
  | cons a rest ih =>
    cases skip with
    | zero => rfl
    | succ skip => simpa [chunks] using ih skip

theorem chunks_cons (a : α) (rest : List α) :
    chunks step 0 (a :: rest) =
      (step a rest).1 :: chunks step 0 (rest.drop (step a rest).2) := by
  rw [chunks, chunks_skip]

/-- What holds of the empty list, and of a list when it holds behind its first chunk, holds of
every list. -/
theorem chunks_induction {motive : List α → Prop} (nil : motive [])
    (chunk : ∀ a rest, motive (rest.drop (step a rest).2) → motive (a :: rest)) (l : List α) :
    motive l := by
  -- A chunk takes at least the first element, so the induction is on a bound of the length.
  suffices h : ∀ n, ∀ l : List α, l.length ≤ n → motive l from h l.length l (Nat.le_refl _)
  intro n
  induction n with
  | zero =>
    intro l hl
    obtain rfl : l = [] := List.length_eq_zero_iff.mp (by omega)
    exact nil
  | succ n ih =>
    intro l hl
    cases l with
    | nil => exact nil
    | cons a rest =>
      refine chunk a rest (ih _ ?_)
      rw [List.length_drop]
      simp only [List.length_cons] at hl
      omega

end Offside
