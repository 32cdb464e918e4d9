/-!
# Fields

- `fields`: a text cut at every occurrence of a separator.
-/
namespace Offside.Text

set_option autoImplicit false

/-- The stretches of a text between the occurrences of a separator, one more than there are
occurrences. -/
def fields (separator : Char) : List Char → List (List Char)
  | [] => [[]]
  | c :: rest =>
    if c = separator then [] :: fields separator rest
    else match fields separator rest with
      | [] => [[c]]
      | field :: more => (c :: field) :: more

theorem separator_notMem_fields (separator : Char) (cs : List Char) :
    ∀ field ∈ fields separator cs, separator ∉ field := by
  induction cs with
  | nil => simp [fields]
  | cons c rest ih =>
    unfold fields
    split
    · intro field h
      rcases List.mem_cons.mp h with rfl | h
      · simp
      · exact ih field h
    · rename_i hc
      split
      · intro field h
        rw [List.mem_singleton.mp h]
        simp [Ne.symm hc]
      · rename_i first more he
        intro field h
        rcases List.mem_cons.mp h with rfl | h
        · have : separator ∉ first := ih first (he ▸ List.mem_cons_self)
          simp [Ne.symm hc, this]
        · exact ih field (he ▸ List.mem_cons_of_mem first h)

end Offside.Text
