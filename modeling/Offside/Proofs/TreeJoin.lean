import Offside.Proofs.TwinTrees

/-!
# Trees of joined texts

Behind tokens whose brackets match stand more tokens. The trees of the one stand before the trees of
the other, unless a repetition begins in the first and reaches into the second.

- `DollarFree`: trees among which no repetition begins.
- `gather_append`: repetitions are gathered behind such trees as if these were not there.
- `assemble_joined`: the trees of two lists of tokens, one behind the other.
-/
namespace Offside

set_option autoImplicit false

/-! ## Repetitions behind other trees -/

/-- No tree of a list is a dollar sign. -/
def DollarFree (trees : List Tree) : Prop :=
  ∀ token, Tree.leaf token ∈ trees → token.isDollar = false

theorem dollarFree_append {l r : List Tree} :
    DollarFree (l ++ r) ↔ DollarFree l ∧ DollarFree r := by
  constructor
  · intro h
    exact ⟨fun t ht => h t (List.mem_append_left r ht), fun t ht => h t (List.mem_append_right l ht)⟩
  · rintro ⟨hl, hr⟩ token ht
    rcases List.mem_append.mp ht with ht | ht
    · exact hl token ht
    · exact hr token ht

theorem gatherStep_of_dollarFree {first : Tree} (h : DollarFree [first]) (rest : List Tree) :
    Tree.gatherStep first rest = (first, 0) := by
  have hnone : Tree.repetition? first rest = none := by
    refine Option.eq_none_iff_forall_ne_some.mpr fun ⟨found, taken⟩ hr => ?_
    cases repetition?_eq_some_iff.mp hr with
    | @plain dollar _ hd => simp [h dollar List.mem_cons_self] at hd
    | @parted dollar _ _ hd => simp [h dollar List.mem_cons_self] at hd
  rw [Tree.gatherStep, hnone]
  rfl

/-- Behind trees in which no repetition begins the others are gathered as if they stood alone. -/
theorem gather_append {l : List Tree} (h : DollarFree l) (r : List Tree) :
    Tree.gather (l ++ r) = l ++ Tree.gather r := by
  induction l with
  | nil => rfl
  | cons first l ih =>
    obtain ⟨hfirst, hrest⟩ : DollarFree [first] ∧ DollarFree l := dollarFree_append.mp h
    rw [List.cons_append, Tree.gather_cons, gatherStep_of_dollarFree hfirst]
    exact congrArg (first :: ·) (ih hrest)

theorem gather_of_dollarFree {trees : List Tree} (h : DollarFree trees) :
    Tree.gather trees = trees := by
  simpa using gather_append h []

/-! ## Tokens behind others -/

theorem Nests.dollarFree {trees : List Tree} {tokens : List Token} (h : Nests trees tokens)
    (hd : ∀ token ∈ tokens, token.isDollar = false) : DollarFree trees := by
  intro token ht
  induction h with
  | nil => simp at ht
  | @leaf token' trees tokens _ _ ih =>
    rcases List.mem_cons.mp ht with heq | ht
    · rw [Tree.leaf.inj heq]
      exact hd token' List.mem_cons_self
    · exact ih (fun t hm => hd t (List.mem_cons_of_mem token' hm)) ht
  | @group d o c inner trees inside tokens _ _ _ ih =>
    have ht : Tree.leaf token ∈ trees := by simpa using ht
    exact ih (fun t hm => hd t (by simp [hm])) ht

/-- The trees of tokens and of others behind them stand one behind the other. -/
theorem assemble_joined {tokens more : List Token} {last last' : Token}
    (hs : ∀ token ∈ tokens, token.IsMarked ∧ token.isDollar = false)
    (hs' : ∀ token ∈ more, token.IsMarked) (hl : last.kind = .endOfText)
    (hl' : last'.kind = .endOfText) (hno : (assemble [] [] (tokens ++ [last])).faults = [])
    (hno' : (assemble [] [] (more ++ [last'])).faults = []) :
    assemble [] [] (tokens ++ (more ++ [last'])) =
      ⟨[], (assemble [] [] (tokens ++ [last])).trees ++
        (assemble [] [] (more ++ [last'])).trees⟩ := by
  obtain ⟨trees, h⟩ := exists_nests (fun token ht => (hs token ht).1) hl hno
  obtain ⟨others, h'⟩ := exists_nests hs' hl' hno'
  have hfree := h.dollarFree fun token ht => (hs token ht).2
  rw [← List.append_assoc, (h.append h').assemble_eq_gather hl', h.assemble_eq_gather hl,
    h'.assemble_eq_gather hl', gather_append hfree, gather_of_dollarFree hfree]

/-! ## The same tokens elsewhere -/

/-- Tokens without faults are assembled into twins where the same words stand elsewhere. -/
theorem twins_assemble_map (elsewhere : Token → Token)
    (he : ∀ token, (elsewhere token).word = token.word) {tokens : List Token} {last last' : Token}
    (hs : ∀ token ∈ tokens, token.IsSpelled) (hl : last.kind = .endOfText)
    (hl' : last'.kind = .endOfText) (hno : (assemble [] [] (tokens ++ [last])).faults = []) :
    (assemble [] [] (tokens.map elsewhere ++ [last'])).faults = [] ∧
      Twins (assemble [] [] (tokens ++ [last])).trees
        (assemble [] [] (tokens.map elsewhere ++ [last'])).trees
        (tokens.map fun token => (token, elsewhere token)) := by
  have hpairs (p : Pair) (hp : p ∈ tokens.map fun token => (token, elsewhere token)) :
      p.1.word = p.2.word ∧ p.1.IsSpelled := by
    obtain ⟨token, ht, rfl⟩ := List.mem_map.mp hp
    exact ⟨(he token).symm, hs token ht⟩
  obtain ⟨hfaults, htwins⟩ := twins_assemble (fun p hp => ⟨hp, hpairs p hp⟩) hl hl' .nil .nil
  simp only [List.map_map, Function.comp_def, List.map_id'] at hfaults htwins
  rw [hno] at hfaults
  exact ⟨List.forall₂_nil_left_iff.mp hfaults, by simpa using htwins hno⟩

theorem Source.trees_eq_ok_iff (source : Source) (trees : List Tree) :
    source.trees = .ok trees ↔ ∃ tokens, source.tokens = .ok tokens ∧
      (assemble [] [] tokens).faults = [] ∧ (assemble [] [] tokens).trees = trees := by
  unfold Source.trees Source.treesOf
  cases source.tokens with
  | error diagnostics => simp
  | ok tokens => cases hf : (assemble [] [] tokens).faults <;> simp [hf]

end Offside
