import Offside.Proofs.Repetitions

/-!
# What gathering does to a list

A list of tokens and groups is gathered completely: where a repetition could be made, one was
made. Nothing is lost by it but the place where the parentheses open, and gathering once more
changes nothing.

- `IsRun`: trees that are to be gathered into a repetition.
- `Quiet`: trees among which no repetition begins.
- `quiet_gather`: none begins among gathered trees.
- `Spreads`: trees in which the repetitions are spread out again.
- `gathered_gather`: what holds of every list that is gathered.
-/
namespace Offside

set_option autoImplicit false

/-- An operator that says how often. -/
def Token.SaysHowOften (token : Token) : Prop :=
  token.kind = .operator ∧ token.text ∈ [['*'], ['+'], ['?']]

/-- A dollar sign, parentheses, perhaps one token, and an operator that says how often. -/
inductive IsRun : List Tree → Prop
  | plain {dollar operator : Token} (hd : dollar.kind = .operator ∧ dollar.text = ['$'])
      (ho : operator.SaysHowOften) (opening closing : Span) (inner : List Tree) :
      IsRun [.leaf dollar, .group .paren opening closing inner, .leaf operator]
  | parted {dollar operator : Token} (hd : dollar.kind = .operator ∧ dollar.text = ['$'])
      (ho : operator.SaysHowOften) (opening closing : Span) (inner : List Tree)
      (separator : Token) :
      IsRun [.leaf dollar, .group .paren opening closing inner, .leaf separator, .leaf operator]

/-- What stands in a list before it is gathered: a token, which has a text if it is an operator,
or a group. -/
def Tree.IsLoose : Tree → Prop
  | leaf token => token.kind = .operator → token.text ≠ []
  | group _ _ _ _ => True
  | repetition _ _ _ _ _ => False

/-! ## Where no repetition begins -/

/-- Trees among which no repetition begins. -/
inductive Quiet : List Tree → Prop
  | nil : Quiet []
  | cons {first : Tree} {rest : List Tree} (hr : Tree.repetition? first rest = none)
      (h : Quiet rest) : Quiet (first :: rest)

namespace Quiet

theorem gather_eq {trees : List Tree} (h : Quiet trees) : Tree.gather trees = trees := by
  induction h with
  | nil => rfl
  | cons hr _ ih =>
    rw [Tree.gather_cons, Tree.gatherStep, hr]
    exact congrArg (_ :: ·) ih

theorem of_append {l r : List Tree} (h : Quiet (l ++ r)) : Quiet r := by
  induction l with
  | nil => exact h
  | cons first l ih =>
    cases h with
    | cons _ h => exact ih h

end Quiet

/-- A repetition begins where a run stands. -/
theorem IsRun.exists_repetition {run : List Tree} (h : IsRun run) (behind : List Tree) :
    ∃ first rest, run ++ behind = first :: rest ∧ (Tree.repetition? first rest).isSome = true := by
  have hdollar {dollar : Token} (hd : dollar.kind = .operator ∧ dollar.text = ['$']) :
      dollar.isDollar = true := by
    simp [Token.isDollar, hd.1, hd.2]
  cases h with
  | plain hd ho o c inner =>
    refine ⟨_, _, rfl, repetition?_isSome_iff.mpr ⟨hdollar hd, o, c, inner, _, rfl, ?_⟩⟩
    exact .plain (Token.isRepeat_iff.mpr ho) behind
  | parted hd ho o c inner separator =>
    refine ⟨_, _, rfl, repetition?_isSome_iff.mpr ⟨hdollar hd, o, c, inner, _, rfl, ?_⟩⟩
    exact .parted separator (Token.isRepeat_iff.mpr ho) behind

theorem Quiet.not_isRun {trees run : List Tree} (h : Quiet trees) (hin : run <:+: trees) :
    ¬ IsRun run := by
  intro hrun
  obtain ⟨before, behind, rfl⟩ := hin
  rw [List.append_assoc] at h
  have hquiet := h.of_append
  obtain ⟨first, rest, hsplit, hsome⟩ := hrun.exists_repetition behind
  rw [hsplit] at hquiet
  cases hquiet with
  | cons hr _ =>
    rw [hr] at hsome
    cases hsome

/-! ## Gathered trees -/

/-- What is gathered in front is a repetition, or the tree that stood there. -/
theorem gatherStep_cases (first : Tree) (rest : List Tree) :
    (∃ found taken, Repeating first rest found taken ∧
      Tree.gatherStep first rest = (found, taken)) ∨
    (Tree.repetition? first rest = none ∧ Tree.gatherStep first rest = (first, 0)) := by
  unfold Tree.gatherStep
  cases hr : Tree.repetition? first rest with
  | none => exact .inr ⟨rfl, rfl⟩
  | some pair => exact .inl ⟨pair.1, pair.2, repetition?_eq_some_iff.mp hr, rfl⟩

/-- A tree in front of gathered trees that is no repetition stood in front before. -/
theorem exists_of_gather_eq_cons {trees behind : List Tree} {tree : Tree}
    (h : Tree.gather trees = tree :: behind)
    (hne : ∀ dollar closing inner separator operator,
      tree ≠ .repetition dollar closing inner separator operator) :
    ∃ rest, trees = tree :: rest ∧ Tree.gather rest = behind := by
  cases trees with
  | nil => cases h
  | cons first rest =>
    rw [Tree.gather_cons] at h
    obtain ⟨hfirst, hbehind⟩ := List.cons.inj h
    obtain ⟨found, taken, hrepeating, hstep⟩ | ⟨-, hstep⟩ := gatherStep_cases first rest
    · obtain ⟨dollar, closing, inner, separator, operator, hfound⟩ :=
        exists_of_repetition? (repetition?_eq_some_iff.mpr hrepeating)
      rw [hstep] at hfirst
      exact absurd (hfirst.symm.trans hfound) (hne _ _ _ _ _)
    · rw [hstep] at hfirst hbehind
      exact ⟨rest, by rw [← hfirst], hbehind⟩

theorem exists_of_gather_eq_leaf {trees behind : List Tree} {token : Token}
    (h : Tree.gather trees = .leaf token :: behind) :
    ∃ rest, trees = .leaf token :: rest ∧ Tree.gather rest = behind :=
  exists_of_gather_eq_cons h fun _ _ _ _ _ => nofun

theorem exists_of_gather_eq_group {trees behind inner : List Tree} {d : Delimiter} {o c : Span}
    (h : Tree.gather trees = .group d o c inner :: behind) :
    ∃ rest, trees = .group d o c inner :: rest ∧ Tree.gather rest = behind :=
  exists_of_gather_eq_cons h fun _ _ _ _ _ => nofun

/-- What makes a repetition behind gathered trees did so before. -/
theorem Repeats.of_gather {trees : List Tree} (h : Repeats (Tree.gather trees)) :
    Repeats trees := by
  generalize hgathered : Tree.gather trees = gathered at h
  cases h with
  | plain ho behind =>
    obtain ⟨rest, rfl, -⟩ := exists_of_gather_eq_leaf hgathered
    exact .plain ho rest
  | parted separator ho behind =>
    obtain ⟨rest, rfl, hrest⟩ := exists_of_gather_eq_leaf hgathered
    obtain ⟨last, rfl, -⟩ := exists_of_gather_eq_leaf hrest
    exact .parted separator ho last

/-- Where no repetition begins at a tree, none begins there when the trees behind are gathered. -/
theorem repetition?_gather {first : Tree} {rest : List Tree}
    (h : Tree.repetition? first rest = none) :
    Tree.repetition? first (Tree.gather rest) = none := by
  cases first with
  | group => rfl
  | repetition => rfl
  | leaf token =>
    rw [← Option.not_isSome_iff_eq_none, repetition?_isSome_iff] at h ⊢
    rintro ⟨hdollar, o, c, inner, behind, hgathered, hbehind⟩
    obtain ⟨more, rfl, rfl⟩ := exists_of_gather_eq_group hgathered
    exact h ⟨hdollar, o, c, inner, more, rfl, hbehind.of_gather⟩

/-- No repetition begins among gathered trees. -/
theorem quiet_gather (trees : List Tree) : Quiet (Tree.gather trees) := by
  induction trees using Tree.gather_induction with
  | nil => exact .nil
  | step first rest ih =>
    rw [Tree.gather_cons]
    obtain ⟨found, taken, hrepeating, hstep⟩ | ⟨hr, hstep⟩ := gatherStep_cases first rest
    · obtain ⟨dollar, closing, inner, separator, operator, rfl⟩ :=
        exists_of_repetition? (repetition?_eq_some_iff.mpr hrepeating)
      rw [hstep] at ih ⊢
      exact .cons rfl ih
    · rw [hstep] at ih ⊢
      exact .cons (repetition?_gather hr) ih

/-! ## Spreading repetitions out -/

/-- Trees in which every repetition is spread out into its dollar sign, parentheses around its
content, its separator if it has one, and its operator. Where the parentheses open is not told. -/
inductive Spreads : List Tree → List Tree → Prop
  | nil : Spreads [] []
  | leaf (token : Token) {gathered trees : List Tree} (h : Spreads gathered trees) :
      Spreads (.leaf token :: gathered) (.leaf token :: trees)
  | group (delimiter : Delimiter) (opening closing : Span) (inner : List Tree)
      {gathered trees : List Tree} (h : Spreads gathered trees) :
      Spreads (.group delimiter opening closing inner :: gathered)
        (.group delimiter opening closing inner :: trees)
  | repetition (dollar opening closing : Span) (inner : List Tree) (separator : Option Token)
      (operator : Token) {gathered trees : List Tree} (h : Spreads gathered trees) :
      Spreads (.repetition dollar closing inner separator operator :: gathered)
        (.leaf ⟨.operator, ['$'], dollar⟩ :: .group .paren opening closing inner ::
          (separator.toList.map .leaf ++ .leaf operator :: trees))

theorem Token.eq_dollar {token : Token} (hd : token.isDollar = true)
    (hl : (Tree.leaf token).IsLoose) : token = ⟨.operator, ['$'], token.span⟩ := by
  obtain ⟨hkind, htext⟩ := eq_of_isDollar hd hl
  obtain ⟨kind, text, span⟩ := token
  obtain rfl : kind = .operator := hkind
  obtain rfl : text = ['$'] := htext
  rfl

/-- What is gathered of tokens and groups spreads out into these. -/
theorem spreads_gather {trees : List Tree} (h : ∀ tree ∈ trees, tree.IsLoose) :
    Spreads (Tree.gather trees) trees := by
  induction trees using Tree.gather_induction with
  | nil => exact .nil
  | step first rest ih =>
    obtain ⟨hfirst, hrest⟩ := List.forall_mem_cons.mp h
    have hbehind := ih fun tree ht => hrest tree (List.mem_of_mem_drop ht)
    rw [Tree.gather_cons]
    obtain ⟨found, taken, hrepeating, hstep⟩ | ⟨-, hstep⟩ := gatherStep_cases first rest
    · rw [hstep] at hbehind ⊢
      cases hrepeating with
      | @plain dollar operator hd ho o c inner behind =>
        have hspreads := Spreads.repetition dollar.span o c inner none operator hbehind
        rwa [← Token.eq_dollar hd hfirst] at hspreads
      | @parted dollar separator operator hd hs ho o c inner behind =>
        have hspreads := Spreads.repetition dollar.span o c inner (some separator) operator hbehind
        rwa [← Token.eq_dollar hd hfirst] at hspreads
    · rw [hstep] at hbehind ⊢
      cases first with
      | leaf token => exact .leaf token hbehind
      | group d o c inner => exact .group d o c inner hbehind
      | repetition => exact hfirst.elim

/-- A repetition that is made ends with an operator that says how often, and none stands before
that one as its separator. -/
theorem operators_of_mem_gather {trees inner : List Tree} (h : ∀ tree ∈ trees, tree.IsLoose)
    {dollar closing : Span} {separator : Option Token} {operator : Token}
    (hm : .repetition dollar closing inner separator operator ∈ Tree.gather trees) :
    operator.SaysHowOften ∧ ∀ token ∈ separator, ¬ token.SaysHowOften := by
  induction trees using Tree.gather_induction with
  | nil => cases hm
  | step first rest ih =>
    obtain ⟨hfirst, hrest⟩ := List.forall_mem_cons.mp h
    rw [Tree.gather_cons] at hm
    rcases List.mem_cons.mp hm with hfound | hm
    · obtain ⟨found, taken, hrepeating, hstep⟩ | ⟨-, hstep⟩ := gatherStep_cases first rest
      · rw [hstep] at hfound
        obtain rfl : _ = found := hfound
        cases hrepeating with
        | plain _ ho => exact ⟨Token.isRepeat_iff.mp ho, nofun⟩
        | parted _ hs ho =>
          refine ⟨Token.isRepeat_iff.mp ho, ?_⟩
          intro token htoken hoften
          obtain rfl := Option.some.inj htoken
          have hrepeat := Token.isRepeat_iff.mpr hoften
          rw [hs] at hrepeat
          cases hrepeat
      · rw [hstep] at hfound
        obtain rfl : _ = first := hfound
        exact hfirst.elim
    · exact ih (fun tree ht => hrest tree (List.mem_of_mem_drop ht)) hm

/-! ## The result of gathering -/

/-- What gathering makes of a list. -/
structure Gathered (trees gathered : List Tree) : Prop where
  /-- No run is left. -/
  complete : ∀ run, run <:+: gathered → ¬ IsRun run
  /-- Spreading the repetitions out gives the list back. -/
  spreads : Spreads gathered trees
  /-- Every repetition comes from a run. -/
  sound : ∀ dollar closing inner separator operator,
    .repetition dollar closing inner separator operator ∈ gathered → operator.SaysHowOften
  /-- Where the token behind the parentheses says how often, it is not taken for a separator. -/
  shortest : ∀ dollar closing inner separator operator,
    .repetition dollar closing inner (some separator) operator ∈ gathered →
      ¬ separator.SaysHowOften
  /-- Gathering once more changes nothing. -/
  stable : Tree.gather gathered = gathered

/-- A list of tokens and groups is gathered completely, without loss, with the shorter form where
both fit, and once for all. -/
theorem gathered_gather {trees : List Tree} (h : ∀ tree ∈ trees, tree.IsLoose) :
    Gathered trees (Tree.gather trees) := by
  have hquiet := quiet_gather trees
  constructor
  case complete =>
    intro run hin
    exact hquiet.not_isRun hin
  case spreads => exact spreads_gather h
  case sound =>
    intro dollar closing inner separator operator hm
    exact (operators_of_mem_gather h hm).1
  case shortest =>
    intro dollar closing inner separator operator hm
    exact (operators_of_mem_gather h hm).2 separator rfl
  case stable => exact hquiet.gather_eq

/-- A dollar sign, parentheses and two operators, where both forms fit, and then a dollar sign,
parentheses, a second dollar sign as the separator, and an operator. -/
def twoRuns : List Tree :=
  let operator (c : Char) (lo : Int) := Tree.leaf ⟨.operator, [c], ⟨lo, lo + 1⟩⟩
  let group (lo : Int) := Tree.group .paren ⟨lo, lo + 1⟩ ⟨lo + 1, lo + 2⟩ []
  [operator '$' 0, group 1, operator '+' 3, operator '*' 4, operator '$' 5, group 6,
    operator '$' 8, operator '?' 9]

theorem gathered_twoRuns :
    (∀ tree ∈ twoRuns, tree.IsLoose) ∧
      Tree.gather twoRuns =
        [.repetition ⟨0, 1⟩ ⟨2, 3⟩ [] none ⟨.operator, ['+'], ⟨3, 4⟩⟩,
          .leaf ⟨.operator, ['*'], ⟨4, 5⟩⟩,
          .repetition ⟨5, 6⟩ ⟨7, 8⟩ [] (some ⟨.operator, ['$'], ⟨8, 9⟩⟩)
            ⟨.operator, ['?'], ⟨9, 10⟩⟩] ∧
      Gathered twoRuns (Tree.gather twoRuns) := by
  have hloose : ∀ tree ∈ twoRuns, tree.IsLoose := by
    simp [twoRuns, Tree.IsLoose]
  exact ⟨hloose, rfl, gathered_gather hloose⟩

end Offside
