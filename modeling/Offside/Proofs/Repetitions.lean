import Mathlib.Data.List.Infix
import Offside.Proofs.Balance
import Offside.Proofs.Weaving

/-!
# Repetitions

A macro repetition is gathered from a dollar sign, the parentheses behind it, perhaps one more tree,
and an operator. Whether a list of trees, at any depth, holds one can be told from the tokens.

- `RepetitionFree`, `Settled`: trees without repetitions, and trees in which none begins.
- `Spells.nests`: settled trees nest in the tokens that spell them.
- `height`: how many brackets a word opens and does not close.
- `IsRepetition`, `HoldsRepetition`: the tokens of a repetition, and tokens that hold one.
- `Nests.repetitionFree_iff`: the gathered trees have one where the tokens hold one.
-/
namespace Offside

set_option autoImplicit false

open Layout (openingToken closingToken)

/-! ## Where a repetition begins -/

/-- Trees that make a repetition of a dollar sign and parentheses before them. -/
inductive Repeats : List Tree → Prop
  | plain {operator : Token} (ho : operator.isRepeat = true) (trees : List Tree) :
      Repeats (.leaf operator :: trees)
  | parted (separator : Token) {operator : Token} (ho : operator.isRepeat = true)
      (trees : List Tree) : Repeats (.leaf separator :: .leaf operator :: trees)

theorem Repeats.append {l : List Tree} (h : Repeats l) (r : List Tree) : Repeats (l ++ r) := by
  cases h with
  | plain ho trees => exact .plain ho _
  | parted separator ho trees => exact .parted separator ho _

theorem repetition?_isSome_iff {token : Token} {trees : List Tree} :
    (Tree.repetition? (.leaf token) trees).isSome = true ↔ token.isDollar = true ∧
      ∃ o c inner rest, trees = .group .paren o c inner :: rest ∧ Repeats rest := by
  constructor
  · intro h
    obtain ⟨⟨found, taken⟩, h⟩ := Option.isSome_iff_exists.mp h
    cases repetition?_eq_some_iff.mp h with
    | plain hd ho o c inner behind => exact ⟨hd, o, c, inner, _, rfl, .plain ho behind⟩
    | parted hd _ ho o c inner behind => exact ⟨hd, o, c, inner, _, rfl, .parted _ ho behind⟩
  · rintro ⟨hdollar, o, c, inner, rest, rfl, hrest⟩
    cases hrest with
    | plain ho trees => simp [Tree.repetition?, hdollar, ho]
    | parted separator ho trees =>
      by_cases hs : separator.isRepeat = true
      · simp [Tree.repetition?, hdollar, hs]
      · simp [Tree.repetition?, hdollar, hs, ho]

theorem exists_of_repetition? {first found : Tree} {rest : List Tree} {taken : Nat}
    (h : Tree.repetition? first rest = some (found, taken)) :
    ∃ dollar closing inner separator operator,
      found = .repetition dollar closing inner separator operator := by
  cases repetition?_eq_some_iff.mp h with
  | plain => exact ⟨_, _, _, _, _, rfl⟩
  | parted => exact ⟨_, _, _, _, _, rfl⟩

/-- Trees among which, at every depth, there is no repetition. -/
inductive RepetitionFree : List Tree → Prop
  | nil : RepetitionFree []
  | leaf (token : Token) {trees : List Tree} (h : RepetitionFree trees) :
      RepetitionFree (.leaf token :: trees)
  | group (delimiter : Delimiter) (opening closing : Span) {inner trees : List Tree}
      (hi : RepetitionFree inner) (h : RepetitionFree trees) :
      RepetitionFree (.group delimiter opening closing inner :: trees)

theorem RepetitionFree.leaf_iff {token : Token} {trees : List Tree} :
    RepetitionFree (.leaf token :: trees) ↔ RepetitionFree trees := by
  refine ⟨fun h => ?_, .leaf token⟩
  cases h with
  | leaf _ h => exact h

theorem RepetitionFree.group_iff {delimiter : Delimiter} {opening closing : Span}
    {inner trees : List Tree} :
    RepetitionFree (.group delimiter opening closing inner :: trees) ↔
      RepetitionFree inner ∧ RepetitionFree trees := by
  refine ⟨fun h => ?_, fun h => .group delimiter opening closing h.1 h.2⟩
  cases h with
  | group _ _ _ hi h => exact ⟨hi, h⟩

theorem RepetitionFree.append {l r : List Tree} (hl : RepetitionFree l) (hr : RepetitionFree r) :
    RepetitionFree (l ++ r) := by
  induction hl with
  | nil => exact hr
  | leaf token _ ih => exact .leaf token ih
  | group d o c hi _ _ ih => exact .group d o c hi ih

/-- Trees in which, at every depth, no repetition begins. -/
inductive Settled : List Tree → Prop
  | nil : Settled []
  | leaf {token : Token} {trees : List Tree} (hr : Tree.repetition? (.leaf token) trees = none)
      (h : Settled trees) : Settled (.leaf token :: trees)
  | group (delimiter : Delimiter) (opening closing : Span) {inner trees : List Tree}
      (hi : Settled inner) (h : Settled trees) :
      Settled (.group delimiter opening closing inner :: trees)

namespace Settled

theorem repetitionFree {trees : List Tree} (h : Settled trees) : RepetitionFree trees := by
  induction h with
  | nil => exact .nil
  | leaf _ _ ih => exact .leaf _ ih
  | group d o c _ _ ihi ih => exact .group d o c ihi ih

theorem gather_eq {trees : List Tree} (h : Settled trees) : Tree.gather trees = trees := by
  induction h with
  | nil => rfl
  | leaf hr _ ih =>
    rw [Tree.gather_cons, Tree.gatherStep, hr]
    exact congrArg (_ :: ·) ih
  | group d o c _ _ _ ih =>
    rw [Tree.gather_cons, Tree.gatherStep]
    exact congrArg (_ :: ·) ih

theorem of_append {l r : List Tree} (h : Settled (l ++ r)) : Settled l ∧ Settled r := by
  induction l with
  | nil => exact ⟨.nil, h⟩
  | cons first l ih =>
    rw [List.cons_append] at h
    cases h with
    | @leaf token _ hr h =>
      refine ⟨.leaf ?_ (ih h).1, (ih h).2⟩
      rw [← Option.not_isSome_iff_eq_none, repetition?_isSome_iff] at hr ⊢
      rintro ⟨hd, o, c, inner, rest, rfl, hrest⟩
      exact hr ⟨hd, o, c, inner, rest ++ r, rfl, hrest.append r⟩
    | group d o c hi h => exact ⟨.group d o c hi (ih h).1, (ih h).2⟩

end Settled

/-! ## Assembled trees -/

/-- If no repetition was gathered, none begins. -/
theorem Nests.settled {trees : List Tree} {tokens : List Token} (h : Nests trees tokens)
    (hf : RepetitionFree (Tree.gather trees)) : Tree.gather trees = trees ∧ Settled trees := by
  induction h with
  | nil => exact ⟨rfl, .nil⟩
  | @leaf token trees _ _ _ ih =>
    rw [Tree.gather_cons, Tree.gatherStep] at hf ⊢
    cases hr : Tree.repetition? (.leaf token) trees with
    | none =>
      rw [hr] at hf
      cases hf with
      | leaf _ hf =>
        obtain ⟨heq, hsettled⟩ := ih hf
        exact ⟨congrArg (_ :: ·) heq, .leaf hr hsettled⟩
    | some found =>
      obtain ⟨dollar, closing, inner, separator, operator, hfound⟩ := exists_of_repetition? hr
      rw [hr, Option.getD_some, hfound] at hf
      cases hf
  | @group d o c inner trees _ _ _ _ ihi ih =>
    rw [Tree.gather_cons, Tree.gatherStep] at hf ⊢
    cases hf with
    | group _ _ _ hfi hf =>
      obtain ⟨heqi, hsettledi⟩ := ihi hfi
      obtain ⟨heq, hsettled⟩ := ih hf
      rw [heqi]
      exact ⟨congrArg (_ :: ·) heq, .group d o c hsettledi hsettled⟩

/-- Settled trees nest in the tokens that spell them. -/
theorem Spells.nests {trees : List Tree} {tokens : List Token} (h : Spells trees tokens)
    (hs : Settled trees) : Nests trees tokens := by
  induction h with
  | nil => exact .nil
  | leaf hl _ ih =>
    cases hs with
    | leaf _ hs => exact .leaf hl (ih hs)
  | group d o c _ _ ihi ih =>
    cases hs with
    | group _ _ _ hi hs =>
      have h := Nests.group d o c (ihi hi) (ih hs)
      rwa [hi.gather_eq] at h
  | repetition => cases hs

/-! ## Heights of words of brackets -/

def weight (c : Char) : Int := if isOpening c then 1 else if isClosing c then -1 else 0

/-- How many brackets a word opens and does not close. -/
def height : List Char → Int
  | [] => 0
  | c :: word => weight c + height word

@[simp] theorem height_nil : height [] = 0 := rfl

@[simp] theorem height_cons (c : Char) (word : List Char) :
    height (c :: word) = weight c + height word := rfl

@[simp] theorem height_append (l r : List Char) : height (l ++ r) = height l + height r := by
  induction l with
  | nil => exact (Int.zero_add _).symm
  | cons c l ih => rw [List.cons_append, height_cons, height_cons, ih, Int.add_assoc]

@[simp] theorem weight_opening (d : Delimiter) : weight d.opening = 1 := by
  cases d <;> decide

@[simp] theorem weight_closing (d : Delimiter) : weight d.closing = -1 := by
  cases d <;> decide

namespace WellMatched

theorem height_eq {word : List Char} (h : WellMatched word) : height word = 0 := by
  induction h with
  | nil => rfl
  | pair d _ _ ihi ih =>
    rw [height_cons, height_append, height_cons, weight_opening, weight_closing, ihi, ih]
    rfl

/-- No bracket closes before it opens. -/
theorem height_nonneg {word : List Char} (h : WellMatched word) {l r : List Char}
    (hsplit : word = l ++ r) : 0 ≤ height l := by
  induction h generalizing l r with
  | nil =>
    rw [(List.append_eq_nil_iff.mp hsplit.symm).1]
    exact Int.le_refl 0
  | @pair d inside behind hi _ ihi ih =>
    cases l with
    | nil => exact Int.le_refl 0
    | cons c l =>
      obtain ⟨rfl, hrest⟩ := List.cons.inj hsplit
      rw [height_cons, weight_opening]
      obtain ⟨m, hl, hbehind⟩ | ⟨m, hinside, -⟩ := List.append_eq_append_iff.mp hrest
      · cases m with
        | nil =>
          rw [hl, List.append_nil, hi.height_eq]
          decide
        | cons e m =>
          obtain ⟨rfl, hm⟩ := List.cons.inj hbehind
          have hnonneg := ih hm
          rw [hl, height_append, height_cons, weight_closing, hi.height_eq]
          omega
      · have hnonneg := ihi hinside
        omega

/-- Before a bracket closes, one is open. -/
theorem height_pos {d : Delimiter} {l r : List Char} (h : WellMatched (l ++ d.closing :: r)) :
    0 < height l := by
  have hsplit : l ++ d.closing :: r = (l ++ [d.closing]) ++ r := by simp
  have hnonneg := h.height_nonneg hsplit
  rw [height_append, height_cons, weight_closing, height_nil] at hnonneg
  omega

/-- What is well matched and ends where a bracket closes is told from what stands behind. -/
theorem not_closing {d : Delimiter} {l r : List Char} (h : WellMatched l) :
    ¬ WellMatched (l ++ d.closing :: r) := by
  intro hlong
  have hpos := hlong.height_pos
  rw [h.height_eq] at hpos
  exact absurd hpos (by decide)

end WellMatched

/-! ## Tokens of a repetition -/

/-- The tokens of a repetition: a dollar sign, parentheses around tokens whose brackets match,
perhaps one token that is no bracket, and an operator that says how often. -/
inductive IsRepetition : List Token → Prop where
  | intro {dollar opener closer operator : Token} {separator : Option Token} {inside : List Token}
      (hd : dollar.kind = .operator ∧ dollar.text = ['$'])
      (ho : opener.kind = .openDelimiter ∧ opener.text = ['('])
      (hi : WellMatched (brackets inside))
      (hc : closer.kind = .closeDelimiter ∧ closer.text = [')'])
      (hs : ∀ token ∈ separator, token.IsLeaf)
      (hop : operator.kind = .operator ∧ operator.text ∈ [['*'], ['+'], ['?']]) :
      IsRepetition (dollar :: opener :: (inside ++ closer :: (separator.toList ++ [operator])))

/-- A repetition stands among the tokens. -/
def HoldsRepetition (tokens : List Token) : Prop := ∃ run, run <:+: tokens ∧ IsRepetition run

theorem HoldsRepetition.mono {ts tokens : List Token} (h : HoldsRepetition ts)
    (hin : ts <:+: tokens) : HoldsRepetition tokens := by
  obtain ⟨run, hrun, his⟩ := h
  exact ⟨run, hrun.trans hin, his⟩

theorem IsRepetition.wellMatched {run : List Token} (h : IsRepetition run) :
    WellMatched (brackets run) := by
  cases h with
  | @intro dollar opener closer operator separator inside hd ho hi hc hs hop =>
    have hdollar : dollar.bracket = [] := by simp [Token.bracket, hd.1]
    have hopener : opener.bracket = [Delimiter.paren.opening] := by
      simp [Token.bracket, ho.1, ho.2, Delimiter.opening]
    have hcloser : closer.bracket = [Delimiter.paren.closing] := by
      simp [Token.bracket, hc.1, hc.2, Delimiter.closing]
    have hrest : brackets (separator.toList ++ [operator]) = [] := by
      cases separator with
      | none => simp [Token.bracket, hop.1]
      | some token => simp [Token.bracket, hop.1, (hs token rfl).1, (hs token rfl).2.1]
    rw [brackets_cons, brackets_cons, brackets_append, brackets_cons, hdollar, hopener, hcloser,
      hrest]
    exact .pair .paren hi .nil

/-- A repetition starts with no bracket. -/
theorem IsRepetition.exists_dollar {run : List Token} (h : IsRepetition run) :
    ∃ dollar rest, run = dollar :: rest ∧ dollar.kind = .operator := by
  cases h with
  | intro hd => exact ⟨_, _, rfl, hd.1⟩

/-! ## From tokens to trees -/

/-- Where the brackets in front match, the bracket that closes behind them is found. -/
theorem eq_of_closes {ts us rs ss : List Token} {c e : Token} {x y : Delimiter}
    (h : ts ++ c :: rs = us ++ e :: ss) (ht : WellMatched (brackets ts))
    (hu : WellMatched (brackets us)) (hc : c.bracket = [x.closing]) (he : e.bracket = [y.closing]) :
    ts = us ∧ rs = ss := by
  obtain ⟨m, rfl, hm⟩ | ⟨m, rfl, hm⟩ := List.append_eq_append_iff.mp h
  · cases m with
    | nil => exact ⟨(List.append_nil ts).symm, (List.cons.inj hm).2⟩
    | cons d m =>
      obtain ⟨rfl, -⟩ := List.cons.inj hm
      rw [brackets_append, brackets_cons, hc] at hu
      exact absurd hu ht.not_closing
  · cases m with
    | nil => exact ⟨List.append_nil us, (List.cons.inj hm).2.symm⟩
    | cons d m =>
      obtain ⟨rfl, -⟩ := List.cons.inj hm
      rw [brackets_append, brackets_cons, he] at ht
      exact absurd ht hu.not_closing

/-- A run of a list stands before a member, behind it, or over it. -/
theorem infix_append_cons {α : Type} {run ts us : List α} {a : α} (hne : run ≠ [])
    (h : run <:+: ts ++ a :: us) :
    run <:+: ts ∨ run <:+: us ∨ ∃ m m', run = m ++ a :: m' ∧ m <:+ ts := by
  obtain ⟨l, r, hsplit⟩ := h
  rw [List.append_assoc] at hsplit
  obtain ⟨m, rfl, hm⟩ | ⟨m, -, hm⟩ := List.append_eq_append_iff.mp hsplit
  · obtain ⟨n, rfl, -⟩ | ⟨n, rfl, hn⟩ := List.append_eq_append_iff.mp hm
    · exact .inl ⟨l, n, List.append_assoc l run n⟩
    · cases n with
      | nil => exact .inl ⟨l, [], by simp⟩
      | cons b n =>
        obtain ⟨rfl, -⟩ := List.cons.inj hn
        exact .inr (.inr ⟨m, n, rfl, List.suffix_append l m⟩)
  · cases m with
    | nil =>
      cases run with
      | nil => exact absurd rfl hne
      | cons b run =>
        obtain ⟨rfl, -⟩ := List.cons.inj hm
        exact .inr (.inr ⟨[], run, rfl, List.nil_suffix⟩)
    | cons b m =>
      obtain ⟨-, rfl⟩ := List.cons.inj hm
      exact .inr (.inl ⟨m, r, List.append_assoc m run r⟩)

/-- Behind a token that is no dollar sign, a repetition stands in what follows. -/
theorem HoldsRepetition.of_cons {token : Token} {tokens : List Token}
    (h : HoldsRepetition (token :: tokens)) (hk : token.kind ≠ .operator) :
    HoldsRepetition tokens := by
  obtain ⟨run, hin, hrun⟩ := h
  obtain ⟨dollar, rest, rfl, hkind⟩ := hrun.exists_dollar
  rcases List.infix_cons_iff.mp hin with hfront | hin
  · rw [List.cons_prefix_cons] at hfront
    exact absurd (hfront.1 ▸ hkind) hk
  · exact ⟨_, hin, hrun⟩

/-- A repetition does not reach over the end of the brackets that it stands in. -/
theorem HoldsRepetition.of_closes {d : Delimiter} {closer : Token} {inside tokens : List Token}
    (hc : closer.bracket = [d.closing]) (hi : WellMatched (brackets inside))
    (h : HoldsRepetition (inside ++ closer :: tokens)) :
    HoldsRepetition inside ∨ HoldsRepetition tokens := by
  obtain ⟨run, hin, hrun⟩ := h
  have hne : run ≠ [] := by
    obtain ⟨dollar, rest, rfl, -⟩ := hrun.exists_dollar
    exact List.cons_ne_nil _ _
  obtain hinside | htokens | ⟨m, m', rfl, l, hl⟩ := infix_append_cons hne hin
  · exact .inl ⟨run, hinside, hrun⟩
  · exact .inr ⟨run, htokens, hrun⟩
  · -- more brackets would be open before the one that closes than behind what stands before it
    have hmatched := hrun.wellMatched
    rw [brackets_append, brackets_cons, hc] at hmatched
    have hpos := hmatched.height_pos
    rw [← hl, brackets_append] at hi
    have hnonneg := hi.height_nonneg rfl
    have hzero := hi.height_eq
    rw [height_append] at hzero
    omega

theorem Token.isLeaf_of_operator {token : Token} (h : token.kind = .operator) : token.IsLeaf :=
  .of_isPlain (by rw [h]; rfl)

theorem Token.isRepeat_iff {token : Token} : token.isRepeat = true ↔
    token.kind = .operator ∧ token.text ∈ [['*'], ['+'], ['?']] := by
  simp [isRepeat, or_assoc]

theorem Nests.exists_leaf {trees : List Tree} {token : Token} {tokens : List Token}
    (h : Nests trees (token :: tokens)) (hl : token.IsLeaf) :
    ∃ rest, trees = .leaf token :: rest ∧ Nests rest tokens := by
  cases h with
  | leaf _ h => exact ⟨_, rfl, h⟩
  | group d o c _ _ => exact absurd rfl hl.1

/-- What stands behind an opening bracket, where the brackets up to one that closes match. -/
theorem Nests.exists_group {trees : List Tree} {opener closer : Token}
    {inside behind : List Token} (h : Nests trees (opener :: (inside ++ closer :: behind)))
    {d : Delimiter} (ho : opener.kind = .openDelimiter ∧ opener.text = [d.opening])
    (hi : WellMatched (brackets inside)) (hc : closer.bracket = [d.closing]) :
    ∃ o c inner rest, trees = .group d o c inner :: rest ∧ Nests rest behind := by
  generalize htokens : opener :: (inside ++ closer :: behind) = tokens at h
  cases h with
  | nil => cases htokens
  | leaf hl _ =>
    obtain ⟨rfl, -⟩ := List.cons.inj htokens
    exact absurd ho.1 hl.1
  | @group e o c inner rest within us hinner hrest =>
    obtain ⟨rfl, hsplit⟩ := List.cons.inj htokens
    obtain rfl : e = d := opening_injective (List.singleton_inj.mp ho.2)
    obtain ⟨-, rfl⟩ := eq_of_closes hsplit hi hinner.wellMatched hc (bracket_closingToken e c)
    exact ⟨o, c, _, rest, rfl, hrest⟩

/-- Where a repetition starts, its trees would be gathered. -/
theorem Nests.isSome_of_isRepetition {token : Token} {trees : List Tree} {run behind : List Token}
    (h : Nests (.leaf token :: trees) (run ++ behind)) (hrun : IsRepetition run) :
    (Tree.repetition? (.leaf token) trees).isSome = true := by
  cases hrun with
  | @intro dollar opener closer operator separator inside hd ho hi hc hs hop =>
    have hopener : opener.kind = .openDelimiter ∧ opener.text = [Delimiter.paren.opening] := ho
    have hcloser : closer.bracket = [Delimiter.paren.closing] := by
      simp [Token.bracket, hc.1, hc.2, Delimiter.closing]
    have htokens : dollar :: opener :: (inside ++ closer :: (separator.toList ++ [operator])) ++
        behind = dollar :: (opener :: (inside ++ closer :: (separator.toList ++ operator ::
          behind))) := by
      simp
    rw [htokens] at h
    obtain ⟨rest, heq, hgroup⟩ := h.exists_leaf (Token.isLeaf_of_operator hd.1)
    obtain ⟨hleaf, rfl⟩ := List.cons.inj heq
    obtain rfl : token = dollar := Tree.leaf.inj hleaf
    obtain ⟨o, c, inner, rest, rfl, hbehind⟩ := hgroup.exists_group hopener hi hcloser
    refine repetition?_isSome_iff.mpr
      ⟨by simp [Token.isDollar, hd.1, hd.2], o, c, inner, rest, rfl, ?_⟩
    have hrepeat : operator.isRepeat = true := Token.isRepeat_iff.mpr hop
    cases separator with
    | none =>
      obtain ⟨rest, rfl, -⟩ := hbehind.exists_leaf (Token.isLeaf_of_operator hop.1)
      exact .plain hrepeat rest
    | some separator =>
      obtain ⟨rest, rfl, hlast⟩ := hbehind.exists_leaf (hs separator rfl)
      obtain ⟨rest, rfl, -⟩ := hlast.exists_leaf (Token.isLeaf_of_operator hop.1)
      exact .parted separator hrepeat rest

/-- Where no repetition begins among the trees, the tokens hold none. -/
theorem Nests.not_holdsRepetition {trees : List Tree} {tokens : List Token}
    (h : Nests trees tokens) (hs : Settled trees) : ¬ HoldsRepetition tokens := by
  induction h with
  | nil =>
    rintro ⟨run, hin, hrun⟩
    obtain ⟨dollar, rest, rfl, -⟩ := hrun.exists_dollar
    cases List.infix_nil.mp hin
  | @leaf token trees tokens hl h ih =>
    cases hs with
    | leaf hr hs =>
      rintro ⟨run, hin, hrun⟩
      rcases List.infix_cons_iff.mp hin with ⟨behind, hfront⟩ | hin
      · have hall := Nests.leaf hl h
        rw [← hfront] at hall
        exact Option.not_isSome_iff_eq_none.mpr hr (hall.isSome_of_isRepetition hrun)
      · exact ih hs ⟨run, hin, hrun⟩
  | @group d o c inner trees inside tokens hi h ihi ih =>
    cases hs with
    | group _ _ _ hsi hs =>
      intro hholds
      obtain hinside | htokens := (hholds.of_cons (by simp [openingToken])).of_closes
        (bracket_closingToken d c) hi.wellMatched
      · exact ihi (hi.settled hsi.repetitionFree).2 hinside
      · exact ih hs htokens

/-! ## From trees to tokens -/

/-- What would be gathered into a repetition is made of the tokens of one. -/
theorem Nests.holdsRepetition {token : Token} {trees : List Tree} {tokens : List Token}
    (h : Nests (.leaf token :: trees) tokens)
    (hr : (Tree.repetition? (.leaf token) trees).isSome = true)
    (hw : ∀ token ∈ tokens, token.kind = .operator → token.text ≠ []) :
    HoldsRepetition tokens := by
  obtain ⟨hd, o, c, inner, rest, rfl, hrest⟩ := repetition?_isSome_iff.mp hr
  have hrun {operator : Token} (separator : Option Token) {raw : List Tree}
      {inside : List Token} (behind : List Token) (ho : operator.isRepeat = true)
      (hs : ∀ token ∈ separator, token.IsLeaf) (hi : Nests raw inside)
      (htokens : tokens = token :: openingToken .paren o :: (inside ++ closingToken .paren c ::
        (separator.toList ++ [operator])) ++ behind) : HoldsRepetition tokens := by
    have hdollar := eq_of_isDollar hd (hw token (by simp [htokens]))
    refine ⟨_, ⟨[], behind, htokens.symm⟩, ?_⟩
    exact .intro hdollar ⟨rfl, rfl⟩ hi.wellMatched ⟨rfl, rfl⟩ hs (Token.isRepeat_iff.mp ho)
  cases h with
  | leaf _ h => cases h with
    | group _ _ _ hi h => cases hrest with
      | plain ho trees => cases h with
        | @leaf _ _ tokens _ _ =>
          refine hrun none tokens ho ?_ hi ?_
          · simp
          · simp
      | parted separator ho trees => cases h with
        | leaf hs h => cases h with
          | @leaf _ _ tokens _ _ =>
            refine hrun (some separator) tokens ho ?_ hi ?_
            · simpa using hs
            · simp

/-- Where tokens hold no repetition, none begins among the trees. -/
theorem Nests.settled_of_not_holdsRepetition {trees : List Tree} {tokens : List Token}
    (h : Nests trees tokens) (hw : ∀ token ∈ tokens, token.kind = .operator → token.text ≠ [])
    (hno : ¬ HoldsRepetition tokens) : Settled trees := by
  induction h with
  | nil => exact .nil
  | @leaf token trees tokens hl h ih =>
    have hbehind : tokens <:+: token :: tokens := (List.suffix_cons token tokens).isInfix
    refine .leaf (Option.not_isSome_iff_eq_none.mp fun hr => ?_)
      (ih (fun t ht => hw t (hbehind.subset ht)) fun hholds => hno (hholds.mono hbehind))
    exact hno ((Nests.leaf hl h).holdsRepetition hr hw)
  | @group d o c inner trees inside tokens hi h ihi ih =>
    have hinside : inside <:+: openingToken d o :: (inside ++ closingToken d c :: tokens) :=
      ⟨[openingToken d o], closingToken d c :: tokens, by simp⟩
    have hbehind : tokens <:+: openingToken d o :: (inside ++ closingToken d c :: tokens) :=
      ⟨openingToken d o :: (inside ++ [closingToken d c]), [], by simp⟩
    have hinner := ihi (fun t ht => hw t (hinside.subset ht)) fun hr => hno (hr.mono hinside)
    refine .group d o c (hinner.gather_eq.symm ▸ hinner) ?_
    exact ih (fun t ht => hw t (hbehind.subset ht)) fun hr => hno (hr.mono hbehind)

/-- The gathered trees are free of repetitions where the tokens hold none. No operator may be
without a text; none that is read is. -/
theorem Nests.repetitionFree_iff {trees : List Tree} {tokens : List Token} (h : Nests trees tokens)
    (hw : ∀ token ∈ tokens, token.kind = .operator → token.text ≠ []) :
    RepetitionFree (Tree.gather trees) ↔ ¬ HoldsRepetition tokens := by
  refine ⟨fun hf => h.not_holdsRepetition (h.settled hf).2, fun hno => ?_⟩
  have hs := h.settled_of_not_holdsRepetition hw hno
  rw [hs.gather_eq]
  exact hs.repetitionFree

/-! ## Kinds and texts -/

theorem brackets_eq_of_words {tokens others : List Token}
    (h : others.map Token.word = tokens.map Token.word) : brackets others = brackets tokens := by
  have hword (ts : List Token) : brackets ts = (ts.map Token.word).flatMap fun word =>
      if word.1 = .openDelimiter ∨ word.1 = .closeDelimiter then word.2 else [] := by
    rw [List.flatMap_map]
    rfl
  rw [hword, hword, h]

theorem Token.IsLeaf.of_word {token other : Token} (hl : token.IsLeaf)
    (h : other.word = token.word) : other.IsLeaf := by
  have hkind : other.kind = token.kind := congrArg Prod.fst h
  rwa [IsLeaf, hkind]

theorem IsRepetition.of_words {run other : List Token}
    (hwords : other.map Token.word = run.map Token.word) (h : IsRepetition run) :
    IsRepetition other := by
  cases h with
  | @intro dollar opener closer operator separator inside hd ho hi hc hs hop =>
    rw [List.map_cons, List.map_cons, List.map_append, List.map_cons, List.map_append] at hwords
    obtain ⟨dollar', _, rfl, hdollar, hwords⟩ := List.map_eq_cons_iff.mp hwords
    obtain ⟨opener', _, rfl, hopener, hwords⟩ := List.map_eq_cons_iff.mp hwords
    obtain ⟨inside', _, rfl, hinside, hwords⟩ := List.map_eq_append_iff.mp hwords
    obtain ⟨closer', _, rfl, hcloser, hwords⟩ := List.map_eq_cons_iff.mp hwords
    obtain ⟨separator', _, rfl, hseparator, hwords⟩ := List.map_eq_append_iff.mp hwords
    obtain ⟨operator', _, rfl, hoperator, hwords⟩ := List.map_eq_cons_iff.mp hwords
    obtain rfl := List.map_eq_nil_iff.mp hwords
    obtain ⟨other, rfl, hother⟩ : ∃ other : Option Token, separator' = other.toList ∧
        ∀ token ∈ other, token.IsLeaf := by
      cases separator with
      | none => exact ⟨none, List.map_eq_nil_iff.mp hseparator, by simp⟩
      | some token =>
        obtain ⟨token', rfl, htoken⟩ := List.map_eq_singleton_iff.mp hseparator
        refine ⟨some token', rfl, fun t ht => ?_⟩
        exact Option.some.inj ht ▸ (hs token rfl).of_word htoken
    rw [Token.word, Token.word, Prod.mk.injEq] at hdollar hopener hcloser hoperator
    exact .intro (by rwa [hdollar.1, hdollar.2]) (by rwa [hopener.1, hopener.2])
      (by rwa [brackets_eq_of_words hinside]) (by rwa [hcloser.1, hcloser.2]) hother
      (by rwa [hoperator.1, hoperator.2])

/-- Whether tokens hold a repetition hangs on their kinds and texts alone. -/
theorem HoldsRepetition.of_words {tokens others : List Token}
    (hwords : others.map Token.word = tokens.map Token.word) (h : HoldsRepetition tokens) :
    HoldsRepetition others := by
  obtain ⟨run, ⟨l, r, rfl⟩, hrun⟩ := h
  rw [List.map_append, List.map_append] at hwords
  obtain ⟨front, behind, rfl, hfront, -⟩ := List.map_eq_append_iff.mp hwords
  obtain ⟨before, middle, rfl, -, hmiddle⟩ := List.map_eq_append_iff.mp hfront
  exact ⟨middle, ⟨before, behind, rfl⟩, hrun.of_words hmiddle⟩

end Offside
