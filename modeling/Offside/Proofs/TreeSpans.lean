import Offside.Proofs.Excerpts
import Offside.Proofs.Repetitions
import Offside.Proofs.TreeJoin

/-!
# Where trees stand

The span of a tree is exactly the text that the tree is made of: siblings stand one behind the
other, a tree covers what it holds, and its text read alone is that tree again.

- `Tree.parts`, `SiblingsIn`: what a tree holds, and the lists of siblings at every depth.
- `Tree.MadeOf`, `Tree.HeldBy`: the tokens of one tree, and a tree among more tokens.
- `Tree.back`: a tree nearer to the start of a text.
- `Source.trees_slice`: the trees of the text of a tree.
- `Source.trees_spans`: where the trees of a source stand.
-/
namespace Offside

set_option autoImplicit false

open Layout (openingToken closingToken)

/-! ## Siblings -/

/-- The trees that a tree holds: what stands between its brackets, and behind the brackets of a
repetition its separator and its operator. -/
def Tree.parts : Tree → List Tree
  | .leaf _ => []
  | .group _ _ _ inner => inner
  | .repetition _ _ inner separator operator =>
    inner ++ (separator.toList.map .leaf ++ [.leaf operator])

/-- The lists of trees that stand side by side: the trees themselves, and what any tree of such a
list holds. -/
inductive SiblingsIn (trees : List Tree) : List Tree → Prop
  | whole : SiblingsIn trees trees
  | inside {items : List Tree} {tree : Tree} (h : SiblingsIn trees items) (hm : tree ∈ items) :
      SiblingsIn trees tree.parts

theorem Spells.parts {tree : Tree} {tokens : List Token} (h : Spells [tree] tokens) :
    ∃ inside, Spells tree.parts inside ∧ inside.Sublist tokens := by
  cases h with
  | leaf => exact ⟨[], .nil, List.nil_sublist _⟩
  | group d o c hi _ => exact ⟨_, hi, (sublist_of_group _ _ _ _).1⟩
  | @repetition dollar op sep o c inner _ inside _ _ ho hs hi h =>
    cases h
    have hop : Spells [.leaf op] [op] :=
      .leaf (Token.isLeaf_of_operator (Token.isRepeat_iff.mp ho).1) .nil
    have hsep : Spells (sep.toList.map .leaf) sep.toList := by
      cases sep with
      | none => exact .nil
      | some separator => exact .leaf (hs separator rfl) .nil
    refine ⟨_, hi.append (hsep.append hop), .cons _ (.cons _ ?_)⟩
    exact (List.Sublist.refl inside).append (List.sublist_cons_self _ _)

theorem Spells.of_siblingsIn {trees : List Tree} {tokens : List Token} (h : Spells trees tokens)
    {items : List Tree} (hi : SiblingsIn trees items) :
    ∃ inside, Spells items inside ∧ inside.Sublist tokens := by
  induction hi with
  | whole => exact ⟨tokens, h, List.Sublist.refl tokens⟩
  | inside _ hm ih =>
    obtain ⟨ts, hts, hsub⟩ := ih
    obtain ⟨us, hus, husub⟩ := hts.exists_of_mem hm
    obtain ⟨vs, hvs, hvsub⟩ := hus.parts
    exact ⟨vs, hvs, hvsub.trans (husub.trans hsub)⟩

/-! ## The tokens of a tree -/

/-- Some tokens nest in trees that are gathered into the one tree. -/
def Tree.MadeOf (tree : Tree) (tokens : List Token) : Prop :=
  ∃ raw, Nests raw tokens ∧ Tree.gather raw = [tree]

/-- A tree is made of some of the tokens, one behind the other. -/
def Tree.HeldBy (tree : Tree) (tokens : List Token) : Prop :=
  ∃ ts, ts <:+: tokens ∧ tree.MadeOf ts

theorem Tree.HeldBy.mono {tree : Tree} {ts tokens : List Token} (h : tree.HeldBy ts)
    (hin : ts <:+: tokens) : tree.HeldBy tokens := by
  obtain ⟨us, hus, hmade⟩ := h
  exact ⟨us, hus.trans hin, hmade⟩

theorem Tree.MadeOf.spells {tree : Tree} {tokens : List Token} (h : tree.MadeOf tokens) :
    Spells [tree] tokens := by
  obtain ⟨raw, hraw, hgather⟩ := h
  rw [← hgather]
  exact hraw.spells.gather

theorem Nests.of_append {l r : List Tree} {tokens : List Token} (h : Nests (l ++ r) tokens) :
    ∃ ts us, tokens = ts ++ us ∧ Nests l ts ∧ Nests r us := by
  induction l generalizing tokens with
  | nil => exact ⟨[], tokens, rfl, .nil, h⟩
  | cons first l ih =>
    cases h with
    | leaf hl h =>
      obtain ⟨ts, us, rfl, hts, hus⟩ := ih h
      exact ⟨_, us, rfl, .leaf hl hts, hus⟩
    | group d o c hi h =>
      obtain ⟨ts, us, rfl, hts, hus⟩ := ih h
      exact ⟨_, us, by simp, .group d o c hi hts, hus⟩

namespace Tree

theorem gather_singleton (tree : Tree) : gather [tree] = [tree] := by
  cases tree <;> rfl

end Tree

theorem Repeating.take {first found : Tree} {rest : List Tree} {taken : Nat}
    (h : Repeating first rest found taken) :
    Repeating first (rest.take taken) found taken ∧ (rest.take taken).length = taken := by
  cases h with
  | plain hd ho o c inner behind => exact ⟨.plain hd ho o c inner [], rfl⟩
  | parted hd hs ho o c inner behind => exact ⟨.parted hd hs ho o c inner [], rfl⟩

/-- What is gathered into the first tree is gathered into it without the trees behind. -/
theorem gather_take (first : Tree) (rest : List Tree) :
    Tree.gather (first :: rest.take (Tree.gatherStep first rest).2) =
      [(Tree.gatherStep first rest).1] := by
  rw [Tree.gatherStep]
  cases hr : Tree.repetition? first rest with
  | none => exact Tree.gather_singleton first
  | some pair =>
    obtain ⟨found, taken⟩ := pair
    obtain ⟨htake, hlen⟩ := (repetition?_eq_some_iff.mp hr).take
    rw [Option.getD_some, Tree.gather_cons, Tree.gatherStep, repetition?_eq_some_iff.mpr htake,
      Option.getD_some, List.drop_of_length_le (Nat.le_of_eq hlen), Tree.gather_nil]

/-- Tokens that nest hold the gathered trees. -/
theorem Nests.heldBy {raw : List Tree} {tokens : List Token} (h : Nests raw tokens) {tree : Tree}
    (ht : tree ∈ Tree.gather raw) : tree.HeldBy tokens := by
  induction raw using Tree.gather_induction generalizing tokens with
  | nil => simp at ht
  | step first rest ih =>
    have hsplit : first :: rest = (first :: rest.take (Tree.gatherStep first rest).2) ++
        rest.drop (Tree.gatherStep first rest).2 := by
      rw [List.cons_append, List.take_append_drop]
    rw [hsplit] at h
    obtain ⟨ts, us, rfl, hfirst, hrest⟩ := h.of_append
    rw [Tree.gather_cons] at ht
    rcases List.mem_cons.mp ht with rfl | ht
    · exact ⟨ts, (List.prefix_append ts us).isInfix, _, hfirst, gather_take first rest⟩
    · exact (ih hrest ht).mono (List.suffix_append ts us).isInfix

/-- Tokens that nest hold every single token among the trees. -/
theorem Nests.heldBy_leaf {trees : List Tree} {tokens : List Token} (h : Nests trees tokens)
    {token : Token} (hm : .leaf token ∈ trees) : Tree.HeldBy (.leaf token) tokens := by
  obtain ⟨l, r, rfl⟩ := List.append_of_mem hm
  obtain ⟨ts, us, rfl, -, hr⟩ := h.of_append
  cases hr with
  | @leaf _ _ us hl _ => exact ⟨[token], ⟨ts, us, by simp⟩, [.leaf token], .leaf hl .nil, rfl⟩

/-- Tokens that nest hold what stands between two of their brackets. -/
theorem Nests.heldBy_inside {trees : List Tree} {tokens : List Token} (h : Nests trees tokens)
    {d : Delimiter} {o c : Span} {inner : List Tree} (hm : .group d o c inner ∈ trees)
    {part : Tree} (hp : part ∈ inner) : part.HeldBy tokens := by
  obtain ⟨l, r, rfl⟩ := List.append_of_mem hm
  obtain ⟨ts, us, rfl, -, hr⟩ := h.of_append
  cases hr with
  | @group _ _ _ _ _ inside us hi _ =>
    exact (hi.heldBy hp).mono ⟨ts ++ [openingToken d o], closingToken d c :: us, by simp⟩

/-- The tokens of a tree hold its parts. -/
theorem Tree.MadeOf.parts {tree : Tree} {tokens : List Token} (h : tree.MadeOf tokens)
    {part : Tree} (hp : part ∈ tree.parts) : part.HeldBy tokens := by
  obtain ⟨raw, hraw, hgather⟩ := h
  cases raw with
  | nil => simp at hgather
  | cons first rest =>
    rw [Tree.gather_cons] at hgather
    obtain ⟨rfl, -⟩ := List.cons.inj hgather
    rw [Tree.gatherStep] at hp
    cases hr : Tree.repetition? first rest with
    | none =>
      rw [hr] at hp
      cases first with
      | leaf token => simp [Tree.parts] at hp
      | group d o c inner => exact hraw.heldBy_inside List.mem_cons_self hp
      | repetition => cases hraw
    | some pair =>
      obtain ⟨found, taken⟩ := pair
      rw [hr] at hp
      cases repetition?_eq_some_iff.mp hr with
      | @plain dollar operator =>
        rcases List.mem_append.mp hp with hp | hp
        · exact hraw.heldBy_inside (List.mem_cons_of_mem _ List.mem_cons_self) hp
        · obtain rfl : part = .leaf operator := by simpa using hp
          exact hraw.heldBy_leaf (by simp)
      | @parted dollar separator operator =>
        rcases List.mem_append.mp hp with hp | hp
        · exact hraw.heldBy_inside (List.mem_cons_of_mem _ List.mem_cons_self) hp
        · obtain rfl | rfl : part = .leaf separator ∨ part = .leaf operator := by simpa using hp
          · exact hraw.heldBy_leaf (by simp)
          · exact hraw.heldBy_leaf (by simp)

theorem Tree.HeldBy.parts {tree : Tree} {tokens : List Token} (h : tree.HeldBy tokens)
    {part : Tree} (hp : part ∈ tree.parts) : part.HeldBy tokens := by
  obtain ⟨ts, hin, hmade⟩ := h
  exact (hmade.parts hp).mono hin

/-- Tokens that hold trees hold all that these hold. -/
theorem SiblingsIn.heldBy {trees items : List Tree} (h : SiblingsIn trees items)
    {tokens : List Token} (hw : ∀ tree ∈ trees, tree.HeldBy tokens) :
    ∀ tree ∈ items, tree.HeldBy tokens := by
  induction h with
  | whole => exact hw
  | inside _ hm ih => exact fun part hp => (ih _ hm).parts hp

/-- A tree that is held by the tokens of another stands within that one. -/
theorem Tree.HeldBy.within {part tree : Tree} {tokens : List Token} (h : part.HeldBy tokens)
    (ht : Spells [tree] tokens) (ho : InOrder tokens) :
    tree.span.lo ≤ part.span.lo ∧ part.span.hi ≤ tree.span.hi := by
  obtain ⟨us, hin, hmade⟩ := h
  obtain ⟨first, hfirst, last, hlast, hspan⟩ := ht.exists_ends
  obtain ⟨head, hhead, tail, htail, hpart⟩ := hmade.spells.exists_ends
  rw [hspan, hpart]
  exact ⟨ho.lo_le hfirst (hin.subset (List.mem_of_mem_head? hhead)),
    ho.hi_le hlast (hin.subset (List.mem_of_mem_getLast? htail))⟩

/-! ## Trees nearer to the start -/

mutual

/-- A tree that many places nearer to the start of a text. -/
def Tree.back (n : Int) : Tree → Tree
  | .leaf token => .leaf (token.back n)
  | .group delimiter opening closing inner =>
    .group delimiter (opening.back n) (closing.back n) (backAll n inner)
  | .repetition dollar closing inner separator operator =>
    .repetition (dollar.back n) (closing.back n) (backAll n inner)
      (separator.map (Token.back n)) (operator.back n)

def backAll (n : Int) : List Tree → List Tree
  | [] => []
  | tree :: trees => tree.back n :: backAll n trees

end

/-- Twins whose tokens all stand that many places nearer to the start do so themselves. -/
theorem Twins.eq_backAll {n : Int} {trees trees' : List Tree} {ps : List Pair}
    (h : Twins trees trees' ps) (hb : ∀ p ∈ ps, p.2 = p.1.back n) : trees' = backAll n trees := by
  induction h with
  | nil => rfl
  | @leaf p _ _ ps _ _ ih =>
    rw [backAll, Tree.back, hb p List.mem_cons_self,
      ih fun q hq => hb q (List.mem_cons_of_mem p hq)]
  | @group d o o' c c' inner inner' trees trees' inside ps _ _ ihi ih =>
    have ho : o' = o.back n :=
      congrArg Token.span (hb (openingToken d o, openingToken d o') (by simp))
    have hc : c' = c.back n :=
      congrArg Token.span (hb (closingToken d c, closingToken d c') (by simp))
    rw [backAll, Tree.back, ho, hc, ihi fun p hp => hb p (by simp [hp]),
      ih fun p hp => hb p (by simp [hp])]
  | @repetition dollar op sep o o' c c' inner inner' trees trees' inside ps _ _ ihi ih =>
    have hd := hb dollar (by simp)
    have hop := hb op (by simp)
    have hc : c' = c.back n :=
      congrArg Token.span (hb (closingToken .paren c, closingToken .paren c') (by simp))
    have hsep : sep.map Prod.snd = (sep.map Prod.fst).map (Token.back n) := by
      cases sep with
      | none => rfl
      | some separator => exact congrArg some (hb separator (by simp))
    have hspan : dollar.2.span = dollar.1.span.back n := by rw [hd]; rfl
    rw [backAll, Tree.back, hspan, hc, hsep, hop, ihi fun p hp => hb p (by simp [hp]),
      ih fun p hp => hb p (by simp [hp])]

/-! ## The trees of a source -/

/-- The text of a tree alone has that tree, and no other. -/
theorem Source.trees_slice {source : Source} (hs : ∀ piece ∈ pieces source.chars, piece.IsSound)
    {tree : Tree} (h : tree.HeldBy (tokensAt 0 (pieces source.chars))) (name : String) :
    (ofText name (source.slice tree.span)).trees = .ok [tree.back tree.span.lo] := by
  obtain ⟨ts, hin, hmade⟩ := h
  obtain ⟨first, hfirst, last, hlast, hspan⟩ := hmade.spells.exists_ends
  obtain ⟨n, htokens⟩ := source.tokens_slice hs hin hfirst hlast name
  obtain ⟨raw, hraw, hgather⟩ := hmade
  have hspelled : ∀ token ∈ ts, token.IsSpelled := fun token ht =>
    isSpelled_tokensAt 0 (legible_pieces source.chars hs) token (hin.subset ht)
  have hend : (endToken n).kind = .endOfText := rfl
  have halone := hraw.assemble_eq_gather hend
  obtain ⟨hno, htwins⟩ := twins_assemble_map (Token.back first.span.lo) (fun _ => rfl) hspelled
    hend hend (by rw [halone])
  rw [halone, hgather] at htwins
  have hback := htwins.eq_backAll (n := first.span.lo) fun p hp => by
    obtain ⟨token, -, rfl⟩ := List.mem_map.mp hp
    rfl
  rw [hspan]
  exact (trees_eq_ok_iff _ _).mpr ⟨_, htokens, hno, hback⟩

/-- Where the trees of a source stand, at every depth. Siblings stand one behind the other. A tree
lies within the text and covers all that it holds, and its text alone has exactly that tree, moved
to the start. -/
theorem Source.trees_spans (source : Source) {trees : List Tree} (h : source.trees = .ok trees)
    {items : List Tree} (hi : SiblingsIn trees items) :
    items.Pairwise (fun a b => a.span.hi ≤ b.span.lo) ∧
      ∀ tree ∈ items,
        (0 ≤ tree.span.lo ∧ tree.span.lo < tree.span.hi ∧
          tree.span.hi ≤ source.chars.length) ∧
        (∀ held, SiblingsIn tree.parts held → ∀ part ∈ held,
          tree.span.lo ≤ part.span.lo ∧ part.span.hi ≤ tree.span.hi) ∧
        ∀ name, (ofText name (source.slice tree.span)).trees = .ok [tree.back tree.span.lo] := by
  obtain ⟨hs, hsp⟩ := source.spells_trees h
  have ho := (inOrder_tokensAt 0 (legible_pieces source.chars hs)).1
  obtain ⟨us, hus, hsub⟩ := hsp.of_siblingsIn hi
  obtain ⟨hpair, hspan⟩ := hus.inOrder (ho.sublist hsub)
  have hheld : ∀ tree ∈ items, tree.HeldBy (tokensAt 0 (pieces source.chars)) := by
    obtain ⟨tokens, htokens, hno, rfl⟩ := (source.trees_eq_ok_iff trees).mp h
    obtain ⟨-, rfl⟩ := (source.tokens_eq_ok_iff tokens).mp htokens
    obtain ⟨raw, hraw⟩ := exists_nests (isMarked_tokensAt hs) rfl hno
    rw [hraw.assemble_eq_gather rfl] at hi
    exact hi.heldBy fun tree ht => hraw.heldBy ht
  refine ⟨hpair, fun tree ht => ⟨?_, ?_, fun name => trees_slice hs (hheld tree ht) name⟩⟩
  · obtain ⟨h0, hlt, -⟩ := hspan tree ht
    obtain ⟨ts, hin, hmade⟩ := hheld tree ht
    obtain ⟨first, -, last, hlast, heq⟩ := hmade.spells.exists_ends
    have hle := (span_of_mem_tokensAt hs (hin.subset (List.mem_of_mem_getLast? hlast))).2.2
    exact ⟨h0, hlt, by rwa [heq]⟩
  · obtain ⟨ts, hin, hmade⟩ := hheld tree ht
    intro held hh part hp
    have hpart := hh.heldBy (fun part hp => hmade.parts hp) part hp
    exact hpart.within hmade.spells (ho.sublist hin.sublist)

/-- A group within a repetition, before its separator and its operator. -/
theorem repeatedText_spans :
    let source := Source.ofText "repeated" "a $( [b]),*".toList
    let inner : Tree := .group .bracket ⟨5, 6⟩ ⟨7, 8⟩ [.leaf ⟨.identifier, ['b'], ⟨6, 7⟩⟩]
    let comma : Token := ⟨.operator, [','], ⟨9, 10⟩⟩
    let star : Token := ⟨.operator, ['*'], ⟨10, 11⟩⟩
    let repeated : Tree := .repetition ⟨2, 3⟩ ⟨8, 9⟩ [inner] (some comma) star
    let trees : List Tree := [.leaf ⟨.identifier, ['a'], ⟨0, 1⟩⟩, repeated]
    source.trees = .ok trees ∧ SiblingsIn trees [inner, .leaf comma, .leaf star] ∧
      [inner, .leaf comma, .leaf star].Pairwise (fun a b => a.span.hi ≤ b.span.lo) ∧
      source.slice inner.span = "[b]".toList ∧
      ∀ name, (Source.ofText name "[b]".toList).trees = .ok [inner.back 5] := by
  intro source inner comma star repeated trees
  have htrees : source.trees = .ok trees := rfl
  have hrepeated : repeated ∈ trees := List.mem_cons_of_mem _ List.mem_cons_self
  have hin : SiblingsIn trees [inner, .leaf comma, .leaf star] := .inside .whole hrepeated
  obtain ⟨hpair, hall⟩ := source.trees_spans htrees hin
  obtain ⟨-, -, hslice⟩ := hall inner List.mem_cons_self
  exact ⟨htrees, hin, hpair, by decide +kernel, hslice⟩

end Offside
