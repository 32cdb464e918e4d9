import Offside.Proofs.LineStarts
import Offside.Proofs.Outlines
import Offside.Proofs.ProgramLayout
import Offside.Proofs.TreeJoin

/-!
# Lines at the column of no block

A line that starts left of the innermost block and at the column of none is reported where it
starts, with the columns of the blocks that are open before it, whatever follows.

- `Scope.On`, `Scope.Meets`: the blocks that are open on a line, and those that the item at the
  start of a line leaves open.
- `exists_on_of_rowsStand`: the layout of the lines of a program leaves the blocks of the last one.
- `Nests.of_leaves`, `gather_leaves_append`: tokens that are no brackets are trees of their own.
- `Outline.convert_dedented`: the conversion of a program one of whose lines starts at the column
  of no block.
-/
namespace Offside

set_option autoImplicit false

open Layout

namespace Layout

/-! ## Open blocks on a line -/

/-- The blocks that are open stand at the given columns, and the last item met ended on the given
line. -/
structure Scope.On (scope : Scope) (columns : List Nat) (n : Nat) : Prop where
  columns_eq : scope.columns = columns.map fun c : Nat => (c : Int)
  lastLine_eq : scope.lastLine = some (n : Int)

/-- An item at the given line and column that ends on its line leaves blocks at the given columns
open. -/
def Scope.Meets (scope : Scope) (columns : List Nat) (n c : Nat) : Prop :=
  ∀ region : Region, region.start = ⟨n, c⟩ → region.stop.line = n →
    ∃ events reached, scope.arrive region = .ok (events, reached) ∧ reached.On columns n

theorem getLast?_columns (scope : Scope) : scope.columns.getLast? = some scope.column := by
  unfold Scope.columns Scope.column
  cases scope.blocks with
  | nil => rfl
  | cons level outer =>
    rw [List.map_cons, List.reverse_cons, ← List.cons_append, List.getLast?_concat]
    rfl

namespace Scope.On

variable {scope : Scope} {columns : List Nat} {n : Nat}

theorem column_eq {outer : List Nat} {c : Nat} (h : scope.On (outer ++ [c]) n) :
    scope.column = c := by
  have hlast := getLast?_columns scope
  rw [h.columns_eq, List.map_append, List.map_singleton, List.getLast?_concat] at hlast
  exact (Option.some.inj hlast).symm

theorem note (h : scope.On columns n) (rules : Rules) (tree : Tree) :
    (tree.note rules scope).On columns n := by
  constructor
  · rw [Scope.columns, blocks_note]
    exact h.columns_eq
  · rw [lastLine_note]
    exact h.lastLine_eq

/-- An item that ends on the line of the one before it decides nothing. -/
theorem arrive_within (h : scope.On columns n) {region : Region} (hstop : region.stop.line = n) :
    scope.arrive region = .ok ([], scope) := by
  rw [Scope.arrive, h.lastLine_eq]
  simp only
  rw [if_neg (by omega)]

/-- An item that ends further down starts a line. -/
theorem arrive_below (h : scope.On columns n) (region : Region) (hstop : n < region.stop.line) :
    scope.arrive region =
      Scope.startLine { scope with lastLine := some region.stop.line } region := by
  rw [Scope.arrive, h.lastLine_eq]
  simp only
  rw [if_pos hstop]

/-- The blocks up to one that is open, and those inside it, which stand right of it. -/
theorem exists_blocks_eq {outer inner : List Nat} {c : Nat} (h : scope.On (outer ++ [c] ++ inner) n)
    (hsorted : (outer ++ [c] ++ inner).Pairwise (· < ·)) :
    ∃ closed left, scope.blocks = closed ++ left ∧ (∀ level ∈ closed, (c : Int) < level.column) ∧
      ∀ pending, Scope.On ⟨left, pending, scope.lastLine⟩ (outer ++ [c]) n := by
  have hcolumns := h.columns_eq
  rw [Scope.columns, List.map_append] at hcolumns
  obtain ⟨first, kept, hkept⟩ : ∃ first kept,
      (outer ++ [c]).map (fun e : Nat => (e : Int)) = first :: kept := by
    cases outer with
    | nil => exact ⟨_, _, rfl⟩
    | cons e outer => exact ⟨_, _, rfl⟩
  rw [hkept, List.cons_append] at hcolumns
  obtain ⟨rfl, hrest⟩ := List.cons.inj hcolumns
  rw [List.reverse_eq_iff, List.reverse_append] at hrest
  obtain ⟨closed, left, hblocks, hclosed, hleft⟩ := List.map_eq_append_iff.mp hrest
  refine ⟨closed, left, hblocks, fun level hlevel => ?_, fun pending => ⟨?_, h.lastLine_eq⟩⟩
  · have hmem : level.column ∈ (inner.map fun e : Nat => (e : Int)).reverse := by
      rw [← hclosed]
      exact List.mem_map_of_mem hlevel
    obtain ⟨e, he, heq⟩ := List.mem_map.mp (List.mem_reverse.mp hmem)
    have hce : c < e :=
      (List.pairwise_append.mp hsorted).2.2 c (List.mem_append_right _ List.mem_cons_self) e he
    omega
  · rw [hkept, Scope.columns, hleft, List.reverse_reverse]

/-- A line that starts at the column of an open block leaves that block and those around it. -/
theorem meets (h : scope.On columns n) (hsorted : columns.Pairwise (· < ·)) {outer : List Nat}
    {c m : Nat} (hp : outer ++ [c] <+: columns) (hnm : n < m) :
    scope.Meets (outer ++ [c]) m c := by
  intro region hstart hstop
  obtain ⟨inner, rfl⟩ := hp
  obtain ⟨closed, left, hblocks, hright, hleft⟩ := h.exists_blocks_eq hsorted
  have hc : innermost left = c := (hleft none).column_eq
  have hcolumn : region.start.column = c := by rw [hstart]
  have harrive := h.arrive_below region (by omega)
  rw [startLine_of_blocks (by exact hblocks) hc hright hcolumn] at harrive
  refine ⟨_, _, harrive, (hleft none).columns_eq, ?_⟩
  show some region.stop.line = some (m : Int)
  rw [hstop]

/-- A line that starts left of the innermost block and at the column of none is refused. -/
theorem arrive_unknown {outer : List Nat} {c d : Nat} (h : scope.On (outer ++ [c]) n)
    (hleft : d < c) (hnone : d ∉ outer ++ [c]) {region : Region}
    (hcolumn : region.start.column = d) (hstop : n < region.stop.line) :
    scope.arrive region =
      .error (.unknownColumn region ((outer ++ [c]).map fun c : Nat => (c : Int))) := by
  have hc := h.column_eq
  have hnot : (d : Int) ∉ scope.columns := by
    rw [h.columns_eq]
    intro hm
    obtain ⟨e, he, heq⟩ := List.mem_map.mp hm
    obtain rfl : e = d := by omega
    exact hnone he
  rw [h.arrive_below region hstop, Scope.startLine, ← h.columns_eq]
  show (if scope.column < region.start.column then _ else _) = _
  rw [if_neg (by omega)]
  show (if region.start.column < scope.column ∧ region.start.column ∉ scope.columns then _
    else _) = _
  rw [if_pos ⟨by omega, by rw [hcolumn]; exact hnot⟩]
  rfl

end Scope.On

/-! ## Laying out lines -/

variable {source : Source} (rules : Rules)

/-- Behind a word the layout goes on as without it, from the scope that the word leaves. -/
theorem fault_word {scope reached : Scope} {token : Token} {events : List Event}
    (ha : scope.arrive (source.resolve token.span) = .ok (events, reached))
    (hw : token.kind.IsWord) (rest : List Tree) :
    (layoutItems source rules scope (.leaf token :: rest)).fault =
      (layoutItems source rules ((Tree.leaf token).note rules reached) rest).fault := by
  have hm : (Tree.leaf token).marker? = none := by
    rw [Tree.marker?, if_neg hw.1]
  rw [layoutItems_item source rules ha hm, layoutTree]
  rfl

theorem fault_arrow {scope reached : Scope} {token : Token} {events : List Event}
    (ha : scope.arrive (source.resolve token.span) = .ok (events, reached))
    (hk : token.kind = .fatArrow) (next : Tree) (rest : List Tree) :
    (layoutItems source rules scope (.leaf token :: next :: rest)).fault =
      (layoutItems source rules
        ⟨⟨(source.resolve next.span).start.column, reached.pending⟩ :: reached.blocks, none,
          some (source.resolve next.span).stop.line⟩ (next :: rest)).fault := by
  have hm : (Tree.leaf token).marker? = some token := by
    rw [Tree.marker?, if_pos hk]
  rw [layoutItems_marker source rules ha hm]
  rfl

/-- The words of a line behind the first leave the same blocks open. -/
theorem exists_on_of_words {words : List Token} {scope : Scope} {columns : List Nat} {n : Nat}
    (h : scope.On columns n) (hw : ∀ token ∈ words, token.kind.IsWord)
    (hline : ∀ token ∈ words, token.OnLine source n) :
    ∃ left : Scope, left.On columns n ∧ ∀ rest,
      (layoutItems source rules scope (words.map .leaf ++ rest)).fault =
        (layoutItems source rules left rest).fault := by
  induction words generalizing scope with
  | nil => exact ⟨scope, h, fun _ => rfl⟩
  | cons token words ih =>
    have ha := h.arrive_within (hline token List.mem_cons_self).2
    obtain ⟨left, hleft, hrest⟩ := ih (h.note rules (.leaf token))
      (fun t ht => hw t (List.mem_cons_of_mem token ht))
      (fun t ht => hline t (List.mem_cons_of_mem token ht))
    refine ⟨left, hleft, fun rest => ?_⟩
    rw [List.map_cons, List.cons_append, fault_word rules ha (hw token List.mem_cons_self), hrest]

/-- The words of a line leave the blocks open that its first word leaves open. -/
theorem exists_on_of_meets {first : Token} {words : List Token} {scope : Scope}
    {columns : List Nat} {n c : Nat} (hm : scope.Meets columns n c)
    (hstart : (source.resolve first.span).start = ⟨n, c⟩)
    (hw : ∀ token ∈ first :: words, token.kind.IsWord)
    (hline : ∀ token ∈ first :: words, token.OnLine source n) :
    ∃ left : Scope, left.On columns n ∧ ∀ rest,
      (layoutItems source rules scope ((first :: words).map .leaf ++ rest)).fault =
        (layoutItems source rules left rest).fault := by
  obtain ⟨events, reached, ha, hreached⟩ := hm _ hstart (hline first List.mem_cons_self).2
  obtain ⟨left, hleft, hrest⟩ := exists_on_of_words rules (hreached.note rules (.leaf first))
    (fun t ht => hw t (List.mem_cons_of_mem first ht))
    (fun t ht => hline t (List.mem_cons_of_mem first ht))
  refine ⟨left, hleft, fun rest => ?_⟩
  rw [List.map_cons, List.cons_append, fault_word rules ha (hw first List.mem_cons_self), hrest]

/-- Behind the arrow of a line the block of the next line is open, and its first item is met. -/
theorem meets_opened {scope : Scope} {columns : List Nat} {n c : Nat} (h : scope.On columns n) :
    Scope.Meets ⟨⟨c, scope.pending⟩ :: scope.blocks, none, some (n + 1 : Nat)⟩ (columns ++ [c])
      (n + 1) c := by
  have hon : Scope.On ⟨⟨c, scope.pending⟩ :: scope.blocks, none, some (n + 1 : Nat)⟩
      (columns ++ [c]) (n + 1) := by
    constructor
    · rw [List.map_append, ← h.columns_eq, Scope.columns, Scope.columns, List.map_cons,
        List.reverse_cons]
      rfl
    · rfl
  intro region _ hstop
  exact ⟨_, _, hon.arrive_within hstop, hon⟩

/-- The words of a line and the arrow behind them open the block of the next line, whose first item
is met. -/
theorem exists_meets_of_arrow {first token second : Token} {words : List Token} {scope : Scope}
    {columns : List Nat} {n c d : Nat} (hm : scope.Meets columns n c)
    (hstart : (source.resolve first.span).start = ⟨n, c⟩)
    (hw : ∀ token ∈ first :: words, token.kind.IsWord)
    (hline : ∀ token ∈ first :: words, token.OnLine source n) (hk : token.kind = .fatArrow)
    (htoken : token.OnLine source n)
    (hstart' : (source.resolve second.span).start = ⟨(n + 1 : Nat), d⟩)
    (hstop' : (source.resolve second.span).stop.line = (n + 1 : Nat)) :
    ∃ left : Scope, left.Meets (columns ++ [d]) (n + 1) d ∧ ∀ rest,
      (layoutItems source rules scope
          ((first :: (words ++ [token])).map .leaf ++ .leaf second :: rest)).fault =
        (layoutItems source rules left (.leaf second :: rest)).fault := by
  obtain ⟨reached, hreached, hhead⟩ := exists_on_of_meets rules hm hstart hw hline
  refine ⟨_, meets_opened hreached, fun rest => ?_⟩
  have hcolumn : (source.resolve (Tree.leaf second).span).start.column = d := by
    show (source.resolve second.span).start.column = _
    rw [hstart']
  have hend : (source.resolve (Tree.leaf second).span).stop.line = (n + 1 : Nat) := hstop'
  have harrow := fault_arrow rules (hreached.arrive_within htoken.2) hk (.leaf second) rest
  rw [hcolumn, hend] at harrow
  have hitems : (first :: (words ++ [token])).map Tree.leaf ++ .leaf second :: rest =
      (first :: words).map .leaf ++ (.leaf token :: .leaf second :: rest) := by
    simp
  rw [hitems, hhead, harrow]

/-- The lines of a program, of which the last opens no block, leave the blocks open that this line
is in. -/
theorem exists_on_of_rowsStand {row last : Row} {rows : List Row} {n : Nat} {tokens : List Token}
    (hs : RowsStand source n (row :: rows) tokens)
    (hchain : (row :: rows).IsChain Row.Follows) (hsorted : row.columns.Pairwise (· < ·))
    (hlast : (row :: rows).getLast? = some last) (hplain : last.opens = false) {scope : Scope}
    (hm : scope.Meets row.columns n row.column) :
    ∃ left : Scope, left.On last.columns (n + rows.length) ∧ ∀ rest,
      (layoutItems source rules scope (tokens.map .leaf ++ rest)).fault =
        (layoutItems source rules left rest).fault := by
  induction rows generalizing row n tokens scope with
  | nil =>
    obtain rfl : row = last := Option.some.inj hlast
    cases hs with
    | @row _ _ _ first words arrow _ hstart hwords harrow hline h =>
      cases h
      rw [hplain] at harrow
      obtain rfl : arrow = [] := List.map_eq_nil_iff.mp harrow
      rw [List.append_nil] at hline ⊢
      rw [List.append_nil]
      exact exists_on_of_meets rules hm hstart hwords hline
  | cons next rows ih =>
    obtain ⟨hfollows, hchain⟩ := List.isChain_cons_cons.mp hchain
    rw [List.getLast?_cons_cons] at hlast
    have hnext := hfollows.pairwise hsorted
    cases hs with
    | @row _ _ _ first words arrow tokens hstart hwords harrow hline h =>
      have hline' : ∀ token ∈ first :: words, token.OnLine source n := by
        intro token ht
        apply hline
        rw [← List.cons_append]
        exact List.mem_append_left arrow ht
      have hheight : n + (next :: rows).length = n + 1 + rows.length := by
        rw [List.length_cons]
        omega
      rw [hheight]
      cases hopens : row.opens with
      | false =>
        rw [hopens] at harrow
        obtain rfl : arrow = [] := List.map_eq_nil_iff.mp harrow
        rw [Row.Follows, hopens, if_neg Bool.false_ne_true] at hfollows
        obtain ⟨reached, hreached, hhead⟩ := exists_on_of_meets rules hm hstart hwords hline'
        obtain ⟨left, hleft, hrest⟩ := ih h hchain hnext hlast
          (hreached.meets hsorted hfollows (Nat.lt_succ_self n))
        refine ⟨left, hleft, fun rest => ?_⟩
        rw [List.append_nil, List.map_append, List.append_assoc, hhead, hrest]
      | true =>
        rw [hopens] at harrow
        obtain ⟨token, rfl, hk⟩ : ∃ token, arrow = [token] ∧ token.kind = .fatArrow := by
          obtain ⟨token, htoken, hk⟩ := List.map_eq_singleton_iff.mp harrow
          exact ⟨token, htoken, hk⟩
        rw [Row.Follows, hopens, if_pos rfl] at hfollows
        have hbelow := h
        cases h with
        | @row _ _ _ second others arrow' behind hsecond _ _ hbehind _ =>
          obtain ⟨reached, hreached, hhead⟩ := exists_meets_of_arrow rules hm hstart hwords hline' hk
            (hline token (by simp)) hsecond (hbehind second List.mem_cons_self).2
          rw [← hfollows.1] at hreached
          obtain ⟨left, hleft, hrest⟩ := ih hbelow hchain hnext hlast hreached
          refine ⟨left, hleft, fun rest => ?_⟩
          have hitems : (second :: (others ++ arrow') ++ behind).map Tree.leaf ++ rest =
              .leaf second :: ((others ++ arrow' ++ behind).map .leaf ++ rest) := rfl
          rw [List.map_append, List.append_assoc, ← hrest, hitems, hhead]

theorem meets_fresh (n c : Nat) : Scope.fresh.Meets [0] n c := by
  intro region _ hstop
  refine ⟨[], ⟨[], none, some region.stop.line⟩, rfl, rfl, ?_⟩
  rw [hstop]

end Layout

/-! ## The trees of lines -/

/-- Tokens that are no brackets are trees of their own before any others. -/
theorem Nests.of_leaves {tokens behind : List Token} {trees : List Tree}
    (hl : ∀ token ∈ tokens, token.IsLeaf) (h : Nests trees (tokens ++ behind)) :
    ∃ rest, trees = tokens.map .leaf ++ rest ∧ Nests rest behind := by
  induction tokens generalizing trees with
  | nil => exact ⟨trees, rfl, h⟩
  | cons token tokens ih =>
    have hleaf := hl token List.mem_cons_self
    have hrest := fun t ht => hl t (List.mem_cons_of_mem token ht)
    rw [List.cons_append] at h
    generalize hall : token :: (tokens ++ behind) = all at h
    cases h with
    | nil => cases hall
    | leaf _ h =>
      obtain ⟨rfl, rfl⟩ := List.cons.inj hall
      obtain ⟨rest, rfl, hbehind⟩ := ih hrest h
      exact ⟨rest, rfl, hbehind⟩
    | group d o c _ _ =>
      obtain ⟨rfl, -⟩ := List.cons.inj hall
      exact absurd rfl hleaf.1

theorem gatherStep_leaf_leaf (token next : Token) (rest : List Tree) :
    Tree.gatherStep (.leaf token) (.leaf next :: rest) = (.leaf token, 0) := rfl

/-- No repetition starts at a token that another token follows. -/
theorem gather_leaves_append (tokens : List Token) (first : Token) (rest : List Tree) :
    Tree.gather (tokens.map .leaf ++ .leaf first :: rest) =
      tokens.map .leaf ++ Tree.gather (.leaf first :: rest) := by
  induction tokens with
  | nil => rfl
  | cons token tokens ih =>
    have hstep : Tree.gatherStep (.leaf token) (tokens.map .leaf ++ .leaf first :: rest) =
        (.leaf token, 0) := by
      cases tokens with
      | nil => exact gatherStep_leaf_leaf token first rest
      | cons next tokens => exact gatherStep_leaf_leaf token next _
    rw [List.map_cons, List.cons_append, Tree.gather_cons, hstep, List.drop_zero, ih]
    rfl

/-- A repetition starts where its first token does. -/
theorem lo_gatherStep (token : Token) (rest : List Tree) :
    (Tree.gatherStep (.leaf token) rest).1.span.lo = token.span.lo := by
  unfold Tree.gatherStep
  cases hfound : Tree.repetition? (.leaf token) rest with
  | none => rfl
  | some found =>
    obtain ⟨tree, taken⟩ := found
    cases repetition?_eq_some_iff.mp hfound with
    | plain => rfl
    | parted => rfl

/-- The first tokens of a source are trees of their own if they are no brackets, and a tree starts
at the token behind them if that is none either. -/
theorem Source.exists_trees_of_leaves {source : Source} {trees : List Tree}
    (ht : source.trees = .ok trees) {tokens behind : List Token} {first : Token}
    (h : tokensAt 0 (pieces source.chars) = tokens ++ first :: behind)
    (hl : ∀ token ∈ tokens ++ [first],
      token.kind ≠ .openDelimiter ∧ token.kind ≠ .closeDelimiter) :
    ∃ next more, trees = tokens.map .leaf ++ next :: more ∧ next.span.lo = first.span.lo := by
  obtain ⟨all, htokens, hno, rfl⟩ := (source.trees_eq_ok_iff trees).mp ht
  obtain ⟨hs, rfl⟩ := (source.tokens_eq_ok_iff all).mp htokens
  have hmarked := Source.isMarked_tokensAt hs
  obtain ⟨raw, hraw⟩ := exists_nests hmarked rfl hno
  rw [hraw.assemble_eq_gather rfl]
  rw [h, List.append_cons] at hraw
  have hleaf : ∀ token ∈ tokens ++ [first], token.IsLeaf := by
    intro token hm
    obtain ⟨hopen, hclose⟩ := hl token hm
    refine ⟨hopen, hclose, (hmarked token ?_).kind_ne⟩
    rw [h, List.append_cons]
    exact List.mem_append_left behind hm
  obtain ⟨rest, rfl, -⟩ := hraw.of_leaves hleaf
  have hgather := gather_leaves_append tokens first rest
  rw [Tree.gather_cons] at hgather
  rw [List.map_append, List.append_assoc]
  exact ⟨_, _, hgather, lo_gatherStep first rest⟩

theorem RowsStand.no_brackets {source : Source} {n : Nat} {rows : List Row} {tokens : List Token}
    (h : RowsStand source n rows tokens) :
    ∀ token ∈ tokens, token.kind ≠ .openDelimiter ∧ token.kind ≠ .closeDelimiter := by
  induction h with
  | nil => exact fun token ht => absurd ht List.not_mem_nil
  | @row _ row _ first words arrow tokens _ hwords harrow _ _ ih =>
    intro token ht
    rw [← List.cons_append] at ht
    rcases List.mem_append.mp ht with ht | ht
    · rcases List.mem_append.mp ht with ht | ht
      · exact (hwords token ht).2
      · have hk : token.kind ∈ arrowIf row.opens := harrow ▸ List.mem_map_of_mem ht
        unfold arrowIf at hk
        split at hk
        · rw [List.mem_singleton.mp hk]
          decide
        · cases hk
    · exact ih token ht

/-! ## Reported lines -/

/-- The text of a program up to a line that is printed at a column, and what is behind it. -/
def dedented (before : List Row) (d : Nat) (row : Row) (rest : List Char) : List Char :=
  printedAll before ++ (List.replicate d ' ' ++ (row.line.text ++ rest))

/-- The tokens of such a text: those of the lines before, and the first of the line. -/
theorem exists_tokens_dedented {source : Source} {before : List Row} {d : Nat} {row : Row}
    {rest : List Char} (h : source.chars = dedented before d row rest)
    (hrest : rest = [] ∨ ∃ more, rest = '\n' :: more) :
    ∃ tokens first behind, tokensAt 0 (pieces source.chars) = tokens ++ first :: behind ∧
      RowsStand source 0 before tokens ∧ first.kind.IsWord ∧
      source.position first.span.lo = ⟨before.length, d⟩ := by
  have hwhole : source.chars =
      [] ++ (printedAll before ++ (List.replicate d ' ' ++ (row.line.text ++ rest))) := h
  obtain ⟨tokens, hstand, htokens, hend⟩ :=
    exists_rowsStand (n := 0) (by rfl) hwhole
  obtain ⟨tail, htail⟩ : ∃ tail, pieces (row.line.text ++ rest) = pieces row.line.text ++ tail := by
    rcases hrest with rfl | ⟨more, rfl⟩
    · exact ⟨[], by rw [List.append_nil, List.append_nil]⟩
    · exact ⟨_, pieces_join row.line.sound more⟩
  obtain ⟨first, words, arrow, hline, hlo, hwords, -, -⟩ :=
    row.line.exists_tokens ((printedAll before).length + d)
  have hfirst : tokensAt (printedAll before).length
      (pieces (List.replicate d ' ' ++ (row.line.text ++ rest))) =
      first :: (words ++ arrow) ++
        tokensAt ((printedAll before).length + d + totalWidth (pieces row.line.text)) tail := by
    rw [pieces_spaces, tokensAt_blankPieces, List.length_replicate, htail, tokensAt_append, ← hline,
      ← tokensAt_add, Nat.zero_add]
  have hlength : (printedAll before ++ List.replicate d ' ').length =
      (printedAll before).length + d := by
    rw [List.length_append, List.length_replicate]
  rw [List.nil_append] at htokens hend
  rw [hfirst] at htokens
  have hchars : source.chars =
      (printedAll before ++ List.replicate d ' ') ++ (row.line.text ++ rest) := by
    rw [h, dedented, List.append_assoc]
  have hposition : source.position first.span.lo = ⟨before.length, d⟩ := by
    rw [hlo, ← hlength, source.position_length_append hchars, Position.after_append, hend,
      Position.after_of_no_newline _ _ (newline_not_mem_spaces d), List.length_replicate]
    simp
  rw [List.nil_append] at hwhole
  rw [← hwhole] at htokens
  exact ⟨tokens, first, _, htokens, hstand, hwords first List.mem_cons_self, hposition⟩

/-- A line of a program that is printed left of the innermost block, at the column of no block, is
reported where it starts, with the columns of all blocks that are open before it. Only the lines
before it matter. -/
theorem Outline.convert_dedented (outline : Outline) (hf : outline.Fits 0) {before after : List Row}
    {row previous : Row} (hrows : outline.rows [] 0 = before ++ row :: after)
    (hprevious : before.getLast? = some previous) (hplain : previous.opens = false) {d : Nat}
    (hleft : d < previous.column) (hnone : d ∉ previous.columns) {rest : List Char}
    (hrest : rest = [] ∨ ∃ more, rest = '\n' :: more) (rules : Rules) (name : String)
    {trees : List Tree}
    (ht : (Source.ofText name (dedented before d row rest)).trees = .ok trees) :
    ∃ region : Region, region.start = ⟨before.length, d⟩ ∧
      ((Source.ofText name (dedented before d row rest)).convert rules).result =
        .error (.layout (Diagnostic.errorAt name region "E200"
          "unindent does not match any outer indentation level" "dedent to an unknown column"
          ["open blocks start at columns " ++
            ", ".intercalate (previous.columns.map fun c => toString (c + 1))])) := by
  set source := Source.ofText name (dedented before d row rest) with hsource
  obtain ⟨tokens, first, behind, htokens, hstand, hword, hposition⟩ :=
    exists_tokens_dedented (show source.chars = dedented before d row rest from rfl) hrest
  obtain ⟨next, more, rfl, hlo⟩ := Source.exists_trees_of_leaves ht htokens (by
    intro token hm
    rcases List.mem_append.mp hm with hm | hm
    · exact hstand.no_brackets token hm
    · rw [List.mem_singleton.mp hm]
      exact hword.2)
  have hstart : (source.resolve next.span).start = ⟨before.length, d⟩ := by
    rw [source.resolve_start, hlo, hposition]
  refine ⟨source.resolve next.span, hstart, ?_⟩
  obtain ⟨top, hhead, hcolumns⟩ := (outline.rowsIn_rows [] hf).first
  have hchain := (outline.rowsIn_rows [] hf).chain
  rw [hrows] at hhead hchain
  obtain ⟨lines, rfl⟩ : ∃ lines, before = top :: lines := by
    cases before with
    | nil => cases hprevious
    | cons line lines =>
      obtain rfl : line = top := Option.some.inj hhead
      exact ⟨lines, rfl⟩
  obtain ⟨left, hleave, hrun⟩ := exists_on_of_rowsStand rules hstand
    hchain.left_of_append (by rw [hcolumns]; exact List.pairwise_singleton _ _) hprevious hplain
    (by rw [hcolumns]; exact meets_fresh 0 top.column)
  have hstop : ((0 + lines.length : Nat) : Int) < (source.resolve next.span).stop.line := by
    have hle := ((source.items_in_order ht .whole).2 next (by simp)).1
    rw [hstart, List.length_cons] at hle
    simp only at hle
    omega
  have harrive := hleave.arrive_unknown hleft hnone (by rw [hstart]) hstop
  have hfault : (source.layout rules (tokens.map .leaf ++ next :: more)).fault =
      some (.unknownColumn (source.resolve next.span)
        (previous.columns.map fun c : Nat => (c : Int))) := by
    rw [Source.layout, hrun, layoutItems_fault source rules harrive]
    rfl
  rw [source.convert_of_fault rules ht hfault, Fault.diagnostic, List.map_map]
  rfl

/-! ## A program -/

def Line.ofLeaf (leaf : Leaf) : Line false where
  text := leaf.text
  single := leaf.line
  sound := by
    rw [leaf.read]
    simp [Piece.IsSound, Piece.of]
  first := ⟨_, by rw [leaf.read]; rfl, rfl⟩
  words := ⟨[leaf.kind], by simp, by simp [TokenKind.IsWord, leaf.notArrow, leaf.notBracket],
    by rw [leaf.read]; rfl⟩

def arrowLine (c : Char) (h : pieces (c :: " =>".toList) =
    [.of (.token .identifier) [c], .of .blank [' '], .of (.token .fatArrow) fatArrow] ∧ c ≠ '\n') :
    Line true where
  text := c :: " =>".toList
  single := by
    have hne : '\n' ≠ c := h.2.symm
    simp [hne]
  sound := by
    rw [h.1]
    simp [Piece.IsSound, Piece.of]
  first := ⟨_, by rw [h.1]; rfl, rfl⟩
  words := ⟨[.identifier], by simp, by simp [TokenKind.IsWord], by rw [h.1]; rfl⟩

def steppedOutline : Outline :=
  .last (.block (arrowLine 'a' (by decide +kernel)) 4
    (.next
      (.block (arrowLine 'b' (by decide +kernel)) 8
        (.last (.line (.ofLeaf (letter 'u' (by decide +kernel))))))
      (.last (.line (.ofLeaf (letter 'v' (by decide +kernel)))))))

/-- The last line belongs to the column 4 and is printed at the column 6. -/
theorem steppedOutline_dedented :
    let text := "a =>\n    b =>\n        u\n      v\n(e)\n".toList
    steppedOutline.Fits 0 ∧ (steppedOutline.rows [] 0).map Row.columns =
        [[0], [0, 4], [0, 4, 8], [0, 4]] ∧
      (Source.ofText "stepped" text).trees.toOption.isSome = true ∧
      ∃ region : Region, region.start = ⟨3, 6⟩ ∧
        ((Source.ofText "stepped" text).convert plainRules).result =
          .error (.layout (Diagnostic.errorAt "stepped" region "E200"
            "unindent does not match any outer indentation level" "dedent to an unknown column"
            ["open blocks start at columns 1, 5, 9"])) := by
  intro text
  have hf : steppedOutline.Fits 0 := by
    simp [steppedOutline, Outline.Fits, Entry.Fits]
  have hsome : (Source.ofText "stepped" text).trees.toOption.isSome = true := by decide +kernel
  let row : Row := ⟨false, .ofLeaf (letter 'v' (by decide +kernel)), [0], 4⟩
  have hrows : steppedOutline.rows [] 0 = (steppedOutline.rows [] 0).take 3 ++ row :: [] := by
    simp [steppedOutline, Outline.rows, Entry.rows, row]
  have hprevious : ((steppedOutline.rows [] 0).take 3).getLast? =
      some ⟨false, .ofLeaf (letter 'u' (by decide +kernel)), [0, 4], 8⟩ := by
    simp [steppedOutline, Outline.rows, Entry.rows]
  refine ⟨hf, ?_, hsome, ?_⟩
  · simp [steppedOutline, Outline.rows, Entry.rows, Row.columns]
  · have htext : dedented ((steppedOutline.rows [] 0).take 3) 6 row ('\n' :: "(e)\n".toList) =
        text := by decide +kernel
    have htrees := trees_eq_ok hsome
    rw [← htext] at htrees ⊢
    exact steppedOutline.convert_dedented hf hrows hprevious rfl (by decide) (by decide)
      (.inr ⟨"(e)\n".toList, rfl⟩) plainRules "stepped" htrees

end Offside
