import Offside.Proofs.Edges
import Offside.Proofs.Weaving

/-!
# No lookup fails

A conversion looks up lines in a table, tokens behind a cursor, brackets by their character, and
blocks on a stack. Here each of these lookups answers nothing where there is nothing, and so does
all that rests on it. No conversion ever comes to that.

- `Source.position?`: the line of an offset, looked up in the table.
- `assemble?`: tokens read up to the end token and no further.
- `popTo?`: blocks taken off a stack down to a column, never the lowest place.
- `Source.layout?`, `Source.convert?`: what rests on these.
- `Source.convert?_eq`: every conversion finds all it looks up.
-/
namespace Offside

set_option autoImplicit false

open Layout

/-! ## Lines -/

/-- How many lines at the head of a table start at or before an offset. -/
def linesUpTo (offset : Int) : List Nat → Nat
  | [] => 0
  | start :: rest => if start ≤ offset then linesUpTo offset rest + 1 else 0

namespace Source

variable (source : Source)

/-- The position of an offset, on the last line of the table that starts at or before it. There is
none where no line does, or where the table has no such line. -/
def position? (offset : Int) : Option Position :=
  match linesUpTo offset source.starts with
  | 0 => none
  | line + 1 => source.starts[line]?.map fun start => ⟨line, offset - start⟩

def resolve? (span : Span) : Option Region := do
  let start ← source.position? span.lo
  if span.hi ≤ span.lo then some ⟨start, start⟩
  else
    let last ← source.position? (span.hi - 1)
    some ⟨start, ⟨last.line, last.column + 1⟩⟩

end Source

theorem exists_start_of_locate (table : List Nat) (start : Nat) (line offset : Int) :
    ∃ found, (start :: table)[linesUpTo offset table]? = some found ∧
      locate offset line start table = ⟨line + linesUpTo offset table, offset - found⟩ := by
  induction table generalizing start line with
  | nil => exact ⟨start, rfl, by simp [locate, linesUpTo]⟩
  | cons next table ih =>
    rw [locate, linesUpTo]
    by_cases hn : (next : Int) ≤ offset
    · obtain ⟨found, hfound, hlocate⟩ := ih next (line + 1)
      rw [if_pos hn, if_pos hn, hlocate]
      refine ⟨found, hfound, ?_⟩
      simp only [Position.mk.injEq, and_true]
      omega
    · rw [if_neg hn, if_neg hn]
      exact ⟨start, rfl, by simp⟩

theorem Source.position?_eq (source : Source) {offset : Int} (h : 0 ≤ offset) :
    source.position? offset = some (source.position offset) := by
  obtain ⟨found, hfound, hlocate⟩ :=
    exists_start_of_locate (startsAfter 0 source.chars) 0 0 offset
  rw [source.position_eq_locate h, hlocate, position?, source.starts_eq, lineStarts, linesUpTo,
    if_pos (by simpa using h)]
  simp [hfound]

example : (Source.ofText "empty" []).position? (-1) = none := by decide

theorem Source.resolve?_eq (source : Source) {span : Span} (h : 0 ≤ span.lo) :
    source.resolve? span = some (source.resolve span) := by
  unfold resolve? resolve
  rw [source.position?_eq h]
  by_cases hle : span.hi ≤ span.lo
  · simp [hle]
  · rw [source.position?_eq (by omega)]
    simp [hle]

/-! ## Tokens -/

namespace Source

variable (source : Source)

/-- The diagnostics about the tiles that are faults. -/
def faults? : List Tile → Option (List Diagnostic)
  | [] => some []
  | tile :: rest =>
    match tile.piece.lexeme with
    | .fault fault => do
      let region ← source.resolve? ⟨tile.start, tile.start + 1⟩
      let more ← faults? rest
      some (Diagnostic.errorAt source.name region fault.code fault.message "" [] :: more)
    | _ => faults? rest

def tokens? : Option (Except (List Diagnostic) (List Token)) :=
  (source.faults? (tiles source.chars)).map fun
    | [] => .ok source.lex.tokens
    | faults => .error faults

theorem faults?_eq (ts : List Tile) :
    source.faults? ts = some (ts.filterMap (Tile.diagnostic? source)) := by
  induction ts with
  | nil => rfl
  | cons tile rest ih =>
    rw [faults?]
    split
    · rename_i fault hf
      rw [source.resolve?_eq (Int.natCast_nonneg tile.start), ih]
      simp [Tile.diagnostic?, hf]
    · rename_i hf
      have hnone : tile.diagnostic? source = none := (diagnostic?_eq_none_iff source tile).mpr hf
      rw [ih, List.filterMap_cons_none hnone]

theorem tokens?_eq : source.tokens? = some source.tokens := by
  rw [tokens?, faults?_eq, Option.map_some, tokens]
  rfl

end Source

/-! ## Brackets -/

/-- Assembles tokens as `assemble` does. It answers nothing where the tokens end without an end
token, and where an opening bracket is none of the three. -/
def assemble? (frames : List Frame) (current : List Tree) : List Token → Option Assembly
  | [] => none
  | token :: rest =>
    match token.kind with
    | .endOfText => some (Assembly.finish frames current)
    | .openDelimiter => do
      let delimiter ← Delimiter.ofText? token.text
      assemble? (⟨token, delimiter, current⟩ :: frames) [] rest
    | .closeDelimiter =>
      match frames with
      | [] => (assemble? [] current rest).map (Assembly.withFault (.unopened token))
      | frame :: outer =>
        let group :=
          Tree.group frame.delimiter frame.opener.span token.span (Tree.gather current)
        (assemble? outer (frame.before ++ [group]) rest).map fun assembly =>
          if token.text = [frame.delimiter.closing] then assembly
          else assembly.withFault (.mismatched frame.delimiter token)
    | _ => assemble? frames (current ++ [.leaf token]) rest

theorem assemble?_eq {tokens : List Token} (hs : ∀ token ∈ tokens, token.IsSpelled) {last : Token}
    (hl : last.kind = .endOfText) (frames : List Frame) (current : List Tree) :
    assemble? frames current (tokens ++ [last]) =
      some (assemble frames current (tokens ++ [last])) := by
  induction tokens generalizing frames current with
  | nil => simp [assemble?, assemble, hl]
  | cons token tokens ih =>
    have ih := ih fun t ht => hs t (List.mem_cons_of_mem token ht)
    rw [List.cons_append]
    rcases hs token List.mem_cons_self with hp | ⟨hk, c, ht, ho⟩ | ⟨hk, -⟩ | ⟨hk, -⟩
    · have hleaf := Token.IsLeaf.of_isPlain hp
      rw [assemble_leaf _ _ hleaf, ← ih, assemble?.eq_def]
      simp only
      split
      · exact absurd (by assumption) hleaf.2.2
      · exact absurd (by assumption) hleaf.1
      · exact absurd (by assumption) hleaf.2.1
      · rfl
    · obtain ⟨d, hd, -⟩ := ofText?_of_isOpening ho
      rw [← ht] at hd
      rw [assemble_open _ _ hk hd, ← ih]
      simp [assemble?, hk, hd]
    · cases frames with
      | nil =>
        rw [assemble_close_nil _ hk]
        simp [assemble?, hk, ih]
      | cons frame outer =>
        rw [assemble_close_cons _ _ _ hk]
        simp [assemble?, hk, ih]
    · rw [assemble_leaf _ _ (by simp [Token.IsLeaf, hk]), ← ih]
      simp [assemble?, hk]

/-- A fault of the brackets is about one of the tokens, or about a bracket that was open before. -/
theorem token_of_mem_faults {tokens : List Token} {last : Token} (hl : last.kind = .endOfText)
    {frames : List Frame} {current : List Tree} {fault : BracketFault}
    (h : fault ∈ (assemble frames current (tokens ++ [last])).faults) :
    fault.token ∈ tokens ∨ ∃ frame ∈ frames, fault.token = frame.opener := by
  induction tokens generalizing frames current with
  | nil =>
    rw [List.nil_append, assemble_end frames current hl] at h
    obtain ⟨frame, hf, rfl⟩ := List.mem_map.mp h
    exact .inr ⟨frame, hf, rfl⟩
  | cons token tokens ih =>
    have hlater {frames' : List Frame} {current' : List Tree}
        (hm : fault ∈ (assemble frames' current' (tokens ++ [last])).faults)
        (hf : ∀ frame ∈ frames', frame.opener = token ∨ frame ∈ frames) :
        fault.token ∈ token :: tokens ∨ ∃ frame ∈ frames, fault.token = frame.opener := by
      obtain ht | ⟨frame, hframe, ht⟩ := ih hm
      · exact .inl (List.mem_cons_of_mem token ht)
      · rcases hf frame hframe with ho | ho
        · exact .inl (by rw [ht, ho]; exact List.mem_cons_self)
        · exact .inr ⟨frame, ho, ht⟩
    rw [List.cons_append, assemble.eq_def] at h
    simp only at h
    split at h
    · obtain ⟨frame, hf, rfl⟩ := List.mem_map.mp h
      exact .inr ⟨frame, hf, rfl⟩
    · refine hlater h fun frame hf => ?_
      rcases List.mem_cons.mp hf with rfl | hf
      · exact .inl rfl
      · exact .inr hf
    · split at h
      · rcases List.mem_cons.mp h with rfl | h
        · exact .inl List.mem_cons_self
        · exact hlater h (by simp)
      · rename_i frame outer
        split_ifs at h with hfit
        · exact hlater h fun frame' hf => .inr (List.mem_cons_of_mem frame hf)
        · rcases List.mem_cons.mp h with rfl | h
          · exact .inl List.mem_cons_self
          · exact hlater h fun frame' hf => .inr (List.mem_cons_of_mem frame hf)
    · exact hlater h fun frame hf => .inr hf

theorem mapM_eq_some {α β : Type} {f : α → Option β} {g : α → β} {l : List α}
    (h : ∀ a ∈ l, f a = some (g a)) : l.mapM f = some (l.map g) := by
  induction l with
  | nil => rfl
  | cons a l ih =>
    rw [List.mapM_cons, h a List.mem_cons_self, ih fun b hb => h b (List.mem_cons_of_mem a hb)]
    rfl

namespace Source

variable (source : Source)

def report? (fault : BracketFault) : Option Diagnostic := do
  let region ← source.resolve? fault.token.span
  some (Diagnostic.errorAt source.name region fault.code fault.message fault.label [])

def treesOf? (tokens : List Token) : Option (Except (List Diagnostic) (List Tree)) := do
  let assembly ← assemble? [] [] tokens
  match assembly.faults with
  | [] => some (.ok assembly.trees)
  | faults => (faults.mapM source.report?).map .error

def trees? : Option (Except (List Diagnostic) (List Tree)) := do
  match ← source.tokens? with
  | .ok tokens => source.treesOf? tokens
  | .error diagnostics => some (.error diagnostics)

theorem report?_eq {fault : BracketFault} (h : 0 ≤ fault.token.span.lo) :
    source.report? fault = some (fault.diagnostic source) := by
  rw [report?, source.resolve?_eq h]
  rfl

theorem trees?_eq : source.trees? = some source.trees := by
  rw [trees?, source.tokens?_eq, trees]
  cases ht : source.tokens with
  | error diagnostics => rfl
  | ok tokens =>
    obtain ⟨hs, rfl⟩ := (source.tokens_eq_ok_iff tokens).mp ht
    have hspelled := isSpelled_tokensAt 0 (legible_pieces source.chars hs)
    have hassemble : assemble? [] []
        (tokensAt 0 (pieces source.chars) ++ [endToken source.chars.length]) = _ :=
      assemble?_eq hspelled rfl [] []
    have hreports : ∀ fault ∈ (assemble [] [] (tokensAt 0 (pieces source.chars) ++
        [endToken source.chars.length])).faults,
        source.report? fault = some (fault.diagnostic source) := by
      intro fault hf
      obtain hmem | ⟨frame, hframe, -⟩ := token_of_mem_faults rfl hf
      · exact source.report?_eq (span_of_mem_tokensAt hs hmem).1
      · simp at hframe
    simp only [Option.bind_eq_bind, Option.bind_some, treesOf?, hassemble, treesOf]
    cases hf : (assemble [] []
        (tokensAt 0 (pieces source.chars) ++ [endToken source.chars.length])).faults with
    | nil => rfl
    | cons fault faults =>
      rw [hf] at hreports
      simp only [mapM_eq_some hreports, Option.map_some]

end Source

/-! ## Blocks -/

/-- The region of the item that follows, if there is one. -/
def Source.following? (source : Source) : List Tree → Option (Option Region)
  | [] => some none
  | next :: _ => (source.resolve? next.span).map some

theorem Source.following?_eq (source : Source) {rest : List Tree}
    (h : ∀ next ∈ rest, 0 ≤ next.span.lo) :
    source.following? rest = some (rest.head?.map fun next => source.resolve next.span) := by
  cases rest with
  | nil => rfl
  | cons next rest => simp [following?, source.resolve?_eq (h next List.mem_cons_self)]

namespace Layout

/-- Takes blocks off a stack until the innermost one left stands at a column: those taken off, and
those left. Below all blocks the column is zero. It answers nothing where that place itself would
have to be taken off. -/
def popTo? (column : Int) : List Level → Option (List Level × List Level)
  | [] => if column = 0 then some ([], []) else none
  | level :: outer =>
    if level.column = column then some ([], level :: outer)
    else (popTo? column outer).map fun (closed, left) => (level :: closed, left)

theorem popTo?_eq {column : Int} {blocks : List Level}
    (h : column = 0 ∨ ∃ level ∈ blocks, level.column = column) :
    popTo? column blocks = some (blocks.takeWhile (·.column ≠ column),
      blocks.dropWhile (·.column ≠ column)) := by
  induction blocks with
  | nil => simp [popTo?, show column = 0 by simpa using h]
  | cons level outer ih =>
    by_cases hl : level.column = column
    · simp [popTo?, hl]
    · have h' : column = 0 ∨ ∃ level ∈ outer, level.column = column := by
        simpa [hl] using h
      simp [popTo?, hl, ih h']

/-- No block stands at the column, and the lowest place is not taken off. -/
example : popTo? 4 [⟨8, none⟩] = none := by decide

namespace Scope

def startLine? (scope : Scope) (region : Region) :
    Option (Except Fault (List Event × Scope)) :=
  let column := region.start.column
  if scope.column < column then some (.ok ([], scope))
  else if column < scope.column ∧ column ∉ scope.columns then
    some (.error (.unknownColumn region scope.columns))
  else (popTo? column scope.blocks).map fun (closed, blocks) =>
    let left : Scope := ⟨blocks, none, scope.lastLine⟩
    .ok (closed.map (fun level => .leave (some (level, region.start.line))) ++ left.separation,
      left)

def arrive? (scope : Scope) (region : Region) : Option (Except Fault (List Event × Scope)) :=
  let reached : Scope := { scope with lastLine := some region.stop.line }
  match scope.lastLine with
  | none => some (.ok ([], reached))
  | some line => if line < region.stop.line then reached.startLine? region else some (.ok ([], scope))

theorem startLine?_eq (scope : Scope) (region : Region) :
    scope.startLine? region = some (scope.startLine region) := by
  unfold startLine? startLine
  simp only
  split_ifs with hright hunknown
  · rfl
  · rfl
  · have hin : region.start.column ∈ scope.columns ∨ region.start.column = scope.column := by
      by_cases hlt : region.start.column < scope.column
      · exact .inl (by_contra fun hno => hunknown ⟨hlt, hno⟩)
      · exact .inr (by omega)
    have hpop : region.start.column = 0 ∨
        ∃ level ∈ scope.blocks, level.column = region.start.column := by
      rcases hin with hin | hin
      · simpa [columns] using hin
      · cases hb : scope.blocks with
        | nil => exact .inl (by simpa [column, hb] using hin)
        | cons level outer => exact .inr ⟨level, by simp, by simpa [column, hb] using hin.symm⟩
    rw [popTo?_eq hpop, Option.map_some]

theorem arrive?_eq (scope : Scope) (region : Region) :
    scope.arrive? region = some (scope.arrive region) := by
  unfold arrive? arrive
  cases scope.lastLine with
  | none => rfl
  | some line =>
    simp only
    split_ifs
    · exact startLine?_eq _ region
    · rfl

end Scope

variable (source : Source) (rules : Rules)

mutual

def layoutTree? : Tree → Option Trace
  | .leaf token => do
    let region ← source.resolve? token.span
    some ⟨[.write token region], none⟩
  | .group delimiter opening closing inner => do
    let opened ← source.resolve? opening
    let inside ← layoutItems? Scope.fresh inner
    let closed ← source.resolve? closing
    some ((inside.andThen ⟨[.write (closingToken delimiter closing) closed], none⟩).after
      [.write (openingToken delimiter opening) opened])
  | .repetition dollar closing inner separator operator => do
    let region ← source.resolve? (Tree.repetition dollar closing inner separator operator).span
    some ⟨[], some (.repetition region)⟩
termination_by structural tree => tree

def layoutItems? (scope : Scope) : List Tree → Option Trace
  | [] => some ⟨scope.close, none⟩
  | tree :: rest => do
    let region ← source.resolve? tree.span
    match ← scope.arrive? region with
    | .error fault => some ⟨[], some fault⟩
    | .ok (events, scope) =>
      match tree.marker? with
      | some marker => do
        let following ← source.following? rest
        let (opened, scope) := scope.openBlock rules marker region following
        let behind ← layoutItems? scope rest
        some ((behind.after opened).after events)
      | none => do
        let first ← layoutTree? tree
        let behind ← layoutItems? (tree.note rules scope) rest
        some ((first.andThen behind).after events)
termination_by structural trees => trees

end

variable {source rules}

theorem layoutItems?_cons {tree : Tree} {rest : List Tree} (htree : 0 ≤ tree.span.lo)
    (hrest : ∀ next ∈ rest, 0 ≤ next.span.lo)
    (hfirst : tree.marker? = none → layoutTree? source rules tree =
      some (layoutTree source rules tree))
    (hbehind : ∀ scope, layoutItems? source rules scope rest =
      some (layoutItems source rules scope rest)) (scope : Scope) :
    layoutItems? source rules scope (tree :: rest) =
      some (layoutItems source rules scope (tree :: rest)) := by
  rw [layoutItems?, layoutItems, source.resolve?_eq htree]
  simp only [Option.bind_eq_bind, Option.bind_some, Scope.arrive?_eq]
  cases scope.arrive (source.resolve tree.span) with
  | error fault => rfl
  | ok found =>
    obtain ⟨events, reached⟩ := found
    simp only
    cases hm : tree.marker? with
    | some marker => simp only [source.following?_eq hrest, Option.bind_some, hbehind]
    | none => simp only [hfirst hm, Option.bind_some, hbehind]

theorem layoutItems?_eq {trees : List Tree} {tokens : List Token} (h : Spells trees tokens)
    (ho : InOrder tokens) (scope : Scope) :
    layoutItems? source rules scope trees = some (layoutItems source rules scope trees) := by
  induction h generalizing scope with
  | nil => rfl
  | @leaf token trees tokens hl h ih =>
    have hspans := (Spells.leaf hl h).inOrder ho
    obtain ⟨htree, hrest⟩ := List.forall_mem_cons.mp fun tree ht => (hspans.2 tree ht).1
    refine layoutItems?_cons htree hrest (fun _ => ?_) (ih (ho.sublist (List.sublist_cons_self _ _)))
      scope
    have hspan : 0 ≤ token.span.lo := htree
    rw [layoutTree?, source.resolve?_eq hspan]
    rfl
  | @group d o c inner trees inside tokens hi h ihi ih =>
    have hspans := (Spells.group d o c hi h).inOrder ho
    obtain ⟨htree, hrest⟩ := List.forall_mem_cons.mp fun tree ht => (hspans.2 tree ht).1
    have hopen : 0 ≤ o.lo := htree
    have hclose : 0 ≤ c.lo := (ho.2 (closingToken d c) (by simp)).1
    obtain ⟨hinside, hbehind⟩ :=
      sublist_of_group (openingToken d o) (closingToken d c) inside tokens
    refine layoutItems?_cons htree hrest (fun _ => ?_) (ih (ho.sublist hbehind)) scope
    rw [layoutTree?, source.resolve?_eq hopen, source.resolve?_eq hclose,
      ihi (ho.sublist hinside) Scope.fresh]
    rfl
  | @repetition dollar operator separator o c inner trees inside tokens hd hop hs hi h ihi ih =>
    have hspans := (Spells.repetition o c hd hop hs hi h).inOrder ho
    obtain ⟨htree, hrest⟩ := List.forall_mem_cons.mp fun tree ht => (hspans.2 tree ht).1
    have hbehind := sublist_of_repetition dollar (openingToken .paren o) (closingToken .paren c)
      operator inside separator.toList tokens
    refine layoutItems?_cons htree hrest (fun _ => ?_) (ih (ho.sublist hbehind)) scope
    rw [layoutTree?, source.resolve?_eq htree]
    rfl

end Layout

/-! ## Conversions -/

def Source.layout? (source : Source) (rules : Rules) (trees : List Tree) : Option Trace :=
  layoutItems? source rules Scope.fresh trees

def Emitter.layOut? (emitter : Emitter) (rules : Rules) (source : Source) : Option Passage := do
  match ← source.trees? with
  | .error diagnostics => some ⟨[], [], some (.rejected diagnostics), emitter⟩
  | .ok trees => do
    let trace ← source.layout? rules trees
    let (written, emitter) := emitter.run trace.events
    some ⟨written, trace.events.filterMap Event.record?,
      trace.fault.map fun fault => .layout (fault.diagnostic source.name), emitter⟩

/-- Converts a source as `Source.convert` does. It answers nothing where a lookup fails. -/
def Source.convert? (source : Source) (rules : Rules) : Option Conversion := do
  let passage ← (Emitter.fresh rules.preserveBlankLines).layOut? rules source
  some ⟨passage.log, match passage.failure with
    | some failure => .error failure
    | none => .ok (passage.written ++ passage.emitter.finish)⟩

theorem Emitter.layOut?_eq (emitter : Emitter) (rules : Rules) (source : Source) :
    emitter.layOut? rules source = some (emitter.layOut rules source) := by
  rw [layOut?, layOut, source.trees?_eq]
  cases ht : source.trees with
  | error diagnostics => rfl
  | ok trees =>
    obtain ⟨hs, hsp⟩ := source.spells_trees ht
    have ho := (inOrder_tokensAt 0 (legible_pieces source.chars hs)).1
    have hlayout : source.layout? rules trees = some (source.layout rules trees) :=
      layoutItems?_eq hsp ho Scope.fresh
    simp only [Option.bind_eq_bind, Option.bind_some, hlayout]

/-- Every conversion finds all that it looks up. -/
theorem Source.convert?_eq (source : Source) (rules : Rules) :
    source.convert? rules = some (source.convert rules) := by
  rw [convert?, Emitter.layOut?_eq]
  rfl

end Offside
