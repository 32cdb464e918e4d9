import Mathlib.Data.List.Pairwise
import Offside.Proofs.Edges
import Offside.Proofs.TwinTrees

/-!
# Two texts line by line

The tokens of two texts are the same words, and the same of them start a new line. Then the lines
on which they start and end are ordered alike, however many lines lie between.

- `KeepsOrder`: a relation between the numbers of two texts that keeps their order.
- `lineBreaks`: which tokens of a text start a new line.
- `Abreast`: pairs of tokens that stand in order, with line breaks at the same places.
- `abreast_of_lineBreaks`: tokens with the same words and line breaks are abreast.
- `Abreast.regionPair`: two items of twins start and end at tokens of the same pairs.
-/
namespace Offside

set_option autoImplicit false

/-- Of the numbers of two texts that belong together, the one is less than another exactly where
its counterpart is. -/
def KeepsOrder (related : Int → Int → Prop) : Prop :=
  ∀ x x' y y', related x x' → related y y' → (x < y ↔ x' < y')

theorem KeepsOrder.eq_iff {related : Int → Int → Prop} (h : KeepsOrder related) {x x' y y' : Int}
    (hx : related x x') (hy : related y y') : x = y ↔ x' = y' := by
  have hlt := h x x' y y' hx hy
  have hgt := h y y' x x' hy hx
  omega

/-- For each token but the first, whether it starts on a later line than the one before it ends. -/
def lineBreaks (source : Source) : List Token → List Bool
  | a :: b :: rest =>
    decide ((source.resolve a.span).stop.line < (source.resolve b.span).start.line) ::
      lineBreaks source (b :: rest)
  | _ => []

/-! ## Lines of one text -/

section Lines

variable (source : Source) {tokens : List Token}

theorem stop_line_le (h : InOrder tokens) :
    tokens.Pairwise fun a b =>
      (source.resolve a.span).stop.line ≤ (source.resolve b.span).start.line := by
  refine h.1.imp_of_mem ?_
  intro a b ha hb hab
  obtain ⟨h0, hlt⟩ := h.2 a ha
  rw [source.resolve_of_lt hlt, source.resolve_start]
  exact source.position_line_mono (by omega) (by omega)

variable {source}

/-- A token ends as many lines below its start as there are line feeds in it. -/
theorem stop_line_of_mem_tokensAt (hs : ∀ piece ∈ pieces source.chars, piece.IsSound)
    {token : Token} (ht : token ∈ tokensAt 0 (pieces source.chars)) :
    (source.resolve token.span).stop.line =
      (source.resolve token.span).start.line + (token.text.count '\n' : Nat) := by
  rw [(source.resolve_of_mem_tokensAt hs ht).2, Position.after_line]

end Lines

/-! ## Lines of two texts -/

/-- A pair stands behind another in both texts, and on a later line in both or in none. -/
structure Follows (source source' : Source) (p q : Pair) : Prop where
  le : (source.resolve p.1.span).stop.line ≤ (source.resolve q.1.span).start.line
  le' : (source'.resolve p.2.span).stop.line ≤ (source'.resolve q.2.span).start.line
  lt_iff : (source.resolve p.1.span).stop.line < (source.resolve q.1.span).start.line ↔
    (source'.resolve p.2.span).stop.line < (source'.resolve q.2.span).start.line

/-- Both tokens of a pair take the same number of lines. -/
def SameHeight (source source' : Source) (p : Pair) : Prop :=
  ∃ height : Nat,
    (source.resolve p.1.span).stop.line = (source.resolve p.1.span).start.line + height ∧
    (source'.resolve p.2.span).stop.line = (source'.resolve p.2.span).start.line + height

/-- Pairs of tokens that stand in order in both texts, with line breaks at the same places. -/
structure Abreast (source source' : Source) (all : List Pair) : Prop where
  inOrder : InOrder (all.map Prod.fst)
  inOrder' : InOrder (all.map Prod.snd)
  height : ∀ p ∈ all, SameHeight source source' p
  follows : all.Pairwise (Follows source source')

/-- The lines on which the two tokens of a pair end. -/
def stopLines (source source' : Source) (all : List Pair) (line line' : Int) : Prop :=
  ∃ p ∈ all, line = (source.resolve p.1.span).stop.line ∧
    line' = (source'.resolve p.2.span).stop.line

section Pairs

variable {source source' : Source} {all : List Pair}

theorem Follows.trans {p q r : Pair} (h : Follows source source' p q)
    (hq : SameHeight source source' q) (h' : Follows source source' q r) :
    Follows source source' p r := by
  obtain ⟨height, hstop, hstop'⟩ := hq
  have hle := h.le
  have hle' := h.le'
  have hlt := h.lt_iff
  have hlater := h'.le
  have hlater' := h'.le'
  have hlt' := h'.lt_iff
  exact ⟨by omega, by omega, by omega⟩

/-- The lines on which tokens end are ordered alike in two texts that are abreast. -/
theorem Abreast.lines (h : Abreast source source' all) :
    KeepsOrder (stopLines source source' all) := by
  have hpair : all.Pairwise fun p q =>
      ((source.resolve p.1.span).stop.line < (source.resolve q.1.span).stop.line ↔
        (source'.resolve p.2.span).stop.line < (source'.resolve q.2.span).stop.line) ∧
      ((source.resolve q.1.span).stop.line < (source.resolve p.1.span).stop.line ↔
        (source'.resolve q.2.span).stop.line < (source'.resolve p.2.span).stop.line) := by
    refine h.follows.imp_of_mem fun {p q} _ hq hf => ?_
    obtain ⟨height, hstop, hstop'⟩ := h.height q hq
    have hle := hf.le
    have hle' := hf.le'
    have hlt := hf.lt_iff
    omega
  rintro x x' y y' ⟨p, hp, rfl, rfl⟩ ⟨q, hq, rfl, rfl⟩
  exact (hpair.imp And.left).forall_of_forall_of_flip (fun p _ => by simp) (hpair.imp And.right)
    hp hq

theorem pairwise_follows (ho : InOrder (all.map Prod.fst)) (ho' : InOrder (all.map Prod.snd))
    (hh : ∀ p ∈ all, SameHeight source source' p)
    (hb : lineBreaks source (all.map Prod.fst) = lineBreaks source' (all.map Prod.snd)) :
    all.Pairwise (Follows source source') := by
  induction all with
  | nil => exact .nil
  | cons p all ih =>
    cases all with
    | nil => exact List.pairwise_singleton _ _
    | cons q all =>
      obtain ⟨hbreak, hbreaks⟩ := List.cons.inj hb
      have hle := (List.pairwise_cons.mp (stop_line_le source ho)).1 q.1 List.mem_cons_self
      have hle' := (List.pairwise_cons.mp (stop_line_le source' ho')).1 q.2 List.mem_cons_self
      have hnext : Follows source source' p q := ⟨hle, hle', by simpa using hbreak⟩
      have hrest := ih (ho.sublist (List.sublist_cons_self _ _))
        (ho'.sublist (List.sublist_cons_self _ _)) (fun r hr => hh r (List.mem_cons_of_mem p hr))
        hbreaks
      refine List.pairwise_cons.mpr ⟨fun r hr => ?_, hrest⟩
      rcases List.mem_cons.mp hr with rfl | hr
      · exact hnext
      · exact hnext.trans (hh q (List.mem_cons_of_mem p List.mem_cons_self))
          ((List.pairwise_cons.mp hrest).1 r hr)

end Pairs

/-- Tokens with the same words stand abreast where the same of them start a new line. -/
theorem abreast_of_lineBreaks {source source' : Source}
    (hs : ∀ piece ∈ pieces source.chars, piece.IsSound)
    (hs' : ∀ piece ∈ pieces source'.chars, piece.IsSound) {all : List Pair}
    (hl : all.map Prod.fst = tokensAt 0 (pieces source.chars))
    (hr : all.map Prod.snd = tokensAt 0 (pieces source'.chars))
    (hw : ∀ p ∈ all, p.1.word = p.2.word)
    (hb : lineBreaks source (all.map Prod.fst) = lineBreaks source' (all.map Prod.snd)) :
    Abreast source source' all := by
  have ho : InOrder (all.map Prod.fst) :=
    hl ▸ (inOrder_tokensAt 0 (legible_pieces source.chars hs)).1
  have ho' : InOrder (all.map Prod.snd) :=
    hr ▸ (inOrder_tokensAt 0 (legible_pieces source'.chars hs')).1
  have hheight (p : Pair) (hp : p ∈ all) : SameHeight source source' p := by
    refine ⟨p.1.text.count '\n',
      stop_line_of_mem_tokensAt hs (hl ▸ List.mem_map_of_mem hp), ?_⟩
    rw [← text_eq_of_word (hw p hp)]
    exact stop_line_of_mem_tokensAt hs' (hr ▸ List.mem_map_of_mem hp)
  exact ⟨ho, ho', hheight, pairwise_follows ho ho' hheight hb⟩

/-! ## Regions of twins -/

/-- Regions that run from the start of the one pair of tokens to the end of the other. -/
def RegionPair (source source' : Source) (all : List Pair) (region region' : Region) : Prop :=
  ∃ first ∈ all, ∃ last ∈ all,
    region = ⟨(source.resolve first.1.span).start, (source.resolve last.1.span).stop⟩ ∧
    region' = ⟨(source'.resolve first.2.span).start, (source'.resolve last.2.span).stop⟩

theorem resolve_ends (source : Source) {tokens : List Token} (ho : InOrder tokens)
    {first last : Token} (hf : first ∈ tokens.head?) (hl : last ∈ tokens) :
    source.resolve ⟨first.span.lo, last.span.hi⟩ =
      ⟨(source.resolve first.span).start, (source.resolve last.span).stop⟩ := by
  have hspan := ho.2 last hl
  have hle := ho.lo_le hf hl
  rw [source.resolve_of_lt (by simp only; omega), source.resolve_start,
    source.resolve_of_lt hspan.2]

section Regions

variable {source source' : Source} {all ps : List Pair} {tree tree' : Tree}
  {rest rest' : List Tree}

/-- Two items of twins start at the first tokens of a pair and end at the last ones of a pair. -/
theorem Abreast.exists_region (h : Abreast source source' all)
    (ht : Twins (tree :: rest) (tree' :: rest') ps) (hs : ps.Sublist all) :
    ∃ first ∈ ps.head?, ∃ last ∈ ps,
      source.resolve tree.span =
        ⟨(source.resolve first.1.span).start, (source.resolve last.1.span).stop⟩ ∧
      source'.resolve tree'.span =
        ⟨(source'.resolve first.2.span).start, (source'.resolve last.2.span).stop⟩ := by
  obtain ⟨ts, us, rfl, hone, -⟩ := ht.uncons
  obtain ⟨first, hfirst, last, hlast, hspan, hspan'⟩ := hone.exists_ends
  have hsub := (List.sublist_append_left ts us).trans hs
  have hhead (part : Pair → Token) : part first ∈ (ts.map part).head? := by
    rw [List.head?_map, hfirst]
    rfl
  refine ⟨first, ?_, last, List.mem_append_left us hlast, ?_, ?_⟩
  · rw [List.head?_append, hfirst]
    rfl
  · rw [hspan]
    exact resolve_ends source (h.inOrder.sublist (hsub.map Prod.fst)) (hhead Prod.fst)
      (List.mem_map_of_mem hlast)
  · rw [hspan']
    exact resolve_ends source' (h.inOrder'.sublist (hsub.map Prod.snd)) (hhead Prod.snd)
      (List.mem_map_of_mem hlast)

theorem Abreast.regionPair (h : Abreast source source' all)
    (ht : Twins (tree :: rest) (tree' :: rest') ps) (hs : ps.Sublist all) :
    RegionPair source source' all (source.resolve tree.span) (source'.resolve tree'.span) := by
  obtain ⟨first, hf, last, hl, hr, hr'⟩ := h.exists_region ht hs
  exact ⟨first, hs.subset (List.mem_of_mem_head? hf), last, hs.subset hl, hr, hr'⟩

theorem RegionPair.stopLines {region region' : Region}
    (h : RegionPair source source' all region region') :
    stopLines source source' all region.stop.line region'.stop.line := by
  obtain ⟨_, -, last, hl, hr, hr'⟩ := h
  exact ⟨last, hl, by rw [hr], by rw [hr']⟩

end Regions

end Offside
