import Offside.Proofs.Positions
import Offside.Proofs.Reading

/-!
# The edges of a token

No token starts or ends with a blank, so where it stands in a text and where it ends are read off
its characters.

- `Edged`: a text with a first and a last character, neither of them a blank.
- `Lexeme.edged_of_scan`: what is read as a token is such a text.
- `Source.resolve_of_mem_tokensAt`: the region of a token starts where the text before it ends, and
  it ends where its own text does.
-/
namespace Offside

set_option autoImplicit false

open Text

/-! ## Characters that are no blanks -/

def NotBlank (c : Char) : Prop := c ≠ ' ' ∧ c ≠ '\n'

/-- A text that neither starts nor ends with a blank, and is not empty. -/
structure Edged (text : List Char) : Prop where
  ne_nil : text ≠ []
  first : ∀ c ∈ text.head?, NotBlank c
  last : ∀ c ∈ text.getLast?, NotBlank c

theorem notBlank_of_class {q : Char → Bool} (hq : ∀ c, endsToken c = true → q c = false) {c : Char}
    (h : q c = true) : NotBlank c := by
  constructor
  · rintro rfl
    simp [hq ' ' rfl] at h
  · rintro rfl
    simp [hq '\n' rfl] at h

namespace Lexeme

/-- None of the first characters is a blank. -/
def Solid (cs : List Char) (n : Nat) : Prop := ∀ c ∈ cs.take n, NotBlank c

theorem solid_zero (cs : List Char) : Solid cs 0 := by simp [Solid]

theorem Solid.add {cs : List Char} {m n : Nat} (hm : Solid cs m) (hn : Solid (cs.drop m) n) :
    Solid cs (m + n) := by
  intro c hc
  rw [List.take_add] at hc
  rcases List.mem_append.mp hc with hc | hc
  · exact hm c hc
  · exact hn c hc

theorem Solid.cons {c : Char} {cs : List Char} {n : Nat} (hc : NotBlank c) (h : Solid cs n) :
    Solid (c :: cs) (n + 1) := by
  intro d hd
  rw [List.take_succ_cons] at hd
  rcases List.mem_cons.mp hd with rfl | hd
  · exact hc
  · exact h d hd

theorem solid_runLength {q : Char → Bool} (hq : ∀ c, endsToken c = true → q c = false)
    (cs : List Char) : Solid cs (runLength q cs) := by
  intro c hc
  rw [runLength, ← List.prefix_iff_eq_take.mp (List.takeWhile_prefix q)] at hc
  exact notBlank_of_class hq (List.all_eq_true.mp List.all_takeWhile c hc)

theorem solid_fractionLength (cs : List Char) : Solid cs (fractionLength cs) := by
  match cs with
  | [] => exact solid_zero _
  | [_] => exact solid_zero _
  | point :: digit :: rest =>
    rw [fractionLength]
    split_ifs with h
    · have hpoint : NotBlank point := by
        rw [h.1]
        exact ⟨by decide, by decide⟩
      have hdigit : NotBlank digit := notBlank_of_class (fun _ => isDigit_of_endsToken) h.2
      rw [Nat.add_comm]
      exact .cons hpoint (.cons hdigit (solid_runLength (fun _ => isDigitOrGap_of_endsToken) rest))
    · exact solid_zero _

theorem solid_exponentLength (cs : List Char) : Solid cs (exponentLength cs) := by
  match cs with
  | [] => exact solid_zero _
  | [_] => exact solid_zero _
  | letter :: first :: rest =>
    rw [exponentLength]
    split_ifs with h
    · obtain ⟨hl, hf⟩ := h
      have hletter : NotBlank letter := by
        rcases hl with rfl | rfl <;> exact ⟨by decide, by decide⟩
      have hfirst : NotBlank first := by
        rcases hf with hd | ⟨rfl | rfl, -⟩
        · exact notBlank_of_class (fun _ => isDigit_of_endsToken) hd
        · exact ⟨by decide, by decide⟩
        · exact ⟨by decide, by decide⟩
      rw [Nat.add_comm]
      exact .cons hletter (.cons hfirst (solid_runLength (fun _ => isDigitOrGap_of_endsToken) rest))
    · exact solid_zero _

theorem solid_number (c : Char) (rest : List Char) : Solid rest (number c rest).2 := by
  have hword (cs : List Char) : Solid cs (runLength isWord cs) :=
    solid_runLength (fun _ => isWord_of_endsToken) cs
  unfold number
  split_ifs with h
  · have hmark : Solid rest 1 := by
      cases rest with
      | nil => simp [Solid]
      | cons d rest =>
        have hd : NotBlank d := by
          simp only [List.head?_cons, Option.some.injEq] at h
          rcases h.2 with rfl | rfl | rfl <;> exact ⟨by decide, by decide⟩
        exact .cons hd (solid_zero _)
    exact (hmark.add (solid_runLength (fun _ => isHexOrGap_of_endsToken) _)).add (hword _)
  · have hwhole := solid_runLength (fun _ => isDigitOrGap_of_endsToken) rest
    exact ((hwhole.add (solid_fractionLength _)).add (solid_exponentLength _)).add (hword _)

theorem solid_name (c : Char) (rest : List Char) : Solid rest (name c rest).2 := by
  unfold name
  refine Solid.add ?_ (solid_runLength (fun _ => isWord_of_endsToken) _)
  split_ifs with h
  · cases rest with
    | nil => simp [Solid]
    | cons d rest =>
      obtain rfl : d = '#' := by simpa using h.2
      exact .cons ⟨by decide, by decide⟩ (solid_zero _)
  · exact solid_zero _

theorem solid_operatorOrStray (c : Char) (rest : List Char) :
    Solid rest (operatorOrStray c rest).2 := by
  unfold operatorOrStray
  cases hf : operators.find? (·.isPrefixOf (c :: rest)) with
  | none => exact solid_zero _
  | some text =>
    have hp := List.find?_some hf
    obtain ⟨tail, ht⟩ := List.isPrefixOf_iff_prefix.mp hp
    cases text with
    | nil => exact solid_zero _
    | cons d text =>
      obtain ⟨rfl, rfl⟩ := List.cons.inj ht
      intro e he
      have he : e ∈ (text ++ tail).take text.length := he
      rw [List.take_left] at he
      have hend := endsToken_tail_operators _ (List.mem_of_find?_eq_some hf) e he
      constructor <;> (rintro rfl; revert hend; decide)

/-! ## Closing marks -/

theorem stringReach_mark {cs : List Char} {n : Nat} (h : stringReach cs = ⟨true, n⟩) :
    ∃ m, n = m + 1 ∧ cs[m]? = some '"' := by
  obtain ⟨body, behind, -, rfl, rfl⟩ := stringReach_closed_iff.mp h
  exact ⟨body.length, rfl, by simp⟩

theorem rawReach_mark (hashes : Nat) {cs : List Char} {n : Nat}
    (h : rawReach hashes cs = ⟨true, n⟩) :
    ∃ m, n = m + 1 ∧ (cs[m]? = some '"' ∨ cs[m]? = some '#') := by
  obtain ⟨body, behind, -, rfl, rfl⟩ := rawReach_closed_iff.mp h
  refine ⟨body.length + hashes, by omega, ?_⟩
  rw [List.append_assoc, List.getElem?_append_right (Nat.le_add_right _ _), Nat.add_sub_cancel_left,
    rawMark, List.cons_append]
  cases hashes with
  | zero => exact .inl rfl
  | succ k =>
    refine .inr ?_
    rw [List.getElem?_cons_succ, List.getElem?_append_left (by simp), List.getElem?_replicate,
      if_pos (Nat.lt_succ_self k)]

theorem characterReach_mark {cs : List Char} {n : Nat} (h : characterReach cs = ⟨true, n⟩) :
    cs[n]? = some '\x27' := by
  obtain ⟨body, behind, -, rfl, rfl⟩ := characterReach_closed_iff.mp h
  simp

/-- The last of some characters is no blank. -/
def Ends (rest : List Char) (n : Nat) : Prop := ∃ m c, n = m + 1 ∧ rest[m]? = some c ∧ NotBlank c

theorem ends_of_drop {rest : List Char} {before n : Nat} (hle : before ≤ n)
    (h : Ends (rest.drop before) (n - before)) : Ends rest n := by
  obtain ⟨m, c, hn, hm, hc⟩ := h
  rw [List.getElem?_drop] at hm
  exact ⟨before + m, c, by omega, hm, hc⟩

theorem ends_stringAt {before n : Nat} {k : TokenKind} {rest : List Char}
    (h : stringAt before rest = (.token k, n)) : Ends rest n := by
  obtain ⟨-, hr, hle⟩ := literal_eq_token h
  obtain ⟨m, hm, hq⟩ := stringReach_mark hr
  exact ends_of_drop hle ⟨m, '"', hm, hq, by decide, by decide⟩

theorem ends_characterAt {before n : Nat} {k : TokenKind} {rest : List Char}
    (h : characterAt before rest = (.token k, n)) : Ends rest n := by
  obtain ⟨-, m, -, hr, rfl⟩ := characterAt_eq_token h
  refine ends_of_drop (Nat.le_add_right _ _) ⟨m, '\x27', ?_, characterReach_mark hr, by decide,
    by decide⟩
  omega

theorem ends_rawStringAt? {before n : Nat} {k : TokenKind} {rest : List Char}
    (h : rawStringAt? before rest = some (.token k, n)) : Ends rest n := by
  obtain ⟨hashes, -, hl⟩ := Option.map_eq_some_iff.mp h
  obtain ⟨-, hr, hle⟩ := literal_eq_token hl
  obtain ⟨m, hm, hq | hq⟩ := rawReach_mark hashes hr
  · exact ends_of_drop hle ⟨m, '"', hm, hq, by decide, by decide⟩
  · exact ends_of_drop hle ⟨m, '#', hm, hq, by decide, by decide⟩

theorem ends_letteredLiteral? {c : Char} {n : Nat} {k : TokenKind} {rest : List Char}
    (h : letteredLiteral? c rest = some (.token k, n)) : Ends rest n := by
  unfold letteredLiteral? at h
  split_ifs at h
  · exact ends_rawStringAt? h
  · exact ends_stringAt (Option.some.inj h)
  · exact ends_characterAt (Option.some.inj h)
  · exact ends_rawStringAt? h

/-! ## Tokens -/

/-- All characters of a token behind the first are no blanks, or at least the last one is none. -/
theorem solid_or_ends_of_scan {c : Char} {rest : List Char} {n : Nat} {k : TokenKind}
    (h : scan c rest = (.token k, n)) : Solid rest n ∨ Ends rest n := by
  obtain ⟨hblank, htab, hline, hblock⟩ := head_of_scan_token h
  rw [scan, if_neg hblank, if_neg htab, if_neg hline, if_neg hblock] at h
  cases hl : letteredLiteral? c rest with
  | some found =>
    simp only [hl] at h
    subst h
    exact .inr (ends_letteredLiteral? hl)
  | none =>
    simp only [hl] at h
    split_ifs at h
    · exact .inr (ends_stringAt h)
    · unfold afterApostrophe at h
      split_ifs at h
      · exact .inr (ends_characterAt h)
      · simp only [Prod.mk.injEq] at h
        exact .inl (h.2 ▸ solid_runLength (fun _ => isWord_of_endsToken) rest)
      · exact .inr (ends_characterAt h)
    · simp only [Prod.mk.injEq] at h
      exact .inl (h.2 ▸ solid_number c rest)
    · have hs := solid_name c rest
      rw [h] at hs
      exact .inl hs
    · simp only [Prod.mk.injEq] at h
      exact .inl (h.2 ▸ solid_zero rest)
    · simp only [Prod.mk.injEq] at h
      exact .inl (h.2 ▸ solid_zero rest)
    · have hs := solid_operatorOrStray c rest
      rw [h] at hs
      exact .inl hs

/-- What is read as a token neither starts nor ends with a blank. -/
theorem edged_of_scan {c : Char} {rest : List Char} {n : Nat} {k : TokenKind}
    (h : scan c rest = (.token k, n)) : Edged (c :: rest.take n) := by
  have hhead := (head_of_scan_token h).1
  have hc : NotBlank c := ⟨fun he => hhead (.inl he), fun he => hhead (.inr (.inl he))⟩
  refine ⟨List.cons_ne_nil c _, by simpa using hc, fun d hd => ?_⟩
  rcases solid_or_ends_of_scan h with hs | ⟨m, e, rfl, hm, he⟩
  · have hmem : d ∈ c :: rest.take n := List.mem_of_getLast? hd
    rcases List.mem_cons.mp hmem with rfl | hmem
    · exact hc
    · exact hs d hmem
  · have hlast : (c :: rest.take (m + 1)).getLast? = some e := by
      have hlen : m < rest.length := (List.getElem?_eq_some_iff.mp hm).1
      rw [List.getLast?_eq_getElem?, List.length_cons, List.length_take,
        Nat.min_eq_left (by omega), Nat.add_one_sub_one, List.getElem?_cons_succ,
        List.getElem?_take_of_lt (Nat.lt_succ_self m)]
      exact hm
    obtain rfl : e = d := Option.some.inj (hlast.symm.trans hd)
    exact he

end Lexeme

/-! ## Where tokens stand -/

/-- A token of pieces lies in their text, and neither starts nor ends with a blank. -/
theorem exists_split_of_mem_tokensAt {chars before : List Char} {ps : List Piece}
    (h : chars = before ++ textOf ps) (hl : Legible ps) {token : Token}
    (ht : token ∈ tokensAt before.length ps) :
    Edged token.text ∧ ∃ l r, chars = l ++ (token.text ++ r) ∧
      token.span = ⟨l.length, (l.length + token.text.length : Nat)⟩ := by
  induction ps generalizing before with
  | nil => simp at ht
  | cons piece ps ih =>
    obtain ⟨hread, hrest⟩ := hl
    have hbehind : chars = (before ++ piece.text) ++ textOf ps := by
      rw [h, textOf_cons, List.append_assoc]
    have hlen : before.length + piece.width = (before ++ piece.text).length := by
      rw [hread.width_eq, List.length_append]
    obtain ⟨kind, hk, hcons⟩ | ⟨-, hcons⟩ := tokensAt_cons_cases before.length piece ps
    · rw [hcons] at ht
      rcases List.mem_cons.mp ht with rfl | ht
      · obtain ⟨c, rest, hp, hs⟩ := hread
        have hedged : Edged piece.text := by
          rw [hk] at hs
          have he := Lexeme.edged_of_scan hs
          rw [List.take_left] at he
          rw [hp]
          exact he
        refine ⟨hedged, before, textOf ps, h.trans (by rw [textOf_cons]), ?_⟩
        rw [hp]
        rfl
      · exact ih hbehind hrest (hlen ▸ ht)
    · rw [hcons, hlen] at ht
      exact ih hbehind hrest ht

theorem Source.span_of_mem_tokensAt {source : Source}
    (hs : ∀ piece ∈ pieces source.chars, piece.IsSound) {token : Token}
    (ht : token ∈ tokensAt 0 (pieces source.chars)) :
    0 ≤ token.span.lo ∧ token.span.lo < token.span.hi ∧ token.span.hi ≤ source.chars.length := by
  have hchars : source.chars = [] ++ textOf (pieces source.chars) :=
    (flatMap_text_pieces source.chars).symm
  obtain ⟨hedged, l, r, hsplit, hspan⟩ :=
    exists_split_of_mem_tokensAt hchars (legible_pieces source.chars hs) ht
  have hlen : 0 < token.text.length := List.length_pos_iff.mpr hedged.ne_nil
  have hall := congrArg List.length hsplit
  simp only [List.length_append] at hall
  rw [hspan]
  simp only
  omega

/-- The region of a token starts where the text before it ends, and it ends where its text does. -/
theorem Source.resolve_of_mem_tokensAt {source : Source}
    (hs : ∀ piece ∈ pieces source.chars, piece.IsSound) {token : Token}
    (ht : token ∈ tokensAt 0 (pieces source.chars)) :
    Edged token.text ∧ source.resolve token.span =
      ⟨source.position token.span.lo, (source.position token.span.lo).after token.text⟩ := by
  have hchars : source.chars = [] ++ textOf (pieces source.chars) :=
    (flatMap_text_pieces source.chars).symm
  obtain ⟨hedged, l, r, hsplit, hspan⟩ :=
    exists_split_of_mem_tokensAt hchars (legible_pieces source.chars hs) ht
  refine ⟨hedged, ?_⟩
  rw [hspan, source.resolve_of_split hsplit hedged.ne_nil
    fun hlast => (hedged.last '\n' hlast).2 rfl]
  simp only
  rw [source.position_length_append hsplit]

end Offside
