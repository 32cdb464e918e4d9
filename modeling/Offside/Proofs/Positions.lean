import Offside.Source

/-!
# Laws of positions

Where an offset lies in a text, said without the table of lines.

- `Position.after`: the position reached by reading characters from a position.
- `Source.position_length_append`: the position of an offset is read off the characters before it.
- `Source.position_line_mono`, `Source.position_column_of_line_eq`: positions follow offsets, and
  on one line columns are as far apart as offsets.
-/
namespace Offside

set_option autoImplicit false

/-! ## Reading on from a position -/

theorem newline_not_mem_spaces (k : Nat) : '\n' ∉ List.replicate k ' ' := by
  intro h
  exact absurd (List.eq_of_mem_replicate h) (by decide)

namespace Position

def origin : Position := ⟨0, 0⟩

def past (p : Position) (c : Char) : Position :=
  if c = '\n' then ⟨p.line + 1, 0⟩ else ⟨p.line, p.column + 1⟩

def after (p : Position) (cs : List Char) : Position := cs.foldl past p

@[simp] theorem after_nil (p : Position) : p.after [] = p := rfl

@[simp] theorem after_cons (p : Position) (c : Char) (cs : List Char) :
    p.after (c :: cs) = (p.past c).after cs := rfl

theorem after_append (p : Position) (l r : List Char) :
    p.after (l ++ r) = (p.after l).after r := List.foldl_append

theorem after_line (p : Position) (cs : List Char) :
    (p.after cs).line = p.line + (cs.count '\n' : Nat) := by
  induction cs generalizing p with
  | nil => simp
  | cons c cs ih =>
    rw [after_cons, ih, past]
    by_cases hc : c = '\n'
    · rw [if_pos hc, hc, List.count_cons_self]
      simp only
      omega
    · rw [if_neg hc, List.count_cons_of_ne hc]

/-- The column that is reached does not depend on the line where the reading starts. -/
theorem after_column_congr {p q : Position} (h : p.column = q.column) (cs : List Char) :
    (p.after cs).column = (q.after cs).column := by
  induction cs generalizing p q with
  | nil => exact h
  | cons c cs ih =>
    refine ih ?_
    unfold past
    split
    · rfl
    · exact congrArg (· + 1) h

theorem after_of_no_newline (p : Position) (cs : List Char) (h : '\n' ∉ cs) :
    p.after cs = ⟨p.line, p.column + cs.length⟩ := by
  induction cs generalizing p with
  | nil => simp
  | cons c cs ih =>
    have hc : c ≠ '\n' := fun e => h (e ▸ List.mem_cons_self)
    have hcs : '\n' ∉ cs := fun e => h (List.mem_cons_of_mem c e)
    rw [after_cons, ih _ hcs]
    simp only [past, hc, if_false, List.length_cons, Position.mk.injEq, true_and]
    omega

/-- Behind a line end the column is the one that the text reaches, wherever it starts. -/
theorem after_column_of_newline (p q : Position) {cs : List Char} (h : '\n' ∈ cs) :
    (p.after cs).column = (q.after cs).column := by
  obtain ⟨l, r, rfl⟩ := List.append_of_mem h
  rw [after_append, after_append, after_cons, after_cons]
  refine after_column_congr ?_ r
  rw [past, past, if_pos rfl, if_pos rfl]

theorem after_newlines_spaces (p : Position) (n k : Nat) :
    p.after (List.replicate n '\n' ++ List.replicate k ' ') =
      ⟨p.line + n, (if n = 0 then p.column else 0) + k⟩ := by
  induction n generalizing p with
  | zero =>
    rw [List.replicate_zero, List.nil_append, after_of_no_newline _ _ (newline_not_mem_spaces k)]
    simp
  | succ n ih =>
    rw [List.replicate_succ, List.cons_append, after_cons, ih]
    simp only [past, if_true, Nat.add_one_ne_zero, if_false, ite_self, Position.mk.injEq, and_true]
    omega

theorem after_newline_spaces (p : Position) (n : Nat) :
    p.after ('\n' :: List.replicate n ' ') = ⟨p.line + 1, n⟩ := by
  rw [after_cons, after_of_no_newline _ _ (newline_not_mem_spaces n)]
  simp [past]

end Position

/-! ## The table of lines -/

theorem lt_of_mem_startsAfter (offset : Nat) (cs : List Char) :
    ∀ n ∈ startsAfter offset cs, offset < n := by
  induction cs generalizing offset with
  | nil => simp [startsAfter]
  | cons c rest ih =>
    intro n hn
    unfold startsAfter at hn
    split at hn
    · rcases List.mem_cons.mp hn with rfl | hn
      · omega
      · have := ih (offset + 1) n hn
        omega
    · have := ih (offset + 1) n hn
      omega

/-- Characters behind a text that end no line start none. -/
theorem startsAfter_append_spaces (cs : List Char) (offset n : Nat) :
    startsAfter offset (cs ++ List.replicate n ' ') = startsAfter offset cs := by
  induction cs generalizing offset with
  | nil =>
    induction n generalizing offset with
    | zero => rfl
    | succ n ih => exact ih (offset + 1)
  | cons c rest ih => simp only [List.cons_append, startsAfter, ih]

theorem locate_of_all_gt (offset line : Int) (start : Nat) (table : List Nat)
    (h : ∀ n ∈ table, offset < (n : Int)) :
    locate offset line start table = ⟨line, offset - start⟩ := by
  cases table with
  | nil => rfl
  | cons next rest =>
    have hn : offset < (next : Int) := h next List.mem_cons_self
    rw [locate, if_neg (by omega)]

/-- The table of the lines that start behind an offset counts the line feeds up to an offset. -/
theorem locate_startsAfter (cs : List Char) (n k start : Nat) (line : Int) (hn : n ≤ cs.length) :
    locate ((k : Int) + n) line start (startsAfter k cs) =
      (Position.mk line (k - start)).after (cs.take n) := by
  induction cs generalizing n k start line with
  | nil =>
    have h0 : n = 0 := by simpa using hn
    subst h0
    simp [startsAfter, locate]
  | cons c rest ih =>
    cases n with
    | zero =>
      have h := locate_of_all_gt ((k : Int) + (0 : Nat)) line start (startsAfter k (c :: rest))
        (fun m hm => by have := lt_of_mem_startsAfter k _ m hm; omega)
      rw [h]
      simp
    | succ n =>
      have hn' : n ≤ rest.length := by simpa using hn
      have hk : ((k : Int) + (n + 1 : Nat)) = ((k + 1 : Nat) : Int) + n := by omega
      rw [hk, List.take_succ_cons, Position.after_cons]
      by_cases hc : c = '\n'
      · rw [startsAfter, if_pos hc, locate, if_pos (by omega), ih n (k + 1) (k + 1) (line + 1) hn']
        simp [Position.past, hc]
      · rw [startsAfter, if_neg hc, ih n (k + 1) start line hn']
        simp only [Position.past, hc, if_false]
        congr 2
        omega

theorem le_locate_line (table : List Nat) (start : Nat) (line o : Int) :
    line ≤ (locate o line start table).line := by
  induction table generalizing start line with
  | nil => exact Int.le_refl line
  | cons next rest ih =>
    rw [locate]
    split
    · have := ih next (line + 1)
      omega
    · exact Int.le_refl line

theorem locate_column_nonneg (table : List Nat) (start : Nat) (line : Int) {o : Int}
    (h : (start : Int) ≤ o) : 0 ≤ (locate o line start table).column := by
  induction table generalizing start line with
  | nil => simp only [locate]; omega
  | cons next rest ih =>
    rw [locate]
    split
    · rename_i hn
      exact ih next (line + 1) hn
    · simp only; omega

/-- A later offset lies on a later line, or on the same line as much further right. -/
theorem locate_mono (table : List Nat) (start : Nat) (line : Int) {o o' : Int} (h : o ≤ o') :
    (locate o line start table).line < (locate o' line start table).line ∨
      (locate o line start table).line = (locate o' line start table).line ∧
        (locate o' line start table).column = (locate o line start table).column + (o' - o) := by
  induction table generalizing start line with
  | nil => right; exact ⟨rfl, by simp only [locate]; omega⟩
  | cons next rest ih =>
    by_cases hn : (next : Int) ≤ o
    · rw [locate, if_pos hn, locate, if_pos (by omega)]
      exact ih next (line + 1)
    · rw [locate, if_neg hn]
      by_cases hn' : (next : Int) ≤ o'
      · left
        rw [locate, if_pos hn']
        have := le_locate_line rest next (line + 1) o'
        show line < _
        omega
      · right
        rw [locate, if_neg hn']
        exact ⟨rfl, by simp only; omega⟩

/-! ## Positions of a source -/

namespace Source

variable (source : Source)

theorem position_eq_locate {offset : Int} (h : 0 ≤ offset) :
    source.position offset = locate offset 0 0 (startsAfter 0 source.chars) := by
  rw [position, source.starts_eq, lineStarts, locate, if_pos (by simpa using h)]
  rfl

/-- The position of an offset of the text is what is reached by reading up to it. -/
theorem position_eq_after {n : Nat} (h : n ≤ source.chars.length) :
    source.position n = Position.origin.after (source.chars.take n) := by
  rw [source.position_eq_locate (by omega)]
  have hl := locate_startsAfter source.chars n 0 0 0 h
  simpa [Position.origin] using hl

/-- Behind the text the columns of its last line go on. -/
theorem position_eq_after_spaces {n k : Nat} (h : n ≤ source.chars.length + k) :
    source.position n =
      Position.origin.after ((source.chars ++ List.replicate k ' ').take n) := by
  have hlen : n ≤ (source.chars ++ List.replicate k ' ').length := by
    rw [List.length_append, List.length_replicate]
    exact h
  have hl := locate_startsAfter (source.chars ++ List.replicate k ' ') n 0 0 0 hlen
  rw [startsAfter_append_spaces] at hl
  rw [source.position_eq_locate (by omega)]
  simpa [Position.origin] using hl

theorem position_length_append {before rest : List Char} (h : source.chars = before ++ rest) :
    source.position before.length = Position.origin.after before := by
  rw [source.position_eq_after (by rw [h]; simp), h, List.take_left]

theorem position_mono {o o' : Int} (h0 : 0 ≤ o) (h : o ≤ o') :
    (source.position o).line < (source.position o').line ∨
      (source.position o).line = (source.position o').line ∧
        (source.position o').column = (source.position o).column + (o' - o) := by
  rw [source.position_eq_locate h0, source.position_eq_locate (by omega)]
  exact locate_mono _ 0 0 h

theorem position_line_mono {o o' : Int} (h0 : 0 ≤ o) (h : o ≤ o') :
    (source.position o).line ≤ (source.position o').line := by
  rcases source.position_mono h0 h with hl | ⟨hl, -⟩ <;> omega

theorem position_column_nonneg {o : Int} (h0 : 0 ≤ o) : 0 ≤ (source.position o).column := by
  rw [source.position_eq_locate h0]
  exact locate_column_nonneg _ 0 0 h0

theorem position_line_nonneg {o : Int} (h0 : 0 ≤ o) : 0 ≤ (source.position o).line := by
  rw [source.position_eq_locate h0]
  exact le_locate_line _ 0 0 o

/-! ## Regions -/

/-- The position just past the character before an offset. -/
def endBefore (offset : Int) : Position :=
  ⟨(source.position (offset - 1)).line, (source.position (offset - 1)).column + 1⟩

theorem resolve_of_lt {span : Span} (h : span.lo < span.hi) :
    source.resolve span = ⟨source.position span.lo, source.endBefore span.hi⟩ := by
  rw [resolve, if_neg (by omega)]
  rfl

theorem resolve_line_nonneg {span : Span} (h0 : 0 ≤ span.lo) (hlt : span.lo < span.hi) :
    0 ≤ (source.resolve span).start.line ∧ 0 ≤ (source.resolve span).stop.line := by
  rw [source.resolve_of_lt hlt]
  exact ⟨source.position_line_nonneg h0, source.position_line_nonneg (by omega)⟩

theorem endBefore_eq_after {before text rest : List Char}
    (h : source.chars = before ++ (text ++ rest)) (hne : text ≠ [])
    (hlast : text.getLast? ≠ some '\n') :
    source.endBefore (before.length + text.length : Nat) =
      (Position.origin.after before).after text := by
  obtain ⟨front, c, rfl⟩ : ∃ front c, text = front ++ [c] :=
    ⟨text.dropLast, text.getLast hne, (List.dropLast_concat_getLast hne).symm⟩
  have hc : c ≠ '\n' := by simpa using hlast
  have hsplit : source.chars = (before ++ front) ++ (c :: rest) := by simpa using h
  have hpos := source.position_length_append hsplit
  have hoffset : ((before.length + (front ++ [c]).length : Nat) : Int) - 1 =
      (before ++ front).length := by
    simp only [List.length_append, List.length_singleton]
    omega
  rw [endBefore, hoffset, hpos, Position.after_append, Position.after_append]
  simp [Position.past, hc]

/-- A text that ends no line stretches from where the text before it ends to where it ends. -/
theorem resolve_of_split {before text rest : List Char}
    (h : source.chars = before ++ (text ++ rest)) (hne : text ≠ [])
    (hlast : text.getLast? ≠ some '\n') :
    source.resolve ⟨before.length, (before.length + text.length : Nat)⟩ =
      ⟨Position.origin.after before, (Position.origin.after before).after text⟩ := by
  have hlen : 0 < text.length := List.length_pos_iff.mpr hne
  rw [source.resolve_of_lt (by simp only; omega)]
  simp only
  rw [source.position_length_append h, source.endBefore_eq_after h hne hlast]

end Source

end Offside
