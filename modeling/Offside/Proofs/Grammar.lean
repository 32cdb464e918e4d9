import Offside.Proofs.Tiling

/-!
# The grammar of tokens

Which texts are tokens, said without a reader: for each kind the characters that it is written
with, and what must not follow them. What is read at the head of a text is a token exactly where
the grammar has one there.

- `Run`: a longest run of a class.
- `Fraction`, `Exponent`, `OpensLiteral`, `OpensComment`: parts of the grammar.
- `Reads`: the tokens.
- `scan_eq_token_iff`: what is read as a token, and how far it reaches, by the grammar.
- `Source.reads_tokens`: the tokens of a source are those of the grammar.
-/
namespace Offside

set_option autoImplicit false

open Text

namespace Lexeme

/-! ## Runs -/

/-- Characters of a class, as many as there are before what follows. -/
structure Run (p : Char → Bool) (run behind : List Char) : Prop where
  all : ∀ c ∈ run, p c = true
  longest : ∀ c, behind.head? = some c → p c = false

namespace Run

variable {p : Char → Bool}

theorem runLength_eq {run behind : List Char} (h : Run p run behind) :
    runLength p (run ++ behind) = run.length := by
  induction run with
  | nil =>
    cases behind with
    | nil => rfl
    | cons c behind => simp [runLength_cons, h.longest c rfl]
  | cons c run ih =>
    rw [List.cons_append, runLength_cons, if_pos (h.all c List.mem_cons_self),
      ih ⟨fun d hd => h.all d (List.mem_cons_of_mem c hd), h.longest⟩, List.length_cons]

theorem exists_split (p : Char → Bool) (cs : List Char) :
    ∃ run behind, cs = run ++ behind ∧ Run p run behind := by
  refine ⟨cs.takeWhile p, cs.dropWhile p, List.takeWhile_append_dropWhile.symm,
    List.all_eq_true.mp List.all_takeWhile, fun c hc => ?_⟩
  simpa [hc] using List.head?_dropWhile_not p cs

theorem cons {c : Char} (hc : p c = true) {run behind : List Char} (h : Run p run behind) :
    Run p (c :: run) behind := by
  refine ⟨fun d hd => ?_, h.longest⟩
  rcases List.mem_cons.mp hd with rfl | hd
  · exact hc
  · exact h.all d hd

end Run

/-! ## Parts of numbers -/

/-- A point, a digit and more digits, or nothing where no point and digit follow. -/
inductive Fraction : List Char → List Char → Prop
  | digits {d : Char} {run behind : List Char} (hd : isDigit d = true)
      (h : Run isDigitOrGap run behind) : Fraction ('.' :: d :: run) behind
  | absent {behind : List Char} (h : ∀ d rest, behind = '.' :: d :: rest → isDigit d = false) :
      Fraction [] behind

/-- The letter of an exponent with its sign, if there is one. -/
inductive ExponentMark : List Char → Prop
  | unsigned {e : Char} (he : e = 'e' ∨ e = 'E') : ExponentMark [e]
  | signed {e s : Char} (he : e = 'e' ∨ e = 'E') (hs : s = '+' ∨ s = '-') : ExponentMark [e, s]

/-- The mark of an exponent, a digit and more digits, or nothing where no mark and digit follow. -/
inductive Exponent : List Char → List Char → Prop
  | digits {mark : List Char} {d : Char} {run behind : List Char} (hm : ExponentMark mark)
      (hd : isDigit d = true) (h : Run isDigitOrGap run behind) :
      Exponent (mark ++ d :: run) behind
  | absent {behind : List Char}
      (h : ∀ mark d rest, ExponentMark mark → behind = mark ++ d :: rest → isDigit d = false) :
      Exponent [] behind

theorem Fraction.length_eq {fraction behind : List Char} (h : Fraction fraction behind) :
    fractionLength (fraction ++ behind) = fraction.length := by
  cases h with
  | digits hd h =>
    simp only [List.cons_append, fractionLength, hd, and_self, if_true, h.runLength_eq,
      List.length_cons]
    omega
  | absent h =>
    rcases behind with _ | ⟨point, _ | ⟨d, rest⟩⟩
    · rfl
    · rfl
    · rw [List.nil_append, fractionLength, if_neg]
      · rfl
      · rintro ⟨rfl, hd⟩
        simp [h d rest rfl] at hd

theorem exists_fraction (cs : List Char) :
    ∃ fraction behind, cs = fraction ++ behind ∧ Fraction fraction behind := by
  by_cases h : ∃ d rest, cs = '.' :: d :: rest ∧ isDigit d = true
  · obtain ⟨d, rest, rfl, hd⟩ := h
    obtain ⟨run, behind, rfl, hrun⟩ := Run.exists_split isDigitOrGap rest
    exact ⟨'.' :: d :: run, behind, rfl, .digits hd hrun⟩
  · refine ⟨[], cs, rfl, .absent fun d rest hcs => ?_⟩
    exact Bool.eq_false_iff.mpr fun hd => h ⟨d, rest, hcs, hd⟩

theorem Exponent.length_eq {exponent behind : List Char} (h : Exponent exponent behind) :
    exponentLength (exponent ++ behind) = exponent.length := by
  cases h with
  | @digits mark d run _ hm hd h =>
    cases hm with
    | unsigned he =>
      simp only [List.cons_append, List.nil_append, exponentLength, he, hd, true_or, and_self,
        if_true, h.runLength_eq, List.length_cons]
      omega
    | signed he hs =>
      have hrun : runLength isDigitOrGap (d :: (run ++ behind)) = run.length + 1 :=
        (h.cons (by simp [isDigitOrGap, hd])).runLength_eq
      simp only [List.cons_append, List.nil_append, exponentLength, he, hs, startsWithDigit,
        List.head?_cons, Option.map_some, Option.getD_some, hd, and_self, or_true, if_true, hrun,
        List.length_cons]
      omega
  | absent h =>
    rcases behind with _ | ⟨e, _ | ⟨first, rest⟩⟩
    · rfl
    · rfl
    · rw [List.nil_append, exponentLength, if_neg]
      · rfl
      · rintro ⟨he, hd | ⟨hs, hd⟩⟩
        · simp [h [e] first rest (.unsigned he) rfl] at hd
        · cases rest with
          | nil => simp [startsWithDigit] at hd
          | cons d rest =>
            simp [startsWithDigit, h [e, first] d rest (.signed he hs) rfl] at hd

theorem exists_exponent (cs : List Char) :
    ∃ exponent behind, cs = exponent ++ behind ∧ Exponent exponent behind := by
  by_cases h : ∃ mark d rest, ExponentMark mark ∧ cs = mark ++ d :: rest ∧ isDigit d = true
  · obtain ⟨mark, d, rest, hm, rfl, hd⟩ := h
    obtain ⟨run, behind, rfl, hrun⟩ := Run.exists_split isDigitOrGap rest
    exact ⟨mark ++ d :: run, behind, by simp, .digits hm hd hrun⟩
  · refine ⟨[], cs, rfl, .absent fun mark d rest hm hcs => ?_⟩
    exact Bool.eq_false_iff.mpr fun hd => h ⟨mark, d, rest, hm, hcs, hd⟩

/-! ## What opens a literal or a comment -/

/-- A text that starts as a literal with a letter before it does. -/
inductive OpensLiteral : List Char → Prop
  | byte {mark : Char} (hm : mark = '"' ∨ mark = '\x27') (rest : List Char) :
      OpensLiteral ('b' :: mark :: rest)
  | raw {letters : List Char} (hl : letters = ['r'] ∨ letters = ['b', 'r']) (hashes : Nat)
      (rest : List Char) :
      OpensLiteral (letters ++ List.replicate hashes '#' ++ '"' :: rest)

/-- A text that starts as a comment does. -/
def OpensComment (cs : List Char) : Prop := ['/', '/'] <+: cs ∨ ['/', '*'] <+: cs

/-! ## Tokens -/

/-- By the grammar, the first text is a token of the kind where the second one follows it. -/
inductive Reads : TokenKind → List Char → List Char → Prop
  | string {byte body behind : List Char} (hb : byte = [] ∨ byte = ['b']) (h : StringBody body) :
      Reads .string (byte ++ '"' :: (body ++ ['"'])) behind
  | rawString {letters body behind : List Char} (hl : letters = ['r'] ∨ letters = ['b', 'r'])
      (hashes : Nat) (h : RawBody hashes body) :
      Reads .rawString
        (letters ++ List.replicate hashes '#' ++ '"' :: (body ++ rawMark hashes)) behind
  | character {byte body behind : List Char} (hb : byte = [] ∨ byte = ['b'])
      (h : CharacterBody body) :
      Reads .character (byte ++ '\x27' :: (body ++ ['\x27'])) behind
  | lifetime {c : Char} {run behind : List Char} (hc : isWordStart c = true)
      (h : Run isWord run behind) (hq : (run ++ behind).head? ≠ some '\x27') :
      Reads .lifetime ('\x27' :: c :: run) behind
  /-- A number in base two, eight or sixteen. -/
  | based {mark : Char} {digits suffix behind : List Char}
      (hm : mark = 'x' ∨ mark = 'o' ∨ mark = 'b') (hd : Run isHexOrGap digits (suffix ++ behind))
      (hs : Run isWord suffix behind) :
      Reads .integer ('0' :: mark :: (digits ++ suffix)) behind
  | decimal {first : Char} {whole fraction exponent suffix behind : List Char}
      (hc : isDigit first = true)
      (hno : ∀ mark rest, mark = 'x' ∨ mark = 'o' ∨ mark = 'b' →
        first :: (whole ++ (fraction ++ (exponent ++ (suffix ++ behind)))) ≠ '0' :: mark :: rest)
      (hw : Run isDigitOrGap whole (fraction ++ (exponent ++ (suffix ++ behind))))
      (hf : Fraction fraction (exponent ++ (suffix ++ behind)))
      (he : Exponent exponent (suffix ++ behind)) (hs : Run isWord suffix behind) :
      Reads (if fraction ≠ [] ∨ exponent ≠ [] ∨ suffix.head? = some 'f' then .float else .integer)
        (first :: (whole ++ (fraction ++ (exponent ++ suffix)))) behind
  /-- A name as it is written. -/
  | rawName {run behind : List Char} (h : Run isWord run behind)
      (hno : ¬ OpensLiteral ('r' :: '#' :: (run ++ behind))) :
      Reads .identifier ('r' :: '#' :: run) behind
  | name {c : Char} {run behind : List Char} (hc : isWordStart c = true)
      (hd : isDigit c = false) (h : Run isWord run behind)
      (hraw : ∀ rest, c :: (run ++ behind) ≠ 'r' :: '#' :: rest)
      (hno : ¬ OpensLiteral (c :: (run ++ behind))) :
      Reads .identifier (c :: run) behind
  | opening {c : Char} {behind : List Char} (h : isOpening c = true) :
      Reads .openDelimiter [c] behind
  | closing {c : Char} {behind : List Char} (h : isClosing c = true) :
      Reads .closeDelimiter [c] behind
  /-- The longest operator that fits. -/
  | operator {text behind : List Char} (h : text ∈ operators)
      (hlong : ∀ other ∈ operators, other <+: text ++ behind → other.length ≤ text.length)
      (hno : ¬ OpensComment (text ++ behind)) :
      Reads (if text = fatArrow then .fatArrow else .operator) text behind

/-! ## How the head of a text decides -/

theorem rawStringAt?_of_opening (before : Nat) {hashes : Nat} {rest tail : List Char}
    (h : rest.drop before = List.replicate hashes '#' ++ '"' :: tail) :
    rawStringAt? before rest = some (literal .rawString .openRawString (before + hashes + 1)
      (rawReach hashes (rest.drop (before + hashes + 1)))) := by
  rw [rawStringAt?, rawOpening?_eq_some_iff.mpr ⟨tail, h⟩, Option.map_some]

theorem exists_opening_of_rawStringAt? {before : Nat} {rest : List Char} {found : Lexeme × Nat}
    (h : rawStringAt? before rest = some found) :
    ∃ hashes tail, rest.drop before = List.replicate hashes '#' ++ '"' :: tail ∧
      found = literal .rawString .openRawString (before + hashes + 1)
        (rawReach hashes (rest.drop (before + hashes + 1))) := by
  obtain ⟨hashes, ho, rfl⟩ := Option.map_eq_some_iff.mp h
  obtain ⟨tail, htail⟩ := rawOpening?_eq_some_iff.mp ho
  exact ⟨hashes, tail, htail, rfl⟩

theorem opensLiteral_iff {c : Char} {rest : List Char} :
    OpensLiteral (c :: rest) ↔ ∃ found, letteredLiteral? c rest = some found := by
  constructor
  · intro h
    generalize hcs : c :: rest = cs at h
    cases h with
    | byte hm tail =>
      obtain ⟨rfl, rfl⟩ := List.cons.inj hcs
      rcases hm with rfl | rfl
      · exact ⟨_, rfl⟩
      · exact ⟨_, rfl⟩
    | raw hl hashes tail =>
      rcases hl with rfl | rfl
      · obtain ⟨rfl, rfl⟩ := List.cons.inj hcs
        exact ⟨_, rawStringAt?_of_opening 0 rfl⟩
      · obtain ⟨rfl, rfl⟩ := List.cons.inj hcs
        exact ⟨_, rawStringAt?_of_opening 1 rfl⟩
  · rintro ⟨found, h⟩
    unfold letteredLiteral? at h
    split_ifs at h with hb hr hq ha hc
    · obtain ⟨tail, rfl⟩ := List.head?_eq_some_iff.mp hr
      obtain ⟨hashes, behind, hbehind, -⟩ := exists_opening_of_rawStringAt? h
      rw [List.drop_succ_cons, List.drop_zero] at hbehind
      rw [hb, hbehind]
      exact .raw (.inr rfl) hashes behind
    · obtain ⟨tail, rfl⟩ := List.head?_eq_some_iff.mp hq
      exact hb ▸ .byte (.inl rfl) tail
    · obtain ⟨tail, rfl⟩ := List.head?_eq_some_iff.mp ha
      exact hb ▸ .byte (.inr rfl) tail
    · obtain ⟨hashes, behind, hbehind, -⟩ := exists_opening_of_rawStringAt? h
      rw [List.drop_zero] at hbehind
      rw [hc, hbehind]
      exact .raw (.inl rfl) hashes behind

theorem letteredLiteral?_eq_none {c : Char} {rest : List Char} (h : ¬ OpensLiteral (c :: rest)) :
    letteredLiteral? c rest = none := by
  cases hl : letteredLiteral? c rest with
  | none => rfl
  | some found => exact absurd (opensLiteral_iff.mpr ⟨found, hl⟩) h

theorem OpensLiteral.head {c : Char} {rest : List Char} (h : OpensLiteral (c :: rest)) :
    c = 'b' ∨ c = 'r' := by
  generalize hcs : c :: rest = cs at h
  cases h with
  | byte => exact .inl (List.cons.inj hcs).1
  | raw hl hashes tail =>
    rcases hl with rfl | rfl
    · exact .inr (List.cons.inj hcs).1
    · exact .inl (List.cons.inj hcs).1

theorem OpensComment.head {c : Char} {rest : List Char} (h : OpensComment (c :: rest)) :
    c = '/' := by
  rcases h with h | h
  · exact (List.cons_prefix_cons.mp h).1.symm
  · exact (List.cons_prefix_cons.mp h).1.symm

theorem opensComment_iff {c : Char} {rest : List Char} :
    OpensComment (c :: rest) ↔
      (c = '/' ∧ rest.head? = some '/') ∨ c = '/' ∧ rest.head? = some '*' := by
  have hone (d : Char) : ['/', d] <+: c :: rest ↔ c = '/' ∧ rest.head? = some d := by
    rw [List.cons_prefix_cons, eq_comm]
    cases rest with
    | nil => simp
    | cons e rest => simp [eq_comm]
  rw [OpensComment, hone, hone]

/-- The characters that are read before any class of characters is asked. -/
def marks : List Char := [' ', '\n', '\r', '\t', '"', '\x27']

/-- What neither opens a comment or a literal nor is blank is decided by the class of its first
character. -/
theorem scan_of_notMem_marks {c : Char} {rest : List Char} (hm : c ∉ marks)
    (hcomment : ¬ OpensComment (c :: rest)) (hliteral : ¬ OpensLiteral (c :: rest)) :
    scan c rest =
      if isDigit c then (.token (number c rest).1, (number c rest).2)
      else if isWordStart c then name c rest
      else if isOpening c then (.token .openDelimiter, 0)
      else if isClosing c then (.token .closeDelimiter, 0)
      else operatorOrStray c rest := by
  simp only [marks, List.mem_cons, List.not_mem_nil, or_false, not_or] at hm
  rw [opensComment_iff, not_or] at hcomment
  rw [scan, if_neg (by simp [hm]), if_neg hm.2.2.2.1, if_neg hcomment.1, if_neg hcomment.2,
    letteredLiteral?_eq_none hliteral]
  simp only [if_neg hm.2.2.2.2.1, if_neg hm.2.2.2.2.2]

theorem ne_of_class {p : Char → Bool} {c d : Char} (hc : p c = true) (hd : p d = false) :
    c ≠ d := by
  rintro rfl
  simp [hc] at hd

theorem notMem_marks_of_class {p : Char → Bool} (hp : marks.all (!p ·) = true) {c : Char}
    (hc : p c = true) : c ∉ marks := by
  intro hm
  have hno := List.all_eq_true.mp hp c hm
  simp [hc] at hno

theorem scan_of_isDigit {c : Char} (hc : isDigit c = true) (rest : List Char) :
    scan c rest = (.token (number c rest).1, (number c rest).2) := by
  have hm : c ∉ marks := notMem_marks_of_class (by decide) hc
  have hcomment : ¬ OpensComment (c :: rest) := fun h => ne_of_class hc (by decide) h.head
  have hliteral : ¬ OpensLiteral (c :: rest) := fun h => by
    rcases h.head with h | h
    · exact ne_of_class hc (by decide) h
    · exact ne_of_class hc (by decide) h
  rw [scan_of_notMem_marks hm hcomment hliteral, if_pos hc]

theorem scan_of_isWordStart {c : Char} (hc : isWordStart c = true) (hd : isDigit c = false)
    {rest : List Char} (hliteral : ¬ OpensLiteral (c :: rest)) : scan c rest = name c rest := by
  have hm : c ∉ marks := notMem_marks_of_class (by decide) hc
  have hcomment : ¬ OpensComment (c :: rest) := fun h => ne_of_class hc (by decide) h.head
  rw [scan_of_notMem_marks hm hcomment hliteral, if_neg (by simp [hd]), if_pos hc]

theorem scan_of_isOpening {c : Char} (hc : isOpening c = true) (rest : List Char) :
    scan c rest = (.token .openDelimiter, 0) := by
  obtain rfl | rfl | rfl : c = '(' ∨ c = '[' ∨ c = '\x7b' := by
    simpa [isOpening, or_assoc] using hc
  all_goals
    rw [scan_of_notMem_marks (by decide) (fun h => absurd h.head (by decide))
      (fun h => absurd h.head (by decide)), if_neg (by decide), if_neg (by decide), if_pos hc]

theorem scan_of_isClosing {c : Char} (hc : isClosing c = true) (rest : List Char) :
    scan c rest = (.token .closeDelimiter, 0) := by
  obtain rfl | rfl | rfl : c = ')' ∨ c = ']' ∨ c = '\x7d' := by
    simpa [isClosing, or_assoc] using hc
  all_goals
    rw [scan_of_notMem_marks (by decide) (fun h => absurd h.head (by decide))
      (fun h => absurd h.head (by decide)), if_neg (by decide), if_neg (by decide),
      if_neg (by decide), if_pos hc]

def startsOperator (c : Char) : Bool :=
  !marks.contains c && !isDigit c && !isWordStart c && !isOpening c && !isClosing c

theorem head_operators :
    ∀ text ∈ operators, text.head?.any startsOperator = true := by
  decide +kernel

theorem scan_of_startsOperator {c : Char} (hc : startsOperator c = true) {rest : List Char}
    (hcomment : ¬ OpensComment (c :: rest)) : scan c rest = operatorOrStray c rest := by
  simp only [startsOperator, Bool.and_eq_true, Bool.not_eq_true', List.contains_eq_mem,
    decide_eq_false_iff_not] at hc
  obtain ⟨⟨⟨⟨hm, hd⟩, hw⟩, ho⟩, hclose⟩ := hc
  have hliteral : ¬ OpensLiteral (c :: rest) := fun h => by
    rcases h.head with rfl | rfl
    · exact absurd hw (by decide)
    · exact absurd hw (by decide)
  rw [scan_of_notMem_marks hm hcomment hliteral, if_neg (by simp [hd]), if_neg (by simp [hw]),
    if_neg (by simp [ho]), if_neg (by simp [hclose])]

/-! ## What the grammar has is read -/

theorem StringBody.stringAt {body : List Char} (h : StringBody body) {before : Nat}
    {rest behind : List Char} (hrest : rest.drop before = body ++ '"' :: behind) :
    stringAt before rest = (.token .string, before + (body.length + 1)) := by
  rw [Lexeme.stringAt, hrest, h.reach]
  rfl

theorem CharacterBody.characterAt {body : List Char} (h : CharacterBody body) {before : Nat}
    {rest behind : List Char} (hrest : rest.drop before = body ++ '\x27' :: behind) :
    characterAt before rest = (.token .character, before + (body.length + 1)) := by
  rw [Lexeme.characterAt, hrest, h.reach]
  rfl

theorem RawBody.rawStringAt? {hashes : Nat} {body : List Char} (h : RawBody hashes body)
    {before : Nat} {rest behind : List Char}
    (hrest : rest.drop before =
      List.replicate hashes '#' ++ '"' :: (body ++ rawMark hashes ++ behind)) :
    rawStringAt? before rest =
      some (.token .rawString, before + hashes + 1 + (body.length + 1 + hashes)) := by
  have hdrop : rest.drop (before + hashes + 1) = body ++ rawMark hashes ++ behind := by
    rw [Nat.add_assoc, ← List.drop_drop, hrest, ← List.drop_drop]
    simp
  rw [rawStringAt?_of_opening before hrest, hdrop, h.reach]
  rfl

theorem scan_of_letteredLiteral? {c : Char} {rest : List Char} {found : Lexeme × Nat}
    (h : letteredLiteral? c rest = some found) : scan c rest = found := by
  rcases (opensLiteral_iff.mpr ⟨found, h⟩).head with rfl | rfl
  · simp [scan, h]
  · simp [scan, h]

theorem scan_quotation (rest : List Char) : scan '"' rest = stringAt 0 rest := by
  simp [scan, letteredLiteral?]

theorem scan_apostrophe (rest : List Char) : scan '\x27' rest = afterApostrophe rest := by
  simp [scan, letteredLiteral?]

theorem scan_string {byte body : List Char} (hb : byte = [] ∨ byte = ['b'])
    (h : StringBody body) (behind : List Char) :
    ∃ c rest, byte ++ '"' :: (body ++ ['"']) = c :: rest ∧
      scan c (rest ++ behind) = (.token .string, rest.length) := by
  rcases hb with rfl | rfl
  · refine ⟨'"', body ++ ['"'], rfl, ?_⟩
    have hrest : (body ++ ['"'] ++ behind).drop 0 = body ++ '"' :: behind := by simp
    rw [scan_quotation, h.stringAt hrest]
    simp
  · refine ⟨'b', '"' :: (body ++ ['"']), rfl, ?_⟩
    have hrest : ('"' :: (body ++ ['"']) ++ behind).drop 1 = body ++ '"' :: behind := by simp
    have hl : letteredLiteral? 'b' ('"' :: (body ++ ['"']) ++ behind) = some _ :=
      congrArg some (h.stringAt hrest)
    rw [scan_of_letteredLiteral? hl]
    simp [Nat.add_comm]

theorem scan_character {byte body : List Char} (hb : byte = [] ∨ byte = ['b'])
    (h : CharacterBody body) (behind : List Char) :
    ∃ c rest, byte ++ '\x27' :: (body ++ ['\x27']) = c :: rest ∧
      scan c (rest ++ behind) = (.token .character, rest.length) := by
  rcases hb with rfl | rfl
  · refine ⟨'\x27', body ++ ['\x27'], rfl, ?_⟩
    have hrest : (body ++ ['\x27'] ++ behind).drop 0 = body ++ '\x27' :: behind := by simp
    have hafter : afterApostrophe (body ++ ['\x27'] ++ behind) =
        characterAt 0 (body ++ ['\x27'] ++ behind) := by
      rw [afterApostrophe, if_pos]
      cases h with
      | plain hc => exact .inr rfl
      | escape d hinner => exact .inl rfl
    rw [scan_apostrophe, hafter, h.characterAt hrest]
    simp
  · refine ⟨'b', '\x27' :: (body ++ ['\x27']), rfl, ?_⟩
    have hrest : ('\x27' :: (body ++ ['\x27']) ++ behind).drop 1 = body ++ '\x27' :: behind := by
      simp
    have hl : letteredLiteral? 'b' ('\x27' :: (body ++ ['\x27']) ++ behind) = some _ :=
      congrArg some (h.characterAt hrest)
    rw [scan_of_letteredLiteral? hl]
    simp [Nat.add_comm]

theorem scan_rawString {letters body : List Char} (hl : letters = ['r'] ∨ letters = ['b', 'r'])
    {hashes : Nat} (h : RawBody hashes body) (behind : List Char) :
    ∃ c rest,
      letters ++ List.replicate hashes '#' ++ '"' :: (body ++ rawMark hashes) = c :: rest ∧
        scan c (rest ++ behind) = (.token .rawString, rest.length) := by
  rcases hl with rfl | rfl
  · refine ⟨'r', List.replicate hashes '#' ++ '"' :: (body ++ rawMark hashes), rfl, ?_⟩
    have hrest : (List.replicate hashes '#' ++ '"' :: (body ++ rawMark hashes) ++ behind).drop 0 =
        List.replicate hashes '#' ++ '"' :: (body ++ rawMark hashes ++ behind) := by simp
    have hl : letteredLiteral? 'r' (List.replicate hashes '#' ++ '"' ::
        (body ++ rawMark hashes) ++ behind) = some _ := h.rawStringAt? hrest
    rw [scan_of_letteredLiteral? hl]
    simp only [List.length_append, List.length_replicate, List.length_cons, length_rawMark,
      Prod.mk.injEq, true_and]
    omega
  · refine ⟨'b', 'r' :: (List.replicate hashes '#' ++ '"' :: (body ++ rawMark hashes)), rfl, ?_⟩
    have hrest : ('r' :: (List.replicate hashes '#' ++ '"' :: (body ++ rawMark hashes)) ++
        behind).drop 1 = List.replicate hashes '#' ++ '"' :: (body ++ rawMark hashes ++ behind) := by
      simp
    have hl : letteredLiteral? 'b' ('r' :: (List.replicate hashes '#' ++ '"' ::
        (body ++ rawMark hashes)) ++ behind) = some _ := h.rawStringAt? hrest
    rw [scan_of_letteredLiteral? hl]
    simp only [List.length_append, List.length_replicate, List.length_cons, length_rawMark,
      Prod.mk.injEq, true_and]
    omega

theorem scan_lifetime {c : Char} {run behind : List Char} (hc : isWordStart c = true)
    (h : Run isWord run behind) (hq : (run ++ behind).head? ≠ some '\x27') :
    scan '\x27' (c :: run ++ behind) = (.token .lifetime, (c :: run).length) := by
  have hb : c ≠ '\\' := ne_of_class hc (by decide)
  have hnot : ¬ ((c :: run ++ behind).head? = some '\\' ∨
      (c :: run ++ behind)[1]? = some '\x27') := by
    rintro (hh | hh)
    · exact hb (Option.some.inj hh)
    · rw [List.cons_append, List.getElem?_cons_succ, ← List.head?_eq_getElem?] at hh
      exact hq hh
  rw [scan_apostrophe, afterApostrophe, if_neg hnot, if_pos (by simp [hc]),
    (h.cons (isWord_of_isWordStart hc)).runLength_eq]

theorem number_based {mark : Char} {digits suffix behind : List Char}
    (hm : mark = 'x' ∨ mark = 'o' ∨ mark = 'b') (hd : Run isHexOrGap digits (suffix ++ behind))
    (hs : Run isWord suffix behind) :
    number '0' (mark :: (digits ++ suffix) ++ behind) =
      (.integer, (mark :: (digits ++ suffix)).length) := by
  have hhead : (mark :: (digits ++ suffix) ++ behind).head? = some mark := rfl
  have hdigits : runLength isHexOrGap ((mark :: (digits ++ suffix) ++ behind).drop 1) =
      digits.length := by
    have := hd.runLength_eq
    simpa using this
  have hdrop : (mark :: (digits ++ suffix) ++ behind).drop (1 + digits.length) =
      suffix ++ behind := by
    rw [Nat.add_comm]
    simp
  rw [number, if_pos ⟨rfl, by simpa [hhead] using hm⟩]
  simp only [hdigits, hdrop, hs.runLength_eq, List.length_cons, List.length_append,
    Prod.mk.injEq, true_and]
  omega

theorem number_decimal {first : Char} {whole fraction exponent suffix behind : List Char}
    (hno : ∀ mark rest, mark = 'x' ∨ mark = 'o' ∨ mark = 'b' →
      first :: (whole ++ (fraction ++ (exponent ++ (suffix ++ behind)))) ≠ '0' :: mark :: rest)
    (hw : Run isDigitOrGap whole (fraction ++ (exponent ++ (suffix ++ behind))))
    (hf : Fraction fraction (exponent ++ (suffix ++ behind)))
    (he : Exponent exponent (suffix ++ behind)) (hs : Run isWord suffix behind) :
    number first (whole ++ (fraction ++ (exponent ++ (suffix ++ behind)))) =
      (if fraction ≠ [] ∨ exponent ≠ [] ∨ suffix.head? = some 'f' then .float else .integer,
        (whole ++ (fraction ++ (exponent ++ suffix))).length) := by
  have hbase : ¬ (first = '0' ∧
      ((whole ++ (fraction ++ (exponent ++ (suffix ++ behind)))).head? = some 'x' ∨
        (whole ++ (fraction ++ (exponent ++ (suffix ++ behind)))).head? = some 'o' ∨
        (whole ++ (fraction ++ (exponent ++ (suffix ++ behind)))).head? = some 'b')) := by
    rintro ⟨rfl, hx | hx | hx⟩
    all_goals
      obtain ⟨tail, htail⟩ := List.head?_eq_some_iff.mp hx
      exact hno _ tail (by decide) (congrArg ('0' :: ·) htail)
  have hsuffix : (suffix ++ behind).head? = some 'f' ↔ suffix.head? = some 'f' := by
    cases suffix with
    | nil =>
      simp only [List.nil_append, List.head?_nil, reduceCtorEq, iff_false]
      intro hb
      exact absurd (hs.longest 'f' hb) (by decide)
    | cons d suffix => rfl
  rw [number, if_neg hbase]
  simp only [hw.runLength_eq, List.drop_left, hf.length_eq, ← List.drop_drop, he.length_eq,
    hs.runLength_eq, hsuffix, ne_eq, List.length_eq_zero_iff, List.length_append, Prod.mk.injEq,
    true_and]
  omega

theorem scan_decimal {first : Char} {whole fraction exponent suffix behind : List Char}
    (hc : isDigit first = true)
    (hno : ∀ mark rest, mark = 'x' ∨ mark = 'o' ∨ mark = 'b' →
      first :: (whole ++ (fraction ++ (exponent ++ (suffix ++ behind)))) ≠ '0' :: mark :: rest)
    (hw : Run isDigitOrGap whole (fraction ++ (exponent ++ (suffix ++ behind))))
    (hf : Fraction fraction (exponent ++ (suffix ++ behind)))
    (he : Exponent exponent (suffix ++ behind)) (hs : Run isWord suffix behind) :
    scan first (whole ++ (fraction ++ (exponent ++ suffix)) ++ behind) =
      (.token (if fraction ≠ [] ∨ exponent ≠ [] ∨ suffix.head? = some 'f' then .float
        else .integer), (whole ++ (fraction ++ (exponent ++ suffix))).length) := by
  rw [scan_of_isDigit hc]
  simp only [List.append_assoc]
  rw [number_decimal hno hw hf he hs]

theorem scan_rawName {run behind : List Char} (h : Run isWord run behind)
    (hno : ¬ OpensLiteral ('r' :: '#' :: (run ++ behind))) :
    scan 'r' ('#' :: run ++ behind) = (.token .identifier, ('#' :: run).length) := by
  have hdrop : ('#' :: run ++ behind).drop 1 = run ++ behind := rfl
  have hscan : scan 'r' ('#' :: run ++ behind) = Lexeme.name 'r' ('#' :: run ++ behind) :=
    scan_of_isWordStart (by decide) (by decide) hno
  rw [hscan, Lexeme.name, if_pos ⟨rfl, rfl⟩]
  simp only [hdrop, h.runLength_eq, List.length_cons, Nat.add_comm]

theorem scan_name {c : Char} {run behind : List Char} (hc : isWordStart c = true)
    (hd : isDigit c = false) (h : Run isWord run behind)
    (hraw : ∀ rest, c :: (run ++ behind) ≠ 'r' :: '#' :: rest)
    (hno : ¬ OpensLiteral (c :: (run ++ behind))) :
    scan c (run ++ behind) = (.token .identifier, run.length) := by
  have hmark : ¬ (c = 'r' ∧ (run ++ behind).head? = some '#') := by
    rintro ⟨rfl, hh⟩
    obtain ⟨tail, htail⟩ := List.head?_eq_some_iff.mp hh
    exact hraw tail (congrArg ('r' :: ·) htail)
  rw [scan_of_isWordStart hc hd hno, name, if_neg hmark, List.drop_zero, h.runLength_eq,
    Nat.zero_add]

/-- In a list where no later text goes on from an earlier one, the first that fits is the
longest. -/
theorem longest_of_find? {texts : List (List Char)} {cs text : List Char}
    (hp : texts.Pairwise fun earlier later => earlier.isPrefixOf later = false)
    (hf : texts.find? (·.isPrefixOf cs) = some text) :
    ∀ other ∈ texts, other <+: cs → other.length ≤ text.length := by
  induction texts with
  | nil => simp
  | cons first texts ih =>
    obtain ⟨hfirst, hrest⟩ := List.pairwise_cons.mp hp
    intro other ho hfit
    cases hc : first.isPrefixOf cs with
    | true =>
      simp only [List.find?_cons, hc, Option.some.injEq] at hf
      subst hf
      rcases List.mem_cons.mp ho with rfl | ho
      · exact Nat.le_refl _
      · obtain hle | hle := List.prefix_or_prefix_of_prefix (List.isPrefixOf_iff_prefix.mp hc) hfit
        · have hno := hfirst other ho
          rw [List.isPrefixOf_iff_prefix.mpr hle] at hno
          simp at hno
        · exact hle.length_le
    | false =>
      simp only [List.find?_cons, hc] at hf
      rcases List.mem_cons.mp ho with rfl | ho
      · rw [List.isPrefixOf_iff_prefix.mpr hfit] at hc
        simp at hc
      · exact ih hrest hf other ho hfit

theorem find?_operators {text behind : List Char} (h : text ∈ operators)
    (hlong : ∀ other ∈ operators, other <+: text ++ behind → other.length ≤ text.length) :
    operators.find? (·.isPrefixOf (text ++ behind)) = some text := by
  have hfit : text <+: text ++ behind := List.prefix_append _ _
  cases hf : operators.find? (·.isPrefixOf (text ++ behind)) with
  | none =>
    have := List.find?_eq_none.mp hf text h
    exact absurd (List.isPrefixOf_iff_prefix.mpr hfit) this
  | some found =>
    have hfits := List.find?_some hf
    have hfound : found <+: text ++ behind := List.isPrefixOf_iff_prefix.mp hfits
    have hle := hlong found (List.mem_of_find?_eq_some hf) hfound
    have hge := longest_of_find? operators_longest_first hf text h hfit
    have hfront : found <+: text := List.prefix_of_prefix_length_le hfound hfit hle
    rw [hfront.eq_of_length (Nat.le_antisymm hle hge)]

theorem scan_operator {text behind : List Char} (h : text ∈ operators)
    (hlong : ∀ other ∈ operators, other <+: text ++ behind → other.length ≤ text.length)
    (hno : ¬ OpensComment (text ++ behind)) :
    ∃ c rest, text = c :: rest ∧ scan c (rest ++ behind) =
      (.token (if text = fatArrow then .fatArrow else .operator), rest.length) := by
  have hhead := head_operators text h
  have hfind := find?_operators h hlong
  cases text with
  | nil => simp at hhead
  | cons c rest =>
    refine ⟨c, rest, rfl, ?_⟩
    rw [List.cons_append] at hno hfind
    rw [scan_of_startsOperator (by simpa using hhead) hno, operatorOrStray, hfind]
    rfl

/-- What is a token by the grammar is read as that token. -/
theorem Reads.scan {kind : TokenKind} {text behind : List Char} (h : Reads kind text behind) :
    ∃ c rest, text = c :: rest ∧ scan c (rest ++ behind) = (.token kind, rest.length) := by
  cases h with
  | string hb h => exact scan_string hb h behind
  | rawString hl hashes h => exact scan_rawString hl h behind
  | character hb h => exact scan_character hb h behind
  | lifetime hc h hq => exact ⟨_, _, rfl, scan_lifetime hc h hq⟩
  | based hm hd hs =>
    refine ⟨_, _, rfl, ?_⟩
    rw [scan_of_isDigit (by decide), number_based hm hd hs]
  | decimal hc hno hw hf he hs => exact ⟨_, _, rfl, scan_decimal hc hno hw hf he hs⟩
  | rawName h hno => exact ⟨_, _, rfl, scan_rawName h hno⟩
  | name hc hd h hraw hno => exact ⟨_, _, rfl, scan_name hc hd h hraw hno⟩
  | opening h => exact ⟨_, _, rfl, scan_of_isOpening h _⟩
  | closing h => exact ⟨_, _, rfl, scan_of_isClosing h _⟩
  | operator h hlong hno => exact scan_operator h hlong hno

/-! ## What is read the grammar has -/

/-- The grammar has a token at the head of a text. -/
def HasToken (cs : List Char) : Prop :=
  ∃ kind text behind, Reads kind text behind ∧ cs = text ++ behind

theorem hasToken_string {byte : List Char} (hb : byte = [] ∨ byte = ['b']) {before n : Nat}
    {rest : List Char} {k : TokenKind} (h : stringAt before rest = (.token k, n)) :
    HasToken (byte ++ '"' :: rest.drop before) := by
  obtain ⟨-, hr, -⟩ := literal_eq_token h
  obtain ⟨body, behind, hbody, hrest, -⟩ := exists_stringBody hr
  exact ⟨_, _, behind, .string hb hbody, by simp [hrest]⟩

theorem hasToken_character {byte : List Char} (hb : byte = [] ∨ byte = ['b']) {before n : Nat}
    {rest : List Char} {k : TokenKind} (h : characterAt before rest = (.token k, n)) :
    HasToken (byte ++ '\x27' :: rest.drop before) := by
  obtain ⟨-, m, -, hr, -⟩ := characterAt_eq_token h
  obtain ⟨body, behind, hbody, hrest, -⟩ := exists_characterBody hr
  exact ⟨_, _, behind, .character hb hbody, by simp [hrest]⟩

theorem hasToken_rawString {letters : List Char} (hl : letters = ['r'] ∨ letters = ['b', 'r'])
    {before n : Nat} {rest : List Char} {k : TokenKind}
    (h : rawStringAt? before rest = some (.token k, n)) :
    HasToken (letters ++ rest.drop before) := by
  obtain ⟨hashes, tail, htail, hfound⟩ := exists_opening_of_rawStringAt? h
  obtain ⟨-, hr, -⟩ := literal_eq_token hfound.symm
  obtain ⟨body, behind, hbody, hdrop, -⟩ := exists_rawBody hr
  rw [Nat.add_assoc, ← List.drop_drop, htail, ← List.drop_drop] at hdrop
  simp only [List.drop_left', List.length_replicate, List.drop_succ_cons, List.drop_zero] at hdrop
  exact ⟨_, _, behind, .rawString hl hashes hbody, by simp [htail, hdrop]⟩

theorem hasToken_number {c : Char} (hc : isDigit c = true) (rest : List Char) :
    HasToken (c :: rest) := by
  by_cases hbase : ∃ mark tail, (mark = 'x' ∨ mark = 'o' ∨ mark = 'b') ∧
      c :: rest = '0' :: mark :: tail
  · obtain ⟨mark, tail, hm, hcs⟩ := hbase
    obtain ⟨digits, more, rfl, hdigits⟩ := Run.exists_split isHexOrGap tail
    obtain ⟨suffix, behind, rfl, hsuffix⟩ := Run.exists_split isWord more
    exact ⟨_, _, behind, .based hm hdigits hsuffix, by simp [hcs]⟩
  · obtain ⟨whole, more, rfl, hw⟩ := Run.exists_split isDigitOrGap rest
    obtain ⟨fraction, more, rfl, hf⟩ := exists_fraction more
    obtain ⟨exponent, more, rfl, he⟩ := exists_exponent more
    obtain ⟨suffix, behind, rfl, hs⟩ := Run.exists_split isWord more
    have hno : ∀ mark rest, mark = 'x' ∨ mark = 'o' ∨ mark = 'b' →
        c :: (whole ++ (fraction ++ (exponent ++ (suffix ++ behind)))) ≠ '0' :: mark :: rest :=
      fun mark tail hm hcs => hbase ⟨mark, tail, hm, hcs⟩
    exact ⟨_, _, behind, .decimal hc hno hw hf he hs, by simp⟩

theorem hasToken_name {c : Char} (hc : isWordStart c = true) (hd : isDigit c = false)
    {rest : List Char} (hno : ¬ OpensLiteral (c :: rest)) : HasToken (c :: rest) := by
  by_cases hraw : ∃ tail, c :: rest = 'r' :: '#' :: tail
  · obtain ⟨tail, hcs⟩ := hraw
    obtain ⟨run, behind, rfl, hrun⟩ := Run.exists_split isWord tail
    rw [hcs] at hno ⊢
    exact ⟨_, _, behind, .rawName hrun hno, rfl⟩
  · obtain ⟨run, behind, rfl, hrun⟩ := Run.exists_split isWord rest
    exact ⟨_, _, behind, .name hc hd hrun (fun tail hcs => hraw ⟨tail, hcs⟩) hno, rfl⟩

theorem hasToken_afterApostrophe {rest : List Char} {k : TokenKind} {n : Nat}
    (h : afterApostrophe rest = (.token k, n)) : HasToken ('\x27' :: rest) := by
  unfold afterApostrophe at h
  split_ifs at h with hchar hstart
  · exact hasToken_character (.inl rfl) h
  · cases rest with
    | nil => simp at hstart
    | cons c rest =>
      rw [List.getElem?_cons_succ, ← List.head?_eq_getElem?] at hchar
      obtain ⟨run, behind, rfl, hrun⟩ := Run.exists_split isWord rest
      exact ⟨_, _, behind, .lifetime (by simpa using hstart) hrun fun hq => hchar (.inr hq), rfl⟩
  · exact hasToken_character (.inl rfl) h

theorem hasToken_operator {c : Char} {rest : List Char} {k : TokenKind} {n : Nat}
    (hno : ¬ OpensComment (c :: rest)) (h : operatorOrStray c rest = (.token k, n)) :
    HasToken (c :: rest) := by
  unfold operatorOrStray at h
  cases hf : operators.find? (·.isPrefixOf (c :: rest)) with
  | none => simp [hf] at h
  | some text =>
    have hfits := List.find?_some hf
    obtain ⟨behind, hbehind⟩ := List.isPrefixOf_iff_prefix.mp hfits
    have hlong := longest_of_find? operators_longest_first hf
    rw [← hbehind] at hno hlong ⊢
    exact ⟨_, text, behind, .operator (List.mem_of_find?_eq_some hf) hlong hno, rfl⟩

theorem hasToken_letteredLiteral? {c : Char} {rest : List Char} {k : TokenKind} {n : Nat}
    (h : letteredLiteral? c rest = some (.token k, n)) : HasToken (c :: rest) := by
  unfold letteredLiteral? at h
  split_ifs at h with hb hr hq ha hc
  · obtain ⟨tail, rfl⟩ := List.head?_eq_some_iff.mp hr
    exact hb ▸ hasToken_rawString (.inr rfl) h
  · obtain ⟨tail, rfl⟩ := List.head?_eq_some_iff.mp hq
    exact hb ▸ hasToken_string (.inr rfl) (Option.some.inj h)
  · obtain ⟨tail, rfl⟩ := List.head?_eq_some_iff.mp ha
    exact hb ▸ hasToken_character (.inr rfl) (Option.some.inj h)
  · exact hc ▸ hasToken_rawString (.inl rfl) h

theorem hasToken_of_scan {c : Char} {rest : List Char} {k : TokenKind} {n : Nat}
    (h : scan c rest = (.token k, n)) : HasToken (c :: rest) := by
  obtain ⟨hblank, htab, hline, hblock⟩ := head_of_scan_token h
  have hcomment : ¬ OpensComment (c :: rest) := by
    rw [opensComment_iff, not_or]
    exact ⟨hline, hblock⟩
  by_cases hliteral : OpensLiteral (c :: rest)
  · obtain ⟨found, hl⟩ := opensLiteral_iff.mp hliteral
    rw [scan_of_letteredLiteral? hl] at h
    subst h
    exact hasToken_letteredLiteral? hl
  by_cases hq : c = '"'
  · subst hq
    rw [scan_quotation] at h
    exact hasToken_string (.inl rfl) h
  by_cases ha : c = '\x27'
  · subst ha
    rw [scan_apostrophe] at h
    exact hasToken_afterApostrophe h
  have hm : c ∉ marks := by simp_all [marks]
  rw [scan_of_notMem_marks hm hcomment hliteral] at h
  split_ifs at h with hd hw ho hc
  · exact hasToken_number hd rest
  · exact hasToken_name hw (by simpa using hd) hliteral
  · exact ⟨_, [c], rest, .opening ho, rfl⟩
  · exact ⟨_, [c], rest, .closing hc, rfl⟩
  · exact hasToken_operator hcomment h

/-- What is read at the head of a text is a token exactly where the grammar has one there, of that
kind and as long. -/
theorem scan_eq_token_iff {c : Char} {rest : List Char} {k : TokenKind} {n : Nat} :
    scan c rest = (.token k, n) ↔
      ∃ text behind, Reads k text behind ∧ c :: rest = text ++ behind ∧ text.length = n + 1 := by
  constructor
  · intro h
    obtain ⟨kind, text, behind, hreads, hcs⟩ := hasToken_of_scan h
    obtain ⟨d, tail, rfl, hscan⟩ := hreads.scan
    rw [List.cons_append, List.cons.injEq] at hcs
    obtain ⟨rfl, rfl⟩ := hcs
    rw [hscan] at h
    simp only [Prod.mk.injEq, Lexeme.token.injEq] at h
    obtain ⟨rfl, rfl⟩ := h
    exact ⟨_, behind, hreads, rfl, rfl⟩
  · rintro ⟨text, behind, hreads, hcs, hlen⟩
    obtain ⟨d, tail, rfl, hscan⟩ := hreads.scan
    rw [List.cons_append, List.cons.injEq] at hcs
    obtain ⟨rfl, rfl⟩ := hcs
    rw [hscan, Nat.succ.inj hlen]

/-- A text starts with one token of the grammar at most. -/
theorem Reads.unique {kind kind' : TokenKind} {text text' behind behind' : List Char}
    (h : Reads kind text behind) (h' : Reads kind' text' behind')
    (hsame : text ++ behind = text' ++ behind') : kind' = kind ∧ text' = text := by
  obtain ⟨c, rest, rfl, hscan⟩ := h.scan
  obtain ⟨d, rest', rfl, hscan'⟩ := h'.scan
  rw [List.cons_append, List.cons_append, List.cons.injEq] at hsame
  obtain ⟨rfl, hrest⟩ := hsame
  rw [hrest, hscan'] at hscan
  simp only [Prod.mk.injEq, Lexeme.token.injEq] at hscan
  refine ⟨hscan.1, ?_⟩
  rw [(List.append_inj hrest hscan.2.symm).1]

end Lexeme

/-! ## The tokens of a source -/

theorem Lexeme.Reads.start {kind : TokenKind} {text behind rest : List Char} {c : Char}
    (h : Reads kind text behind) (hcs : c :: rest = text ++ behind) :
    (Piece.start c rest).1 = ⟨.token kind, text, text.length⟩ := by
  obtain ⟨d, tail, rfl, hscan⟩ := h.scan
  rw [List.cons_append, List.cons.injEq] at hcs
  obtain ⟨rfl, rfl⟩ := hcs
  rw [Piece.start_eq, hscan, List.take_left, List.length_cons]

theorem Tile.reads {source : Source} {tile : Tile} (ht : tile ∈ tiles source.chars)
    {token : Token} (h : tile.token? = some token) :
    ∃ before behind, source.chars = before ++ (token.text ++ behind) ∧
      token.span = ⟨before.length, (before.length + token.text.length : Nat)⟩ ∧
      Lexeme.Reads token.kind token.text behind := by
  obtain ⟨before, c, rest, hsplit, rfl, -⟩ := exists_start ht
  obtain ⟨hk, htoken⟩ := token?_eq_some h
  have hscan : Lexeme.scan c rest = (.token token.kind, (Lexeme.scan c rest).2) := Prod.ext hk rfl
  obtain ⟨text, behind, hreads, hcs, -⟩ := Lexeme.scan_eq_token_iff.mp hscan
  rw [hreads.start hcs] at htoken
  rw [htoken]
  exact ⟨before, behind, by rw [hsplit, hcs], rfl, hreads⟩

/-- Each token of a source is the one that the grammar has where it starts, and where the grammar
has one at the start of a tile it is a token of the source. -/
theorem Source.reads_tokens (source : Source) :
    (∀ token ∈ source.lex.tokens, token.kind ≠ .endOfText →
      ∃ before behind, source.chars = before ++ (token.text ++ behind) ∧
        token.span = ⟨before.length, (before.length + token.text.length : Nat)⟩ ∧
        Lexeme.Reads token.kind token.text behind ∧
        ∀ kind text rest, Lexeme.Reads kind text rest → token.text ++ behind = text ++ rest →
          kind = token.kind ∧ text = token.text) ∧
    ∀ tile ∈ tiles source.chars, ∀ kind text behind, Lexeme.Reads kind text behind →
      source.chars.drop tile.start = text ++ behind →
        ⟨kind, text, ⟨tile.start, (tile.start + text.length : Nat)⟩⟩ ∈ source.lex.tokens := by
  constructor
  · intro token ht hk
    rcases List.mem_append.mp ht with ht | ht
    · obtain ⟨tile, htile, htoken⟩ := List.mem_filterMap.mp ht
      obtain ⟨before, behind, hsplit, hspan, hreads⟩ := Tile.reads htile htoken
      exact ⟨before, behind, hsplit, hspan, hreads,
        fun kind text rest hother hsame => hreads.unique hother hsame⟩
    · rw [List.mem_singleton.mp ht] at hk
      exact absurd rfl hk
  · intro tile ht kind text behind hreads hdrop
    obtain ⟨before, c, rest, hsplit, rfl, -⟩ := Tile.exists_start ht
    simp only [hsplit, List.drop_left] at hdrop
    refine List.mem_append_left _ (List.mem_filterMap.mpr ⟨_, ht, ?_⟩)
    simp only [Tile.token?, Tile.span, Tile.stop, hreads.start hdrop]

def oddText : Source := Source.ofText "odd" "1..2e+ b\"\\\"\" 'a\t\"".toList

/-- A number takes no sign where no digit follows it, and nothing else is read there. -/
theorem oddText_reads_tokens :
    let token : Token := ⟨.integer, "2e".toList, ⟨3, 5⟩⟩
    token ∈ oddText.lex.tokens ∧ token.kind ≠ .endOfText ∧
      ∃ before behind, oddText.chars = before ++ ("2e".toList ++ behind) ∧ before.length = 3 ∧
        Lexeme.Reads .integer "2e".toList behind ∧
        ∀ kind text rest, Lexeme.Reads kind text rest → "2e".toList ++ behind = text ++ rest →
          kind = .integer ∧ text = "2e".toList := by
  intro token
  have hmem : token ∈ oddText.lex.tokens := by decide +kernel
  have hkind : token.kind ≠ .endOfText := by decide
  obtain ⟨before, behind, hsplit, hspan, hreads, hunique⟩ :=
    oddText.reads_tokens.1 token hmem hkind
  have hlo : (3 : Int) = before.length := congrArg Span.lo hspan
  exact ⟨hmem, hkind, before, behind, hsplit, by omega, hreads, hunique⟩

end Offside
