import Mathlib.Tactic.SplitIfs
import Offside.Proofs.Reaches

/-!
# Where a token may be cut off from what follows it

A token is read with a look at the characters behind it. It is read in the same way where the text
behind it is cut off, there or after further characters, by one that belongs to no longer token.

- `endsToken`, `Severed`: the characters that cut, and the texts that start with one or are empty.
- `Lexeme.scan_of_severed`: the same token is read before both texts.
-/
namespace Offside

set_option autoImplicit false

open Text

/-- A character that no token goes on with. -/
def endsToken (c : Char) : Bool := c == ' ' || c == '\n' || c == ';' || c == ','

/-- Nothing follows, or something that no token goes on with. -/
def Severed (cs : List Char) : Prop := ∀ c, cs.head? = some c → endsToken c = true

theorem Severed.nil : Severed [] := by simp [Severed]

theorem Severed.cons {c : Char} (h : endsToken c = true) (cs : List Char) : Severed (c :: cs) := by
  intro d hd
  obtain rfl : c = d := by simpa using hd
  exact h

theorem cases_of_endsToken {c : Char} (h : endsToken c = true) :
    c = ' ' ∨ c = '\n' ∨ c = ';' ∨ c = ',' := by
  simpa [endsToken, or_assoc] using h

theorem isWord_of_endsToken {c : Char} (h : endsToken c = true) : isWord c = false := by
  rcases cases_of_endsToken h with rfl | rfl | rfl | rfl <;> decide +kernel

theorem isDigit_of_endsToken {c : Char} (h : endsToken c = true) : isDigit c = false := by
  rcases cases_of_endsToken h with rfl | rfl | rfl | rfl <;> decide +kernel

namespace Lexeme

theorem isDigitOrGap_of_endsToken {c : Char} (h : endsToken c = true) :
    isDigitOrGap c = false := by
  rcases cases_of_endsToken h with rfl | rfl | rfl | rfl <;> decide +kernel

theorem isHexOrGap_of_endsToken {c : Char} (h : endsToken c = true) : isHexOrGap c = false := by
  rcases cases_of_endsToken h with rfl | rfl | rfl | rfl <;> decide

/-! ## The next character -/

section

variable {p s s' : List Char}

/-- A character that cuts nothing off stands behind the cut only where it stood before. -/
theorem head?_of_severed (hs : Severed s') {d : Char} (hd : endsToken d = false)
    (h : (p ++ s').head? = some d) : (p ++ s).head? = some d := by
  cases p with
  | nil =>
    have := hs d h
    simp [hd] at this
  | cons e p => simpa using h

theorem getElem?_one_of_severed (hs : Severed s') (hp : p ≠ []) {d : Char}
    (hd : endsToken d = false) (h : (p ++ s')[1]? = some d) : (p ++ s)[1]? = some d := by
  cases p with
  | nil => exact absurd rfl hp
  | cons e p =>
    simp only [List.cons_append, List.getElem?_cons_succ, ← List.head?_eq_getElem?] at h ⊢
    exact head?_of_severed hs hd h

theorem head?_append_of_ne_nil (hp : p ≠ []) : (p ++ s').head? = (p ++ s).head? := by
  cases p with
  | nil => exact absurd rfl hp
  | cons e p => rfl

/-! ## Runs -/

theorem runLength_severed (hs : Severed s') {q : Char → Bool}
    (hq : ∀ c, endsToken c = true → q c = false) (h : runLength q (p ++ s) ≤ p.length) :
    runLength q (p ++ s') = runLength q (p ++ s) := by
  induction p with
  | nil =>
    have h0 : runLength q s = 0 := by simpa using h
    cases s' with
    | nil => simp [h0]
    | cons c s' => simp [runLength_cons, hq c (hs c rfl), h0]
  | cons c p ih =>
    simp only [List.cons_append, runLength_cons] at h ⊢
    by_cases hc : q c = true
    · simp only [hc, if_true, List.length_cons] at h ⊢
      rw [ih (by omega)]
    · simp [hc]

theorem runLength_drop_severed (hs : Severed s') {q : Char → Bool}
    (hq : ∀ c, endsToken c = true → q c = false) {k : Nat} (hk : k ≤ p.length)
    (h : k + runLength q ((p ++ s).drop k) ≤ p.length) :
    runLength q ((p ++ s').drop k) = runLength q ((p ++ s).drop k) := by
  rw [List.drop_append_of_le_length hk] at h
  rw [List.drop_append_of_le_length hk, List.drop_append_of_le_length hk]
  exact runLength_severed hs hq (by rw [List.length_drop]; omega)

/-! ## Literals -/

/-- What is decided by the beginning of a text is decided in the same way before another end. -/
theorem eq_of_take {α : Type} {f : List Char → α} {r : α} {m : Nat} (hm : m ≤ p.length)
    (h : ∀ more, f ((p ++ s).take m ++ more) = r) (s' : List Char) : f (p ++ s') = r := by
  have ht := h (p.drop m ++ s')
  rwa [List.take_append_of_le_length hm, ← List.append_assoc, List.take_append_drop] at ht

theorem literal_eq_token {kind k : TokenKind} {fault : Fault} {before n : Nat} {reach : Reach}
    (h : literal kind fault before reach = (.token k, n)) :
    k = kind ∧ reach = ⟨true, n - before⟩ ∧ before ≤ n := by
  obtain ⟨closed, m⟩ := reach
  cases closed with
  | false => simp [literal] at h
  | true =>
    simp only [literal, if_true, Prod.mk.injEq, Lexeme.token.injEq] at h
    obtain ⟨rfl, rfl⟩ := h
    exact ⟨rfl, by simp, by omega⟩

theorem stringAt_append {before n : Nat} {k : TokenKind} (hn : n ≤ p.length)
    (h : stringAt before (p ++ s) = (.token k, n)) :
    stringAt before (p ++ s') = (.token k, n) := by
  obtain ⟨rfl, hr, hb⟩ := literal_eq_token h
  have hbp : before ≤ p.length := by omega
  rw [List.drop_append_of_le_length hbp] at hr
  have hr' := eq_of_take (by rw [List.length_drop]; omega) (stringReach_closed hr).2.2 s'
  rw [stringAt, List.drop_append_of_le_length hbp, hr']
  simp only [literal, if_true, Prod.mk.injEq, true_and]
  omega

theorem characterAt_eq_token {before n : Nat} {k : TokenKind} {rest : List Char}
    (h : characterAt before rest = (.token k, n)) :
    k = .character ∧ ∃ m, 1 ≤ m ∧ characterReach (rest.drop before) = ⟨true, m⟩ ∧
      n = before + (m + 1) := by
  unfold characterAt at h
  obtain ⟨rfl, hr, hb⟩ := literal_eq_token h
  refine ⟨rfl, ?_⟩
  cases hc : characterReach (rest.drop before) with
  | mk closed m =>
    cases closed with
    | false => simp [hc] at hr
    | true =>
      simp only [hc, if_true, Reach.mk.injEq, true_and] at hr
      exact ⟨m, (characterReach_closed hc).1, rfl, by omega⟩

theorem characterAt_append {before n : Nat} {k : TokenKind} (hn : n ≤ p.length)
    (h : characterAt before (p ++ s) = (.token k, n)) :
    characterAt before (p ++ s') = (.token k, n) := by
  obtain ⟨rfl, m, -, hr, rfl⟩ := characterAt_eq_token h
  have hbp : before ≤ p.length := by omega
  rw [List.drop_append_of_le_length hbp] at hr
  have hr' := eq_of_take (by rw [List.length_drop]; omega) (characterReach_closed hr).2.2 s'
  simp [characterAt, List.drop_append_of_le_length hbp, hr', literal]

theorem rawOpening?_append {hashes : Nat} (hn : hashes < p.length)
    (h : rawOpening? (p ++ s) = some hashes) : rawOpening? (p ++ s') = some hashes := by
  induction p generalizing hashes with
  | nil => simp at hn
  | cons c p ih =>
    by_cases hc : c = '#'
    · subst hc
      rw [List.cons_append, rawOpening?_hash] at h ⊢
      obtain ⟨m, hm, rfl⟩ := Option.map_eq_some_iff.mp h
      rw [ih (by simpa using hn) hm]
      rfl
    · rw [List.cons_append, rawOpening?_other hc] at h ⊢
      exact h

theorem rawOpening?_of_severed (hs : Severed s') {hashes : Nat}
    (h : rawOpening? (p ++ s') = some hashes) :
    hashes < p.length ∧ rawOpening? (p ++ s) = some hashes := by
  induction p generalizing hashes with
  | nil =>
    exfalso
    unfold rawOpening? at h
    cases s' with
    | nil => simp at h
    | cons c s' => rcases cases_of_endsToken (hs c rfl) with rfl | rfl | rfl | rfl <;>
        simp [runLength_cons] at h
  | cons c p ih =>
    by_cases hc : c = '#'
    · subst hc
      rw [List.cons_append, rawOpening?_hash] at h ⊢
      obtain ⟨m, hm, rfl⟩ := Option.map_eq_some_iff.mp h
      obtain ⟨hlt, heq⟩ := ih hm
      exact ⟨by simp only [List.length_cons]; omega, by simp [heq]⟩
    · rw [List.cons_append, rawOpening?_other hc] at h ⊢
      by_cases hq : c = '"'
      · simp only [hq, if_true, Option.some.injEq] at h ⊢
        exact ⟨by simp only [List.length_cons]; omega, h⟩
      · simp [hq] at h

theorem rawStringAt?_append {before n : Nat} {k : TokenKind} (hn : n ≤ p.length)
    (h : rawStringAt? before (p ++ s) = some (.token k, n)) :
    rawStringAt? before (p ++ s') = some (.token k, n) := by
  obtain ⟨hashes, ho, hl⟩ := Option.map_eq_some_iff.mp h
  obtain ⟨rfl, hr, hb⟩ := literal_eq_token hl
  have hbp : before ≤ p.length := by omega
  have hop : before + hashes + 1 ≤ p.length := by omega
  rw [List.drop_append_of_le_length hop] at hr
  have hr' := eq_of_take (by rw [List.length_drop]; omega) (rawReach_closed hashes hr).2.2 s'
  have ho' : rawOpening? ((p ++ s').drop before) = some hashes := by
    rw [List.drop_append_of_le_length hbp] at ho ⊢
    exact rawOpening?_append (by rw [List.length_drop]; omega) ho
  simp only [rawStringAt?, ho', Option.map_some, List.drop_append_of_le_length hop, hr', literal,
    if_true, Option.some.injEq, Prod.mk.injEq, true_and]
  omega

theorem letteredLiteral?_append {c : Char} {n : Nat} {k : TokenKind} (hp : p ≠ [])
    (hn : n ≤ p.length) (h : letteredLiteral? c (p ++ s) = some (.token k, n)) :
    letteredLiteral? c (p ++ s') = some (.token k, n) := by
  unfold letteredLiteral? at h ⊢
  rw [head?_append_of_ne_nil (s := s) hp]
  split_ifs at h ⊢ with hb hr hq ha hraw
  · exact rawStringAt?_append hn h
  · rw [Option.some.injEq] at h ⊢
    exact stringAt_append hn h
  · rw [Option.some.injEq] at h ⊢
    exact characterAt_append hn h
  · exact rawStringAt?_append hn h

theorem pos_of_rawStringAt? {before n : Nat} {k : TokenKind} {rest : List Char}
    (h : rawStringAt? before rest = some (.token k, n)) : 0 < n := by
  obtain ⟨hashes, -, hl⟩ := Option.map_eq_some_iff.mp h
  obtain ⟨-, -, hb⟩ := literal_eq_token hl
  omega

theorem pos_of_letteredLiteral? {c : Char} {n : Nat} {k : TokenKind} {rest : List Char}
    (h : letteredLiteral? c rest = some (.token k, n)) : 0 < n := by
  unfold letteredLiteral? at h
  split_ifs at h with hb hr hq ha hraw
  · exact pos_of_rawStringAt? h
  · obtain ⟨-, -, hle⟩ := literal_eq_token (Option.some.inj h)
    omega
  · obtain ⟨-, m, -, -, rfl⟩ := characterAt_eq_token (Option.some.inj h)
    omega
  · exact pos_of_rawStringAt? h

theorem ne_nil_of_head?_severed (hs : Severed s') {d : Char} (hd : endsToken d = false)
    (h : (p ++ s').head? = some d) : p ≠ [] := by
  rintro rfl
  have := hs d h
  simp [hd] at this

theorem rawStringAt?_none (hs : Severed s') {before : Nat} (hb : before ≤ p.length)
    (h : rawStringAt? before (p ++ s) = none) : rawStringAt? before (p ++ s') = none := by
  unfold rawStringAt? at h ⊢
  rw [Option.map_eq_none_iff] at h ⊢
  rw [List.drop_append_of_le_length hb] at h ⊢
  cases ho : rawOpening? (p.drop before ++ s') with
  | none => rfl
  | some hashes =>
    have := (rawOpening?_of_severed (s := s) hs ho).2
    simp [h] at this

theorem letteredLiteral?_none (hs : Severed s') {c : Char}
    (h : letteredLiteral? c (p ++ s) = none) : letteredLiteral? c (p ++ s') = none := by
  have hne (d : Char) (hd : endsToken d = false) (hh : (p ++ s').head? = some d) :
      1 ≤ p.length ∧ (p ++ s).head? = some d :=
    ⟨List.length_pos_iff.mpr (ne_nil_of_head?_severed hs hd hh), head?_of_severed hs hd hh⟩
  unfold letteredLiteral? at h ⊢
  split_ifs at h with hb hr hq ha hc
  · simp only [hb, if_true]
    split_ifs with hr' hq' ha'
    · exact rawStringAt?_none hs (hne 'r' (by decide) hr').1 h
    · have := (hne '"' (by decide) hq').2
      simp [hr] at this
    · have := (hne '\x27' (by decide) ha').2
      simp [hr] at this
    · rfl
  · simp only [hb, if_true]
    split_ifs with hr' hq' ha'
    · exact absurd (hne 'r' (by decide) hr').2 hr
    · exact absurd (hne '"' (by decide) hq').2 hq
    · exact absurd (hne '\x27' (by decide) ha').2 ha
    · rfl
  · simp only [hc, if_true]
    exact rawStringAt?_none hs (Nat.zero_le _) h
  · simp [hb, hc]

/-! ## Apostrophes, numbers, names, operators -/

theorem getElem?_one_append (hp : 2 ≤ p.length) : (p ++ s')[1]? = (p ++ s)[1]? := by
  rw [List.getElem?_append_left (by omega), List.getElem?_append_left (by omega)]

theorem afterApostrophe_severed (hs : Severed s') {n : Nat} {k : TokenKind} (hn : n ≤ p.length)
    (h : afterApostrophe (p ++ s) = (.token k, n)) :
    afterApostrophe (p ++ s') = (.token k, n) := by
  unfold afterApostrophe at h ⊢
  split_ifs at h with hc hw
  · obtain ⟨-, m, hm, -, hnm⟩ := characterAt_eq_token h
    have hp : p ≠ [] := List.ne_nil_of_length_pos (by omega)
    rw [head?_append_of_ne_nil (s := s) hp, getElem?_one_append (s := s) (by omega), if_pos hc]
    exact characterAt_append hn h
  · have hpos : 1 ≤ n := by
      cases hd : p ++ s with
      | nil => simp [hd] at hw
      | cons d rest =>
        rw [hd] at hw h
        have hd : isWord d = true := isWord_of_isWordStart (by simpa using hw)
        simp only [runLength_cons, hd, if_true, Prod.mk.injEq] at h
        omega
    have hp : p ≠ [] := List.ne_nil_of_length_pos (by omega)
    simp only [Prod.mk.injEq] at h
    have hc' : ¬ ((p ++ s').head? = some '\\' ∨ (p ++ s')[1]? = some '\x27') := by
      rintro (hb | hq)
      · exact hc (.inl (head?_of_severed hs (by decide) hb))
      · exact hc (.inr (getElem?_one_of_severed hs hp (by decide) hq))
    rw [if_neg hc', head?_append_of_ne_nil (s := s) hp, if_pos hw,
      runLength_severed (s := s) hs (fun _ => isWord_of_endsToken) (by omega), h.1, h.2]
  · obtain ⟨-, m, hm, -, hnm⟩ := characterAt_eq_token h
    have hp : p ≠ [] := List.ne_nil_of_length_pos (by omega)
    rw [head?_append_of_ne_nil (s := s) hp, getElem?_one_append (s := s) (by omega), if_neg hc,
      if_neg hw]
    exact characterAt_append hn h

theorem fractionLength_severed (hs : Severed s') (h : fractionLength (p ++ s) ≤ p.length) :
    fractionLength (p ++ s') = fractionLength (p ++ s) := by
  match p with
  | [] =>
    have h0 : fractionLength s = 0 := by simpa using h
    rw [List.nil_append, List.nil_append, h0]
    match s' with
    | [] => rfl
    | [_] => rfl
    | point :: digit :: rest =>
      have hpoint : point ≠ '.' := by
        rintro rfl
        exact absurd (hs '.' rfl) (by decide)
      simp [fractionLength, hpoint]
  | [point] =>
    have h0 : fractionLength (point :: s) = 0 := by
      have hle : fractionLength (point :: s) ≤ 1 := h
      cases s with
      | nil => rfl
      | cons digit rest =>
        simp only [fractionLength] at hle ⊢
        split_ifs at hle ⊢
        · omega
        · rfl
    rw [List.singleton_append, List.singleton_append, h0]
    cases s' with
    | nil => rfl
    | cons digit rest => simp [fractionLength, isDigit_of_endsToken (hs digit rfl)]
  | point :: digit :: p =>
    simp only [List.cons_append, fractionLength, List.length_cons] at h ⊢
    split_ifs at h ⊢ with hc
    · rw [runLength_severed (s := s) hs (fun _ => isDigitOrGap_of_endsToken) (by omega)]
    · rfl

theorem startsWithDigit_append_of_ne_nil (hp : p ≠ []) :
    startsWithDigit (p ++ s') = startsWithDigit (p ++ s) := by
  rw [startsWithDigit, head?_append_of_ne_nil (s := s) hp, startsWithDigit]

theorem startsWithDigit_of_severed (hs : Severed s') : startsWithDigit s' = false := by
  cases s' with
  | nil => rfl
  | cons c rest => exact isDigit_of_endsToken (hs c rfl)

theorem exponentLength_severed (hs : Severed s') (h : exponentLength (p ++ s) ≤ p.length) :
    exponentLength (p ++ s') = exponentLength (p ++ s) := by
  match p with
  | [] =>
    have h0 : exponentLength s = 0 := by simpa using h
    rw [List.nil_append, List.nil_append, h0]
    match s' with
    | [] => rfl
    | [_] => rfl
    | letter :: first :: rest =>
      have hletter : ¬ (letter = 'e' ∨ letter = 'E') := by
        rintro (rfl | rfl) <;> exact absurd (hs _ rfl) (by decide)
      simp [exponentLength, hletter]
  | [letter] =>
    have h0 : exponentLength (letter :: s) = 0 := by
      have hle : exponentLength (letter :: s) ≤ 1 := h
      cases s with
      | nil => rfl
      | cons first rest =>
        simp only [exponentLength] at hle ⊢
        split_ifs at hle ⊢
        · omega
        · rfl
    rw [List.singleton_append, List.singleton_append, h0]
    cases s' with
    | nil => rfl
    | cons first rest =>
      have hsign : ¬ (first = '+' ∨ first = '-') := by
        rintro (rfl | rfl) <;> exact absurd (hs _ rfl) (by decide)
      simp [exponentLength, isDigit_of_endsToken (hs first rfl), hsign]
  | [letter, first] =>
    simp only [List.cons_append, List.nil_append, exponentLength, List.length_cons,
      List.length_nil, startsWithDigit_of_severed hs] at h ⊢
    by_cases hf : isDigit first = true
    · simp only [hf, true_or, and_true] at h ⊢
      split_ifs at h ⊢
      · have hz : runLength isDigitOrGap s = 0 := by omega
        have hsev := runLength_severed (p := []) (s := s) hs
          (fun _ => isDigitOrGap_of_endsToken) (by simp [hz])
        rw [List.nil_append, List.nil_append] at hsev
        rw [hsev]
      · rfl
    · -- a sign needs a digit behind it, which would belong to the number
      have hno : ¬ ((letter = 'e' ∨ letter = 'E') ∧
          (isDigit first = true ∨ (first = '+' ∨ first = '-') ∧ startsWithDigit s = true)) := by
        rintro ⟨hl, hd | ⟨hsign, hd⟩⟩
        · exact hf hd
        · rw [if_pos ⟨hl, .inr ⟨hsign, hd⟩⟩] at h
          cases s with
          | nil => simp [startsWithDigit] at hd
          | cons c rest =>
            have hc : isDigitOrGap c = true := by
              have hd' : isDigit c = true := hd
              simp [isDigitOrGap, hd']
            simp only [runLength_cons, hc, if_true] at h
            omega
      rw [if_neg hno]
      simp [hf]
  | letter :: first :: third :: p =>
    have hd : startsWithDigit (third :: p ++ s') = startsWithDigit (third :: p ++ s) :=
      startsWithDigit_append_of_ne_nil (List.cons_ne_nil third p)
    simp only [List.cons_append, exponentLength, List.length_cons] at h hd ⊢
    rw [hd]
    split_ifs at h ⊢
    · have hr := runLength_severed (p := third :: p) (s := s) hs
        (fun _ => isDigitOrGap_of_endsToken)
        (by simp only [List.cons_append, List.length_cons]; omega)
      rw [List.cons_append, List.cons_append] at hr
      rw [hr]
    · rfl

/-- A letter that would go on a word stands behind the cut of a whole word in neither text. -/
theorem head?_iff_of_severed (hs : Severed s') {d : Char} (hd : endsToken d = false)
    (hw : isWord d = true) (h : runLength isWord (p ++ s) ≤ p.length) :
    (p ++ s').head? = some d ↔ (p ++ s).head? = some d := by
  cases p with
  | nil =>
    refine ⟨head?_of_severed (p := []) hs hd, fun he => ?_⟩
    cases s with
    | nil => simp at he
    | cons c rest =>
      obtain rfl : c = d := by simpa using he
      simp [runLength_cons, hw] at h
  | cons c p => rfl

theorem number_severed (hs : Severed s') {c : Char} {n : Nat} {k : TokenKind} (hn : n ≤ p.length)
    (h : number c (p ++ s) = (k, n)) : number c (p ++ s') = (k, n) := by
  unfold number at h ⊢
  by_cases hc : c = '0' ∧ ((p ++ s).head? = some 'x' ∨ (p ++ s).head? = some 'o' ∨
      (p ++ s).head? = some 'b')
  · simp only [if_pos hc, Prod.mk.injEq] at h
    obtain ⟨rfl, hlen⟩ := h
    have hp : p ≠ [] := List.ne_nil_of_length_pos (by omega)
    have hdigits : runLength isHexOrGap ((p ++ s').drop 1) =
        runLength isHexOrGap ((p ++ s).drop 1) :=
      runLength_drop_severed hs (fun _ => isHexOrGap_of_endsToken) (by omega) (by omega)
    simp only [head?_append_of_ne_nil (s := s) hp, if_pos hc, hdigits]
    rw [runLength_drop_severed (s := s) hs (fun _ => isWord_of_endsToken) (by omega) (by omega),
      hlen]
  · have hc' : ¬ (c = '0' ∧ ((p ++ s').head? = some 'x' ∨ (p ++ s').head? = some 'o' ∨
        (p ++ s').head? = some 'b')) := by
      rintro ⟨h0, hx | ho | hb⟩
      · exact hc ⟨h0, .inl (head?_of_severed hs (by decide) hx)⟩
      · exact hc ⟨h0, .inr (.inl (head?_of_severed hs (by decide) ho))⟩
      · exact hc ⟨h0, .inr (.inr (head?_of_severed hs (by decide) hb))⟩
    simp only [if_neg hc, Prod.mk.injEq] at h
    obtain ⟨hk, hlen⟩ := h
    have hwhole : runLength isDigitOrGap (p ++ s') = runLength isDigitOrGap (p ++ s) :=
      runLength_severed hs (fun _ => isDigitOrGap_of_endsToken) (by omega)
    simp only [if_neg hc', hwhole]
    generalize runLength isDigitOrGap (p ++ s) = whole at hk hlen ⊢
    have hwp : whole ≤ p.length := by omega
    have hfraction :
        fractionLength ((p ++ s').drop whole) = fractionLength ((p ++ s).drop whole) := by
      rw [List.drop_append_of_le_length hwp] at hlen ⊢
      rw [List.drop_append_of_le_length hwp]
      exact fractionLength_severed hs (by rw [List.length_drop]; omega)
    rw [hfraction]
    generalize fractionLength ((p ++ s).drop whole) = fraction at hk hlen ⊢
    have hfp : whole + fraction ≤ p.length := by omega
    have hexponent : exponentLength ((p ++ s').drop (whole + fraction)) =
        exponentLength ((p ++ s).drop (whole + fraction)) := by
      rw [List.drop_append_of_le_length hfp] at hlen ⊢
      rw [List.drop_append_of_le_length hfp]
      exact exponentLength_severed hs (by rw [List.length_drop]; omega)
    rw [hexponent]
    generalize exponentLength ((p ++ s).drop (whole + fraction)) = exponent at hk hlen ⊢
    have hep : whole + fraction + exponent ≤ p.length := by omega
    rw [List.drop_append_of_le_length hep] at hk hlen ⊢
    have hsuffix : runLength isWord (p.drop (whole + fraction + exponent) ++ s) ≤
        (p.drop (whole + fraction + exponent)).length := by
      rw [List.length_drop]
      omega
    rw [runLength_severed (s := s) hs (fun _ => isWord_of_endsToken) hsuffix]
    simp only [head?_iff_of_severed (s := s) hs (show endsToken 'f' = false by decide)
      (by decide +kernel) hsuffix, hk, hlen]

theorem name_severed (hs : Severed s') {c : Char} {n : Nat} {k : TokenKind} (hn : n ≤ p.length)
    (h : name c (p ++ s) = (.token k, n)) : name c (p ++ s') = (.token k, n) := by
  unfold name at h ⊢
  simp only [Prod.mk.injEq] at h ⊢
  refine ⟨h.1, ?_⟩
  have hmark : (if c = 'r' ∧ (p ++ s').head? = some '#' then 1 else 0) =
      (if c = 'r' ∧ (p ++ s).head? = some '#' then 1 else 0) := by
    by_cases hp : p = []
    · have hm : ¬ (c = 'r' ∧ (p ++ s).head? = some '#') := by
        intro hm
        rw [if_pos hm, hp] at h
        simp only [hp, List.length_nil] at hn
        omega
      have hm' : ¬ (c = 'r' ∧ (p ++ s').head? = some '#') :=
        fun hm' => hm ⟨hm'.1, head?_of_severed hs (by decide) hm'.2⟩
      rw [if_neg hm, if_neg hm']
    · rw [head?_append_of_ne_nil (s := s) hp]
  rw [hmark,
    runLength_drop_severed (s := s) hs (fun _ => isWord_of_endsToken) (by omega) (by omega)]
  exact h.2

/-- No operator holds a character that cuts, but the two that are one themselves. -/
theorem endsToken_tail_operators :
    ∀ text ∈ operators, ∀ c ∈ text.tail, endsToken c = false := by
  have h : (operators.all fun text => text.tail.all fun c => !endsToken c) = true := by decide
  intro text ht c hc
  simpa using List.all_eq_true.mp (List.all_eq_true.mp h text ht) c hc

theorem prefix_of_severed (hs : Severed s') {c : Char} {text : List Char} (ht : text ∈ operators)
    (h : text <+: c :: (p ++ s')) : text <+: c :: p := by
  by_cases hlen : text.length ≤ p.length + 1
  · refine List.prefix_of_prefix_length_le h ?_ (by simpa using hlen)
    exact List.cons_prefix_cons.mpr ⟨rfl, List.prefix_append p s'⟩
  · exfalso
    have hp : c :: p <+: text :=
      List.prefix_of_prefix_length_le (List.cons_prefix_cons.mpr ⟨rfl, List.prefix_append p s'⟩) h
        (by simp only [List.length_cons]; omega)
    obtain ⟨more, rfl⟩ := hp
    cases more with
    | nil => simp at hlen
    | cons d more =>
      have hd : s'.head? = some d := by
        obtain ⟨tail, htail⟩ := h
        have he : s' = d :: (more ++ tail) := by simpa using htail.symm
        rw [he]
        rfl
      have := endsToken_tail_operators _ ht d (by simp)
      simp [hs d hd] at this

theorem operatorOrStray_severed (hs : Severed s') {c : Char} {n : Nat} {k : TokenKind}
    (hn : n ≤ p.length) (h : operatorOrStray c (p ++ s) = (.token k, n)) :
    operatorOrStray c (p ++ s') = (.token k, n) := by
  unfold operatorOrStray at h ⊢
  cases hf : operators.find? (·.isPrefixOf (c :: (p ++ s))) with
  | none => simp [hf] at h
  | some text =>
    obtain ⟨hpre, earlier, later, hsplit, hall⟩ := List.find?_eq_some_iff_append.mp hf
    simp only [hf, Prod.mk.injEq, Lexeme.token.injEq] at h
    have hmem : text ∈ operators := by rw [hsplit]; simp
    have hf' : operators.find? (·.isPrefixOf (c :: (p ++ s'))) = some text := by
      refine List.find?_eq_some_iff_append.mpr ⟨?_, earlier, later, hsplit, fun a ha => ?_⟩
      · have hp : text <+: c :: p := by
          refine List.prefix_of_prefix_length_le (List.isPrefixOf_iff_prefix.mp hpre) ?_
            (by simp only [List.length_cons]; omega)
          exact List.cons_prefix_cons.mpr ⟨rfl, List.prefix_append p s⟩
        exact List.isPrefixOf_iff_prefix.mpr
          (hp.trans (List.cons_prefix_cons.mpr ⟨rfl, List.prefix_append p s'⟩))
      · have hno := hall a ha
        cases hfit : a.isPrefixOf (c :: (p ++ s')) with
        | false => rfl
        | true =>
          have hp := prefix_of_severed hs (by rw [hsplit]; simp [ha])
            (List.isPrefixOf_iff_prefix.mp hfit)
          have hps : a <+: c :: (p ++ s) :=
            hp.trans (List.cons_prefix_cons.mpr ⟨rfl, List.prefix_append p s⟩)
          rw [← List.isPrefixOf_iff_prefix] at hps
          simp [hps] at hno
    simp only [hf', Prod.mk.injEq, Lexeme.token.injEq]
    exact h

/-! ## The lexeme at the head of a text -/

theorem head_of_scan_token {c : Char} {rest : List Char} {n : Nat} {k : TokenKind}
    (h : scan c rest = (.token k, n)) :
    ¬ (c = ' ' ∨ c = '\n' ∨ c = '\r') ∧ c ≠ '\t' ∧ ¬ (c = '/' ∧ rest.head? = some '/') ∧
      ¬ (c = '/' ∧ rest.head? = some '*') := by
  have hblank : ¬ (c = ' ' ∨ c = '\n' ∨ c = '\r') := by
    intro hb
    rw [scan, if_pos hb] at h
    simp at h
  have htab : c ≠ '\t' := by
    intro ht
    rw [scan, if_neg hblank, if_pos ht] at h
    simp at h
  have hline : ¬ (c = '/' ∧ rest.head? = some '/') := by
    intro hl
    rw [scan, if_neg hblank, if_neg htab, if_pos hl] at h
    simp [lineComment] at h
  refine ⟨hblank, htab, hline, fun hb => ?_⟩
  rw [scan, if_neg hblank, if_neg htab, if_neg hline, if_pos hb] at h
  simp only [blockComment, Prod.mk.injEq] at h
  split_ifs at h <;> simp at h

/-- A token that ends no later than the cut is read again before it. -/
theorem scan_of_severed (hs : Severed s') {c : Char} {n : Nat} {k : TokenKind}
    (hn : n ≤ p.length) (h : scan c (p ++ s) = (.token k, n)) :
    scan c (p ++ s') = (.token k, n) := by
  have hslash (d : Char) (hd : endsToken d = false)
      (hno : ¬ (c = '/' ∧ (p ++ s).head? = some d)) :
      ¬ (c = '/' ∧ (p ++ s').head? = some d) :=
    fun hyes => hno ⟨hyes.1, head?_of_severed hs hd hyes.2⟩
  obtain ⟨hblank, htab, hline, hblock⟩ := head_of_scan_token h
  rw [scan, if_neg hblank, if_neg htab, if_neg hline, if_neg hblock] at h
  rw [scan, if_neg hblank, if_neg htab, if_neg (hslash '/' (by decide) hline),
    if_neg (hslash '*' (by decide) hblock)]
  cases hl : letteredLiteral? c (p ++ s) with
  | some found =>
    simp only [hl] at h
    subst h
    have hp : p ≠ [] := by
      have := pos_of_letteredLiteral? hl
      exact List.ne_nil_of_length_pos (by omega)
    rw [letteredLiteral?_append hp hn hl]
  | none =>
    simp only [hl] at h
    simp only [letteredLiteral?_none hs hl]
    split_ifs at h ⊢
    · exact stringAt_append hn h
    · exact afterApostrophe_severed hs hn h
    · simp only [Prod.mk.injEq, Lexeme.token.injEq] at h
      have hnum : number c (p ++ s) = (k, n) := Prod.ext h.1 h.2
      rw [number_severed hs hn hnum]
    · exact name_severed hs hn h
    · exact h
    · exact h
    · exact operatorOrStray_severed hs hn h

end

end Lexeme

end Offside
