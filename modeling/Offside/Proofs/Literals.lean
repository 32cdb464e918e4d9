import Mathlib.Tactic.SplitIfs
import Offside.Lexeme

/-!
# What literals and comments hold

The characters between the marks of a literal or a comment, said as languages, and that the reach
behind an opening mark is closed exactly where such characters and the closing mark follow.

- `StringBody`, `RawBody`, `CharacterBody`, `CommentBody`: the four languages.
- `stringReach_closed_iff`, `rawReach_closed_iff`, `characterReach_closed_iff`,
  `commentReach_closed_iff`: the closed reaches.
- `rawOpening?_eq_some_iff`: what opens a raw string.
-/
namespace Offside.Lexeme

set_option autoImplicit false

/-! ## Runs -/

theorem runLength_le (p : Char → Bool) (cs : List Char) : runLength p cs ≤ cs.length :=
  (List.takeWhile_prefix p).length_le

@[simp] theorem runLength_nil (p : Char → Bool) : runLength p [] = 0 := rfl

theorem runLength_cons (p : Char → Bool) (c : Char) (cs : List Char) :
    runLength p (c :: cs) = if p c then runLength p cs + 1 else 0 := by
  unfold runLength
  rw [List.takeWhile_cons]
  split <;> simp

theorem take_runLength (p : Char → Bool) (cs : List Char) :
    cs.take (runLength p cs) = cs.takeWhile p :=
  (List.prefix_iff_eq_take.mp (List.takeWhile_prefix p)).symm

theorem not_of_getElem?_runLength {p : Char → Bool} {cs : List Char} {c : Char}
    (h : cs[runLength p cs]? = some c) : p c = false := by
  induction cs with
  | nil => simp at h
  | cons d cs ih =>
    rw [runLength_cons] at h
    split_ifs at h with hd
    · exact ih h
    · obtain rfl : d = c := by simpa using h
      simpa using hd

/-! ## Strings -/

theorem stringReach_quote (rest : List Char) : stringReach ('"' :: rest) = ⟨true, 1⟩ := by
  cases rest <;> simp [stringReach]

theorem stringReach_escape (d : Char) (rest : List Char) :
    stringReach ('\\' :: d :: rest) = (stringReach rest).after 2 := by
  simp [stringReach]

theorem stringReach_other {c : Char} (hq : c ≠ '"') (hb : c ≠ '\\') (rest : List Char) :
    stringReach (c :: rest) = (stringReach rest).after 1 := by
  cases rest <;> simp [stringReach, hq, hb, Reach.after]

theorem Reach.after_eq_closed {r : Reach} {k n : Nat} (h : r.after k = ⟨true, n⟩) :
    ∃ m, r = ⟨true, m⟩ ∧ n = k + m := by
  obtain ⟨closed, m⟩ := r
  simp only [Reach.after, Reach.mk.injEq] at h
  exact ⟨m, by rw [h.1], h.2.symm⟩

/-- What a string holds: characters that are neither a quotation mark nor a backslash, and
backslashes with any character behind each. -/
inductive StringBody : List Char → Prop
  | nil : StringBody []
  | plain {c : Char} {rest : List Char} (hq : c ≠ '"') (hb : c ≠ '\\') (h : StringBody rest) :
      StringBody (c :: rest)
  | escape (d : Char) {rest : List Char} (h : StringBody rest) : StringBody ('\\' :: d :: rest)

theorem StringBody.reach {body : List Char} (h : StringBody body) (behind : List Char) :
    stringReach (body ++ '"' :: behind) = ⟨true, body.length + 1⟩ := by
  induction h with
  | nil => exact stringReach_quote behind
  | plain hq hb _ ih =>
    rw [List.cons_append, stringReach_other hq hb, ih]
    simp [Reach.after, Nat.add_comm]
  | escape d _ ih =>
    rw [List.cons_append, List.cons_append, stringReach_escape, ih]
    simp only [Reach.after, List.length_cons, Reach.mk.injEq, true_and]
    omega

theorem exists_stringBody {cs : List Char} {n : Nat} (h : stringReach cs = ⟨true, n⟩) :
    ∃ body behind, StringBody body ∧ cs = body ++ '"' :: behind ∧ n = body.length + 1 := by
  induction cs using stringReach.induct generalizing n with
  | case1 => simp [stringReach] at h
  | case2 =>
    obtain rfl : 1 = n := by simpa [stringReach] using h
    exact ⟨[], [], .nil, rfl, rfl⟩
  | case3 _ => simp [stringReach] at h
  | case4 c hq hb => simp [stringReach, hq, hb] at h
  | case5 d rest =>
    obtain rfl : 1 = n := by simpa [stringReach_quote] using h
    exact ⟨[], d :: rest, .nil, rfl, rfl⟩
  | case6 d rest _ ih =>
    rw [stringReach_escape] at h
    obtain ⟨m, hm, rfl⟩ := Reach.after_eq_closed h
    obtain ⟨body, behind, hbody, rfl, rfl⟩ := ih hm
    exact ⟨'\\' :: d :: body, behind, .escape d hbody, rfl, by simp only [List.length_cons]; omega⟩
  | case7 c d rest hq hb ih =>
    rw [stringReach_other hq hb] at h
    obtain ⟨m, hm, rfl⟩ := Reach.after_eq_closed h
    obtain ⟨body, behind, hbody, hcs, rfl⟩ := ih hm
    exact ⟨c :: body, behind, .plain hq hb hbody, by rw [hcs, List.cons_append],
      by simp only [List.length_cons]; omega⟩

theorem stringReach_closed_iff {cs : List Char} {n : Nat} :
    stringReach cs = ⟨true, n⟩ ↔
      ∃ body behind, StringBody body ∧ cs = body ++ '"' :: behind ∧ n = body.length + 1 := by
  refine ⟨exists_stringBody, ?_⟩
  rintro ⟨body, behind, hbody, rfl, rfl⟩
  exact hbody.reach behind

/-! ## Raw strings -/

/-- The mark that closes a raw string: a quotation mark and as many hashes as opened it. -/
def rawMark (hashes : Nat) : List Char := '"' :: List.replicate hashes '#'

@[simp] theorem length_rawMark (hashes : Nat) : (rawMark hashes).length = 1 + hashes := by
  simp [rawMark, Nat.add_comm]

/-- What a raw string holds: anything before the first mark that closes it. -/
def RawBody (hashes : Nat) (body : List Char) : Prop :=
  ∀ l, l ++ rawMark hashes <+: body ++ rawMark hashes → l = body

theorem rawBody_nil (hashes : Nat) : RawBody hashes [] := by
  intro l hl
  have hlen := hl.length_le
  simp only [List.length_append, List.length_nil] at hlen
  exact List.length_eq_zero_iff.mp (by omega)

theorem rawBody_cons {hashes : Nat} {c : Char} {body : List Char} :
    RawBody hashes (c :: body) ↔
      ¬ rawMark hashes <+: c :: (body ++ rawMark hashes) ∧ RawBody hashes body := by
  constructor
  · refine fun h => ⟨fun hp => ?_, fun l hl => ?_⟩
    · have := h [] hp
      simp at this
    · have := h (c :: l) (by simpa using hl)
      exact (List.cons.inj this).2
  · rintro ⟨hno, hbody⟩ l hl
    cases l with
    | nil => exact absurd hl hno
    | cons d l =>
      rw [List.cons_append, List.cons_append, List.cons_prefix_cons] at hl
      rw [hl.1, hbody l hl.2]

theorem rawMark_prefix_cons {hashes : Nat} {c : Char} {cs : List Char} :
    rawMark hashes <+: c :: cs ↔ c = '"' ∧ (List.replicate hashes '#').isPrefixOf cs = true := by
  rw [rawMark, List.cons_prefix_cons, List.isPrefixOf_iff_prefix, eq_comm]

/-- Whether the mark stands in a text is decided before the end of a mark that stands later. -/
theorem rawMark_prefix_append {hashes : Nat} {c : Char} {body behind : List Char} :
    rawMark hashes <+: c :: (body ++ rawMark hashes ++ behind) ↔
      rawMark hashes <+: c :: (body ++ rawMark hashes) := by
  constructor
  · intro h
    have hmark : c :: (body ++ rawMark hashes) <+: c :: (body ++ rawMark hashes ++ behind) :=
      List.cons_prefix_cons.mpr ⟨rfl, List.prefix_append _ _⟩
    refine List.prefix_of_prefix_length_le h hmark ?_
    simp only [List.length_cons, List.length_append]
    omega
  · intro h
    exact h.trans (List.cons_prefix_cons.mpr ⟨rfl, List.prefix_append _ _⟩)

theorem rawReach_cons_mark {hashes : Nat} {c : Char} {cs : List Char}
    (h : rawMark hashes <+: c :: cs) : rawReach hashes (c :: cs) = ⟨true, 1 + hashes⟩ := by
  rw [rawReach, if_pos (rawMark_prefix_cons.mp h)]

theorem rawReach_cons_other {hashes : Nat} {c : Char} {cs : List Char}
    (h : ¬ rawMark hashes <+: c :: cs) :
    rawReach hashes (c :: cs) = (rawReach hashes cs).after 1 := by
  rw [rawReach, if_neg (mt rawMark_prefix_cons.mpr h)]

theorem RawBody.reach {hashes : Nat} {body : List Char} (h : RawBody hashes body)
    (behind : List Char) :
    rawReach hashes (body ++ rawMark hashes ++ behind) = ⟨true, body.length + 1 + hashes⟩ := by
  induction body with
  | nil =>
    have hmark : rawMark hashes <+: '"' :: (List.replicate hashes '#' ++ behind) :=
      List.prefix_append _ _
    simpa [rawMark] using rawReach_cons_mark hmark
  | cons c body ih =>
    obtain ⟨hno, hbody⟩ := rawBody_cons.mp h
    rw [List.cons_append, List.cons_append,
      rawReach_cons_other (mt rawMark_prefix_append.mp hno), ih hbody]
    simp only [Reach.after, List.length_cons, Reach.mk.injEq, true_and]
    omega

theorem exists_rawBody {hashes : Nat} {cs : List Char} {n : Nat}
    (h : rawReach hashes cs = ⟨true, n⟩) :
    ∃ body behind, RawBody hashes body ∧ cs = body ++ rawMark hashes ++ behind ∧
      n = body.length + 1 + hashes := by
  induction cs generalizing n with
  | nil => simp [rawReach] at h
  | cons c cs ih =>
    by_cases hc : rawMark hashes <+: c :: cs
    · obtain ⟨behind, hbehind⟩ := hc
      have hn : 1 + hashes = n := by simpa [rawReach_cons_mark ⟨behind, hbehind⟩] using h
      exact ⟨[], behind, rawBody_nil hashes, hbehind.symm, by simp [← hn]⟩
    · rw [rawReach_cons_other hc] at h
      obtain ⟨m, hm, rfl⟩ := Reach.after_eq_closed h
      obtain ⟨body, behind, hbody, rfl, rfl⟩ := ih hm
      exact ⟨c :: body, behind, rawBody_cons.mpr ⟨mt rawMark_prefix_append.mpr hc, hbody⟩, by simp,
        by simp only [List.length_cons]; omega⟩

theorem rawReach_closed_iff {hashes : Nat} {cs : List Char} {n : Nat} :
    rawReach hashes cs = ⟨true, n⟩ ↔
      ∃ body behind, RawBody hashes body ∧ cs = body ++ rawMark hashes ++ behind ∧
        n = body.length + 1 + hashes := by
  refine ⟨exists_rawBody, ?_⟩
  rintro ⟨body, behind, hbody, rfl, rfl⟩
  exact hbody.reach behind

/-! ## What opens a raw string -/

theorem rawOpening?_hash (cs : List Char) :
    rawOpening? ('#' :: cs) = (rawOpening? cs).map (· + 1) := by
  unfold rawOpening?
  simp only [runLength_cons, beq_self_eq_true, if_true, List.getElem?_cons_succ]
  split <;> simp

theorem rawOpening?_other {c : Char} (hc : c ≠ '#') (cs : List Char) :
    rawOpening? (c :: cs) = if c = '"' then some 0 else none := by
  simp [rawOpening?, runLength_cons, hc]

theorem rawOpening?_eq_some_iff {hashes : Nat} {cs : List Char} :
    rawOpening? cs = some hashes ↔ ∃ behind, cs = List.replicate hashes '#' ++ '"' :: behind := by
  constructor
  · induction cs generalizing hashes with
    | nil => simp [rawOpening?]
    | cons c cs ih =>
      intro h
      by_cases hc : c = '#'
      · subst hc
        rw [rawOpening?_hash] at h
        obtain ⟨m, hm, rfl⟩ := Option.map_eq_some_iff.mp h
        obtain ⟨behind, rfl⟩ := ih hm
        exact ⟨behind, rfl⟩
      · rw [rawOpening?_other hc] at h
        split_ifs at h with hq
        obtain rfl := Option.some.inj h
        exact ⟨cs, by rw [hq]; rfl⟩
  · rintro ⟨behind, rfl⟩
    induction hashes with
    | zero => exact rawOpening?_other (by decide) behind
    | succ n ih =>
      rw [List.replicate_succ, List.cons_append, rawOpening?_hash, ih]
      rfl

/-! ## Characters -/

/-- What a character literal holds: one character that is no backslash, or a backslash, any
character, and more of them on the same line up to an apostrophe. -/
inductive CharacterBody : List Char → Prop
  | plain {c : Char} (h : c ≠ '\\') : CharacterBody [c]
  | escape (d : Char) {inner : List Char} (h : ∀ e ∈ inner, e ≠ '\x27' ∧ e ≠ '\n') :
      CharacterBody ('\\' :: d :: inner)

theorem eq_takeWhile_append_of_getElem? {p : Char → Bool} {cs : List Char} {c : Char}
    (h : cs[(cs.takeWhile p).length]? = some c) :
    ∃ tail, cs = cs.takeWhile p ++ c :: tail := by
  have hsplit : cs.takeWhile p ++ cs.drop (cs.takeWhile p).length = cs :=
    List.prefix_iff_eq_append.mp (List.takeWhile_prefix p)
  have hhead : (cs.drop (cs.takeWhile p).length).head? = some c := by
    rw [List.head?_drop, h]
  cases hd : cs.drop (cs.takeWhile p).length with
  | nil => simp [hd] at hhead
  | cons d tail =>
    rw [hd] at hhead hsplit
    obtain rfl : d = c := by simpa using hhead
    exact ⟨tail, hsplit.symm⟩

theorem characterReach_escape (d : Char) (rest : List Char) :
    characterReach ('\\' :: d :: rest) =
      ⟨rest[(rest.takeWhile fun e => e != '\x27' && e != '\n').length]? = some '\x27',
        2 + (rest.takeWhile fun e => e != '\x27' && e != '\n').length⟩ := by
  simp only [characterReach, if_true, List.drop_succ_cons, List.drop_zero, Reach.mk.injEq, and_true]
  rw [Nat.add_comm 1, List.getElem?_cons_succ]

theorem characterReach_plain {c : Char} (hc : c ≠ '\\') (rest : List Char) :
    characterReach (c :: rest) = ⟨rest.head? = some '\x27', 1⟩ := by
  simp [characterReach, hc]

theorem CharacterBody.length_pos {body : List Char} (h : CharacterBody body) :
    1 ≤ body.length := by
  cases h <;> simp

theorem CharacterBody.reach {body : List Char} (h : CharacterBody body) (behind : List Char) :
    characterReach (body ++ '\x27' :: behind) = ⟨true, body.length⟩ := by
  cases h with
  | plain hc => simp [characterReach_plain hc]
  | @escape d inner hinner =>
    have hrun : (inner ++ '\x27' :: behind).takeWhile (fun e => e != '\x27' && e != '\n') =
        inner := by
      rw [List.takeWhile_append_of_pos fun e he => by simpa using hinner e he]
      simp
    rw [List.cons_append, List.cons_append, characterReach_escape, hrun]
    simp [Nat.add_comm 2]

theorem exists_characterBody {cs : List Char} {n : Nat} (h : characterReach cs = ⟨true, n⟩) :
    ∃ body behind, CharacterBody body ∧ cs = body ++ '\x27' :: behind ∧ n = body.length := by
  cases cs with
  | nil => simp [characterReach] at h
  | cons c rest =>
    by_cases hc : c = '\\'
    · subst hc
      cases rest with
      | nil => simp [characterReach] at h
      | cons d tail =>
        rw [characterReach_escape] at h
        simp only [Reach.mk.injEq, decide_eq_true_eq] at h
        obtain ⟨hq, rfl⟩ := h
        obtain ⟨behind, hbehind⟩ := eq_takeWhile_append_of_getElem? hq
        have hinner : ∀ e ∈ tail.takeWhile (fun e => e != '\x27' && e != '\n'),
            e ≠ '\x27' ∧ e ≠ '\n' := fun e he => by
          simpa using List.all_eq_true.mp List.all_takeWhile e he
        refine ⟨_, behind, .escape d hinner, ?_, ?_⟩
        · rw [List.cons_append, List.cons_append, ← hbehind]
        · rw [List.length_cons, List.length_cons]
          omega
    · rw [characterReach_plain hc] at h
      simp only [Reach.mk.injEq, decide_eq_true_eq] at h
      obtain ⟨hq, rfl⟩ := h
      obtain ⟨behind, rfl⟩ := List.head?_eq_some_iff.mp hq
      exact ⟨[c], behind, .plain hc, rfl, rfl⟩

/-- The closing apostrophe stands one place behind the reach. -/
theorem characterReach_closed_iff {cs : List Char} {n : Nat} :
    characterReach cs = ⟨true, n⟩ ↔
      ∃ body behind, CharacterBody body ∧ cs = body ++ '\x27' :: behind ∧ n = body.length := by
  refine ⟨exists_characterBody, ?_⟩
  rintro ⟨body, behind, hbody, rfl, rfl⟩
  exact hbody.reach behind

/-! ## Comments -/

/-- What follows the mark that opens a block comment, the mark that closes it included: comments
inside it are whole, and nothing else in it is a mark. -/
inductive CommentBody : List Char → Prop
  | close : CommentBody ['*', '/']
  | nest {inner rest : List Char} (hi : CommentBody inner) (hr : CommentBody rest) :
      CommentBody ('/' :: '*' :: (inner ++ rest))
  | other {c : Char} {rest : List Char} (ho : ¬ ['/', '*'] <+: c :: rest)
      (hc : ¬ ['*', '/'] <+: c :: rest) (h : CommentBody rest) : CommentBody (c :: rest)

/-- As many comments as are open and one more, closed one behind the other. -/
inductive CommentBodies : Nat → List Char → Prop
  | last {body : List Char} (h : CommentBody body) : CommentBodies 0 body
  | more {depth : Nat} {body bodies : List Char} (h : CommentBody body)
      (hs : CommentBodies depth bodies) : CommentBodies (depth + 1) (body ++ bodies)

theorem commentReach_open (depth : Nat) (rest : List Char) :
    commentReach depth ('/' :: '*' :: rest) = (commentReach (depth + 1) rest).after 2 := by
  rw [commentReach.eq_def]
  simp only [and_self, if_true]

theorem commentReach_close (rest : List Char) :
    commentReach 0 ('*' :: '/' :: rest) = ⟨true, 2⟩ := by
  simp [commentReach]

theorem commentReach_close_succ (depth : Nat) (rest : List Char) :
    commentReach (depth + 1) ('*' :: '/' :: rest) = (commentReach depth rest).after 2 := by
  simp [commentReach]

theorem commentReach_other (depth : Nat) {c d : Char} (ho : ¬ (c = '/' ∧ d = '*'))
    (hc : ¬ (c = '*' ∧ d = '/')) (rest : List Char) :
    commentReach depth (c :: d :: rest) = (commentReach depth (d :: rest)).after 1 := by
  rw [commentReach.eq_def]
  simp only [if_neg ho, if_neg hc]

theorem pair_prefix_cons {a b c d : Char} {rest : List Char} :
    [a, b] <+: c :: d :: rest ↔ c = a ∧ d = b := by
  simp [List.cons_prefix_cons, eq_comm]

theorem CommentBody.exists_cons_cons {body : List Char} (h : CommentBody body) :
    ∃ c d rest, body = c :: d :: rest := by
  cases h with
  | close => exact ⟨_, _, _, rfl⟩
  | nest => exact ⟨_, _, _, rfl⟩
  | @other c rest _ _ h =>
    cases h with
    | close => exact ⟨_, _, _, rfl⟩
    | nest => exact ⟨_, _, _, rfl⟩
    | other => exact ⟨_, _, _, rfl⟩

theorem Reach.after_after (r : Reach) (m n : Nat) : (r.after n).after m = r.after (m + n) := by
  simp [Reach.after, Nat.add_assoc]

/-- A whole comment is left behind, whatever follows it, and one less is open. -/
theorem CommentBody.reach {body : List Char} (h : CommentBody body) (behind : List Char) :
    commentReach 0 (body ++ behind) = ⟨true, body.length⟩ ∧ ∀ depth,
      commentReach (depth + 1) (body ++ behind) =
        (commentReach depth behind).after body.length := by
  induction h generalizing behind with
  | close => exact ⟨commentReach_close behind, fun depth => commentReach_close_succ depth behind⟩
  | @nest inner rest _ _ ihi ihr =>
    have hstep (depth : Nat) : commentReach depth ('/' :: '*' :: (inner ++ rest) ++ behind) =
        ((commentReach depth (rest ++ behind)).after inner.length).after 2 := by
      rw [List.cons_append, List.cons_append, List.append_assoc, commentReach_open,
        (ihi (rest ++ behind)).2]
    refine ⟨?_, fun depth => ?_⟩
    · rw [hstep, (ihr behind).1]
      simp only [Reach.after, List.length_cons, List.length_append, Reach.mk.injEq, true_and]
      omega
    · rw [hstep, (ihr behind).2, Reach.after_after, Reach.after_after]
      congr 1
      simp only [List.length_cons, List.length_append]
      omega
  | @other c rest ho hc hrest ih =>
    obtain ⟨d, e, tail, rfl⟩ := hrest.exists_cons_cons
    rw [pair_prefix_cons] at ho hc
    have hstep (depth : Nat) : commentReach depth (c :: d :: e :: tail ++ behind) =
        (commentReach depth (d :: e :: tail ++ behind)).after 1 := commentReach_other depth ho hc _
    refine ⟨?_, fun depth => ?_⟩
    · rw [hstep, (ih behind).1]
      simp [Reach.after, Nat.add_comm]
    · rw [hstep, (ih behind).2, Reach.after_after]
      congr 1
      simp only [List.length_cons]
      omega

theorem exists_commentBodies {depth : Nat} {cs : List Char} {n : Nat}
    (h : commentReach depth cs = ⟨true, n⟩) :
    ∃ bodies behind, CommentBodies depth bodies ∧ cs = bodies ++ behind ∧ n = bodies.length := by
  induction depth, cs using commentReach.induct generalizing n with
  | case1 => simp [commentReach] at h
  | case2 => simp [commentReach] at h
  | case3 depth c d rest hc ih =>
    obtain ⟨rfl, rfl⟩ := hc
    rw [commentReach_open] at h
    obtain ⟨m, hm, rfl⟩ := Reach.after_eq_closed h
    obtain ⟨bodies, behind, hbodies, rfl, rfl⟩ := ih hm
    cases hbodies with
    | @more _ inner bodies hi hs =>
      refine ⟨'/' :: '*' :: (inner ++ bodies), behind, ?_, rfl,
        by simp only [List.length_cons]; omega⟩
      cases hs with
      | last hb => exact .last (.nest hi hb)
      | @more _ body bodies hb hs =>
        have hmore := CommentBodies.more (.nest hi hb) hs
        rwa [List.cons_append, List.cons_append, List.append_assoc] at hmore
  | case4 c d rest _ hd =>
    obtain ⟨rfl, rfl⟩ := hd
    obtain rfl : 2 = n := by simpa [commentReach_close] using h
    exact ⟨['*', '/'], rest, .last .close, rfl, rfl⟩
  | case5 c d rest _ hd depth ih =>
    obtain ⟨rfl, rfl⟩ := hd
    rw [commentReach_close_succ] at h
    obtain ⟨m, hm, rfl⟩ := Reach.after_eq_closed h
    obtain ⟨bodies, behind, hbodies, rfl, rfl⟩ := ih hm
    exact ⟨['*', '/'] ++ bodies, behind, .more .close hbodies, rfl, by
      simp only [List.length_append, List.length_cons, List.length_nil]⟩
  | case6 depth c d rest ho hc ih =>
    rw [commentReach_other depth ho hc] at h
    obtain ⟨m, hm, rfl⟩ := Reach.after_eq_closed h
    obtain ⟨bodies, behind, hbodies, hcs, rfl⟩ := ih hm
    have hno {a b : Char} (hab : ¬ (c = a ∧ d = b)) {body more : List Char}
        (hb : d :: rest = body ++ more) : ¬ [a, b] <+: c :: body := fun hp => by
      have hwhole : c :: body <+: c :: d :: rest := by
        rw [hb]
        exact List.prefix_append (c :: body) more
      exact hab (pair_prefix_cons.mp (hp.trans hwhole))
    refine ⟨c :: bodies, behind, ?_, by rw [hcs, List.cons_append],
      by simp only [List.length_cons]; omega⟩
    cases hbodies with
    | last hb => exact .last (.other (hno ho hcs) (hno hc hcs) hb)
    | @more _ body bodies hb hs =>
      rw [List.append_assoc] at hcs
      have hwhole : CommentBody (c :: body) := .other (hno ho hcs) (hno hc hcs) hb
      exact .more hwhole hs

theorem commentReach_closed_iff {cs : List Char} {n : Nat} :
    commentReach 0 cs = ⟨true, n⟩ ↔
      ∃ body behind, CommentBody body ∧ cs = body ++ behind ∧ n = body.length := by
  constructor
  · intro h
    obtain ⟨bodies, behind, hbodies, hcs, hn⟩ := exists_commentBodies h
    cases hbodies with
    | last hbody => exact ⟨bodies, behind, hbody, hcs, hn⟩
  · rintro ⟨body, behind, hbody, rfl, rfl⟩
    exact (hbody.reach behind).1

end Offside.Lexeme
