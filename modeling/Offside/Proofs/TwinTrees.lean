import Mathlib.Data.List.Forall2
import Offside.Proofs.Weaving

/-!
# Two texts with the same words

Two texts are read side by side. Where their tokens are the same words one by one, their brackets
are matched in the same way, and what is wrong with them is wrong at the same tokens.

- `Pair`: two tokens that stand at the same place among the tokens of two texts.
- `Twins`: trees of the same shape, and the pairs of tokens that spell them.
- `FaultPair`: the same fault of the brackets at the two tokens of a pair.
- `twins_assemble`: tokens with the same words are assembled into twins, or have the same faults.
-/
namespace Offside

set_option autoImplicit false

open Layout (openingToken closingToken)

/-- Two tokens, one of each of two texts. -/
abbrev Pair := Token × Token

theorem forall₂_iff_map_eq {α β γ : Type} {f : α → γ} {g : β → γ} {l : List α} {r : List β} :
    List.Forall₂ (fun a b => f a = g b) l r ↔ l.map f = r.map g := by
  have h : List.Forall₂ Eq (l.map f) (r.map g) ↔ l.map f = r.map g := by
    rw [List.forall₂_eq_eq_eq]
  rwa [List.forall₂_map_left_iff, List.forall₂_map_right_iff] at h

theorem exists_pairs {l r : List Token} (h : l.map Token.word = r.map Token.word) :
    (l.zip r).map Prod.fst = l ∧ (l.zip r).map Prod.snd = r ∧
      ∀ p ∈ l.zip r, p.1.word = p.2.word := by
  have hlen : l.length = r.length := by simpa using congrArg List.length h
  exact ⟨List.map_fst_zip (Nat.le_of_eq hlen), List.map_snd_zip (Nat.le_of_eq hlen.symm),
    fun p hp => List.forall₂_zip (forall₂_iff_map_eq.mpr h) hp⟩

theorem kind_eq_of_word {p : Pair} (h : p.1.word = p.2.word) : p.2.kind = p.1.kind :=
  (congrArg Prod.fst h).symm

theorem text_eq_of_word {p : Pair} (h : p.1.word = p.2.word) : p.2.text = p.1.text :=
  (congrArg Prod.snd h).symm

/-! ## Twins -/

/-- Trees of two texts that have the same shape, and the pairs of tokens that spell them. -/
inductive Twins : List Tree → List Tree → List Pair → Prop
  | nil : Twins [] [] []
  | leaf {p : Pair} {trees trees' : List Tree} {ps : List Pair} (hw : p.1.word = p.2.word)
      (h : Twins trees trees' ps) : Twins (.leaf p.1 :: trees) (.leaf p.2 :: trees') (p :: ps)
  | group (delimiter : Delimiter) (o o' c c' : Span) {inner inner' trees trees' : List Tree}
      {inside ps : List Pair} (hi : Twins inner inner' inside) (h : Twins trees trees' ps) :
      Twins (.group delimiter o c inner :: trees) (.group delimiter o' c' inner' :: trees')
        ((openingToken delimiter o, openingToken delimiter o') ::
          (inside ++ (closingToken delimiter c, closingToken delimiter c') :: ps))
  | repetition (dollar operator : Pair) (separator : Option Pair) (o o' c c' : Span)
      {inner inner' trees trees' : List Tree} {inside ps : List Pair}
      (hi : Twins inner inner' inside) (h : Twins trees trees' ps) :
      Twins
        (.repetition dollar.1.span c inner (separator.map Prod.fst) operator.1 :: trees)
        (.repetition dollar.2.span c' inner' (separator.map Prod.snd) operator.2 :: trees')
        (dollar :: (openingToken .paren o, openingToken .paren o') ::
          (inside ++ (closingToken .paren c, closingToken .paren c') ::
            (separator.toList ++ operator :: ps)))

namespace Twins

theorem symm {trees trees' : List Tree} {ps : List Pair} (h : Twins trees trees' ps) :
    Twins trees' trees (ps.map Prod.swap) := by
  induction h with
  | nil => exact .nil
  | @leaf p _ _ _ hw _ ih =>
    have hswap : p.swap.1.word = p.swap.2.word := hw.symm
    exact .leaf hswap ih
  | group d o o' c c' _ _ ihi ih =>
    have h := Twins.group d o' o c' c ihi ih
    simpa using h
  | repetition dollar operator separator o o' c c' _ _ ihi ih =>
    have h := Twins.repetition dollar.swap operator.swap (separator.map Prod.swap) o' o c' c ihi ih
    cases separator <;> simpa using h

theorem append {l l' r r' : List Tree} {ts us : List Pair} (hl : Twins l l' ts)
    (hr : Twins r r' us) : Twins (l ++ r) (l' ++ r') (ts ++ us) := by
  induction hl with
  | nil => exact hr
  | leaf hw _ ih => exact .leaf hw ih
  | group d o o' c c' hi _ _ ih =>
    have h := Twins.group d o o' c c' hi ih
    simpa using h
  | repetition dollar operator separator o o' c c' hi _ _ ih =>
    have h := Twins.repetition dollar operator separator o o' c c' hi ih
    simpa using h

theorem uncons {first first' : Tree} {rest rest' : List Tree} {ps : List Pair}
    (h : Twins (first :: rest) (first' :: rest') ps) :
    ∃ ts us, ps = ts ++ us ∧ Twins [first] [first'] ts ∧ Twins rest rest' us := by
  cases h with
  | leaf hw h => exact ⟨[_], _, rfl, .leaf hw .nil, h⟩
  | group d o o' c c' hi h => exact ⟨_, _, by simp, .group d o o' c c' hi .nil, h⟩
  | repetition dollar operator separator o o' c c' hi h =>
    exact ⟨_, _, by simp, .repetition dollar operator separator o o' c c' hi .nil, h⟩

/-- Twins start with the first tokens of a pair and end with the last ones of a pair. -/
theorem exists_ends {tree tree' : Tree} {ps : List Pair} (h : Twins [tree] [tree'] ps) :
    ∃ first ∈ ps.head?, ∃ last ∈ ps,
      tree.span = ⟨first.1.span.lo, last.1.span.hi⟩ ∧
      tree'.span = ⟨first.2.span.lo, last.2.span.hi⟩ := by
  cases h with
  | @leaf p _ _ _ _ h => exact ⟨p, rfl, p, by simp, rfl, rfl⟩
  | group d o o' c c' hi h =>
    exact ⟨_, rfl, (closingToken d c, closingToken d c'), by simp, rfl, rfl⟩
  | repetition dollar operator separator o o' c c' hi h =>
    exact ⟨dollar, rfl, operator, by simp, rfl, rfl⟩

/-- Two trees at the same place of twins are twins. -/
theorem exists_of_mem_zip {items items' : List Tree} {ps : List Pair} (h : Twins items items' ps)
    {p : Tree × Tree} (hp : p ∈ items.zip items') :
    ∃ ts, Twins [p.1] [p.2] ts ∧ ts.Sublist ps := by
  induction items generalizing items' ps with
  | nil => simp at hp
  | cons first rest ih =>
    cases items' with
    | nil => simp at hp
    | cons first' rest' =>
      obtain ⟨ts, us, rfl, hone, hrest⟩ := h.uncons
      rw [List.zip_cons_cons] at hp
      rcases List.mem_cons.mp hp with rfl | hp
      · exact ⟨ts, hone, List.sublist_append_left ts us⟩
      · obtain ⟨vs, hv, hsub⟩ := ih hrest hp
        exact ⟨vs, hv, hsub.trans (List.sublist_append_right ts us)⟩

/-! ## Repetitions -/

theorem isDollar_eq {p : Pair} (h : p.1.word = p.2.word) : p.2.isDollar = p.1.isDollar := by
  rw [Token.isDollar, kind_eq_of_word h, text_eq_of_word h, Token.isDollar]

theorem isRepeat_eq {p : Pair} (h : p.1.word = p.2.word) : p.2.isRepeat = p.1.isRepeat := by
  rw [Token.isRepeat, kind_eq_of_word h, text_eq_of_word h, Token.isRepeat]

/-- Where a repetition starts, one starts in the twin. -/
theorem repeating {first first' found : Tree} {rest rest' : List Tree} {taken : Nat}
    {ps : List Pair} (h : Twins (first :: rest) (first' :: rest') ps)
    (hr : Repeating first rest found taken) :
    ∃ found' ts us, Repeating first' rest' found' taken ∧ ps = ts ++ us ∧
      Twins [found] [found'] ts ∧ Twins (rest.drop taken) (rest'.drop taken) us := by
  cases hr with
  | plain hd ho o c inner behind =>
    cases h with
    | @leaf dollar _ _ _ hdollar h => cases h with
      | group _ _ o' _ c' hi h => cases h with
        | @leaf operator _ behind' us hop h =>
          have hd' := (isDollar_eq hdollar).trans hd
          have ho' := (isRepeat_eq hop).trans ho
          exact ⟨_, _, us, .plain hd' ho' o' c' _ behind', by simp,
            .repetition dollar operator none o o' c c' hi .nil, h⟩
  | parted hd hs ho o c inner behind =>
    cases h with
    | @leaf dollar _ _ _ hdollar h => cases h with
      | group _ _ o' _ c' hi h => cases h with
        | @leaf separator _ _ _ hsep h => cases h with
          | @leaf operator _ behind' us hop h =>
            have hd' := (isDollar_eq hdollar).trans hd
            have hs' := (isRepeat_eq hsep).trans hs
            have ho' := (isRepeat_eq hop).trans ho
            exact ⟨_, _, us, .parted hd' hs' ho' o' c' _ behind', by simp,
              .repetition dollar operator (some separator) o o' c c' hi .nil, h⟩

/-- Repetitions stand at the same places among twins. -/
theorem gatherStep {first first' : Tree} {rest rest' : List Tree} {ps : List Pair}
    (h : Twins (first :: rest) (first' :: rest') ps) :
    ∃ found found' taken ts us, Tree.gatherStep first rest = (found, taken) ∧
      Tree.gatherStep first' rest' = (found', taken) ∧ ps = ts ++ us ∧
      Twins [found] [found'] ts ∧ Twins (rest.drop taken) (rest'.drop taken) us := by
  cases hr : Tree.repetition? first rest with
  | some repetition =>
    obtain ⟨found, taken⟩ := repetition
    obtain ⟨found', ts, us, hr', hps, hone, hrest⟩ := h.repeating (repetition?_eq_some_iff.mp hr)
    rw [← repetition?_eq_some_iff] at hr'
    exact ⟨found, found', taken, ts, us, by rw [Tree.gatherStep, hr]; rfl,
      by rw [Tree.gatherStep, hr']; rfl, hps, hone, hrest⟩
  | none =>
    have hr' : Tree.repetition? first' rest' = none := by
      by_contra hsome
      obtain ⟨⟨found, taken⟩, hfound⟩ := Option.ne_none_iff_exists'.mp hsome
      obtain ⟨found', -, -, hback, -⟩ := h.symm.repeating (repetition?_eq_some_iff.mp hfound)
      rw [repetition?_eq_some_iff.mpr hback] at hr
      cases hr
    obtain ⟨ts, us, hps, hone, hrest⟩ := h.uncons
    exact ⟨first, first', 0, ts, us, by rw [Tree.gatherStep, hr]; rfl,
      by rw [Tree.gatherStep, hr']; rfl, hps, hone, hrest⟩

theorem gather {trees trees' : List Tree} {ps : List Pair} (h : Twins trees trees' ps) :
    Twins (Tree.gather trees) (Tree.gather trees') ps := by
  induction trees using Tree.gather_induction generalizing trees' ps with
  | nil =>
    cases h
    exact .nil
  | step first rest ih =>
    cases trees' with
    | nil => cases h
    | cons first' rest' =>
      obtain ⟨found, found', taken, ts, us, hstep, hstep', rfl, hone, hrest⟩ := h.gatherStep
      rw [hstep] at ih
      rw [Tree.gather_cons, Tree.gather_cons, hstep, hstep']
      exact hone.append (ih hrest)

end Twins

/-! ## Faults of the brackets -/

/-- The same fault at the two tokens of a pair. -/
inductive FaultPair (all : List Pair) : BracketFault → BracketFault → Prop
  | unclosed {p : Pair} (hp : p ∈ all) : FaultPair all (.unclosed p.1) (.unclosed p.2)
  | unopened {p : Pair} (hp : p ∈ all) : FaultPair all (.unopened p.1) (.unopened p.2)
  | mismatched (expected : Delimiter) {p : Pair} (hp : p ∈ all) :
      FaultPair all (.mismatched expected p.1) (.mismatched expected p.2)

/-- The brackets that are open in two texts, with the trees before them. -/
inductive FrameTwins (all : List Pair) : List Frame → List Frame → List Pair → Prop
  | nil : FrameTwins all [] [] []
  | cons {frame frame' : Frame} {outer outer' : List Frame} {ts us : List Pair}
      (hf : FrameTwins all outer outer' ts) (hb : Twins frame.before frame'.before us)
      (hd : frame'.delimiter = frame.delimiter)
      (ho : frame.opener = openingToken frame.delimiter frame.opener.span)
      (ho' : frame'.opener = openingToken frame.delimiter frame'.opener.span)
      (hm : (frame.opener, frame'.opener) ∈ all) :
      FrameTwins all (frame :: outer) (frame' :: outer')
        (ts ++ us ++ [(frame.opener, frame'.opener)])

theorem FrameTwins.faults {all : List Pair} {frames frames' : List Frame} {ts : List Pair}
    (h : FrameTwins all frames frames' ts) :
    List.Forall₂ (FaultPair all) (frames.map (.unclosed ·.opener))
      (frames'.map (.unclosed ·.opener)) := by
  induction h with
  | nil => exact .nil
  | cons _ _ _ _ _ hm ih => exact .cons (.unclosed hm) ih

/-! ## Assembling -/

/-- What two texts are assembled into: the same faults, or twins. -/
def Assembled (all ps : List Pair) (assembly assembly' : Assembly) : Prop :=
  List.Forall₂ (FaultPair all) assembly.faults assembly'.faults ∧
    (assembly.faults = [] → Twins assembly.trees assembly'.trees ps)

/-- Tokens with the same words are assembled into twins, or have the same faults at the same
tokens. -/
theorem twins_assemble {all ps : List Pair}
    (hps : ∀ p ∈ ps, p ∈ all ∧ p.1.word = p.2.word ∧ p.1.IsSpelled) {last last' : Token}
    (hl : last.kind = .endOfText) (hl' : last'.kind = .endOfText) {frames frames' : List Frame}
    {current current' : List Tree} {ts us : List Pair} (hf : FrameTwins all frames frames' ts)
    (hc : Twins current current' us) :
    Assembled all (ts ++ us ++ ps) (assemble frames current (ps.map Prod.fst ++ [last]))
      (assemble frames' current' (ps.map Prod.snd ++ [last'])) := by
  induction ps generalizing frames frames' current current' ts us with
  | nil =>
    rw [List.map_nil, List.map_nil, List.nil_append, List.nil_append, assemble_end _ _ hl,
      assemble_end _ _ hl']
    refine ⟨hf.faults, fun hno => ?_⟩
    cases hf with
    | nil => simpa [Assembly.finish] using hc.gather
    | cons => simp [Assembly.finish] at hno
  | cons p ps ih =>
    have ih' := fun {frames frames' current current' ts us} =>
      @ih (fun q hq => hps q (List.mem_cons_of_mem p hq)) frames frames' current current' ts us
    obtain ⟨hm, hw, hs⟩ := hps p List.mem_cons_self
    have hkind := kind_eq_of_word hw
    have htext := text_eq_of_word hw
    rw [List.map_cons, List.map_cons, List.cons_append, List.cons_append]
    have hleaf (hp : p.1.IsLeaf) :
        Assembled all (ts ++ us ++ p :: ps)
          (assemble frames current (p.1 :: (ps.map Prod.fst ++ [last])))
          (assemble frames' current' (p.2 :: (ps.map Prod.snd ++ [last']))) := by
      have hp' : p.2.IsLeaf := by
        rw [Token.IsLeaf, hkind]
        exact hp
      rw [assemble_leaf _ _ hp, assemble_leaf _ _ hp']
      have h := ih' hf (hc.append (.leaf hw .nil))
      simpa using h
    rcases hs with hp | ⟨hk, c, hc', ho⟩ | ⟨hk, c, hc', ho⟩ | ⟨hk, -⟩
    · exact hleaf (.of_isPlain hp)
    · obtain ⟨d, hd, hopen⟩ := ofText?_of_isOpening ho
      have hk' := hkind.trans hk
      have hc'' := htext.trans hc'
      rw [assemble_open _ _ hk (hc' ▸ hd), assemble_open _ _ hk' (hc'' ▸ hd)]
      have hframe : FrameTwins all (⟨p.1, d, current⟩ :: frames) (⟨p.2, d, current'⟩ :: frames')
          (ts ++ us ++ [p]) :=
        .cons hf hc rfl (eq_openingToken hk (hc'.trans hopen)) (eq_openingToken hk' (hc''.trans hopen))
          hm
      have h := ih' hframe .nil
      simpa using h
    · have hk' := hkind.trans hk
      cases hf with
      | nil =>
        rw [assemble_close_nil _ hk, assemble_close_nil _ hk']
        -- a closer that opens nothing is left out, so the trees are not spelled by all tokens
        obtain ⟨hfaults, -⟩ := ih' .nil hc
        exact ⟨.cons (.unopened hm) hfaults, fun hno => by simp [Assembly.withFault] at hno⟩
      | @cons frame frame' outer outer' ts vs hf hb hd hopen hopen' _ =>
        rw [assemble_close_cons _ _ _ hk, assemble_close_cons _ _ _ hk']
        have hgroup := Twins.group frame.delimiter frame.opener.span frame'.opener.span p.1.span
          p.2.span hc.gather .nil
        have h := ih' hf (hb.append hgroup)
        simp only [hd, htext]
        split_ifs with hfit
        · rw [← hopen, ← hopen', ← eq_closingToken hk hfit,
            ← eq_closingToken hk' (htext.trans hfit)] at h
          simpa using h
        · exact ⟨.cons (.mismatched frame.delimiter hm) h.1,
            fun hno => by simp [Assembly.withFault] at hno⟩
    · exact hleaf (by simp [Token.IsLeaf, hk])

end Offside
