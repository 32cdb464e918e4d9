import Offside.Proofs.Literals

/-!
# A closed literal ends where it ends

A reach stays inside the text, or one place past it behind a last backslash. Where the closing mark
of a literal is found, it was found without looking past the mark.

- `stringReach_length_le`, `rawReach_length_le`, `characterReach_length_le`,
  `commentReach_length_le`: how far what is opened reaches, closed or not.
- `stringReach_closed`, `rawReach_closed`, `characterReach_closed`: for the three literals that are
  closed.
-/
namespace Offside.Lexeme

set_option autoImplicit false

open Text

/-! ## Reaches and the end of the text -/

theorem stringReach_length_le (cs : List Char) : (stringReach cs).length ≤ cs.length + 1 := by
  induction cs using stringReach.induct with
  | case1 => simp [stringReach]
  | case2 => simp [stringReach]
  | case3 _ => simp [stringReach]
  | case4 c hq hb => simp [stringReach, hq, hb]
  | case5 d rest => simp [stringReach_quote]
  | case6 d rest _ ih =>
    rw [stringReach_escape]
    simp only [Reach.after, List.length_cons]
    omega
  | case7 c d rest hq hb ih =>
    rw [stringReach_other hq hb]
    simp only [Reach.after, List.length_cons] at ih ⊢
    omega

theorem rawReach_length_le (hashes : Nat) (cs : List Char) :
    (rawReach hashes cs).length ≤ cs.length := by
  induction cs with
  | nil => exact Nat.le_refl 0
  | cons c cs ih =>
    by_cases hc : rawMark hashes <+: c :: cs
    · rw [rawReach_cons_mark hc]
      exact length_rawMark hashes ▸ hc.length_le
    · rw [rawReach_cons_other hc]
      simp only [Reach.after, List.length_cons]
      omega

theorem characterReach_length_le (cs : List Char) : (characterReach cs).length ≤ cs.length + 1 := by
  cases cs with
  | nil => simp [characterReach]
  | cons c rest =>
    by_cases hc : c = '\\'
    · have hrun := runLength_le (fun d => d != '\x27' && d != '\n') (rest.drop 1)
      rw [runLength, List.length_drop] at hrun
      simp only [characterReach, if_pos hc, List.length_cons]
      omega
    · simp [characterReach_plain hc]

theorem commentReach_length_le (depth : Nat) (cs : List Char) :
    (commentReach depth cs).length ≤ cs.length := by
  induction depth, cs using commentReach.induct with
  | case1 => simp [commentReach]
  | case2 => simp [commentReach]
  | case3 depth c d rest hc ih =>
    obtain ⟨rfl, rfl⟩ := hc
    rw [commentReach_open]
    simp only [Reach.after, List.length_cons]
    omega
  | case4 c d rest _ hd =>
    obtain ⟨rfl, rfl⟩ := hd
    simp [commentReach_close]
  | case5 c d rest _ hd depth ih =>
    obtain ⟨rfl, rfl⟩ := hd
    rw [commentReach_close_succ]
    simp only [Reach.after, List.length_cons]
    omega
  | case6 depth c d rest ho hc ih =>
    rw [commentReach_other depth ho hc]
    simp only [Reach.after, List.length_cons] at ih ⊢
    omega

/-! ## Closed literals -/

theorem stringReach_closed {cs : List Char} {n : Nat} (h : stringReach cs = ⟨true, n⟩) :
    1 ≤ n ∧ n ≤ cs.length ∧ ∀ more, stringReach (cs.take n ++ more) = ⟨true, n⟩ := by
  obtain ⟨body, behind, hbody, rfl, rfl⟩ := stringReach_closed_iff.mp h
  refine ⟨by omega, by simp, fun more => ?_⟩
  have htake : (body ++ '"' :: behind).take (body.length + 1) ++ more = body ++ '"' :: more := by
    rw [List.take_length_add_append]
    simp
  rw [htake]
  exact hbody.reach more

theorem rawReach_closed (hashes : Nat) {cs : List Char} {n : Nat}
    (h : rawReach hashes cs = ⟨true, n⟩) :
    hashes < n ∧ n ≤ cs.length ∧ ∀ more, rawReach hashes (cs.take n ++ more) = ⟨true, n⟩ := by
  obtain ⟨body, behind, hbody, rfl, rfl⟩ := rawReach_closed_iff.mp h
  have hlen : body.length + 1 + hashes = (body ++ rawMark hashes).length := by
    rw [List.length_append, length_rawMark, Nat.add_assoc]
  refine ⟨by omega, by simp; omega, fun more => ?_⟩
  rw [hlen, List.take_left, ← hlen]
  exact hbody.reach more

/-- The closing apostrophe stands one place behind the reach. -/
theorem characterReach_closed {cs : List Char} {n : Nat} (h : characterReach cs = ⟨true, n⟩) :
    1 ≤ n ∧ n + 1 ≤ cs.length ∧
      ∀ more, characterReach (cs.take (n + 1) ++ more) = ⟨true, n⟩ := by
  obtain ⟨body, behind, hbody, rfl, rfl⟩ := characterReach_closed_iff.mp h
  refine ⟨hbody.length_pos, by simp, fun more => ?_⟩
  have htake : (body ++ '\x27' :: behind).take (body.length + 1) ++ more =
      body ++ '\x27' :: more := by
    rw [List.take_length_add_append]
    simp
  rw [htake]
  exact hbody.reach more

end Offside.Lexeme
