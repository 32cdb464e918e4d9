import Offside.Proofs.FilesKept
import Offside.Proofs.Literals

/-!
# What is printed and what is written

A converted text is printed as it is written to a file where colours are shown. Where they are
not, it is printed so exactly if it holds no control sequence.

- `Text.HoldsControl`, `Text.stripped_eq_self_iff`: a control sequence stands in a text, which then
  loses it where it is printed without colours.
- `Command.Arguments.Shows`: arguments that ask to show the text, and are else the given ones.
- `Disk.printed_eq_iff`: what a run prints, what the other run writes, and what the conversion of
  the file writes.
-/
namespace Offside

set_option autoImplicit false

open Text

/-! ## Control sequences -/

namespace Text

/-- What follows the escape of a control sequence: a bracket, parameters, intermediate characters,
and one that ends it. -/
structure ControlBody (cs : List Char) (parameters intermediates : List Char) (final : Char)
    (after : List Char) : Prop where
  eq : cs = '[' :: (parameters ++ (intermediates ++ final :: after))
  parameters : ∀ c ∈ parameters, isParameter c = true
  intermediates : ∀ c ∈ intermediates, isIntermediate c = true
  final : isFinal final = true

/-- A control sequence stands in a text. -/
def HoldsControl (cs : List Char) : Prop :=
  ∃ before behind parameters intermediates final after, cs = before ++ escape :: behind ∧
    ControlBody behind parameters intermediates final after

theorem not_within_of_within {a b c d x : Char} (hapart : b < c ∨ d < a)
    (h : (a ≤ x && x ≤ b) = true) : (c ≤ x && x ≤ d) = false := by
  simp only [Bool.and_eq_true, decide_eq_true_eq, Bool.and_eq_false_iff, decide_eq_false_iff_not,
    Char.le_def, Char.lt_def, UInt32.le_iff_toNat_le, UInt32.lt_iff_toNat_lt] at h hapart ⊢
  omega

theorem not_isParameter_of_isIntermediate {c : Char} (h : isIntermediate c = true) :
    isParameter c = false :=
  not_within_of_within (by decide) h

theorem not_isParameter_of_isFinal {c : Char} (h : isFinal c = true) : isParameter c = false :=
  not_within_of_within (by decide) h

theorem not_isIntermediate_of_isFinal {c : Char} (h : isFinal c = true) :
    isIntermediate c = false :=
  not_within_of_within (by decide) h

theorem takeWhile_append_cons {p : Char → Bool} {cs rest : List Char} {c : Char}
    (hcs : ∀ d ∈ cs, p d = true) (hc : p c = false) :
    (cs ++ c :: rest).takeWhile p = cs := by
  rw [List.takeWhile_append_of_pos hcs, List.takeWhile_cons_of_neg (by simp [hc]), List.append_nil]

/-- The parameters and the intermediate characters are as long as they can be. -/
theorem ControlBody.takeWhile_eq {cs parameters intermediates after : List Char} {final : Char}
    (h : ControlBody cs parameters intermediates final after) :
    (cs.drop 1).takeWhile isParameter = parameters ∧
      (intermediates ++ final :: after).takeWhile isIntermediate = intermediates := by
  constructor
  · rw [h.eq, List.drop_one, List.tail_cons]
    cases hi : intermediates with
    | nil => exact takeWhile_append_cons h.parameters (not_isParameter_of_isFinal h.final)
    | cons c rest =>
      have hc : isIntermediate c = true := by
        apply h.intermediates
        rw [hi]
        exact List.mem_cons_self
      exact takeWhile_append_cons h.parameters (not_isParameter_of_isIntermediate hc)
  · exact takeWhile_append_cons h.intermediates (not_isIntermediate_of_isFinal h.final)

theorem sequenceLength_ne_zero_iff (cs : List Char) : sequenceLength cs ≠ 0 ↔
    ∃ parameters intermediates final after,
      ControlBody cs parameters intermediates final after := by
  cases cs with
  | nil =>
    constructor
    · intro h
      exact absurd rfl h
    · rintro ⟨_, _, _, _, h⟩
      cases h.eq
  | cons c rest =>
    simp only [sequenceLength]
    set parameters := rest.takeWhile isParameter with hp
    set behind := rest.drop parameters.length with hb
    set intermediates := behind.takeWhile isIntermediate with hi
    have hrest : rest = parameters ++ behind :=
      (List.prefix_iff_eq_append.mp (List.takeWhile_prefix _)).symm
    constructor
    · intro h
      rw [ne_eq, ite_eq_right_iff, Classical.not_imp] at h
      obtain ⟨hc, -⟩ := h
      obtain ⟨rfl, hfinal⟩ := hc
      have hplace : rest[parameters.length + intermediates.length]? =
          behind[intermediates.length]? := by
        rw [hb, List.getElem?_drop]
      rw [hplace] at hfinal
      cases hend : behind[intermediates.length]? with
      | none => simp [hend] at hfinal
      | some final =>
        rw [hend] at hfinal
        obtain ⟨after, hafter⟩ := Lexeme.eq_takeWhile_append_of_getElem? hend
        exact ⟨parameters, intermediates, final, after, by rw [hrest, ← hafter],
          List.all_eq_true.mp List.all_takeWhile, List.all_eq_true.mp List.all_takeWhile, hfinal⟩
    · rintro ⟨ps, is, final, after, h⟩
      obtain ⟨hps, his⟩ := h.takeWhile_eq
      obtain ⟨rfl, hcs⟩ := List.cons.inj h.eq
      have hparameters : parameters = ps := hps
      have hbehind : behind = is ++ final :: after := by
        rw [hb, hparameters, hcs, List.drop_left]
      have hintermediates : intermediates = is := by rw [hi, hbehind, his]
      have hplace : rest[parameters.length + intermediates.length]? = some final := by
        rw [hparameters, hintermediates, hcs, List.getElem?_append_right (by omega),
          Nat.add_sub_cancel_left, List.getElem?_append_right (by omega), Nat.sub_self]
        rfl
      rw [if_pos ⟨rfl, by rw [hplace]; exact h.final⟩]
      omega

theorem length_strippedAfter_le (skip : Nat) (cs : List Char) :
    (strippedAfter skip cs).length ≤ cs.length := by
  induction cs generalizing skip with
  | nil => cases skip <;> simp [strippedAfter]
  | cons c rest ih =>
    cases skip with
    | succ skip =>
      rw [strippedAfter, List.length_cons]
      exact Nat.le_succ_of_le (ih skip)
    | zero =>
      rw [strippedAfter]
      split_ifs
      · rw [List.length_cons]
        exact Nat.le_succ_of_le (ih _)
      · rw [List.length_cons, List.length_cons]
        exact Nat.succ_le_succ (ih 0)

theorem holdsControl_cons (c : Char) (rest : List Char) : HoldsControl (c :: rest) ↔
    c = escape ∧ sequenceLength rest ≠ 0 ∨ HoldsControl rest := by
  rw [sequenceLength_ne_zero_iff]
  constructor
  · rintro ⟨before, behind, parameters, intermediates, final, after, heq, h⟩
    cases before with
    | nil =>
      left
      obtain ⟨rfl, rfl⟩ := List.cons.inj heq
      exact ⟨rfl, parameters, intermediates, final, after, h⟩
    | cons d before =>
      right
      exact ⟨before, behind, parameters, intermediates, final, after, (List.cons.inj heq).2, h⟩
  · rintro (⟨rfl, parameters, intermediates, final, after, h⟩ |
      ⟨before, behind, parameters, intermediates, final, after, rfl, h⟩)
    · exact ⟨[], rest, parameters, intermediates, final, after, rfl, h⟩
    · exact ⟨c :: before, behind, parameters, intermediates, final, after, rfl, h⟩

/-- A text loses nothing exactly if no control sequence stands in it. -/
theorem stripped_eq_self_iff (cs : List Char) : stripped cs = cs ↔ ¬ HoldsControl cs := by
  unfold stripped
  induction cs with
  | nil =>
    refine ⟨fun _ => ?_, fun _ => rfl⟩
    rintro ⟨before, _, _, _, _, _, heq, -⟩
    cases before <;> cases heq
  | cons c rest ih =>
    rw [strippedAfter, holdsControl_cons]
    by_cases hc : c = escape ∧ sequenceLength rest ≠ 0
    · rw [if_pos hc]
      refine ⟨fun h => ?_, fun h => absurd (.inl hc) h⟩
      have hlength := length_strippedAfter_le (sequenceLength rest) rest
      rw [h, List.length_cons] at hlength
      omega
    · rw [if_neg hc, List.cons_inj_right, ih]
      constructor
      · intro h hor
        exact hor.elim hc h
      · intro h hrest
        exact h (.inr hrest)

end Text

namespace Command

theorem echoed_eq_iff (color : Bool) (cs : List Char) :
    echoed color cs = cs ↔ (Text.HoldsControl cs → color = true) := by
  unfold echoed
  cases color with
  | true => simp
  | false =>
    rw [if_neg Bool.false_ne_true, Text.stripped_eq_self_iff]
    constructor
    · intro h hc
      exact absurd hc h
    · intro h hc
      exact absurd (h hc) Bool.false_ne_true

/-! ## Asking for the text -/

namespace Arguments

/-- Arguments that ask to show the text, and are else the given ones, which do not. -/
structure Shows (asking arguments : Arguments) : Prop where
  words : asking.words = arguments.words
  options : asking.options.filter (·.switch ≠ .stdout) = arguments.options
  asks : 0 < asking.count .stdout

variable {asking arguments : Arguments}

/-- With the option in front, words ask to show the text and are else read as before. -/
theorem exists_shows {words : List String} (hread : read words = .ok arguments)
    (hnone : arguments.count .stdout = 0) :
    ∃ asking, read ("--stdout" :: words) = .ok asking ∧ asking.Shows arguments := by
  have hword : "--stdout" ≠ "--" := by decide
  have hoption : isOption "--stdout" = true := by decide
  have hgiven : readOption "--stdout".toList = .ok ⟨[⟨.stdout, none⟩], none⟩ := by decide
  let given : Given := ⟨.stdout, none⟩
  refine ⟨arguments.withOptions [given], ?_, rfl, ?_, ?_⟩
  · rw [read, if_neg hword, if_pos hoption, hgiven]
    simp only [hread]
    rfl
  · show (given :: arguments.options).filter _ = _
    rw [List.filter_cons_of_neg (by simp [given]), List.filter_eq_self]
    intro other hmem
    have hother := List.countP_eq_zero.mp hnone other hmem
    simpa using hother
  · show 0 < (given :: arguments.options).countP _
    rw [List.countP_cons_of_pos (by rfl)]
    exact Nat.succ_pos _

theorem Shows.count_stdout (h : asking.Shows arguments) : arguments.count .stdout = 0 := by
  unfold count
  rw [← h.options, List.countP_filter, List.countP_eq_zero]
  intro given _
  simp

theorem Shows.filter_eq (h : asking.Shows arguments) {switch : Switch} (hs : switch ≠ .stdout) :
    arguments.options.filter (·.switch = switch) = asking.options.filter (·.switch = switch) := by
  rw [← h.options, List.filter_filter]
  apply List.filter_congr
  intro given _
  by_cases hg : given.switch = switch
  · simp [hg, hs]
  · simp [hg]

theorem Shows.value?_eq (h : asking.Shows arguments) {switch : Switch} (hs : switch ≠ .stdout) :
    arguments.value? switch = asking.value? switch := by
  unfold value?
  rw [h.filter_eq hs]

theorem Shows.requesting_eq (h : asking.Shows arguments) (source : String) :
    asking.requesting source = { arguments.requesting source with toStdout := true } := by
  have hverbose : asking.count .verbose = arguments.count .verbose := by
    unfold count
    rw [List.countP_eq_length_filter, List.countP_eq_length_filter,
      h.filter_eq (show Switch.verbose ≠ .stdout by decide)]
  unfold requesting
  rw [h.value?_eq (show Switch.output ≠ .stdout by decide),
    h.value?_eq (show Switch.marker ≠ .stdout by decide),
    h.value?_eq (show Switch.config ≠ .stdout by decide), hverbose, decide_eq_true h.asks]

theorem Shows.checkSwitch_eq (h : asking.Shows arguments) (disk : Disk) {switch : Switch}
    (hs : switch ≠ .stdout) :
    checkSwitch disk asking switch = checkSwitch disk arguments switch := by
  unfold checkSwitch
  rw [h.value?_eq hs]

end Arguments

/-- Arguments that ask to show the text make the request of those that do not, but for that. -/
theorem Request.ofArguments_shows {disk : Disk} {asking arguments : Arguments} {request : Request}
    (h : asking.Shows arguments) (hrequest : Request.ofArguments disk arguments = .ok request) :
    request.toStdout = false ∧
      Request.ofArguments disk asking = .ok { request with toStdout := true } := by
  obtain ⟨hchecks, hwords, hfile, heq⟩ :=
    (Request.ofArguments_eq_ok_iff disk arguments request).mp hrequest
  constructor
  · rw [heq]
    show decide (0 < arguments.count .stdout) = false
    rw [h.count_stdout]
    rfl
  · apply (Request.ofArguments_eq_ok_iff disk asking _).mpr
    refine ⟨fun given hgiven => ?_, h.words.trans hwords, hfile, ?_⟩
    · by_cases hs : given.switch = .stdout
      · rw [hs]
        exact ⟨rfl, rfl⟩
      · rw [h.checkSwitch_eq disk hs]
        apply hchecks
        rw [← h.options]
        exact List.mem_filter.mpr ⟨hgiven, decide_eq_true hs⟩
    · show _ = asking.requesting request.source
      rw [h.requesting_eq, ← heq]

theorem run_of_request {color : Bool} {disk : Disk} {words : List String} {arguments : Arguments}
    {request : Request} (hread : Arguments.read words = .ok arguments)
    (hrequest : Request.ofArguments disk arguments = .ok request) :
    run color disk words = request.run color disk := by
  unfold run
  rw [hread]
  dsimp only
  rw [hrequest]

end Command

namespace Disk

/-! ## Converting the file -/

theorem convertFile_ok {disk written : Disk} {settings : Settings} {path target : Path}
    {destination : Option Path} {source : Source} {output : List Char}
    (htarget : destination.elim (settings.outputPath path) .ok = .ok target)
    (hload : disk.loadSource path = .ok source)
    (hconvert : (source.convert settings.rules).result = .ok output)
    (hwrite : disk.writeText target output = .ok written) :
    (disk.convertFile settings path destination).result = .ok target ∧
      (disk.convertFile settings path destination).disk = written := by
  cases destination with
  | none =>
    have hplace : settings.outputPath path = .ok target := htarget
    unfold convertFile
    simp only [hplace, hload, hconvert, hwrite]
    exact ⟨trivial, trivial⟩
  | some place =>
    obtain rfl : place = target := Except.ok.inj htarget
    unfold convertFile
    simp only [hload, hconvert, hwrite]
    exact ⟨trivial, trivial⟩

/-- Wherever the conversion of a file writes, it writes what the source converts to. -/
theorem wrote_of_convertFile {disk : Disk} {settings : Settings} {path target : Path}
    {destination : Option Path} {source : Source} {output : List Char}
    (hload : disk.loadSource path = .ok source)
    (hconvert : (source.convert settings.rules).result = .ok output)
    (h : (disk.convertFile settings path destination).result = .ok target) :
    disk.Wrote (disk.convertFile settings path destination).disk target.text output := by
  cases disk.leaves_convertFile settings path destination with
  | failed result => cases h.symm.trans result
  | wrote result _ converted =>
    obtain rfl := Except.ok.inj (h.symm.trans result)
    obtain ⟨text, other, htext, hother, hwrote⟩ := converted
    obtain rfl := Except.ok.inj (hload.symm.trans htext)
    obtain rfl := Except.ok.inj (hconvert.symm.trans hother)
    exact hwrote

/-- Of two runs that differ in that one shows the text, the one that writes a file writes what the
source converts to, as the conversion of the file does wherever it writes. The other prints that
text as well, exactly if colours are shown or no control sequence stands in it. -/
theorem printed_eq_iff {disk : Disk} {words asked : List String}
    {arguments asking : Command.Arguments} {request : Command.Request}
    (hwords : Command.Arguments.read words = .ok arguments)
    (hasked : Command.Arguments.read asked = .ok asking) (hshows : asking.Shows arguments)
    (hrequest : Command.Request.ofArguments disk arguments = .ok request) (color other : Bool)
    (hcode : (Command.run other disk words).exitCode = 0) :
    ∃ settings source output target, request.Converts disk settings source output ∧
      disk.Wrote (Command.run other disk words).disk target.text output ∧
      (let filing := disk.convertFile settings (Path.ofText request.source)
        (request.output.map Path.ofText)
       filing.result = .ok target ∧ filing.disk = (Command.run other disk words).disk) ∧
      (∀ destination place,
        let filing := disk.convertFile settings (Path.ofText request.source) destination
        filing.result = .ok place → disk.Wrote filing.disk place.text output) ∧
      (Command.run color disk asked).exitCode = 0 ∧
      ((Command.run color disk asked).stdout = output ↔
        (Text.HoldsControl output → color = true)) := by
  obtain ⟨hstdout, hasking⟩ := Command.Request.ofArguments_shows hshows hrequest
  rw [Command.run_of_request hwords hrequest] at hcode ⊢
  rw [Command.run_of_request hasked hasking]
  cases request.does_run other disk with
  | failed code => exact absurd hcode code
  | shown stdout => exact absurd (stdout.symm.trans hstdout) Bool.noConfusion
  | @wrote settings source output target _ converts _ place written =>
    have hconverts : Command.Request.Converts { request with toStdout := true } disk settings source
        output := ⟨converts.config, converts.load, converts.convert⟩
    obtain ⟨hshown, hprinted⟩ := Command.Request.run_shown rfl hconverts color
    refine ⟨settings, source, output, target, converts, wrote_of_writeText written, ?_, ?_, hshown,
      ?_⟩
    · rw [Command.Request.target_eq] at place
      exact convertFile_ok place converts.load converts.convert written
    · intro destination path
      exact wrote_of_convertFile converts.load converts.convert
    · rw [hprinted]
      exact Command.echoed_eq_iff color output

/-- The source has no control sequence, so both outputs are the same also where no colours are
shown. -/
theorem oneSource_printed :
    let request : Command.Request := ⟨"a", none, false, none, none, 0⟩
    (Command.run false oneSource ["a"]).exitCode = 0 ∧
      ∃ settings source output target, request.Converts oneSource settings source output ∧
        oneSource.Wrote (Command.run false oneSource ["a"]).disk target.text output ∧
        (let filing := oneSource.convertFile settings (Path.ofText request.source)
          (request.output.map Path.ofText)
         filing.result = .ok target ∧ filing.disk = (Command.run false oneSource ["a"]).disk) ∧
        (∀ destination place,
          let filing := oneSource.convertFile settings (Path.ofText request.source) destination
          filing.result = .ok place → oneSource.Wrote filing.disk place.text output) ∧
        (Command.run false oneSource ["--stdout", "a"]).exitCode = 0 ∧
        ((Command.run false oneSource ["--stdout", "a"]).stdout = output ↔
          (Text.HoldsControl output → false = true)) := by
  intro request
  have hwords : Command.Arguments.read ["a"] = .ok ⟨[], ["a"]⟩ := by decide
  obtain ⟨asking, hasked, hshows⟩ := Command.Arguments.exists_shows hwords rfl
  have hrequest : Command.Request.ofArguments oneSource ⟨[], ["a"]⟩ = .ok request := rfl
  have hcode : (Command.run false oneSource ["a"]).exitCode = 0 := by decide +kernel
  exact ⟨hcode, printed_eq_iff hwords hasked hshows hrequest false false hcode⟩

/-- A source that holds a control sequence in a string. -/
def colouredSource : Disk := ⟨[(["a"], .file (Utf8.encode "\"\x1b[31mx\"\n".toList))], []⟩

/-- Both runs succeed. One writes the text as it is, and the other prints it without the
sequence. -/
theorem colouredSource_printed :
    (Command.run false colouredSource ["a"]).exitCode = 0 ∧
      (Command.run false colouredSource ["a"]).disk.read "a.rs" =
        .ok (Utf8.encode "\"\x1b[31mx\"\n".toList) ∧
      (Command.run false colouredSource ["a", "--stdout"]).exitCode = 0 ∧
      (Command.run false colouredSource ["a", "--stdout"]).stdout = "\"x\"\n".toList ∧
      "\"x\"\n".toList ≠ "\"\x1b[31mx\"\n".toList := by
  decide +kernel

end Disk

end Offside
