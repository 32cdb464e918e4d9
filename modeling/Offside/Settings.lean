import Offside.Layout.Level
import Offside.Toml.Shown

/-!
# Settings

What a configuration document sets. Only the marker policy is checked when it is read; the other
values are kept as they are written and judged where they are used.

- `Settings`: the settings, and their defaults.
- `Settings.ofTable`: the settings of a document.
- `Settings.rules`: what they say about a layout.
-/
namespace Offside

set_option autoImplicit false

open Toml (Value Table)

inductive Settings.Fault where
  | notASection
  /-- A set of keywords is no collection of simple values. -/
  | notKeywords
  | unknownMarker (value : Value)
  /-- A value that names no marker policy is too long to be shown. -/
  | unshowableMarker

def Settings.Fault.message : Settings.Fault → String
  | .notASection => "a section is no table"
  | .notKeywords => "keywords are no collection of simple values"
  | .unknownMarker value => "invalid marker policy " ++ value.shown ++ " (expected one of: " ++
      ", ".intercalate (Layout.MarkerPolicy.all.map (·.word)) ++ ")"
  | .unshowableMarker => Toml.digitLimitMessage ""

/-- The settings. Each set of keywords lists its elements once. -/
structure Settings where
  selectors : List Value
  aggregates : List Value
  marker : Layout.MarkerPolicy
  preserveBlankLines : Value
  extension : Value

namespace Settings

def default : Settings where
  selectors := [.string "match"]
  aggregates := [.string "struct", .string "enum"]
  marker := .always
  preserveBlankLines := .boolean false
  extension := .string ".rs"

def distinct (elements : List Value) : List Value :=
  elements.foldl (fun seen v => if seen.any v.same then seen else seen ++ [v]) []

/-- The set of keywords that a value stands for: the characters of a text, the items of an array,
the keys of a table. -/
def keywords : Value → Except Fault (List Value)
  | .string text =>
    .ok (distinct (text.toList.map fun c => .string (String.singleton c)))
  | .array items =>
    if items.all Value.isElement then .ok (distinct items) else .error .notKeywords
  | .table entries => .ok (distinct (entries.map fun entry => .string entry.1))
  | _ => .error .notKeywords

def marker? (value : Value) : Except Fault Layout.MarkerPolicy :=
  match value.text?.bind Layout.MarkerPolicy.ofWord? with
  | some policy => .ok policy
  | none => .error (if value.isShowable then .unknownMarker value else .unshowableMarker)

def section? (document : Table) (key : String) : Except Fault (Option Table) :=
  match document.get? key with
  | none => .ok none
  | some (.table entries) => .ok (some entries)
  | some _ => .error .notASection

def member {α : Type} (entries : Table) (key : String) (missing : α)
    (read : Value → Except Fault α) : Except Fault α :=
  match entries.get? key with
  | none => .ok missing
  | some value => read value

def withLayout (settings : Settings) (entries : Table) : Except Fault Settings := do
  let selectors ← member entries "selector_keywords" default.selectors keywords
  let aggregates ← member entries "aggregate_keywords" default.aggregates keywords
  let marker ← member entries "marker" default.marker marker?
  let preserveBlankLines ← member entries "preserve_blank_lines" default.preserveBlankLines .ok
  return { settings with selectors, aggregates, marker, preserveBlankLines }

def withOutput (settings : Settings) (entries : Table) : Except Fault Settings := do
  let extension ← member entries "extension" default.extension .ok
  return { settings with extension }

def ofTable (document : Table) : Except Fault Settings := do
  let settings ← match ← section? document "layout" with
    | none => pure default
    | some entries => default.withLayout entries
  match ← section? document "output" with
  | none => return settings
  | some entries => settings.withOutput entries

/-- What the settings say about a layout. A keyword that is no text announces nothing. -/
def rules (settings : Settings) : Layout.Rules where
  selectors := settings.selectors.filterMap fun v => v.text?.map String.toList
  aggregates := settings.aggregates.filterMap fun v => v.text?.map String.toList
  marker := settings.marker
  preserveBlankLines := settings.preserveBlankLines.isTrue

end Settings

end Offside
