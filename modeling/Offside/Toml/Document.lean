import Offside.Text.Lines
import Offside.Toml.Scalar

/-!
# Configuration documents

A document is read one statement at a time into a table. What later statements may still change
is remembered beside the table.

- `Toml.value`: a value with all that it holds.
- `Nesting`: which tables are closed to later statements.
- `Toml.parse`: the table of a document, or the first fault in it.
-/
namespace Offside.Toml

set_option autoImplicit false

/-! ## Tables inside tables -/

/-- Changes the table at the end of a path, making the tables on the way that are missing. Where
arrays may be passed, the way leads on in their last item. -/
def Table.modifyAt (throughArrays : Bool) (change : Table → Except Problem Table) :
    List String → Table → Except Problem Table
  | [], table => change table
  | part :: rest, table =>
    match table.get? part with
    | none => do
      let inner ← Table.modifyAt throughArrays change rest []
      return table.put part (.table inner)
    | some (.table entries) => do
      let inner ← Table.modifyAt throughArrays change rest entries
      return table.put part (.table inner)
    | some (.array items) =>
      match throughArrays, items.getLast? with
      | true, some (.table entries) => do
        let inner ← Table.modifyAt throughArrays change rest entries
        return table.put part (.array (items.dropLast ++ [.table inner]))
      | _, _ => .error .overwritten
    | some _ => .error .overwritten

def Table.add (taken : Problem) (part : String) (value : Value) (table : Table) :
    Except Problem Table :=
  match table.get? part with
  | some _ => .error taken
  | none => .ok (table.put part value)

/-- Adds an empty table to the array under a key, which is made if it is missing. -/
def Table.appendTable (part : String) (table : Table) : Except Problem Table :=
  match table.get? part with
  | none => .ok (table.put part (.array [.table []]))
  | some (.array items) => .ok (table.put part (.array (items ++ [.table []])))
  | some _ => .error .overwritten

def Key.path (key : Key) : List String := key.dropLast

def Key.last (key : Key) : String := key.getLastD ""

def coveredBy (keys : List Key) (key : Key) : Bool :=
  keys.any fun k => k ≠ [] && k.isPrefixOf key

def Value.isCollection (value : Value) : Bool := !value.isElement

/-! ## Values -/

mutual

def valueWithin : Nat → List Char → Except Stop (Value × List Char)
  | 0, cs => stop .value cs
  | fuel + 1, cs =>
    match cs with
    | '"' :: rest => do
      let (text, after) ←
        if tripleQuote.isPrefixOf cs then multilineString false (rest.drop 2)
        else basicString false rest
      return (.string (String.ofList text), after)
    | '\x27' :: rest => do
      let (text, after) ←
        if ['\x27', '\x27'].isPrefixOf rest then multilineString true (rest.drop 2)
        else literalString rest
      return (.string (String.ofList text), after)
    | 't' :: 'r' :: 'u' :: 'e' :: rest => .ok (.boolean true, rest)
    | 'f' :: 'a' :: 'l' :: 's' :: 'e' :: rest => .ok (.boolean false, rest)
    | '[' :: rest => do
      let rest ← skipFiller rest
      match rest with
      | ']' :: after => return (.array [], after)
      | _ => do
        let (items, after) ← itemsWithin fuel rest
        return (.array items, after)
    | '\x7b' :: rest =>
      match skipBlanks rest with
      | '\x7d' :: after => .ok (.table [], after)
      | rest => do
        let (entries, after) ← entriesWithin fuel [] [] rest
        return (.table entries, after)
    | _ =>
      match moment? cs with
      | some found => found
      | none =>
        match number? cs with
        | some found => found
        | none =>
          match specialFloat? cs with
          | some found => .ok found
          | none => stop .value cs

/-- The items of an array from one of them to the closing bracket. -/
def itemsWithin : Nat → List Char → Except Stop (List Value × List Char)
  | 0, cs => stop .openArray cs
  | fuel + 1, cs => do
    let (item, after) ← valueWithin fuel cs
    match ← skipFiller after with
    | ']' :: after => return ([item], after)
    | ',' :: after => do
      match ← skipFiller after with
      | ']' :: after => return ([item], after)
      | after => do
        let (items, after) ← itemsWithin fuel after
        return (item :: items, after)
    | after => stop .openArray after

/-- The entries of an inline table from one of them to the closing brace, after those that are
read. The keys of collections among them are closed. -/
def entriesWithin : Nat → Table → List Key → List Char → Except Stop (Table × List Char)
  | 0, _, _, cs => stop .openInlineTable cs
  | fuel + 1, table, closed, cs => do
    let (name, value, after) ← pairWithin fuel cs
    if coveredBy closed name then stop (.immutable name) after
    else
      match table.modifyAt false
          (Table.add (.duplicateInlineKey name.last) name.last value) name.path with
      | .error problem => stop problem after
      | .ok table =>
        match skipBlanks after with
        | '\x7d' :: after => return (table, after)
        | ',' :: after =>
          entriesWithin fuel table (if value.isCollection then name :: closed else closed)
            (skipBlanks after)
        | after => stop .openInlineTable after

def pairWithin : Nat → List Char → Except Stop (Key × Value × List Char)
  | 0, cs => stop .keyStart cs
  | fuel + 1, cs => do
    let (name, after) ← key cs
    match after with
    | '=' :: rest => do
      let (value, after) ← valueWithin fuel (skipBlanks rest)
      return (name, value, after)
    | after => stop .missingEquals after

end

/-- Enough steps to read any value of a text: each character is looked at by few readers. -/
def enoughSteps (cs : List Char) : Nat := 3 * cs.length + 3

def value (cs : List Char) : Except Stop (Value × List Char) := valueWithin (enoughSteps cs) cs

/-! ## Statements -/

/-- What later statements may not change: collections that were written as one value, tables that
were declared, and tables that dotted keys have made since the last header. -/
structure Nesting where
  closed : List Key
  declared : List Key
  pending : List Key
  deriving DecidableEq, Repr

/-- A table with what may still change in it, and the header that the next statements are under. -/
structure Document where
  table : Table
  nesting : Nesting
  header : Key

namespace Document

def empty : Document := ⟨[], ⟨[], [], []⟩, []⟩

/-- A header starts: the tables that dotted keys have made count as declared. -/
def settle (document : Document) : Document :=
  { document with nesting :=
    { document.nesting with
      declared := document.nesting.pending ++ document.nesting.declared, pending := [] } }

def declareTable (document : Document) (name : Key) : Except Problem Document :=
  let nesting := document.nesting
  if name ∈ nesting.declared ∨ coveredBy nesting.closed name then .error (.declaredTwice name)
  else do
    let table ← document.table.modifyAt true .ok name
    return ⟨table, { nesting with declared := name :: nesting.declared }, name⟩

/-- Adds a table to an array of tables. What was said about the one before it is forgotten. -/
def declareItem (document : Document) (name : Key) : Except Problem Document :=
  let nesting := document.nesting
  if coveredBy nesting.closed name then .error (.immutable name)
  else do
    let table ← document.table.modifyAt true (Table.appendTable name.last) name.path
    let outside := fun k : Key => !name.isPrefixOf k
    return ⟨table, { nesting with
      closed := nesting.closed.filter outside
      declared := name :: nesting.declared.filter outside }, name⟩

def set (document : Document) (name : Key) (value : Value) : Except Problem Document :=
  let nesting := document.nesting
  let path := document.header ++ name.path
  let passed := (List.range name.path.length).map fun n => document.header ++ name.take (n + 1)
  match passed.find? (· ∈ nesting.declared) with
  | some k => .error (.redefined k)
  | none =>
    if coveredBy nesting.closed path then .error (.immutable path)
    else do
      let table ← document.table.modifyAt true (Table.add .overwritten name.last value) path
      let closed :=
        if value.isCollection then (document.header ++ name) :: nesting.closed else nesting.closed
      return { document with
        table := table
        nesting := { nesting with closed := closed, pending := passed ++ nesting.pending } }

end Document

def placed {α : Type} (rest : List Char) (result : Except Problem α) : Except Stop α :=
  match result with
  | .ok a => .ok a
  | .error problem => stop problem rest

/-- A header: a key between brackets, single for a table and double for an item of an array. -/
def header (document : Document) (cs : List Char) : Except Stop (Document × List Char) := do
  let document := document.settle
  match cs with
  | '[' :: '[' :: rest => do
    let (name, after) ← key (skipBlanks rest)
    let document ← placed after (document.declareItem name)
    match after with
    | ']' :: ']' :: rest => return (document, rest)
    | after => stop .openArrayHeader after
  | cs => do
    let (name, after) ← key (skipBlanks (cs.drop 1))
    let document ← placed after (document.declareTable name)
    match after with
    | ']' :: rest => return (document, rest)
    | after => stop .openTableHeader after

/-- A statement up to the blanks behind it. A comment is an empty statement. -/
def statement (document : Document) (cs : List Char) : Except Stop (Document × List Char) :=
  match cs with
  | [] => .ok (document, [])
  | c :: _ =>
    if isBare c ∨ c = '"' ∨ c = '\x27' then do
      let (name, value, after) ← pairWithin (enoughSteps cs) cs
      let document ← placed after (document.set name value)
      return (document, skipBlanks after)
    else if c = '[' then do
      let (document, after) ← header document cs
      return (document, skipBlanks after)
    else if c = '#' then .ok (document, cs)
    else stop .statement cs

def statementsWithin : Nat → Document → List Char → Except Stop Document
  | 0, document, _ => .ok document
  | fuel + 1, document, cs =>
    match skipBlanks cs with
    | [] => .ok document
    | '\n' :: rest => statementsWithin fuel document rest
    | cs => do
      let (document, after) ← statement document cs
      match ← skipComment after with
      | [] => return document
      | '\n' :: rest => statementsWithin fuel document rest
      | rest => stop .afterStatement rest

/-- The table of a document. A carriage return before a line feed is no part of it. -/
def parse (text : List Char) : Except Fault Table :=
  let document := Text.withoutReturns text
  match statementsWithin (document.length + 1) Document.empty document with
  | .ok read => .ok read.table
  | .error stop => .error (stop.fault document)

end Offside.Toml
