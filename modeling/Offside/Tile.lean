import Offside.Lexeme

/-!
# Tiles

The pieces of a text laid side by side from its start, and what is read off them: the tokens and
the diagnostics.

- `Tile`, `tiles`: the pieces with their places.
- `Source.lex`: the tokens and diagnostics of a source.
- `Source.tokens`: the tokens of a source without faults.
-/
namespace Offside

set_option autoImplicit false

structure Tile where
  start : Nat
  piece : Piece
  deriving DecidableEq, Repr

namespace Tile

def stop (tile : Tile) : Nat := tile.start + tile.piece.width

def span (tile : Tile) : Span := ⟨tile.start, tile.stop⟩

def token? (tile : Tile) : Option Token :=
  match tile.piece.lexeme with
  | .token kind => some ⟨kind, tile.piece.text, tile.span⟩
  | _ => none

/-- The diagnostic about a tile that is a fault. It points at the first character. -/
def diagnostic? (source : Source) (tile : Tile) : Option Diagnostic :=
  match tile.piece.lexeme with
  | .fault fault =>
    let region := source.resolve ⟨tile.start, tile.start + 1⟩
    some (Diagnostic.errorAt source.name region fault.code fault.message "" [])
  | _ => none

end Tile

/-- Pieces laid side by side from an offset on. -/
def place (offset : Nat) : List Piece → List Tile
  | [] => []
  | piece :: rest => ⟨offset, piece⟩ :: place (offset + piece.width) rest

def tiles (cs : List Char) : List Tile := place 0 (pieces cs)

def totalWidth : List Piece → Nat
  | [] => 0
  | piece :: rest => piece.width + totalWidth rest

/-- The token that ends a text: empty, and after every place that a piece claims. -/
def endToken (offset : Nat) : Token := ⟨.endOfText, [], ⟨offset, offset⟩⟩

/-- What is read off a source: its tokens, the end of the text last, and what is wrong with it. -/
structure Lexing where
  tokens : List Token
  diagnostics : List Diagnostic
  deriving DecidableEq, Repr

def Source.lex (source : Source) : Lexing where
  tokens := (tiles source.chars).filterMap Tile.token? ++
    [endToken (totalWidth (pieces source.chars))]
  diagnostics := (tiles source.chars).filterMap (Tile.diagnostic? source)

def Source.tokens (source : Source) : Except (List Diagnostic) (List Token) :=
  match source.lex.diagnostics with
  | [] => .ok source.lex.tokens
  | faults => .error faults

/-! ## Laying pieces -/

theorem place_append (offset : Nat) (l r : List Piece) :
    place offset (l ++ r) = place offset l ++ place (offset + totalWidth l) r := by
  induction l generalizing offset with
  | nil => simp [place, totalWidth]
  | cons piece rest ih => simp [place, ih, totalWidth, Nat.add_assoc]

theorem totalWidth_append (l r : List Piece) :
    totalWidth (l ++ r) = totalWidth l + totalWidth r := by
  induction l with
  | nil => simp [totalWidth]
  | cons piece rest ih => simp [totalWidth, ih, Nat.add_assoc]

end Offside
