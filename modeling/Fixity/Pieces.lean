import Fixity.Grammar.Precedence

/-!
# Pieces of a line

A line is cut at its blanks once every symbol of the grammar stands alone between spaces. Each
piece is a symbol or the text of an identifier; it is then looked up in the line, behind the
piece before it, to learn its span.
-/

namespace Fixity

/-! ## §1 Failures of the library itself -/

/-- A failure that no input should cause. -/
structure InternalError where
  message : String
  code : String := "E9999"
deriving DecidableEq, Repr

/-- The report on one line. -/
def InternalError.text (e : InternalError) : String :=
  s!"[{e.code}] {e.message}"

/-- A piece that does not occur in the line behind an offset. -/
structure LostPiece where
  piece : String
  offset : Nat
deriving DecidableEq, Repr

/-- The report of a lost piece. -/
def LostPiece.error (l : LostPiece) (line : String) : InternalError :=
  { message := s!"token <{l.piece}> not found in input after offset {l.offset}: " ++
      Text.quote line }

namespace Grammar

/-! ## §2 Cutting -/

/-- The symbols of a grammar, the longest first, those of equal length by code points. -/
def isolationOrder (g : Grammar) : List String :=
  (g.tokens.map (·.symbol)).mergeSort fun s t =>
    t.length < s.length || (s.length = t.length && s ≤ t)

/-- A text in which every symbol has spaces around it, one symbol put apart after the other. -/
def isolateAll (g : Grammar) (cs : List Char) : List Char :=
  g.isolationOrder.foldl (fun cs symbol => Text.isolate symbol.toList cs) cs

/-- The pieces of a line. -/
def split (g : Grammar) (line : String) : List String :=
  (Text.words (g.isolateAll line.toList)).map String.ofList

/-- The token that a piece stands for: the one of its symbol, or an identifier. -/
def classify (g : Grammar) (piece : String) : Token :=
  (g.lookup? piece).getD (.ofKind .identifier piece)

/-! ## §3 Locating -/

/-- The tokens of pieces, numbered from `index`, each at its first occurrence in what is left
    of the line behind the piece before it; `offset` characters of the line are gone. -/
def locate (g : Grammar) (index offset : Nat) (rest : List Char) :
    List String → Except LostPiece (List Token)
  | [] => .ok []
  | piece :: pieces =>
    match Text.find? piece.toList rest with
    | none => .error ⟨piece, offset⟩
    -- the search for the next piece starts behind this one
    | some before =>
      let start := offset + before
      let stop := start + piece.length
      let token := (g.classify piece).placed index (some ⟨start, stop, 1⟩)
      (locate g (index + 1) stop (rest.drop (before + piece.length)) pieces).map (token :: ·)

/-- The tokens of a line. -/
def tokenize (g : Grammar) (line : String) : Except LostPiece (List Token) :=
  g.locate 0 0 line.toList (g.split line)

end Grammar

end Fixity
