/-!
# Terminal styles

Text in bold or in colour, by escape sequences of the terminal, or without them.
-/

namespace Fixity

/-- A way to show text in a terminal. -/
inductive Style where
  | bold
  | red
  | blue
  | cyan
deriving DecidableEq, Repr

namespace Style

/-- The escape sequence with a number. -/
def escape (number : String) : String :=
  "\x1b[" ++ number ++ "m"

/-- The sequence that turns a style on. -/
def code : Style → String
  | bold => escape "1"
  | red => escape "31"
  | blue => escape "34"
  | cyan => escape "36"

/-- The sequence that turns all styles off. -/
def reset : String :=
  escape "0"

/-- A text in several styles, or as it is without colour. -/
def paint (color : Bool) (styles : List Style) (text : String) : String :=
  if color then String.join (styles.map code) ++ text ++ reset else text

/-- The two settings of an environment that turn colour off. -/
structure Setting where
  noColor : Option String := none
  color : Option String := none
deriving DecidableEq, Repr

/-- Colour is used unless it is refused: by any text in the one setting, or by a word that
    says no in the other. -/
def Setting.useColor (s : Setting) : Bool :=
  if s.noColor.getD "" ≠ "" then false
  else
    let word := String.ofList ((s.color.getD "").toList.map Char.toLower)
    !(["0", "false", "no", "never"].contains word)

end Style

end Fixity
