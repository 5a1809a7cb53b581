/-!
# Colours

Text for a terminal is painted by a bold colour code in front of it and a
reset code behind it. Empty text is never painted.
-/

namespace TapeReach

/-- The colours in use. -/
inductive Colour where
  /-- For failures and cycles. -/
  | red
  /-- For good news. -/
  | green
  /-- For labels and warnings. -/
  | yellow
  /-- For code. -/
  | blue
  deriving DecidableEq

/-- The code that starts bold text in a colour. -/
def Colour.code : Colour → String
  | red => "\x1b[31;1m"
  | green => "\x1b[32;1m"
  | yellow => "\x1b[33;1m"
  | blue => "\x1b[34;1m"

/-- Whether to paint at all. -/
structure Palette where
  /-- Colours are written. -/
  enabled : Bool
  deriving DecidableEq

/-- Paint a text. -/
def Palette.paint (palette : Palette) (colour : Colour) (text : String) : String :=
  if palette.enabled && !text.isEmpty then colour.code ++ text ++ "\x1b[0m" else text

end TapeReach
