import CrossEdition.Text.Basic

/-!
# Chat styles

How a piece of chat text looks: one of sixteen colors, and five flags.
-/

namespace CrossEdition

/-- A chat color. -/
inductive Color where
  | black
  | darkBlue
  | darkGreen
  | darkAqua
  | darkRed
  | darkPurple
  | gold
  | gray
  | darkGray
  | blue
  | green
  | aqua
  | red
  | lightPurple
  | yellow
  | white
deriving DecidableEq, Repr

namespace Color

/-- The name of a color in Java's chat components. -/
def name : Color → Text
  | black => "black"
  | darkBlue => "dark_blue"
  | darkGreen => "dark_green"
  | darkAqua => "dark_aqua"
  | darkRed => "dark_red"
  | darkPurple => "dark_purple"
  | gold => "gold"
  | gray => "gray"
  | darkGray => "dark_gray"
  | blue => "blue"
  | green => "green"
  | aqua => "aqua"
  | red => "red"
  | lightPurple => "light_purple"
  | yellow => "yellow"
  | white => "white"

/-- The color that a code stands for. Bedrock's material colors stand for the
    nearest of Java's. -/
def ofCode? : Char → Option Color
  | '0' => some black
  | '1' | 't' => some darkBlue
  | '2' => some darkGreen
  | '3' => some darkAqua
  | '4' => some darkRed
  | '5' => some darkPurple
  | '6' | 'g' | 'p' | 'v' => some gold
  | '7' | 'i' => some gray
  | '8' | 'j' => some darkGray
  | '9' => some blue
  | 'a' | 'q' => some green
  | 'b' | 's' => some aqua
  | 'c' => some red
  | 'd' | 'u' => some lightPurple
  | 'e' => some yellow
  | 'f' | 'h' => some white
  | _ => none

end Color

/-- How a piece of text looks. -/
structure Style where
  color : Option Color
  bold : Bool
  italic : Bool
  underlined : Bool
  strikethrough : Bool
  obfuscated : Bool
deriving DecidableEq, Repr

/-- The style of text without formatting. -/
def Style.plain : Style :=
  ⟨none, false, false, false, false, false⟩

end CrossEdition
