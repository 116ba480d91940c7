import FlightProcedure.Text.CharClass

/-!
# Cutting text into pieces

Text is cut at characters of a class, into words between white space, and into lines.
-/

namespace FlightProcedure

/-- The pieces between the characters that satisfy `cut`; neighbouring cuts leave an empty piece. -/
def splitWhere (cut : Char → Bool) : List Char → List (List Char)
  | [] => [[]]
  | c :: rest =>
    if cut c then [] :: splitWhere cut rest
    else match splitWhere cut rest with
      | [] => [[c]]
      | piece :: pieces => (c :: piece) :: pieces

/-- The words of a text: its longest pieces without white space. -/
def words (text : List Char) : List (List Char) := (splitWhere isBlank text).filter fun piece => !piece.isEmpty

def trimStart (text : List Char) : List Char := text.dropWhile isBlank

def trimEnd (text : List Char) : List Char := (text.reverse.dropWhile isBlank).reverse

def trim (text : List Char) : List Char := trimEnd (trimStart text)

def dropReturn (line : List Char) : List Char := if line.getLast? = some '\r' then line.dropLast else line

/-- The lines of a text. A line feed, or a carriage return and a line feed, ends a line; the last
line may lack its end, and a text that ends with one has no empty line after it. -/
def lines (text : List Char) : List (List Char) :=
  match (splitWhere (· == '\n') text).reverse with
  | [] => []
  | last :: before =>
    before.reverse.map dropReturn ++ (if last.isEmpty then [] else [last])

end FlightProcedure
