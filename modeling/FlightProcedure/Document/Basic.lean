/-!
# Documents

A document is what a JSON or TOML text says, as far as settings need it: texts, lists and tables are
kept, and of any other value only that it is there.
-/

namespace FlightProcedure

inductive Document where
  | null
  /-- A value that is no text: a number, a truth value, or a string that no text spells. -/
  | scalar
  | text (value : String)
  | moment
  | list (items : List Document)
  /-- Names and values in the order of the text. A name may occur more than once. -/
  | table (entries : List (String × Document))

end FlightProcedure
