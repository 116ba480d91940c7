/-!
# The grammar of engineering units

The grammar of engineering units in grammar notation.
-/

namespace FlightProcedure.Language

def unitsGrammar : String := "\n".intercalate [
  "engineering_units : unit_reference",
  "",
  r#"!?unit_reference : unit_product ("/" unit_product)*"#,
  "",
  r#"!?unit_product : unit_factor ("." unit_factor)*"#,
  "",
  r#"!?unit_factor : (unit_simple_factor ["^" unit_exponent])"#,
  r#"              | "(" unit_reference ")" ["^" unit_exponent]"#,
  "",
  "!?unit_simple_factor : [DECIMAL_PREFIX] MULTIPLE_AND_SUBMULTIPLE_SIMPLE_UNIT",
  "                     | [DECIMAL_SUBMULTIPLE_PREFIX] SUBMULTIPLE_ONLY_SIMPLE_UNIT",
  "                     | [BINARY_PREFIX | DECIMAL_MULTIPLE_PREFIX] MULTIPLE_ONLY_SIMPLE_UNIT",
  "",
  r#"!?unit_exponent : ["-"] UNSIGNED_INTEGER"#,
  "",
  "DECIMAL_PREFIX : DECIMAL_MULTIPLE_PREFIX | DECIMAL_SUBMULTIPLE_PREFIX",
  "",
  r#"DECIMAL_MULTIPLE_PREFIX : "da" | "h" | "k" | "M" | "G" | "T" | "P" | "E" | "Z" | "Y""#,
  "",
  r#"DECIMAL_SUBMULTIPLE_PREFIX : "d" | "c" | "m" | "u" | "n" | "p" | "f" | "a" | "z" | "y""#,
  "",
  r#"BINARY_PREFIX : "Ki" | "Mi" | "Gi" | "Ti" | "Pi" | "Ei""#,
  "",
  r#"MULTIPLE_AND_SUBMULTIPLE_SIMPLE_UNIT : "mol" | "sr" | "Sv" | "Wb" | "m" | "g" | "s" | "A" | "K" | "cd" | "rad" | "Hz" | "N" | "Pa" | "J" | "W" | "C" | "V" | "F" | "Ohm" | "S" | "T" | "H" | "lm" | "lx" | "Bq" | "Gy" | "kat" | "eV""#,
  "",
  r#"SUBMULTIPLE_ONLY_SIMPLE_UNIT : "deg" | "arcmin" | "arcsec""#,
  "",
  r#"MULTIPLE_ONLY_SIMPLE_UNIT : "min" | "h" | "d" | "au" | "Bd" | "B" | "bit""#,
  "",
  "UNSIGNED_INTEGER : (DIGIT)+",
  "",
  r#"DIGIT : "0" | "1" | "2" | "3" | "4" | "5" | "6" | "7" | "8" | "9""#,
  ""]

end FlightProcedure.Language
