import FlightProcedure.Ebnf.Conversion
import FlightProcedure.Language.Basic
import FlightProcedure.Language.ProcedureEbnf
import FlightProcedure.Language.UnitsEbnf

/-!
# The conversions of the language's own grammars

The standard gives both grammars in EBNF. Their conversions mend the places where the published text
and its diagrams differ, put longer literals before the shorter ones they start with, and mark the rules
whose nodes keep all tokens or stand for their only child.
-/

namespace FlightProcedure

namespace ConversionRules

def procedure : ConversionRules where
  before := [
    ⟨"\\? Engineering Units \\?", "engineering_units"⟩,
    ⟨"\\? all characters except double quote \\?", "/[^\"]/"⟩,
    ⟨"'\"'", "\"\\\"\""⟩,
    ⟨"(\"is\", Case Tag, \":\", \\\x7bStep Statement, \";\"\\\x7d-)$", "$\x7b1\x7d,"⟩,
    ⟨"([0-9]) \\* Digit", "Digit ~ $\x7b1\x7d"⟩]
  terminals := [
    "absolute_time_constant", "year", "month", "day_of_month", "day", "hour", "minute", "second",
    "fraction_of_second", "string_constant", "characters", "hexadecimal_constant",
    "hexadecimal_symbol", "hexadecimal_digit", "unsigned_integer", "unsigned_real", "days",
    "hours", "minutes", "seconds", "sign", "addition_operator", "multiplication_operator",
    "relational_operator", "negation_boolean_operator", "standard_function_name",
    "standard_object_property_name", "confirmation_status", "enumerated_constant", "event_name",
    "variable_name", "step_name", "object_name", "object_type", "argument_name", "directive_name",
    "set_name", "activity_statement", "reporting_data_name", "nonstandard_object_property_name",
    "nonstandard_object_operation_name", "nonstandard_function_name", "identifier",
    "identifier_first_word", "identifier_subsequent_word", "letter", "digit"]
  after := [
    ⟨"\\(LETTER \\| DIGIT\\)([*+])", "(LETTER | DIGIT | \"_\")$\x7b1\x7d"⟩,
    ⟨"\"<\" \\| \">\" \\| \"<=\" \\| \">=\"", "\"<=\" | \">=\" | \"<\" | \">\""⟩,
    ⟨"^boolean_constant :", "!boolean_constant :"⟩,
    ⟨"^boolean_operator :", "!boolean_operator :"⟩,
    ⟨"^predefined_type :", "!predefined_type :"⟩,
    ⟨"^relative_time_constant :", "!relative_time_constant :"⟩,
    ⟨"^continuation_action :", "!continuation_action :"⟩,
    ⟨"^if_statement :", "!if_statement :"⟩,
    ⟨"^case_statement :", "!case_statement :"⟩,
    ⟨"^case_tag :", "!case_tag :"⟩,
    ⟨"^procedure_statement :", "?procedure_statement :"⟩,
    ⟨"^step_statement :", "?step_statement :"⟩,
    ⟨"^flow_control_statement :", "?flow_control_statement :"⟩,
    ⟨"^wait_statement :", "?wait_statement :"⟩,
    ⟨"^argument :", "?argument :"⟩]

def units : ConversionRules where
  before := [
    ⟨"\\? Engineering Units \\?", "Engineering Units"⟩]
  terminals := [
    "decimal_prefix", "decimal_multiple_prefix", "decimal_submultiple_prefix", "binary_prefix",
    "multiple_and_submultiple_simple_unit", "submultiple_only_simple_unit",
    "multiple_only_simple_unit", "unsigned_integer", "digit"]
  after := [
    ⟨"unit_simple_factor \\(unit_simple_factor", "(unit_simple_factor"⟩,
    ⟨"\"m\" \\| \"g\" \\| \"s\" \\| \"A\" \\| \"K\" \\| \"mol\"",
      "\"mol\" | \"sr\" | \"Sv\" | \"Wb\" | \"m\" | \"g\" | \"s\" | \"A\" | \"K\""⟩,
    ⟨"\"rad\" \\| \"sr\"", "\"rad\""⟩,
    ⟨"\"S\" \\| \"Wb\" \\| \"T\"", "\"S\" | \"T\""⟩,
    ⟨"\"Gy\" \\| \"Sv\"", "\"Gy\""⟩,
    ⟨"\"B\" \\| \"Bd\"", "\"Bd\" | \"B\""⟩,
    ⟨"^unit_reference :", "!?unit_reference :"⟩,
    ⟨"^unit_product :", "!?unit_product :"⟩,
    ⟨"^unit_factor :", "!?unit_factor :"⟩,
    ⟨"^unit_simple_factor :", "!?unit_simple_factor :"⟩,
    ⟨"^unit_exponent :", "!?unit_exponent :"⟩]

end ConversionRules

namespace GrammarTexts

def ofEbnf (procedure units : String) : Except ConversionError GrammarTexts := do
  let procedure ← (← Conversion.ofRules .procedure).convert procedure
  let units ← (← Conversion.ofRules .units).convert units
  return { procedure, units }

def standard : Except ConversionError GrammarTexts := ofEbnf Language.procedureEbnf Language.unitsEbnf

end GrammarTexts

end FlightProcedure
