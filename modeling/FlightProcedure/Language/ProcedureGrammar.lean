/-!
# The grammar of procedures

The grammar of the procedure language in grammar notation. It refers to the rule
`engineering_units`, which comes from the grammar of units.
-/

namespace FlightProcedure.Language

def procedureGrammar : String := "\n".intercalate [
  r#"procedure_definition : "procedure" [procedure_declaration_body] [preconditions_body] procedure_main_body [watchdog_body] [confirmation_body] "end procedure""#,
  "",
  r#"procedure_declaration_body : "declare" (event_declaration | variable_declaration | enumerated_set_declaration) ("," (event_declaration | variable_declaration | enumerated_set_declaration))* "end declare""#,
  "",
  r#"event_declaration : "event" EVENT_NAME ["described by" description]"#,
  "",
  "description : STRING_CONSTANT",
  "",
  r#"variable_declaration : "variable" VARIABLE_NAME "of type" (predefined_type | property_data_type | property_value_set | enumerated_set_reference)"#,
  "",
  r#"!predefined_type : "Boolean" | "signed integer" | "unsigned integer" | "real" | "string" | "absolute time" | "relative time""#,
  "",
  r#"property_data_type : "property type of" object_property "of" object_reference"#,
  "",
  r#"property_value_set : "value set of" predefined_value_set_reference"#,
  "",
  r#"predefined_value_set_reference : SET_NAME "of" object_reference"#,
  "",
  r#"enumerated_set_declaration : "enumerated set" SET_NAME ENUMERATED_CONSTANT ("," ENUMERATED_CONSTANT)* "end enumerated set""#,
  "",
  "enumerated_set_reference : SET_NAME",
  "",
  r#"preconditions_body : "preconditions" (wait_statement ";")+ "end preconditions""#,
  "",
  r#"procedure_main_body : "main" (procedure_statement ";")+ "end main""#,
  "",
  "?procedure_statement : set_procedure_context_statement",
  "                     | initiate_in_parallel_statement",
  "                     | initiate_and_confirm_step_statement",
  "                     | initiate_and_confirm_activity_statement",
  "                     | initiate_activity_statement",
  "                     | inform_user_statement",
  "                     | log_statement",
  "                     | assignment_statement",
  "                     | flow_control_statement",
  "                     | wait_statement",
  "                     | save_context_statement",
  "                     | object_operation_request_statement",
  "",
  r#"watchdog_body : "watchdog" (initiate_and_confirm_step_statement ";")+ "end watchdog""#,
  "",
  r#"confirmation_body : "confirmation" ((wait_statement | if_statement) ";")+ "end confirmation""#,
  "",
  r#"set_procedure_context_statement : "in the context of" system_element_reference "do" (procedure_statement ";")+ "end context""#,
  "",
  r#"set_step_context_statement : "in the context of" system_element_reference "do" (step_statement ";")+ "end context""#,
  "",
  "system_element_reference : object_reference",
  "",
  r#"initiate_in_parallel_statement : "in parallel" ["until all complete" | "until one completes"] "do" ((initiate_and_confirm_step_statement | initiate_and_confirm_activity_statement) ";")+ "end parallel""#,
  "",
  r#"initiate_and_confirm_step_statement : "initiate and confirm step" STEP_NAME step_definition "end step" ["in case" continuation_test "end case"]"#,
  "",
  "step_definition : [step_declaration_body] [preconditions_body] step_main_body [watchdog_body] [confirmation_body]",
  "",
  r#"step_declaration_body : "declare" (event_declaration | variable_declaration) ("," (event_declaration | variable_declaration))* "end declare""#,
  "",
  r#"step_main_body : "main" (step_statement ";")+ "end main""#,
  "",
  "?step_statement : set_step_context_statement",
  "                | initiate_in_parallel_statement",
  "                | initiate_and_confirm_step_statement",
  "                | initiate_and_confirm_activity_statement",
  "                | initiate_activity_statement",
  "                | inform_user_statement",
  "                | log_statement",
  "                | assignment_statement",
  "                | flow_control_statement",
  "                | wait_statement",
  "                | save_context_statement",
  "                | object_operation_request_statement",
  "",
  r#"continuation_test : (CONFIRMATION_STATUS ":" continuation_action)+"#,
  "",
  r#"CONFIRMATION_STATUS : "confirmed" | "not confirmed" | "aborted""#,
  "",
  r#"!continuation_action : "resume" | "abort" | "restart" | "ask user" | "continue" | "terminate" | raise_event"#,
  "",
  r#"raise_event : "raise event" EVENT_NAME"#,
  "",
  r#"initiate_and_confirm_activity_statement : "initiate and confirm" activity_call ["refer by" ACTIVITY_STATEMENT] ["in case" continuation_test "end case"]"#,
  "",
  r#"initiate_activity_statement : "initiate" activity_call ["refer by" ACTIVITY_STATEMENT]"#,
  "",
  r#"activity_call : activity_reference ["with" arguments "end with"] ["using" directives "end using"]"#,
  "",
  "activity_reference : object_reference",
  "",
  r#"arguments : argument ("," argument)*"#,
  "",
  "?argument : simple_argument | record_argument | array_argument",
  "",
  r#"simple_argument : ARGUMENT_NAME ":=" expression"#,
  "",
  r#"record_argument : ARGUMENT_NAME ":=" "record" arguments "end record""#,
  "",
  r#"array_argument : ARGUMENT_NAME ":=" "array" expression ("," expression)* "end array""#,
  "",
  r#"directives : directive ("," directive)*"#,
  "",
  r#"directive : DIRECTIVE_NAME ":=" expression"#,
  "",
  r#"inform_user_statement : "inform user" expression ("," expression)*"#,
  "",
  r#"log_statement : "log" expression ("," expression)*"#,
  "",
  r#"assignment_statement : variable_reference ":=" expression"#,
  "",
  "?flow_control_statement : if_statement | case_statement | while_statement | for_statement | repeat_statement",
  "",
  r#"!if_statement : "if" expression "then" (step_statement ";")+ ["else" (step_statement ";")+] "end if""#,
  "",
  r#"!case_statement : "in case" expression "is" case_tag ":" (step_statement ";")+ ("or is" case_tag ":" (step_statement ";")+)* ["otherwise" ":" (step_statement ";")+] "end case""#,
  "",
  "!case_tag : RELATIONAL_OPERATOR comparative_expression",
  r#"          | "between" comparative_expression "and" comparative_expression"#,
  "          | comparative_expression",
  "",
  r#"while_statement : "while" expression "do" (step_statement ";")+ "end while" [timeout]"#,
  "",
  r#"for_statement : "for" variable_reference ":=" expression "to" expression ["by" expression] "do" (step_statement ";")+ "end for""#,
  "",
  r#"repeat_statement : "repeat" (step_statement ";")+ "until" expression [timeout]"#,
  "",
  "?wait_statement : wait_for_event_statement | wait_until_statement | wait_for_statement",
  "",
  r#"wait_for_event_statement : "wait for event" event_reference [timeout]"#,
  "",
  r#"wait_until_statement : "wait until" expression [timeout]"#,
  "",
  r#"wait_for_statement : "wait for" expression"#,
  "",
  r#"timeout : "timeout" expression ["raise event" EVENT_NAME]"#,
  "",
  r#"save_context_statement : "save context" "refer by" save_context"#,
  "",
  "save_context : IDENTIFIER",
  "",
  r#"object_operation_request_statement : object_operation "of" object_reference ["with" arguments "end with"]"#,
  "",
  "object_operation : NONSTANDARD_OBJECT_OPERATION_NAME",
  "",
  "expression : relational_expression (boolean_operator relational_expression)*",
  "",
  "relational_expression : comparative_expression [RELATIONAL_OPERATOR comparative_expression]",
  "",
  "comparative_expression : product (ADDITION_OPERATOR product)*",
  "",
  "product : term (MULTIPLICATION_OPERATOR term)*",
  "",
  r#"term : factor ["**" factor]"#,
  "",
  "factor : simple_factor | NEGATION_BOOLEAN_OPERATOR simple_factor",
  "",
  r#"simple_factor : "(" expression ")""#,
  "              | function",
  "              | object_property_request",
  "              | reporting_data_reference",
  "              | argument_reference",
  "              | variable_reference",
  "              | constant",
  "              | SIGN simple_factor",
  "",
  r#"function : (STANDARD_FUNCTION_NAME | NONSTANDARD_FUNCTION_NAME) "(" expression ("," expression)* ")""#,
  "",
  r#"object_property_request : object_property "of" object_reference"#,
  "",
  "object_property : STANDARD_OBJECT_PROPERTY_NAME | NONSTANDARD_OBJECT_PROPERTY_NAME",
  "",
  r#"object_reference : OBJECT_NAME ("of" OBJECT_NAME)*"#,
  "",
  r#"reporting_data_reference : "reporting data" REPORTING_DATA_NAME ["of" object_reference]"#,
  "",
  r#"argument_reference : "argument" ARGUMENT_NAME"#,
  "",
  "variable_reference : VARIABLE_NAME",
  "",
  "event_reference : EVENT_NAME",
  "",
  "constant : boolean_constant",
  "         | ABSOLUTE_TIME_CONSTANT",
  "         | real_constant",
  "         | integer_constant",
  "         | relative_time_constant",
  "         | STRING_CONSTANT",
  "         | ENUMERATED_CONSTANT",
  "",
  r#"!boolean_constant : "TRUE" | "FALSE""#,
  "",
  "integer_constant : HEXADECIMAL_CONSTANT | [SIGN] UNSIGNED_INTEGER [engineering_units]",
  "",
  "real_constant : [SIGN] UNSIGNED_REAL [engineering_units]",
  "",
  r#"!relative_time_constant : DAYS "d" [HOURS "h"] [MINUTES "min"] [SECONDS "s"]"#,
  r#"                        | HOURS "h" [MINUTES "min"] [SECONDS "s"]"#,
  r#"                        | MINUTES "min" [SECONDS "s"]"#,
  r#"                        | SECONDS "s""#,
  "",
  "DAYS : UNSIGNED_INTEGER",
  "",
  "HOURS : UNSIGNED_INTEGER",
  "",
  "MINUTES : UNSIGNED_INTEGER",
  "",
  r#"SECONDS : UNSIGNED_INTEGER ["." UNSIGNED_INTEGER]"#,
  "",
  r#"ABSOLUTE_TIME_CONSTANT : YEAR "-" MONTH "-" DAY_OF_MONTH "T" HOUR ":" MINUTE ":" SECOND ["." FRACTION_OF_SECOND] "Z""#,
  r#"                       | YEAR "-" DAY "T" HOUR ":" MINUTE ":" SECOND ["." FRACTION_OF_SECOND] "Z""#,
  "",
  "YEAR : DIGIT ~ 4",
  "",
  "MONTH : DIGIT ~ 2",
  "",
  "DAY_OF_MONTH : DIGIT ~ 2",
  "",
  "DAY : DIGIT ~ 3",
  "",
  "HOUR : DIGIT ~ 2",
  "",
  "MINUTE : DIGIT ~ 2",
  "",
  "SECOND : DIGIT ~ 2",
  "",
  "FRACTION_OF_SECOND : (DIGIT)+",
  "",
  r#"STRING_CONSTANT : "\"" (CHARACTERS)* "\"""#,
  "",
  r#"CHARACTERS : /[^"]/"#,
  "",
  "HEXADECIMAL_CONSTANT : HEXADECIMAL_SYMBOL (HEXADECIMAL_DIGIT)+",
  "",
  r#"HEXADECIMAL_SYMBOL : "0x""#,
  "",
  r#"HEXADECIMAL_DIGIT : DIGIT | "A" | "B" | "C" | "D" | "E" | "F" | "a" | "b" | "c" | "d" | "e" | "f""#,
  "",
  "UNSIGNED_INTEGER : (DIGIT)+",
  "",
  r#"UNSIGNED_REAL : UNSIGNED_INTEGER "." UNSIGNED_INTEGER [("e" | "E") [SIGN] UNSIGNED_INTEGER]"#,
  "",
  "ENUMERATED_CONSTANT : IDENTIFIER",
  "",
  r#"SIGN : "+" | "-""#,
  "",
  r#"ADDITION_OPERATOR : "+" | "-""#,
  "",
  r#"MULTIPLICATION_OPERATOR : "*" | "/""#,
  "",
  r#"RELATIONAL_OPERATOR : "=" | "!=" | "<=" | ">=" | "<" | ">""#,
  "",
  r#"!boolean_operator : "AND" | "OR" | "XOR""#,
  "",
  r#"NEGATION_BOOLEAN_OPERATOR : "NOT""#,
  "",
  r#"STANDARD_FUNCTION_NAME : "abs" | "sqrt" | "sin" | "cos" | "tan" | "arcsin" | "arccos" | "arctan" | "exp" | "ln" | "round" | "trunc""#,
  "",
  r#"STANDARD_OBJECT_PROPERTY_NAME : "value" | "raw value" | "monitoring status" | "validity status" | "execution status""#,
  "",
  "EVENT_NAME : IDENTIFIER",
  "",
  "VARIABLE_NAME : IDENTIFIER",
  "",
  "STEP_NAME : IDENTIFIER",
  "",
  "OBJECT_NAME : IDENTIFIER",
  "",
  "OBJECT_TYPE : IDENTIFIER",
  "",
  "ARGUMENT_NAME : IDENTIFIER",
  "",
  "DIRECTIVE_NAME : IDENTIFIER",
  "",
  "SET_NAME : IDENTIFIER",
  "",
  "ACTIVITY_STATEMENT : IDENTIFIER",
  "",
  "REPORTING_DATA_NAME : IDENTIFIER",
  "",
  "NONSTANDARD_OBJECT_PROPERTY_NAME : IDENTIFIER",
  "",
  "NONSTANDARD_OBJECT_OPERATION_NAME : IDENTIFIER",
  "",
  "NONSTANDARD_FUNCTION_NAME : IDENTIFIER",
  "",
  "IDENTIFIER : IDENTIFIER_FIRST_WORD (IDENTIFIER_SUBSEQUENT_WORD)*",
  "",
  r#"IDENTIFIER_FIRST_WORD : LETTER (LETTER | DIGIT | "_")*"#,
  "",
  r#"IDENTIFIER_SUBSEQUENT_WORD : " " (LETTER | DIGIT | "_")+"#,
  "",
  r#"LETTER : "A" | "B" | "C" | "D" | "E" | "F" | "G" | "H" | "I" | "J" | "K" | "L" | "M""#,
  r#"       | "N" | "O" | "P" | "Q" | "R" | "S" | "T" | "U" | "V" | "W" | "X" | "Y" | "Z""#,
  r#"       | "a" | "b" | "c" | "d" | "e" | "f" | "g" | "h" | "i" | "j" | "k" | "l" | "m""#,
  r#"       | "n" | "o" | "p" | "q" | "r" | "s" | "t" | "u" | "v" | "w" | "x" | "y" | "z""#,
  "",
  r#"DIGIT : "0" | "1" | "2" | "3" | "4" | "5" | "6" | "7" | "8" | "9""#,
  ""]

end FlightProcedure.Language
