/-!
# Kinds of rules

The rules of the grammar of procedures, including those of the units that it imports.
-/

namespace FlightProcedure

inductive RuleKind where
  | procedureDefinition
  | procedureDeclarationBody
  | preconditionsBody
  | procedureMainBody
  | procedureStatement
  | watchdogBody
  | confirmationBody
  | eventDeclaration
  | description
  | variableDeclaration
  | predefinedType
  | propertyDataType
  | propertyValueSet
  | predefinedValueSetReference
  | enumeratedSetDeclaration
  | enumeratedSetReference
  | setProcedureContextStatement
  | setStepContextStatement
  | systemElementReference
  | initiateInParallelStatement
  | initiateAndConfirmStepStatement
  | stepDefinition
  | stepDeclarationBody
  | stepMainBody
  | stepStatement
  | continuationTest
  | continuationAction
  | raiseEvent
  | initiateAndConfirmActivityStatement
  | initiateActivityStatement
  | activityCall
  | activityReference
  | arguments
  | argument
  | simpleArgument
  | recordArgument
  | arrayArgument
  | directives
  | directive
  | informUserStatement
  | logStatement
  | assignmentStatement
  | saveContextStatement
  | saveContext
  | objectOperationRequestStatement
  | objectOperation
  | flowControlStatement
  | ifStatement
  | caseStatement
  | caseTag
  | whileStatement
  | forStatement
  | repeatStatement
  | waitStatement
  | waitForEventStatement
  | waitUntilStatement
  | waitForStatement
  | timeout
  | expression
  | relationalExpression
  | comparativeExpression
  | product
  | term
  | factor
  | simpleFactor
  | function
  | objectPropertyRequest
  | objectProperty
  | objectReference
  | reportingDataReference
  | argumentReference
  | variableReference
  | eventReference
  | booleanOperator
  | constant
  | booleanConstant
  | integerConstant
  | realConstant
  | relativeTimeConstant
  | engineeringUnits
  | unitReference
  | unitProduct
  | unitFactor
  | unitSimpleFactor
  | unitExponent
deriving DecidableEq

namespace RuleKind

def name : RuleKind → String
  | .procedureDefinition => "procedure_definition"
  | .procedureDeclarationBody => "procedure_declaration_body"
  | .preconditionsBody => "preconditions_body"
  | .procedureMainBody => "procedure_main_body"
  | .procedureStatement => "procedure_statement"
  | .watchdogBody => "watchdog_body"
  | .confirmationBody => "confirmation_body"
  | .eventDeclaration => "event_declaration"
  | .description => "description"
  | .variableDeclaration => "variable_declaration"
  | .predefinedType => "predefined_type"
  | .propertyDataType => "property_data_type"
  | .propertyValueSet => "property_value_set"
  | .predefinedValueSetReference => "predefined_value_set_reference"
  | .enumeratedSetDeclaration => "enumerated_set_declaration"
  | .enumeratedSetReference => "enumerated_set_reference"
  | .setProcedureContextStatement => "set_procedure_context_statement"
  | .setStepContextStatement => "set_step_context_statement"
  | .systemElementReference => "system_element_reference"
  | .initiateInParallelStatement => "initiate_in_parallel_statement"
  | .initiateAndConfirmStepStatement => "initiate_and_confirm_step_statement"
  | .stepDefinition => "step_definition"
  | .stepDeclarationBody => "step_declaration_body"
  | .stepMainBody => "step_main_body"
  | .stepStatement => "step_statement"
  | .continuationTest => "continuation_test"
  | .continuationAction => "continuation_action"
  | .raiseEvent => "raise_event"
  | .initiateAndConfirmActivityStatement => "initiate_and_confirm_activity_statement"
  | .initiateActivityStatement => "initiate_activity_statement"
  | .activityCall => "activity_call"
  | .activityReference => "activity_reference"
  | .arguments => "arguments"
  | .argument => "argument"
  | .simpleArgument => "simple_argument"
  | .recordArgument => "record_argument"
  | .arrayArgument => "array_argument"
  | .directives => "directives"
  | .directive => "directive"
  | .informUserStatement => "inform_user_statement"
  | .logStatement => "log_statement"
  | .assignmentStatement => "assignment_statement"
  | .saveContextStatement => "save_context_statement"
  | .saveContext => "save_context"
  | .objectOperationRequestStatement => "object_operation_request_statement"
  | .objectOperation => "object_operation"
  | .flowControlStatement => "flow_control_statement"
  | .ifStatement => "if_statement"
  | .caseStatement => "case_statement"
  | .caseTag => "case_tag"
  | .whileStatement => "while_statement"
  | .forStatement => "for_statement"
  | .repeatStatement => "repeat_statement"
  | .waitStatement => "wait_statement"
  | .waitForEventStatement => "wait_for_event_statement"
  | .waitUntilStatement => "wait_until_statement"
  | .waitForStatement => "wait_for_statement"
  | .timeout => "timeout"
  | .expression => "expression"
  | .relationalExpression => "relational_expression"
  | .comparativeExpression => "comparative_expression"
  | .product => "product"
  | .term => "term"
  | .factor => "factor"
  | .simpleFactor => "simple_factor"
  | .function => "function"
  | .objectPropertyRequest => "object_property_request"
  | .objectProperty => "object_property"
  | .objectReference => "object_reference"
  | .reportingDataReference => "reporting_data_reference"
  | .argumentReference => "argument_reference"
  | .variableReference => "variable_reference"
  | .eventReference => "event_reference"
  | .booleanOperator => "boolean_operator"
  | .constant => "constant"
  | .booleanConstant => "boolean_constant"
  | .integerConstant => "integer_constant"
  | .realConstant => "real_constant"
  | .relativeTimeConstant => "relative_time_constant"
  | .engineeringUnits => "engineering_units"
  | .unitReference => "engineering_units.unit_reference"
  | .unitProduct => "engineering_units.unit_product"
  | .unitFactor => "engineering_units.unit_factor"
  | .unitSimpleFactor => "engineering_units.unit_simple_factor"
  | .unitExponent => "engineering_units.unit_exponent"

def all : List RuleKind :=
  [.procedureDefinition, .procedureDeclarationBody, .preconditionsBody, .procedureMainBody,
   .procedureStatement, .watchdogBody, .confirmationBody, .eventDeclaration, .description,
   .variableDeclaration, .predefinedType, .propertyDataType, .propertyValueSet,
   .predefinedValueSetReference, .enumeratedSetDeclaration, .enumeratedSetReference,
   .setProcedureContextStatement, .setStepContextStatement, .systemElementReference,
   .initiateInParallelStatement, .initiateAndConfirmStepStatement, .stepDefinition,
   .stepDeclarationBody, .stepMainBody, .stepStatement, .continuationTest, .continuationAction,
   .raiseEvent, .initiateAndConfirmActivityStatement, .initiateActivityStatement, .activityCall,
   .activityReference, .arguments, .argument, .simpleArgument, .recordArgument, .arrayArgument,
   .directives, .directive, .informUserStatement, .logStatement, .assignmentStatement,
   .saveContextStatement, .saveContext, .objectOperationRequestStatement, .objectOperation,
   .flowControlStatement, .ifStatement, .caseStatement, .caseTag, .whileStatement, .forStatement,
   .repeatStatement, .waitStatement, .waitForEventStatement, .waitUntilStatement,
   .waitForStatement, .timeout, .expression, .relationalExpression, .comparativeExpression,
   .product, .term, .factor, .simpleFactor, .function, .objectPropertyRequest, .objectProperty,
   .objectReference, .reportingDataReference, .argumentReference, .variableReference,
   .eventReference, .booleanOperator, .constant, .booleanConstant, .integerConstant,
   .realConstant, .relativeTimeConstant, .engineeringUnits, .unitReference, .unitProduct,
   .unitFactor, .unitSimpleFactor, .unitExponent]

def ofName? (name : String) : Option RuleKind := all.find? (·.name == name)

end RuleKind

end FlightProcedure
