/-!
# The published grammar of procedures

The grammar of the procedure language in the notation of the standard that defines it.
-/

namespace FlightProcedure.Language

def procedureEbnf : String := "Procedure Definition =
    \"procedure\",
    [Procedure Declaration Body],
    [Preconditions Body],
    Procedure Main Body,
    [Watchdog Body],
    [Confirmation Body],
    \"end procedure\";

Procedure Declaration Body =
    \"declare\",
    (Event Declaration | Variable Declaration | Enumerated Set Declaration),
    \x7b\",\", (Event Declaration | Variable Declaration | Enumerated Set Declaration)\x7d,
    \"end declare\";

Event Declaration = \"event\", Event Name, [\"described by\", Description];

Description = String Constant;

Variable Declaration =
    \"variable\", Variable Name, \"of type\",
    (Predefined Type | Property Data Type | Property Value Set | Enumerated Set Reference);

Predefined Type =
    \"Boolean\" | \"signed integer\" | \"unsigned integer\" | \"real\" | \"string\" | \"absolute time\" | \"relative time\";

Property Data Type = \"property type of\", Object Property, \"of\", Object Reference;

Property Value Set = \"value set of\", Predefined Value Set Reference;

Predefined Value Set Reference = Set Name, \"of\", Object Reference;

Enumerated Set Declaration =
    \"enumerated set\", Set Name,
    Enumerated Constant, \x7b\",\", Enumerated Constant\x7d,
    \"end enumerated set\";

Enumerated Set Reference = Set Name;

Preconditions Body =
    \"preconditions\",
    \x7bWait Statement, \";\"\x7d-,
    \"end preconditions\";

Procedure Main Body =
    \"main\",
    \x7bProcedure Statement, \";\"\x7d-,
    \"end main\";

Procedure Statement =
    Set Procedure Context Statement
    | Initiate In Parallel Statement
    | Initiate And Confirm Step Statement
    | Initiate And Confirm Activity Statement
    | Initiate Activity Statement
    | Inform User Statement
    | Log Statement
    | Assignment Statement
    | Flow Control Statement
    | Wait Statement
    | Save Context Statement
    | Object Operation Request Statement;

Watchdog Body =
    \"watchdog\",
    \x7bInitiate And Confirm Step Statement, \";\"\x7d-,
    \"end watchdog\";

Confirmation Body =
    \"confirmation\",
    \x7b(Wait Statement | If Statement), \";\"\x7d-,
    \"end confirmation\";

Set Procedure Context Statement =
    \"in the context of\", System Element Reference, \"do\",
    \x7bProcedure Statement, \";\"\x7d-,
    \"end context\";

Set Step Context Statement =
    \"in the context of\", System Element Reference, \"do\",
    \x7bStep Statement, \";\"\x7d-,
    \"end context\";

System Element Reference = Object Reference;

Initiate In Parallel Statement =
    \"in parallel\", [\"until all complete\" | \"until one completes\"], \"do\",
    \x7b(Initiate And Confirm Step Statement | Initiate And Confirm Activity Statement), \";\"\x7d-,
    \"end parallel\";

Initiate And Confirm Step Statement =
    \"initiate and confirm step\", Step Name, Step Definition, \"end step\",
    [\"in case\", Continuation Test, \"end case\"];

Step Definition =
    [Step Declaration Body],
    [Preconditions Body],
    Step Main Body,
    [Watchdog Body],
    [Confirmation Body];

Step Declaration Body =
    \"declare\",
    (Event Declaration | Variable Declaration),
    \x7b\",\", (Event Declaration | Variable Declaration)\x7d,
    \"end declare\";

Step Main Body =
    \"main\",
    \x7bStep Statement, \";\"\x7d-,
    \"end main\";

Step Statement =
    Set Step Context Statement
    | Initiate In Parallel Statement
    | Initiate And Confirm Step Statement
    | Initiate And Confirm Activity Statement
    | Initiate Activity Statement
    | Inform User Statement
    | Log Statement
    | Assignment Statement
    | Flow Control Statement
    | Wait Statement
    | Save Context Statement
    | Object Operation Request Statement;

Continuation Test = \x7bConfirmation Status, \":\", Continuation Action\x7d-;

Confirmation Status = \"confirmed\" | \"not confirmed\" | \"aborted\";

Continuation Action =
    \"resume\" | \"abort\" | \"restart\" | \"ask user\" | \"continue\" | \"terminate\" | Raise Event;

Raise Event = \"raise event\", Event Name;

Initiate And Confirm Activity Statement =
    \"initiate and confirm\", Activity Call, [\"refer by\", Activity Statement],
    [\"in case\", Continuation Test, \"end case\"];

Initiate Activity Statement = \"initiate\", Activity Call, [\"refer by\", Activity Statement];

Activity Call =
    Activity Reference,
    [\"with\", Arguments, \"end with\"],
    [\"using\", Directives, \"end using\"];

Activity Reference = Object Reference;

Arguments = Argument, \x7b\",\", Argument\x7d;

Argument = Simple Argument | Record Argument | Array Argument;

Simple Argument = Argument Name, \":=\", Expression;

Record Argument = Argument Name, \":=\", \"record\", Arguments, \"end record\";

Array Argument = Argument Name, \":=\", \"array\", Expression, \x7b\",\", Expression\x7d, \"end array\";

Directives = Directive, \x7b\",\", Directive\x7d;

Directive = Directive Name, \":=\", Expression;

Inform User Statement = \"inform user\", Expression, \x7b\",\", Expression\x7d;

Log Statement = \"log\", Expression, \x7b\",\", Expression\x7d;

Assignment Statement = Variable Reference, \":=\", Expression;

Flow Control Statement = If Statement | Case Statement | While Statement | For Statement | Repeat Statement;

If Statement =
    \"if\", Expression, \"then\",
    \x7bStep Statement, \";\"\x7d-,
    [\"else\", \x7bStep Statement, \";\"\x7d-],
    \"end if\";

Case Statement =
    \"in case\", Expression,
    \"is\", Case Tag, \":\", \x7bStep Statement, \";\"\x7d-
    \x7b\"or is\", Case Tag, \":\", \x7bStep Statement, \";\"\x7d-\x7d,
    [\"otherwise\", \":\", \x7bStep Statement, \";\"\x7d-],
    \"end case\";

Case Tag =
    Relational Operator, Comparative Expression
    | \"between\", Comparative Expression, \"and\", Comparative Expression
    | Comparative Expression;

While Statement =
    \"while\", Expression, \"do\",
    \x7bStep Statement, \";\"\x7d-,
    \"end while\", [Timeout];

For Statement =
    \"for\", Variable Reference, \":=\", Expression, \"to\", Expression, [\"by\", Expression], \"do\",
    \x7bStep Statement, \";\"\x7d-,
    \"end for\";

Repeat Statement =
    \"repeat\",
    \x7bStep Statement, \";\"\x7d-,
    \"until\", Expression, [Timeout];

Wait Statement = Wait For Event Statement | Wait Until Statement | Wait For Statement;

Wait For Event Statement = \"wait for event\", Event Reference, [Timeout];

Wait Until Statement = \"wait until\", Expression, [Timeout];

Wait For Statement = \"wait for\", Expression;

Timeout = \"timeout\", Expression, [\"raise event\", Event Name];

Save Context Statement = \"save context\", \"refer by\", Save Context;

Save Context = Identifier;

Object Operation Request Statement =
    Object Operation, \"of\", Object Reference,
    [\"with\", Arguments, \"end with\"];

Object Operation = Nonstandard Object Operation Name;

Expression = Relational Expression, \x7bBoolean Operator, Relational Expression\x7d;

Relational Expression = Comparative Expression, [Relational Operator, Comparative Expression];

Comparative Expression = Product, \x7bAddition Operator, Product\x7d;

Product = Term, \x7bMultiplication Operator, Term\x7d;

Term = Factor, [\"**\", Factor];

Factor = Simple Factor | Negation Boolean Operator, Simple Factor;

Simple Factor =
    \"(\", Expression, \")\"
    | Function
    | Object Property Request
    | Reporting Data Reference
    | Argument Reference
    | Variable Reference
    | Constant
    | Sign, Simple Factor;

Function = (Standard Function Name | Nonstandard Function Name), \"(\", Expression, \x7b\",\", Expression\x7d, \")\";

Object Property Request = Object Property, \"of\", Object Reference;

Object Property = Standard Object Property Name | Nonstandard Object Property Name;

Object Reference = Object Name, \x7b\"of\", Object Name\x7d;

Reporting Data Reference = \"reporting data\", Reporting Data Name, [\"of\", Object Reference];

Argument Reference = \"argument\", Argument Name;

Variable Reference = Variable Name;

Event Reference = Event Name;

Constant =
    Boolean Constant
    | Absolute Time Constant
    | Real Constant
    | Integer Constant
    | Relative Time Constant
    | String Constant
    | Enumerated Constant;

Boolean Constant = \"TRUE\" | \"FALSE\";

Integer Constant = Hexadecimal Constant | [Sign], Unsigned Integer, [? Engineering Units ?];

Real Constant = [Sign], Unsigned Real, [? Engineering Units ?];

Relative Time Constant =
    Days, \"d\", [Hours, \"h\"], [Minutes, \"min\"], [Seconds, \"s\"]
    | Hours, \"h\", [Minutes, \"min\"], [Seconds, \"s\"]
    | Minutes, \"min\", [Seconds, \"s\"]
    | Seconds, \"s\";

Days = Unsigned Integer;

Hours = Unsigned Integer;

Minutes = Unsigned Integer;

Seconds = Unsigned Integer, [\".\", Unsigned Integer];

Absolute Time Constant =
    Year, \"-\", Month, \"-\", Day Of Month, \"T\", Hour, \":\", Minute, \":\", Second, [\".\", Fraction Of Second], \"Z\"
    | Year, \"-\", Day, \"T\", Hour, \":\", Minute, \":\", Second, [\".\", Fraction Of Second], \"Z\";

Year = 4 * Digit;

Month = 2 * Digit;

Day Of Month = 2 * Digit;

Day = 3 * Digit;

Hour = 2 * Digit;

Minute = 2 * Digit;

Second = 2 * Digit;

Fraction Of Second = \x7bDigit\x7d-;

String Constant = '\"', \x7bCharacters\x7d, '\"';

Characters = ? all characters except double quote ?;

Hexadecimal Constant = Hexadecimal Symbol, \x7bHexadecimal Digit\x7d-;

Hexadecimal Symbol = \"0x\";

Hexadecimal Digit = Digit | \"A\" | \"B\" | \"C\" | \"D\" | \"E\" | \"F\" | \"a\" | \"b\" | \"c\" | \"d\" | \"e\" | \"f\";

Unsigned Integer = \x7bDigit\x7d-;

Unsigned Real = Unsigned Integer, \".\", Unsigned Integer, [(\"e\" | \"E\"), [Sign], Unsigned Integer];

Enumerated Constant = Identifier;

Sign = \"+\" | \"-\";

Addition Operator = \"+\" | \"-\";

Multiplication Operator = \"*\" | \"/\";

Relational Operator = \"=\" | \"!=\" | \"<\" | \">\" | \"<=\" | \">=\";

Boolean Operator = \"AND\" | \"OR\" | \"XOR\";

Negation Boolean Operator = \"NOT\";

Standard Function Name =
    \"abs\" | \"sqrt\" | \"sin\" | \"cos\" | \"tan\" | \"arcsin\" | \"arccos\" | \"arctan\" | \"exp\" | \"ln\" | \"round\" | \"trunc\";

Standard Object Property Name =
    \"value\" | \"raw value\" | \"monitoring status\" | \"validity status\" | \"execution status\";

Event Name = Identifier;

Variable Name = Identifier;

Step Name = Identifier;

Object Name = Identifier;

Object Type = Identifier;

Argument Name = Identifier;

Directive Name = Identifier;

Set Name = Identifier;

Activity Statement = Identifier;

Reporting Data Name = Identifier;

Nonstandard Object Property Name = Identifier;

Nonstandard Object Operation Name = Identifier;

Nonstandard Function Name = Identifier;

Identifier = Identifier First Word, \x7bIdentifier Subsequent Word\x7d;

Identifier First Word = Letter, \x7bLetter | Digit\x7d;

Identifier Subsequent Word = \" \", \x7bLetter | Digit\x7d-;

Letter =
    \"A\" | \"B\" | \"C\" | \"D\" | \"E\" | \"F\" | \"G\" | \"H\" | \"I\" | \"J\" | \"K\" | \"L\" | \"M\"
    | \"N\" | \"O\" | \"P\" | \"Q\" | \"R\" | \"S\" | \"T\" | \"U\" | \"V\" | \"W\" | \"X\" | \"Y\" | \"Z\"
    | \"a\" | \"b\" | \"c\" | \"d\" | \"e\" | \"f\" | \"g\" | \"h\" | \"i\" | \"j\" | \"k\" | \"l\" | \"m\"
    | \"n\" | \"o\" | \"p\" | \"q\" | \"r\" | \"s\" | \"t\" | \"u\" | \"v\" | \"w\" | \"x\" | \"y\" | \"z\";

Digit = \"0\" | \"1\" | \"2\" | \"3\" | \"4\" | \"5\" | \"6\" | \"7\" | \"8\" | \"9\";
"

end FlightProcedure.Language
