/-!
# The published grammar of engineering units

The grammar of engineering units in the notation of the standard that defines it.
-/

namespace FlightProcedure.Language

def unitsEbnf : String := "? Engineering Units ? = Unit Reference;

Unit Reference = Unit Product, \x7b\"/\", Unit Product\x7d;

Unit Product = Unit Factor, \x7b\".\", Unit Factor\x7d;

Unit Factor =
    Unit Simple Factor, (Unit Simple Factor, [\"^\", Unit Exponent])
    | \"(\", Unit Reference, \")\", [\"^\", Unit Exponent];

Unit Simple Factor =
    [Decimal Prefix], Multiple And Submultiple Simple Unit
    | [Decimal Submultiple Prefix], Submultiple Only Simple Unit
    | [Binary Prefix | Decimal Multiple Prefix], Multiple Only Simple Unit;

Unit Exponent = [\"-\"], Unsigned Integer;

Decimal Prefix = Decimal Multiple Prefix | Decimal Submultiple Prefix;

Decimal Multiple Prefix = \"da\" | \"h\" | \"k\" | \"M\" | \"G\" | \"T\" | \"P\" | \"E\" | \"Z\" | \"Y\";

Decimal Submultiple Prefix = \"d\" | \"c\" | \"m\" | \"u\" | \"n\" | \"p\" | \"f\" | \"a\" | \"z\" | \"y\";

Binary Prefix = \"Ki\" | \"Mi\" | \"Gi\" | \"Ti\" | \"Pi\" | \"Ei\";

Multiple And Submultiple Simple Unit =
    \"m\" | \"g\" | \"s\" | \"A\" | \"K\" | \"mol\" | \"cd\" | \"rad\" | \"sr\" | \"Hz\" | \"N\" | \"Pa\" | \"J\" | \"W\" | \"C\" | \"V\" | \"F\" | \"Ohm\" | \"S\" | \"Wb\" | \"T\" | \"H\" | \"lm\" | \"lx\" | \"Bq\" | \"Gy\" | \"Sv\" | \"kat\" | \"eV\";

Submultiple Only Simple Unit = \"deg\" | \"arcmin\" | \"arcsec\";

Multiple Only Simple Unit = \"min\" | \"h\" | \"d\" | \"au\" | \"B\" | \"Bd\" | \"bit\";

Unsigned Integer = \x7bDigit\x7d-;

Digit = \"0\" | \"1\" | \"2\" | \"3\" | \"4\" | \"5\" | \"6\" | \"7\" | \"8\" | \"9\";
"

end FlightProcedure.Language
