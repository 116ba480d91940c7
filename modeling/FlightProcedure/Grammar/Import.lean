import FlightProcedure.Grammar.Definition
import FlightProcedure.Grammar.Error

/-!
# Importing definitions

A grammar can take over a rule of another grammar with everything that the rule depends on. The rule
keeps its name; what comes with it is moved into a namespace, so that no names clash.
-/

namespace FlightProcedure.Definitions

/-- A name to look up and the definition that refers to it. -/
structure Reference where
  name : String
  referencedBy : String

def referencesOf (definition : Definition) : List Reference :=
  (definition.body.symbols.map fun name => ⟨name, definition.name⟩).reverse

/-- The names reached from open references, besides those already seen. Each name is followed once.
The fuel bounds the number of references. -/
def reach (defs : Definitions) : Nat → List Reference → List String → Except GrammarError (List String)
  | 0, _, seen => .ok seen
  | _ + 1, [], seen => .ok seen
  | fuel + 1, reference :: rest, seen =>
    if reference.name ∈ seen then reach defs fuel rest seen
    else
      match defs.get? reference.name with
      | none => .error (.undefined reference.name reference.referencedBy)
      | some definition =>
        reach defs fuel (referencesOf definition ++ rest) (reference.name :: seen)

def referenceCount (defs : Definitions) : Nat :=
  defs.toList.foldl (fun count definition => count + definition.body.symbols.length) 0

def dependencies (defs : Definitions) (root : String) : Except GrammarError (List String) :=
  reach defs (defs.referenceCount + 2) [⟨root, root⟩] []

def importedName (space root name : String) : String :=
  if name = root then name else space ++ "." ++ name

def importedDefinition (space root : String) (definition : Definition) : Definition :=
  { definition with
    name := importedName space root definition.name
    body := definition.body.rename (importedName space root) }

/-- Take over a root of another grammar and what it depends on. -/
def importFrom (defs other : Definitions) (space root : String) : Except GrammarError Definitions := do
  let needed ← other.dependencies root
  let taken := other.toList.filter fun definition => decide (definition.name ∈ needed)
  .ok (defs.pushAll (taken.map (importedDefinition space root)))

end FlightProcedure.Definitions
