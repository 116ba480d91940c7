import FlightProcedure.Procedure.Action

/-!
# From syntax trees to procedures

A tree is read from the leaves up. The rule of a node is checked before its children are read, and
the node itself takes effect after them, so that declarations come in the order in which the nodes
that make them end.
-/

namespace FlightProcedure

def DeclarationTable.declare (kind : RuleKind) (table : DeclarationTable) (new : NewDeclaration) :
    Except CompileError DeclarationTable :=
  match table.insert? new.declaration with
  | some table => .ok table
  | none => .error (.malformed kind.name new.offset (.declaredTwice new.declaration.key))

/-- Turn a statement into a watchdog. -/
def DeclarationTable.guard (site : Site) (table : DeclarationTable) (key : String) :
    Except CompileError DeclarationTable :=
  match table.markWatchdog? key with
  | some table => .ok table
  | none => .error (site.malformed (.notStep key))

def Effect.apply (site : Site) (effect : Effect) (table : DeclarationTable) : Except CompileError DeclarationTable := do
  let table ← effect.declares.foldlM (DeclarationTable.declare site.kind) table
  effect.watchdogs.foldlM (DeclarationTable.guard site) table

mutual

def valueOf (procedureName : String) : Tree → DeclarationTable → Except CompileError (Value × DeclarationTable)
  | .leaf token, table => .ok (.token token, table)
  | .node rule start _ children, table =>
    match RuleKind.ofName? rule with
    | none => .error (.unknownRule rule start)
    | some kind => do
      let (values, table) ← valuesOf procedureName children table
      let effect ← action procedureName ⟨kind, start⟩ values
      .ok (effect.value, ← effect.apply ⟨kind, start⟩ table)

def valuesOf (procedureName : String) :
    List Tree → DeclarationTable → Except CompileError (List Value × DeclarationTable)
  | [], table => .ok ([], table)
  | tree :: trees, table => do
    let (value, table) ← valueOf procedureName tree table
    let (values, table) ← valuesOf procedureName trees table
    .ok (value :: values, table)

end

def Procedure.ofTree (name : String) (tree : Tree) : Except CompileError Procedure := do
  match ← valueOf name tree {} with
  | (.procedure main, table) => .ok (table.finish main)
  | _ => .error (.malformed (tree.rule?.getD "") tree.start .notProcedure)

end FlightProcedure
