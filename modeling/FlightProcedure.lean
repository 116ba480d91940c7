import FlightProcedure.Main
import FlightProcedure.Proofs.Command.Scheduling
import FlightProcedure.Proofs.Ebnf.BytePieces
import FlightProcedure.Proofs.Ebnf.ConvertedGrammar
import FlightProcedure.Proofs.Ebnf.Reconversion
import FlightProcedure.Proofs.Grammar.PhraseReading
import FlightProcedure.Proofs.Grammar.WellFormed
import FlightProcedure.Proofs.Language.EmbeddedScripts
import FlightProcedure.Proofs.Language.ImportClosure
import FlightProcedure.Proofs.Language.ImportedUnits
import FlightProcedure.Proofs.Parse.Ambiguity
import FlightProcedure.Proofs.Parse.EmptyMatches
import FlightProcedure.Proofs.Parse.GuardedTokens
import FlightProcedure.Proofs.Procedure.AbsoluteTimes
import FlightProcedure.Proofs.Procedure.CaseChoice
import FlightProcedure.Proofs.Procedure.DroppedChildren
import FlightProcedure.Proofs.Procedure.TableCalls
import FlightProcedure.Proofs.Script.Assignments
import FlightProcedure.Proofs.Script.ReadBack
import FlightProcedure.Proofs.Script.StringConstants
import FlightProcedure.Proofs.Text.Positions
