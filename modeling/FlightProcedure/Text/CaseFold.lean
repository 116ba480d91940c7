import FlightProcedure.Text.CaseMap

/-!
# Simple case folding

Two characters are equal up to case if their simple Unicode case foldings agree. `CharSet.caseClosure`
adds to a set every character that is equal up to case to one of its members.
-/

namespace FlightProcedure

/-- The code points that differ from their folding, each with its folding. Letters fold to their lower case, and
other letters with the same upper case fold with them. Only Cherokee letters fold to their upper case, and the i
without a dot does not fold. -/
def caseFoldPairs : List (Nat × Nat) :=
  lowerRuns.flatMap (fun run => run.letters.map fun point =>
    if 0x13A0 ≤ point ∧ point ≤ 0x13F5 then (run.partner point, point) else (point, run.partner point)) ++
  upperSpecials.filterMap fun
    | (point, [upper]) => if point = 0x131 then none else some (point, CaseRun.partnerIn lowerRuns upper)
    | _ => none

/-- The set with every character that is equal up to case to one of its members. -/
def CharSet.caseClosure (set : CharSet) : CharSet :=
  let folded := caseFoldPairs.foldl
    (fun result pair => if rangesContain set.ranges pair.1 then result.insert pair.2 pair.2 else result)
    set
  caseFoldPairs.foldl
    (fun result pair =>
      if rangesContain folded.ranges pair.2 then result.insert pair.1 pair.1 else result)
    folded

end FlightProcedure
