import FlightProcedure.Text.CharSet

/-!
# Upper and lower case of a text

The full Unicode case mappings: a character may become several, and a capital sigma at the end of a
word becomes the final form. Letters that differ only by case mostly come in runs: the partner of each letter of
the run lies at one fixed distance, and the letters of the run are one or two code points apart.
-/

namespace FlightProcedure

/-- The letters `first`, `first + step`, … up to `last`, each with its partner `shift` above it. -/
structure CaseRun where
  first : Nat
  last : Nat
  step : Nat
  shift : Int

namespace CaseRun

def covers (run : CaseRun) (point : Nat) : Bool :=
  decide (run.first ≤ point) && decide (point ≤ run.last) &&
    (point - run.first) % run.step == 0

def partner (run : CaseRun) (point : Nat) : Nat := (point + run.shift).toNat

def origin (run : CaseRun) (point : Nat) : Nat := (point - run.shift).toNat

def letters (run : CaseRun) : List Nat :=
  (List.range ((run.last - run.first) / run.step + 1)).map fun i => run.first + i * run.step

/-- The runs from `floor` on that are described by the number of code points left out before a run, the
distance from its first to its last letter, its step and its shift. -/
def runsFrom (floor : Nat) : List (Nat × Nat × Nat × Int) → List CaseRun
  | [] => []
  | (skip, more, step, shift) :: rest =>
    ⟨floor + skip, floor + skip + more, step, shift⟩ :: runsFrom (floor + skip + more + 1) rest

/-- The partner of a code point in the first run that covers it, or the code point itself. -/
def partnerIn (runs : List CaseRun) (point : Nat) : Nat :=
  match runs.find? (·.covers point) with
  | some run => run.partner point
  | none => point

/-- The letter whose partner the code point is in the first run that has one, or the code point itself. -/
def originIn (runs : List CaseRun) (point : Nat) : Nat :=
  match runs.find? fun run => run.covers (run.origin point) with
  | some run => run.origin point
  | none => point

end CaseRun

def CharSet.cased : CharSet :=
  .ofSteps [65,25,5,25,46,0,9,0,3,0,4,22,0,30,0,194,0,3,3,207,0,35,6,1,29,4,95,0,41,3,1,1,1,3,0,0,5,0,0,2,0,0,0,19,
    0,82,0,138,7,165,0,37,8,40,2838,37,0,0,4,0,1,42,0,3,671,85,1,5,2177,8,6,42,1,2,63,191,63,277,1,5,1,37,1,5,1,7,0,0,
    0,0,0,0,0,30,1,52,0,6,0,0,2,2,0,6,2,3,1,5,3,12,4,2,0,6,115,0,12,0,15,12,100,0,3,0,1,9,0,0,2,4,5,0,0,0,0,0,0,3,0,5,
    3,0,1,3,4,4,3,0,16,31,2,1,816,51,1813,228,5,3,2,1,11,37,0,0,4,0,30993,45,17,29,131,101,2,3,0,58,4,1,0,0,0,4,23,4,
    0,2,820,42,0,13,5,79,20287,6,11,4,1032,25,5,25,1188,79,95,35,3,35,115,10,0,14,0,6,0,1,0,10,0,14,0,6,0,1,450,0,1,2,
    0,41,0,8,1220,50,12,50,2988,63,21855,63,25983,84,0,70,0,1,1,0,1,1,1,3,0,11,0,0,0,6,0,64,0,3,1,7,0,6,0,27,0,3,0,4,
    0,0,2,6,0,339,1,24,0,24,0,30,0,24,0,30,0,24,0,30,0,24,0,30,0,24,0,7,1843,9,0,19,5,5,260,61,2193,67,2027,25,5,25,
    5,25]

def CharSet.caseIgnorable : CharSet :=
  .ofSteps [39,0,5,0,10,0,34,0,0,0,70,0,3,0,0,0,3,0,1,1,502,191,3,1,3,0,8,1,0,0,250,6,206,0,4,0,48,44,0,0,0,1,0,1,0,0,
    43,0,10,5,9,10,0,0,34,0,9,20,15,0,100,7,0,9,0,3,32,0,0,0,29,26,90,10,57,10,3,0,1,0,23,23,42,2,43,0,6,1,5,7,40,57,
    54,0,0,0,3,7,3,0,2,6,9,1,12,0,14,0,57,0,3,3,7,0,19,1,25,0,1,1,56,0,3,1,3,1,1,2,2,0,29,1,2,0,10,1,56,0,3,4,0,1,3,0,
    19,1,21,5,0,0,57,0,1,0,0,3,7,0,6,1,10,1,29,0,60,0,11,0,49,0,2,0,54,0,0,2,4,2,0,3,6,1,10,1,28,0,57,0,1,0,5,0,4,1,
    19,1,27,1,56,1,3,3,7,0,19,1,28,0,71,0,6,2,0,0,89,0,1,6,10,8,97,0,1,8,8,0,0,6,72,1,26,0,0,0,0,0,54,13,0,4,0,1,4,10,
    0,35,8,0,101,3,0,5,0,1,1,1,24,1,3,2,15,3,12,0,1,1,5,0,14,0,93,0,607,2,945,2,28,1,29,1,29,1,63,1,0,6,7,0,1,10,2,0,
    4,0,44,4,50,0,64,1,33,0,117,2,3,1,8,0,5,2,218,1,1,0,57,0,0,6,0,0,0,0,1,7,5,9,1,0,38,0,7,30,48,3,47,0,0,4,0,0,4,0,
    39,8,11,1,31,3,1,1,0,2,55,0,0,1,2,0,0,2,57,7,1,1,63,5,81,2,0,12,0,6,3,0,5,0,2,1,49,62,12,0,33,100,444,0,0,2,10,2,
    12,2,12,2,12,1,11,4,7,1,9,0,1,0,1,4,48,4,0,9,0,0,12,0,15,12,50,32,2954,1,112,2,124,0,14,0,95,31,46,0,468,0,35,3,
    2,4,4,0,92,5,92,2,28437,0,1249,5,269,0,97,3,0,9,0,0,27,3,79,1,13,33,77,0,22,2,102,2,2,1,7,0,2,0,3,0,24,1,4,0,
    150,1,25,17,12,0,37,7,24,10,45,2,47,0,1,3,1,1,16,0,20,1,65,5,1,1,1,1,11,0,7,0,34,0,10,0,50,0,0,2,1,1,4,1,0,0,26,0,
    13,1,4,1,0,0,99,4,8,2,120,0,1,0,3,0,20271,0,146,16,572,15,2,0,11,15,33,0,1,0,168,0,6,0,5,0,10,0,34,0,0,0,46,0,
    44,1,66,0,20,2,512,0,225,0,148,4,1028,5,0,41,0,8,581,2,0,1,4,3,39,2,3,0,164,1,572,3,386,1,79,2,69,10,48,3,122,0,
    53,14,40,0,1,1,9,2,48,3,1,1,1,0,3,0,9,0,49,2,35,4,0,7,61,0,11,1,51,8,9,3,1,0,94,2,1,0,0,1,5,0,1,0,156,0,2,7,20,1,
    56,1,2,0,36,6,2,4,194,7,1,2,0,0,22,0,83,5,0,0,3,1,0,1,237,3,5,1,0,1,26,1,84,7,1,0,0,1,105,0,0,0,1,5,0,0,100,2,1,3,
    0,4,258,8,0,1,255,1,0,0,3,0,143,3,1,1,3,0,31,9,39,5,1,3,7,0,8,5,1,2,45,12,0,1,405,6,0,5,0,0,81,21,1,6,0,1,0,1,
    121,5,2,0,0,1,0,6,0,0,71,1,2,0,0,0,346,1,10,1,51,4,4,0,0,0,5356,16,5,14,13977,4,58,6,8,3,1034,0,62,16,63,1,0,1,
    16394,3,0,6,0,1,3229,1,0,3,4699,45,1,22,543,2,8,15,1,6,29,3,147,2,1978,54,3,49,7,0,13,0,21,4,0,14,1359,6,0,16,1,6,
    0,1,0,4,4,61,32,0,159,13,367,0,60,3,506,4,991,6,108,7,2734,4,789504,0,29,95,127,239]

def lowerRuns : List CaseRun :=
  CaseRun.runsFrom 0 [(65,25,1,32),(101,22,1,32),(1,6,1,32),(33,46,2,1),(3,4,2,1),(2,14,2,1),(2,44,2,1),(1,0,1,-121),
    (0,4,2,1),(3,0,1,210),(0,2,2,1),(1,0,1,206),(0,0,1,1),(1,1,1,205),(0,0,1,1),(2,0,1,79),(0,0,1,202),(0,0,1,203),
    (0,0,1,1),(1,0,1,205),(0,0,1,207),(1,0,1,211),(0,0,1,209),(0,0,1,1),(3,0,1,211),(0,0,1,213),(1,0,1,214),(0,4,2,1),
    (1,0,1,218),(0,0,1,1),(1,0,1,218),(2,0,1,1),(1,0,1,218),(0,0,1,1),(1,1,1,217),(0,2,2,1),(1,0,1,219),(0,0,1,1),
    (3,0,1,1),(7,0,1,2),(0,0,1,1),(1,0,1,2),(0,0,1,1),(1,0,1,2),(0,16,2,1),(2,16,2,1),(2,0,1,2),(0,2,2,1),(1,0,1,-97),
    (0,0,1,-56),(0,38,2,1),(1,0,1,-130),(1,16,2,1),(7,0,1,10795),(0,0,1,1),(1,0,1,-163),(0,0,1,10792),(2,0,1,1),
    (1,0,1,-195),(0,0,1,69),(0,0,1,71),(0,8,2,1),(289,2,2,1),(3,0,1,1),(8,0,1,116),(6,0,1,38),(1,2,1,37),(1,0,1,64),
    (1,1,1,63),(1,16,1,32),(1,8,1,32),(35,0,1,8),(8,22,2,1),(5,0,1,-60),(2,0,1,1),(1,0,1,-7),(0,0,1,1),(2,2,1,-130),
    (0,15,1,80),(0,31,1,32),(48,32,2,1),(9,52,2,1),(1,0,1,15),(0,12,2,1),(2,94,2,1),(2,37,1,48),(2889,37,1,7264),
    (1,0,1,7264),(5,0,1,7264),(722,79,1,38864),(0,5,1,8),(2202,42,1,-3008),(2,2,1,-3008),(320,148,2,1),(9,0,1,-7615),
    (1,94,2,1),(9,7,1,-8),(8,5,1,-8),(10,7,1,-8),(8,7,1,-8),(8,5,1,-8),(11,6,2,-8),(8,7,1,-8),(24,7,1,-8),(8,7,1,-8),
    (8,7,1,-8),(8,1,1,-8),(0,1,1,-74),(0,0,1,-9),(11,3,1,-86),(0,0,1,-9),(11,1,1,-8),(0,1,1,-100),(12,1,1,-8),
    (0,1,1,-112),(0,0,1,-7),(11,1,1,-128),(0,1,1,-126),(0,0,1,-9),(297,0,1,-7517),(3,0,1,-8383),(0,0,1,-8262),
    (6,0,1,28),(45,15,1,16),(19,0,1,1),(818,25,1,26),(1840,47,1,48),(48,0,1,1),(1,0,1,-10743),(0,0,1,-3814),
    (0,0,1,-10727),(2,4,2,1),(1,0,1,-10780),(0,0,1,-10749),(0,0,1,-10783),(0,0,1,-10782),(1,0,1,1),(2,0,1,1),
    (8,1,1,-10815),(0,98,2,1),(8,2,2,1),(4,0,1,1),(31053,44,2,1),(19,26,2,1),(135,12,2,1),(3,60,2,1),(10,2,2,1),
    (1,0,1,-35332),(0,8,2,1),(4,0,1,1),(1,0,1,-42280),(2,2,2,1),(3,18,2,1),(1,0,1,-42308),(0,0,1,-42319),
    (0,0,1,-42315),(0,0,1,-42305),(0,0,1,-42308),(1,0,1,-42258),(0,0,1,-42282),(0,0,1,-42261),(0,0,1,928),(0,14,2,1),
    (1,0,1,-48),(0,0,1,-42307),(0,0,1,-35384),(0,2,2,1),(6,0,1,1),(5,2,2,1),(28,0,1,1),(22315,25,1,32),(1221,39,1,40),
    (136,35,1,40),(156,10,1,39),(1,14,1,39),(1,6,1,39),(1,1,1,39),(1770,50,1,64),(3053,31,1,32),(21888,31,1,32),
    (31392,33,1,34)]

/-- The characters with an upper case that is not the letter whose lower case they are. Greek letters with an iota
below them come in two runs of eight with the same upper cases. -/
def upperSpecials : List (Nat × List Nat) :=
  [(8064, 7944), (8080, 7976), (8096, 8040)].flatMap (fun (first, upper) =>
    (List.range 16).map fun i => (first + i, [upper + i % 8, 921])) ++
    [(181,[924]), (223,[83,83]), (305,[73]), (329,[700,78]), (383,[83]), (453,[452]), (456,[455]), (459,[458]),
     (496,[74,780]), (498,[497]), (837,[921]), (912,[921,776,769]), (944,[933,776,769]), (962,[931]), (976,[914]),
     (977,[920]), (981,[934]), (982,[928]), (1008,[922]), (1009,[929]), (1013,[917]), (1415,[1333,1362]), (7296,[1042]),
     (7297,[1044]), (7298,[1054]), (7299,[1057]), (7300,[1058]), (7301,[1058]), (7302,[1066]), (7303,[1122]),
     (7304,[42570]), (7830,[72,817]), (7831,[84,776]), (7832,[87,778]), (7833,[89,778]), (7834,[65,702]), (7835,[7776]),
     (8016,[933,787]), (8018,[933,787,768]), (8020,[933,787,769]), (8022,[933,787,834]), (8114,[8122,921]),
     (8115,[913,921]), (8116,[902,921]), (8118,[913,834]), (8119,[913,834,921]), (8124,[913,921]), (8126,[921]),
     (8130,[8138,921]), (8131,[919,921]), (8132,[905,921]), (8134,[919,834]), (8135,[919,834,921]), (8140,[919,921]),
     (8146,[921,776,768]), (8147,[921,776,769]), (8150,[921,834]), (8151,[921,776,834]), (8162,[933,776,768]),
     (8163,[933,776,769]), (8164,[929,787]), (8166,[933,834]), (8167,[933,776,834]), (8178,[8186,921]),
     (8179,[937,921]), (8180,[911,921]), (8182,[937,834]), (8183,[937,834,921]), (8188,[937,921]), (64256,[70,70]),
     (64257,[70,73]), (64258,[70,76]), (64259,[70,70,73]), (64260,[70,70,76]), (64261,[83,84]), (64262,[83,84]),
     (64275,[1348,1350]), (64276,[1348,1333]), (64277,[1348,1339]), (64278,[1358,1350]), (64279,[1348,1341])]

def upperChar (c : Char) : List Char :=
  match upperSpecials.lookup c.toNat with
  | some points => points.map Char.ofNat
  | none => [Char.ofNat (CaseRun.originIn lowerRuns c.toNat)]

def upperCase (text : String) : String :=
  String.ofList (text.toList.flatMap fun c => if c.toNat < 0x80 then [c.toUpper] else upperChar c)

/-- Whether the nearest character that is not skipped has case. -/
def nextIsCased (chars : List Char) : Bool :=
  match chars.dropWhile CharSet.caseIgnorable.mem with
  | [] => false
  | c :: _ => CharSet.cased.mem c

/-- The lower case of one character, given the characters before it, nearest first, and after it. -/
def lowerChar (before : List Char) (c : Char) (after : List Char) : List Char :=
  if c.toNat < 0x80 then [c.toLower]
  else if c = 'Σ' then [if nextIsCased before && !nextIsCased after then 'ς' else 'σ']
  else if c = 'İ' then ['i', Char.ofNat 0x307]
  else [Char.ofNat (CaseRun.partnerIn lowerRuns c.toNat)]

/-- The lower case of the characters that follow `before`, which is given nearest first. -/
def lowerFrom (before : List Char) : List Char → List Char
  | [] => []
  | c :: after => lowerChar before c after ++ lowerFrom (c :: before) after

def lowerCase (text : String) : String := String.ofList (lowerFrom [] text.toList)

end FlightProcedure
