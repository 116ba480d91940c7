import FlightProcedure.Text.CharSet

/-!
# Classes of characters

Blank characters have the Unicode property White_Space, and alphabetic ones the property Alphabetic. Decimal
digits are the general category Nd, and numeric characters are Nd, Nl and No. The characters that make up words
are alphabetic characters, marks, decimal digits, connector punctuation and the two joiners.
-/

namespace FlightProcedure

def CharSet.blank : CharSet :=
  ⟨[(0x9, 0xd), (0x20, 0x20), (0x85, 0x85), (0xa0, 0xa0), (0x1680, 0x1680), (0x2000, 0x200a),
    (0x2028, 0x2029), (0x202f, 0x202f), (0x205f, 0x205f), (0x3000, 0x3000)],
   by decide⟩

def isBlank (c : Char) : Bool := CharSet.blank.mem c

def CharSet.decimalDigit : CharSet :=
  .ofSteps [48,9,1573,9,133,9,197,9,411,9,117,9,117,9,117,9,117,9,117,9,117,9,117,9,117,9,117,9,95,9,117,9,69,9,277,9,
    69,9,1861,9,37,9,299,9,127,9,165,9,5,9,181,9,85,9,133,9,5,9,35269,9,677,9,37,9,197,9,21,9,85,9,405,9,21269,9,
    1413,9,2181,9,811,9,127,9,59,9,143,9,277,9,341,9,117,9,373,9,101,9,101,9,421,9,101,9,757,9,245,9,69,9,421,9,
    19205,9,85,9,133,9,27763,49,2367,9,421,9,501,9,1109,9,4757,9]

def CharSet.numeric : CharSet :=
  .ofSteps [48,9,119,1,4,0,1,2,1440,9,133,9,197,9,411,9,117,9,3,5,107,9,117,9,117,9,1,5,109,12,114,9,7,6,102,9,103,6,
    6,18,108,9,95,9,117,9,69,19,267,9,69,9,718,19,880,2,238,9,5,9,21,9,299,9,127,10,164,9,5,9,181,9,85,9,133,9,5,9,
    1045,0,2,5,5,9,197,50,1,4,725,59,77,21,629,29,1384,0,776,0,24,8,13,2,342,3,137,9,29,7,0,14,31,9,38,14,29535,9,
    187,9,319,5,153,9,37,9,197,9,21,9,85,9,405,9,21269,9,492,44,11,56,16,1,340,26,35,3,28,0,7,0,133,4,201,9,941,7,
    24,6,38,8,74,4,21,5,159,1,1,15,1,45,63,8,51,1,29,2,74,4,103,7,23,7,40,6,329,5,47,9,293,30,157,9,41,3,111,6,133,29,
    127,9,59,9,143,9,6,19,250,9,341,9,117,9,373,9,101,9,101,11,419,18,92,9,757,28,226,9,69,9,421,9,101,20,1066,110,
    17904,9,85,9,133,9,0,6,797,22,25640,19,11,19,107,24,1108,49,2367,9,421,9,501,9,972,8,127,9,790,58,0,2,0,3,75,44,
    0,14,961,12,2786,9]

def isNumeric (c : Char) : Bool := CharSet.numeric.mem c

def CharSet.alphabetic : CharSet :=
  .ofSteps [65,25,5,25,46,0,9,0,3,0,4,22,0,30,0,457,3,11,13,4,6,0,0,0,85,0,41,4,0,1,1,3,0,0,5,0,0,2,0,0,0,19,0,82,
    0,138,7,165,0,37,1,0,5,40,38,13,0,0,0,1,0,1,0,0,7,26,3,3,28,10,4,55,0,6,13,101,0,7,3,7,3,2,9,2,1,0,15,47,12,100,
    23,32,8,1,3,0,4,23,1,18,18,24,6,10,4,23,0,5,16,41,9,11,2,6,5,75,0,15,0,2,3,14,12,18,0,7,1,1,1,21,0,6,0,0,2,3,2,7,
    1,1,1,1,0,0,7,0,3,1,0,4,11,1,9,0,3,2,0,5,3,1,1,21,0,6,0,1,0,1,0,1,3,4,3,1,1,1,3,0,6,3,0,0,16,5,10,2,0,8,0,2,0,21,
    0,6,0,1,0,4,2,8,0,2,0,1,2,0,14,3,20,3,3,2,0,7,1,1,1,21,0,6,0,1,0,4,2,7,1,1,1,1,8,1,3,1,0,4,12,0,15,1,0,5,2,2,0,3,
    2,1,0,0,0,1,2,1,2,2,2,11,3,4,2,2,0,2,2,0,5,0,39,12,0,2,0,22,0,15,2,7,0,2,0,2,7,1,0,2,1,0,1,3,27,3,0,7,0,2,0,22,
    0,9,0,4,2,7,0,2,0,2,7,1,5,1,0,3,12,2,11,12,0,2,0,40,1,7,0,2,0,2,0,0,4,3,6,4,21,5,0,2,0,17,2,23,0,8,0,0,1,6,7,5,
    0,0,0,7,17,1,12,57,4,6,5,0,50,1,0,0,0,4,0,23,0,0,0,18,0,2,1,4,0,0,5,0,13,3,31,0,62,7,0,35,3,18,3,15,0,35,66,54,
    0,0,1,4,15,63,9,3,1,37,0,0,4,0,1,42,0,332,0,3,1,6,0,0,0,3,1,40,0,3,1,32,0,3,1,6,0,0,0,3,1,14,0,56,0,3,1,66,36,15,
    15,85,1,5,2,619,1,16,0,25,4,74,2,10,6,19,10,20,11,19,11,12,0,2,0,1,11,51,1,18,13,0,3,0,66,88,6,42,4,69,9,30,0,11,
    3,8,22,29,1,4,10,43,3,25,53,27,3,62,1,19,49,0,22,1,10,2,48,51,0,14,0,7,50,41,1,3,9,43,0,10,13,54,21,2,9,35,1,8,
    6,42,1,2,40,3,0,5,0,1,2,0,4,191,38,13,10,277,1,5,1,37,1,5,1,7,0,0,0,0,0,0,0,30,1,52,0,6,0,0,2,2,0,6,2,3,1,5,3,12,
    4,2,0,6,115,0,12,0,15,12,100,0,3,0,1,9,0,0,2,4,5,0,0,0,0,0,0,3,0,10,1,3,4,4,3,0,16,40,812,51,1813,228,5,3,2,1,
    11,37,0,0,4,0,1,55,6,0,15,22,8,6,0,6,0,6,0,6,0,6,0,6,0,6,0,6,0,31,46,0,468,2,24,8,6,4,1,4,3,85,5,2,0,89,0,3,4,42,
    0,93,16,31,47,15,511,6591,63,22156,66,45,1,268,2,15,9,1,19,46,4,7,2,112,38,8,1,102,1,63,4,1,0,0,0,4,23,19,0,32,
    23,51,11,67,0,0,43,5,2,0,0,2,9,32,4,34,12,28,2,50,0,11,14,0,15,15,9,4,0,54,8,13,17,22,2,68,0,0,0,0,23,2,1,15,1,3,
    10,5,1,5,1,5,8,6,0,6,0,42,0,13,5,122,20,11171,11,22,3,48,8451,365,1,105,37,6,11,4,4,11,0,12,0,4,0,0,0,1,0,1,0,107,
    32,362,17,63,1,53,39,11,115,4,0,134,35,25,5,25,10,88,2,5,1,5,1,5,1,2,34,11,0,25,0,18,0,1,0,14,1,13,33,122,68,52,
    266,28,2,48,46,31,12,29,4,42,4,29,1,35,3,7,0,4,41,157,17,35,3,35,3,39,7,51,11,10,0,14,0,6,0,1,0,10,0,14,0,6,0,1,
    66,310,8,21,9,7,23,5,0,41,0,8,68,5,1,0,0,43,0,1,2,0,1,22,9,22,8,30,64,18,0,1,9,21,9,25,69,55,5,1,63,3,0,1,4,7,0,2,
    0,28,41,28,2,28,34,7,0,27,26,53,9,21,9,18,12,17,109,72,54,50,12,50,12,39,343,41,0,1,2,1,77,28,9,0,7,21,41,17,
    45,20,26,22,8,69,42,4,9,56,8,0,12,24,22,50,16,3,7,34,2,0,8,63,0,3,8,1,9,0,0,0,34,17,0,33,1,0,5,3,61,6,0,0,0,3,
    0,14,0,9,6,56,22,3,0,7,1,1,1,21,0,6,0,1,0,4,2,7,1,1,1,1,2,0,5,0,4,6,155,65,0,2,0,3,19,2,29,65,1,1,0,0,183,53,1,6,
    24,5,33,62,0,0,2,0,58,53,1,0,70,26,1,13,20,6,184,56,102,63,30,7,1,0,1,7,0,1,0,29,0,1,1,1,1,3,92,7,1,45,1,5,0,0,
    0,1,26,50,1,9,16,71,4,0,17,72,262,8,0,44,0,6,0,0,48,29,1,21,0,13,72,6,0,1,0,43,2,0,0,1,0,2,0,0,1,1,23,5,0,1,0,36,
    0,1,0,3,0,0,326,22,8,16,0,40,2,2,110,0,78,921,101,110,16,195,2635,96,14,1071,16,5,4024,582,8632,568,6,30,16,78,
    16,29,17,47,15,3,30,20,4,18,687,63,127,74,3,56,6,16,63,1,0,0,11,1,13,6135,7,1237,41,8,8934,3,0,6,0,1,0,290,14,0,
    28,2,1,0,13,3,7,395,2307,106,4,12,2,8,6,9,3,0,5984,84,0,70,0,1,1,0,1,1,1,3,0,11,0,0,0,6,0,64,0,3,1,7,0,6,0,27,0,3,
    0,4,0,0,2,6,0,339,1,24,0,24,0,30,0,24,0,30,0,24,0,30,0,24,0,30,0,24,0,7,1843,30,5,5,212,6,0,16,1,6,0,1,0,4,4,61,
    32,0,111,44,9,6,15,0,320,29,17,43,483,27,755,6,0,3,0,1,0,14,0,196,58,67,2,0,2,0,1203,3,0,26,0,1,0,0,1,0,0,9,0,3,
    0,0,0,0,5,0,3,0,0,0,0,0,0,2,0,1,0,0,1,0,0,0,0,0,0,0,0,0,0,1,0,0,1,3,0,6,0,3,0,3,0,0,0,9,0,16,4,2,0,4,0,16,627,25,
    5,25,5,25,3701,42719,31,4153,5,221,1,5761,13,7472,3102,541,1505,4938,4,4191]

def isAlphabetic (c : Char) : Bool := CharSet.alphabetic.mem c

def CharSet.wordMark : CharSet :=
  .ofSteps [48,9,36,0,671,68,0,41,274,6,262,30,167,0,6,9,116,1,8,2,2,9,69,10,116,9,32,8,8,0,25,1,18,0,42,2,59,7,41,9,
    11,1,7,5,75,0,15,0,2,3,16,9,75,0,15,0,23,9,13,0,60,0,15,0,23,9,75,0,15,0,23,9,12,2,59,0,15,0,6,0,15,9,92,0,23,9,75,
    0,15,0,23,9,75,0,15,0,23,9,74,1,15,0,23,9,89,0,26,9,86,5,0,0,0,9,95,0,12,4,0,0,0,9,61,1,5,9,10,0,0,0,0,0,3,1,67,0,
    0,1,61,0,111,0,0,1,4,9,69,9,706,2,947,1,29,0,126,1,18,10,8,0,1,9,32,2,0,10,286,2,9,9,127,9,133,0,19,7,1,10,5,9,21,
    14,1,10,103,0,14,0,10,9,16,8,53,1,3,9,43,0,10,1,66,0,7,9,5,9,117,2,0,20,3,0,5,0,1,2,197,38,13,10,523,1,48,1,18,0,
    122,32,3069,2,140,0,681,5,104,1,30084,9,68,3,8,1,113,1,275,0,36,0,150,0,10,9,5,17,13,9,32,2,36,0,94,0,11,0,14,9,21,
    9,85,9,100,0,0,0,51,0,244,1,1,9,20997,15,15,15,2,1,23,2,191,9,36,0,700,0,225,0,446,9,1421,2,3,0,164,1,584,9,450,2,
    69,10,48,3,191,0,30,10,13,0,56,1,52,9,56,1,0,9,50,0,75,0,7,3,2,9,90,1,177,1,4,9,64,1,15,0,23,6,2,4,204,0,2,0,8,9,3,
    0,98,1,11,9,228,1,125,0,15,9,91,1,7,9,96,0,3,9,254,1,164,9,82,1,3,0,11,9,133,0,81,1,17,0,79,1,420,0,15,9,231,0,0,1,
    9,9,60,0,7,9,406,1,12,9,5349,0,5,14,13833,9,85,9,37,4,58,6,24,9,1161,0,19639,0,4705,45,1,22,541,4,2,5,7,7,1,6,29,3,
    147,2,1416,49,511,54,3,49,7,0,13,0,21,4,0,14,1663,6,8,9,355,0,60,13,497,13,981,6,108,2,0,2,4,9,4757,9,787717,239]

def CharSet.wordChar : CharSet := alphabetic.union wordMark

def isWordChar (c : Char) : Bool := isAlphabetic c || CharSet.wordMark.mem c

end FlightProcedure
