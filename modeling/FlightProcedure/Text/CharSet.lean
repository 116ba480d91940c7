/-!
# Sets of characters

A set of characters is a list of code point ranges. The ranges ascend and leave at least one code
point between neighbours, so a search can stop at the first range above the character. The
operations keep that order: `CharSet.insert`, `CharSet.union`, `CharSet.compl` and what is derived
from them.
-/

namespace FlightProcedure

/-- The ranges start at or above `floor`, ascend, and leave a gap between neighbours. -/
def ascendFrom (floor : Nat) : List (Nat × Nat) → Bool
  | [] => true
  | (lo, hi) :: rest => decide (floor ≤ lo) && decide (lo ≤ hi) && ascendFrom (hi + 2) rest

/-- A lower floor admits the same ranges. -/
theorem ascendFrom_mono {floor lower : Nat} {ranges : List (Nat × Nat)} (hle : lower ≤ floor)
    (h : ascendFrom floor ranges = true) : ascendFrom lower ranges = true := by
  cases ranges with
  | nil => rfl
  | cons range rest =>
    simp only [ascendFrom, Bool.and_eq_true, decide_eq_true_eq] at h ⊢
    exact ⟨⟨Nat.le_trans hle h.1.1, h.1.2⟩, h.2⟩

/-- Whether a code point lies in one of the ascending ranges. -/
def rangesContain : List (Nat × Nat) → Nat → Bool
  | [], _ => false
  | (lo, hi) :: rest, point =>
    if point < lo then false else if point ≤ hi then true else rangesContain rest point

/-- Add one range, merging it with every range that it touches. -/
def insertRange (lo hi : Nat) : List (Nat × Nat) → List (Nat × Nat)
  | [] => [(lo, hi)]
  | (a, b) :: rest =>
    if hi + 1 < a then (lo, hi) :: (a, b) :: rest
    else if b + 1 < lo then (a, b) :: insertRange lo hi rest
    else insertRange (min lo a) (max hi b) rest

theorem ascendFrom_insertRange {floor lo hi : Nat} {ranges : List (Nat × Nat)}
    (hfloor : floor ≤ lo) (hle : lo ≤ hi) (h : ascendFrom floor ranges = true) :
    ascendFrom floor (insertRange lo hi ranges) = true := by
  induction ranges generalizing floor lo hi with
  | nil => simp [insertRange, ascendFrom, hfloor, hle]
  | cons range rest ih =>
    obtain ⟨a, b⟩ := range
    simp only [ascendFrom, Bool.and_eq_true, decide_eq_true_eq] at h
    unfold insertRange
    split
    · simp only [ascendFrom, Bool.and_eq_true, decide_eq_true_eq]
      exact ⟨⟨hfloor, hle⟩, ⟨by omega, h.1.2⟩, h.2⟩
    · split
      · simp only [ascendFrom, Bool.and_eq_true, decide_eq_true_eq]
        exact ⟨h.1, ih (by omega) hle h.2⟩
      · exact ih (by omega) (by omega) (ascendFrom_mono (by omega) h.2)

def lastCodePoint : Nat := 0x10FFFF

/-- The code points from `next` on that lie in none of the ranges. -/
def rangeGaps (next : Nat) : List (Nat × Nat) → List (Nat × Nat)
  | [] => if next ≤ lastCodePoint then [(next, lastCodePoint)] else []
  | (lo, hi) :: rest =>
    if next < lo then (next, lo - 1) :: rangeGaps (hi + 1) rest else rangeGaps (hi + 1) rest

theorem ascendFrom_rangeGaps {next : Nat} {ranges : List (Nat × Nat)}
    (h : ascendFrom next ranges = true) : ascendFrom next (rangeGaps next ranges) = true := by
  induction ranges generalizing next with
  | nil =>
    unfold rangeGaps
    split <;> simp_all [ascendFrom]
  | cons range rest ih =>
    obtain ⟨lo, hi⟩ := range
    simp only [ascendFrom, Bool.and_eq_true, decide_eq_true_eq] at h
    have hrest := ih (ascendFrom_mono (by omega : hi + 1 ≤ hi + 2) h.2)
    unfold rangeGaps
    split
    · simp only [ascendFrom, Bool.and_eq_true, decide_eq_true_eq]
      exact ⟨⟨Nat.le_refl _, by omega⟩, ascendFrom_mono (by omega) hrest⟩
    · exact ascendFrom_mono (by omega) hrest

/-- The ranges that steps describe from `floor` on. Two numbers describe a range: how many code points are
left out before it, apart from the one between neighbours, and how many follow its first one. -/
def rangesFrom (floor : Nat) : List Nat → List (Nat × Nat)
  | skip :: more :: steps => (floor + skip, floor + skip + more) :: rangesFrom (floor + skip + more + 2) steps
  | _ => []

/-- Steps only lead upwards. -/
theorem ascendFrom_rangesFrom (floor : Nat) (steps : List Nat) : ascendFrom floor (rangesFrom floor steps) = true := by
  fun_induction rangesFrom floor steps with
  | case1 floor skip more steps ih => simp [ascendFrom, ih]
  | case2 => rfl

/-- A set of characters, as ascending ranges of code points. -/
structure CharSet where
  ranges : List (Nat × Nat)
  ascending : ascendFrom 0 ranges = true
deriving DecidableEq

namespace CharSet

def mem (set : CharSet) (c : Char) : Bool := rangesContain set.ranges c.toNat

def empty : CharSet := ⟨[], rfl⟩

/-- The set with the range from `lo` to `hi` added; nothing is added if `hi` is below `lo`. -/
def insert (set : CharSet) (lo hi : Nat) : CharSet :=
  if h : lo ≤ hi then
    ⟨insertRange lo hi set.ranges, ascendFrom_insertRange (Nat.zero_le lo) h set.ascending⟩
  else set

def range (lo hi : Nat) : CharSet := empty.insert lo hi

def singleton (c : Char) : CharSet := range c.toNat c.toNat

def ofSteps (steps : List Nat) : CharSet := ⟨rangesFrom 0 steps, ascendFrom_rangesFrom 0 steps⟩

def ofRanges (ranges : List (Nat × Nat)) : CharSet := ranges.foldl (fun set range => set.insert range.1 range.2) empty

def union (first second : CharSet) : CharSet := second.ranges.foldl (fun set range => set.insert range.1 range.2) first

def compl (set : CharSet) : CharSet := ⟨rangeGaps 0 set.ranges, ascendFrom_rangeGaps set.ascending⟩

def inter (first second : CharSet) : CharSet := (first.compl.union second.compl).compl

def diff (first second : CharSet) : CharSet := first.inter second.compl

def symmDiff (first second : CharSet) : CharSet := (first.diff second).union (second.diff first)

def all : CharSet := range 0 lastCodePoint

end CharSet

end FlightProcedure
