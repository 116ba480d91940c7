import FlightProcedure.Text.CharClass

/-!
# Regular expressions and how they match

A regular expression is run on a window of a text. A run yields the ends that the expression can
reach from a position, in order of preference: earlier alternatives come first, a greedy repetition
prefers to go on and a lazy one prefers to stop. Each end occurs once, with the groups captured on
the preferred way to it. The match of an expression is the first of its ends.
-/

namespace FlightProcedure

/-- The part of a text that an expression may look at, from `start` up to `stop`. -/
structure Window where
  chars : Array Char
  start : Nat
  stop : Nat

namespace Window

def whole (chars : Array Char) : Window := ⟨chars, 0, chars.size⟩

def next? (w : Window) (pos : Nat) : Option Char := if pos < w.stop then w.chars[pos]? else none

def prev? (w : Window) (pos : Nat) : Option Char := if w.start < pos then w.chars[pos - 1]? else none

end Window

inductive Anchor where
  | textStart
  | textEnd
  | lineStart
  | lineEnd
  | wordEdge
  | noWordEdge
deriving DecidableEq

namespace Anchor

/-- Whether exactly one of the two neighbours of the position belongs to a word. -/
def atWordEdge (w : Window) (pos : Nat) : Bool := (w.prev? pos).any isWordChar != (w.next? pos).any isWordChar

def holds (w : Window) (pos : Nat) : Anchor → Bool
  | .textStart => pos == w.start
  | .textEnd => pos == w.stop
  | .lineStart => pos == w.start || w.prev? pos == some '\n'
  | .lineEnd => pos == w.stop || w.next? pos == some '\n'
  | .wordEdge => atWordEdge w pos
  | .noWordEdge => !atWordEdge w pos

end Anchor

/-- The text captured by a group: the group's number, where its text starts and where it ends. -/
structure Capture where
  group : Nat
  start : Nat
  stop : Nat
deriving DecidableEq

/-- A way of matching that has reached a position, with its captures, the latest first. -/
structure Thread where
  pos : Nat
  captures : List Capture := []
deriving DecidableEq

/-- The positions reached so far, the latest first, with bounds on them that save searches. -/
structure Reached where
  threads : List Thread
  low : Nat
  high : Nat
  within : ∀ t ∈ threads, low ≤ t.pos ∧ t.pos ≤ high

namespace Reached

def none : Reached := ⟨[], 1, 0, by simp⟩

def has (reached : Reached) (pos : Nat) : Bool :=
  if pos < reached.low || reached.high < pos then false
  else reached.threads.any (·.pos == pos)

/-- The bounds on the search are only a shortcut. -/
theorem has_eq_any (reached : Reached) (pos : Nat) : reached.has pos = reached.threads.any (·.pos == pos) := by
  unfold has
  split
  · rename_i h
    symm
    rw [List.any_eq_false]
    intro t ht heq
    have hbound := reached.within t ht
    simp only [Bool.or_eq_true, decide_eq_true_eq] at h
    simp only [beq_iff_eq] at heq
    omega
  · rfl

/-- Reach a position with a thread, unless another thread came there first. -/
def add (reached : Reached) (t : Thread) : Reached :=
  if reached.has t.pos then reached
  else
    match h : reached.threads with
    | [] => ⟨[t], t.pos, t.pos, by simp⟩
    | _ :: _ =>
      ⟨t :: reached.threads, min reached.low t.pos, max reached.high t.pos, by
        intro other hmem
        rcases List.mem_cons.mp hmem with rfl | hmem
        · omega
        · have := reached.within other hmem
          omega⟩

def toList (reached : Reached) : List Thread := reached.threads.reverse

end Reached

namespace Thread

def advance (t : Thread) : Thread := { t with pos := t.pos + 1 }

def capture (group start : Nat) (t : Thread) : Thread := { t with captures := ⟨group, start, t.pos⟩ :: t.captures }

/-- The threads without those that reach a position second. -/
def distinct (threads : List Thread) : List Thread := (threads.foldl Reached.add .none).toList

/-- Every thread taken one step further, in order. -/
def follow (threads : List Thread) (step : Thread → List Thread) : List Thread :=
  match threads with
  | [t] => step t
  | _ => distinct (threads.flatMap step)

def times (step : Thread → List Thread) : Nat → List Thread → List Thread
  | 0, threads => threads
  | count + 1, threads =>
    if threads.isEmpty then [] else times step count (follow threads step)

/-- A step taken at most `count` times. -/
def upTo (step : Thread → List Thread) (greedy : Bool) : Nat → Thread → List Thread
  | 0, t => [t]
  | count + 1, t =>
    let further := (step t).flatMap (upTo step greedy count)
    distinct (if greedy then further ++ [t] else t :: further)

/-- What a step taken again and again reaches from a thread, added to what is reached already. A step
that stays at its position leads nowhere new. The fuel bounds the number of steps in a row and is enough
if it exceeds the number of characters that remain. -/
def again (step : Thread → List Thread) (greedy : Bool) : Nat → Thread → Reached → Reached
  | 0, _, reached => reached
  | fuel + 1, t, reached =>
    (step t).foldl
      (fun reached next =>
        if next.pos ≤ t.pos || reached.has next.pos then reached
        else if greedy then (again step greedy fuel next reached).add next
        else again step greedy fuel next (reached.add next))
      reached

/-- What a step taken once or more often reaches from a thread. Only the first step may stay at its
position. The fuel is that of `again`. -/
def oneOrMore (step : Thread → List Thread) (greedy : Bool) (fuel : Nat) (t : Thread) : Reached :=
  (step t).foldl
    (fun reached next =>
      if reached.has next.pos then reached
      else if next.pos ≤ t.pos then reached.add next
      else if greedy then (again step greedy fuel next reached).add next
      else again step greedy fuel next (reached.add next))
    .none

/-- A step taken at least `least` and at most `most` times, or without an upper bound. -/
def repeated (step : Thread → List Thread) (stop least : Nat) (most : Option Nat) (greedy : Bool)
    (t : Thread) : List Thread :=
  let loop (t : Thread) : List Thread := (oneOrMore step greedy (stop + 1 - t.pos) t).toList
  match least, most with
  | least, some most => follow (times step least [t]) (upTo step greedy (most - least))
  | 0, none => distinct (if greedy then loop t ++ [t] else t :: loop t)
  | least + 1, none => follow (times step least [t]) loop

end Thread

inductive Regex where
  | empty
  | oneOf (set : CharSet)
  | anchor (condition : Anchor)
  | seq (first second : Regex)
  /-- One of two expressions, the first by preference. -/
  | alt (first second : Regex)
  /-- An expression `least` times or more, up to `most` times. -/
  | rep (body : Regex) (least : Nat) (most : Option Nat) (greedy : Bool)
  | group (number : Nat) (body : Regex)

namespace Regex

/-- The threads that the expression makes of a thread, in order of preference. -/
def run (w : Window) : Regex → Thread → List Thread
  | .empty, t => [t]
  | .oneOf set, t =>
    match w.next? t.pos with
    | some c => if set.mem c then [t.advance] else []
    | none => []
  | .anchor condition, t => if condition.holds w t.pos then [t] else []
  | .seq first second, t => Thread.follow (first.run w t) fun t => second.run w t
  | .alt first second, t => Thread.distinct (first.run w t ++ second.run w t)
  | .rep body least most greedy, t =>
    Thread.repeated (fun t => body.run w t) w.stop least most greedy t
  | .group number body, t => (body.run w t).map (Thread.capture number t.pos)

/-- One expression after another, where no character adds nothing. -/
def andThen : Regex → Regex → Regex
  | .empty, second => second
  | first, .empty => first
  | first, second => .seq first second

/-- One of two expressions. Neighbouring single characters form one set. -/
def orElse : Regex → Regex → Regex
  | .oneOf first, .oneOf second => .oneOf (first.union second)
  | .oneOf first, .alt (.oneOf second) rest => .alt (.oneOf (first.union second)) rest
  | first, second => .alt first second

def startsText : Regex → Bool
  | .anchor .textStart => true
  | .seq first _ => first.startsText
  | .alt first second => first.startsText && second.startsText
  | .group _ body => body.startsText
  | _ => false

/-- How large the expression grows when its repetitions are written out. -/
def weight : Regex → Nat
  | .empty => 1
  | .oneOf set => set.ranges.length + 1
  | .anchor _ => 1
  | .seq first second => first.weight + second.weight
  | .alt first second => first.weight + second.weight + 1
  | .rep body least most _ => body.weight * max 1 (most.getD least) + 1
  | .group _ body => body.weight + 2

/-- The first match at or after a position: where it starts and the thread that ends it. The fuel is
the number of later starts that are tried. -/
def search (regex : Regex) (w : Window) : Nat → Nat → Option (Nat × Thread)
  | fuel, pos =>
    match regex.run w ⟨pos, []⟩ with
    | t :: _ => some (pos, t)
    | [] =>
      match fuel with
      | 0 => none
      | fuel + 1 => search regex w fuel (pos + 1)

/-- The first match that starts at or after a position of the window. -/
def find? (regex : Regex) (w : Window) (pos : Nat) : Option (Nat × Thread) :=
  if w.stop < pos then none
  else if regex.startsText then
    if pos ≤ w.start then regex.search w 0 w.start else none
  else regex.search w (w.stop - pos) pos

end Regex

end FlightProcedure
