import FlightProcedure.Parse.Chart
import FlightProcedure.Proofs.Grammar.LeftRecursion
import FlightProcedure.Proofs.Pattern.Progress
import Mathlib.Data.List.Nodup

/-!
# Where tokens start and end

Ignored text is skipped forward and inside the source, and skipping goes on until nothing is left to
skip. A token consumes at least one character, and the ends of the tokens of a terminal at one
position all differ. `Input.Ready` is what the evaluation of rules needs to know of an input, and
`ready_of_build` provides it for every source and every grammar that can be built.
-/

namespace FlightProcedure

open List

namespace Grammar

variable {chars : Array Char} {pos : Nat}

theorem skip_round_bounds (grammar : Grammar) (hpos : pos ≤ chars.size) :
    pos ≤ grammar.skipRound chars pos ∧ grammar.skipRound chars pos ≤ chars.size := by
  unfold skipRound
  generalize grammar.ignore = patterns
  induction patterns generalizing pos with
  | nil => exact ⟨Nat.le_refl _, hpos⟩
  | cons pattern rest ih =>
    rw [foldl_cons]
    split
    · next start t hfind =>
      have hbounds := Pattern.find?_bounds hfind
      have := ih hbounds.2
      simp only at hbounds this
      omega
    · exact ih hpos

theorem skip_rounds_bounds (grammar : Grammar) (fuel : Nat) (hpos : pos ≤ chars.size) :
    pos ≤ grammar.skipRounds chars fuel pos ∧ grammar.skipRounds chars fuel pos ≤ chars.size := by
  induction fuel generalizing pos with
  | zero => exact ⟨Nat.le_refl _, hpos⟩
  | succ fuel ih =>
    have hround := skip_round_bounds grammar hpos
    simp only [skipRounds]
    split
    · exact ⟨Nat.le_refl _, hpos⟩
    · have := ih hround.2
      omega

/-- Every round but the last skips a character, so with more fuel than there are characters left, the
rounds end where nothing more can be skipped. -/
theorem skip_rounds_settled (grammar : Grammar) {fuel : Nat} (hpos : pos ≤ chars.size)
    (hfuel : chars.size < pos + fuel) :
    grammar.skipRound chars (grammar.skipRounds chars fuel pos) = grammar.skipRounds chars fuel pos := by
  induction fuel generalizing pos with
  | zero => omega
  | succ fuel ih =>
    have hround := skip_round_bounds grammar hpos
    simp only [skipRounds]
    split
    · assumption
    · next hmoved => exact ih hround.2 (by omega)

end Grammar

namespace Input

variable {input : Input} {grammar : Grammar} {chars : Array Char} {terminal : Terminal}
  {pos start stop : Nat}

theorem skip_of_chars (grammar : Grammar) (chars : Array Char) (pos : Nat) :
    (ofChars grammar chars).skip pos = grammar.skip chars pos := by
  by_cases hlt : pos < chars.size + 1
  · simp [skip, ofChars, hlt, Thunk.get]
  · simp [skip, ofChars, hlt]

theorem gaps_bounds {text : List Char} {afterSpace : Bool} {found : List Nat} {gap : Nat}
    (h : gap ∈ gaps text pos afterSpace found) :
    gap ∈ found ∨ (pos ≤ gap ∧ gap < pos + text.length ∧ (afterSpace = true → pos < gap)) := by
  induction text generalizing pos afterSpace found with
  | nil => exact .inl h
  | cons c rest ih =>
    simp only [gaps] at h
    rcases ih h with hfound | ⟨hge, hlt, _⟩
    · split at hfound
      · next hgap =>
        rcases mem_cons.mp hfound with rfl | hfound
        · refine .inr ⟨Nat.le_refl _, by simp, fun hspace => ?_⟩
          simp [hspace] at hgap
        · exact .inl hfound
      · exact .inl hfound
    · exact .inr ⟨by omega, by simp only [length_cons]; omega, fun _ => by omega⟩

theorem gaps_nodup {text : List Char} {afterSpace : Bool} {found : List Nat}
    (hnodup : found.Nodup) (hlt : ∀ gap ∈ found, gap < pos) :
    (gaps text pos afterSpace found).Nodup := by
  induction text generalizing pos afterSpace found with
  | nil => exact hnodup
  | cons c rest ih =>
    simp only [gaps]
    split
    · apply ih
      · exact nodup_cons.mpr ⟨fun hmem => by have := hlt pos hmem; omega, hnodup⟩
      · intro gap hgap
        rcases mem_cons.mp hgap with rfl | hgap
        · omega
        · have := hlt gap hgap
          omega
    · exact ih hnodup fun gap hgap => by have := hlt gap hgap; omega

theorem gaps_extract_bounds {gap : Nat} (hstop : stop ≤ chars.size)
    (h : gap ∈ gaps (chars.extract start stop).toList start true []) :
    start < gap ∧ gap < stop := by
  rcases gaps_bounds h with hmem | ⟨_, hlt, hgt⟩
  · simp at hmem
  · simp only [Array.length_toList, Array.size_extract] at hlt
    exact ⟨hgt rfl, by omega⟩

theorem token_ends_bounds (h : stop ∈ input.tokenEnds terminal start) : start < stop ∧ stop ≤ input.size := by
  unfold tokenEnds at h
  split at h
  · simp at h
  · next _ t hfind =>
    have hbounds := Pattern.find?_bounds hfind
    simp only at hbounds
    split at h
    · simp at h
    · split at h
      · -- A token may be cut short at a gap, which lies inside the text that the pattern matched.
        rcases mem_cons.mp (mem_filter.mp h).1 with rfl | hgap
        · omega
        · have := gaps_extract_bounds hbounds.2 hgap
          omega
      · simp only [mem_singleton] at h
        omega

theorem token_ends_nodup : (input.tokenEnds terminal start).Nodup := by
  unfold tokenEnds
  split
  · exact nodup_nil
  · next _ t hfind =>
    have hbounds := Pattern.find?_bounds hfind
    split
    · exact nodup_nil
    · split
      · apply List.Nodup.filter
        refine nodup_cons.mpr ⟨fun hgap => ?_, gaps_nodup nodup_nil (by simp)⟩
        exact Nat.lt_irrefl _ (gaps_extract_bounds hbounds.2 hgap).2
      · exact nodup_singleton _

def tokens (input : Input) (id pos : Nat) : List Derivation :=
  match input.grammar.terminals[id]? with
  | none => []
  | some terminal =>
    (input.tokenEnds terminal (input.skip pos)).map (Derivation.token id (input.skip pos))

theorem tokens_nodup (input : Input) (id pos : Nat) : ((input.tokens id pos).map (·.stop)).Nodup := by
  unfold tokens
  split
  · exact nodup_nil
  · rw [map_map]
    show ((input.tokenEnds _ _).map fun stop => stop).Nodup
    rw [map_id_fun']
    exact token_ends_nodup

def alternatives (input : Input) (id : Nat) : List Item := (input.grammar.rules[id]?.map (·.alternatives)).getD []

def nullable (input : Input) : Array Bool := nullableRules input.grammar.rules

/-- An input whose rules have passed the checks and whose ignored text is skipped forward. -/
structure Ready (input : Input) : Prop where
  checked : Checked input.grammar.rules
  skip_bounds : ∀ pos, pos ≤ input.size → pos ≤ input.skip pos ∧ input.skip pos ≤ input.size

theorem ready_of_build {defs : Definitions} {options : GrammarOptions}
    (h : Grammar.build defs options = .ok grammar) (chars : Array Char) :
    Ready (ofChars grammar chars) where
  checked := build_checked h
  skip_bounds pos hpos := by
    rw [skip_of_chars]
    exact Grammar.skip_rounds_bounds grammar _ hpos

theorem tokens_bounds (hready : input.Ready) {id : Nat} {token : Derivation}
    (hpos : pos ≤ input.size) (h : token ∈ input.tokens id pos) :
    pos < token.stop ∧ token.stop ≤ input.size := by
  unfold tokens at h
  split at h
  · simp at h
  · obtain ⟨stop, hstop, rfl⟩ := mem_map.mp h
    have hskip := hready.skip_bounds pos hpos
    have hends := token_ends_bounds hstop
    simp only [Derivation.stop]
    omega

end Input

end FlightProcedure
