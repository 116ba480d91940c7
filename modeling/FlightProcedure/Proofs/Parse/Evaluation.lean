import FlightProcedure.Proofs.Parse.Merging
import FlightProcedure.Proofs.Parse.Tokens
import Mathlib.Data.Set.Basic

/-!
# Evaluation without a chart

`Item.parts` evaluates an item like `Chart.itemAt`, but takes the derivations of rules from a function
and keeps no chart. `Chart.item_at_yields` says that the two agree when the rules that the item enters
do. An item enters only rules at later positions, and at its own position the rules that lead it.

The same induction accounts for the tokens that an evaluation looks for: `Chart.Needing` says which accounts
are possible, and an invariant of charts may depend on the account.
-/

namespace FlightProcedure

open List Partial Item

variable {stop least count fuel : Nat} {step result : Nat → List Partial} {frontier : List Partial}
  {most : Option Nat}

namespace Partial

def extendEach (step : Nat → List Partial) (parts : List Partial) : List Partial :=
  (parts.flatMap fun part => (step part.stop).map part.extend).foldl compete []

/-- The matches of `least` to `most` steps, in the order in which a repetition finds them. The fuel
bounds the number of steps. -/
def rounds (step : Nat → List Partial) (least : Nat) (most : Option Nat) : Nat → Nat → List Partial → List Partial
  | 0, _, _ => []
  | fuel + 1, count, frontier =>
    (if least ≤ count then frontier else []) ++
      if most.any (· ≤ count) then []
      else rounds step least most fuel (count + 1) (extendEach step frontier)

theorem rounds_nil (step : Nat → List Partial) (least : Nat) (most : Option Nat)
    (fuel count : Nat) : rounds step least most fuel count [] = [] := by
  induction fuel generalizing count with
  | zero => rfl
  | succ fuel ih =>
    have hnone : extendEach step [] = [] := rfl
    simp [rounds, hnone, ih]

variable {parts : List Partial}

theorem mem_extendEach {part : Partial} (h : part ∈ extendEach step parts) :
    ∃ first ∈ parts, ∃ second ∈ step first.stop, part.stop = second.stop ∧
      part.children = first.children ++ second.children := by
  obtain ⟨origin, horigin, hstop, hchildren⟩ := mem_foldl_compete h
  rcases horigin with horigin | horigin
  · simp at horigin
  · obtain ⟨first, hfirst, horigin⟩ := mem_flatMap.mp horigin
    obtain ⟨second, hsecond, rfl⟩ := mem_map.mp horigin
    exact ⟨first, hfirst, second, hsecond, hstop, hchildren⟩

theorem mem_stops_extendEach :
    stop ∈ (extendEach step parts).map (·.stop) ↔ ∃ first ∈ parts, stop ∈ (step first.stop).map (·.stop) := by
  simp only [extendEach, stops_foldl_compete, mem_foldl_add_stop, map_nil, not_mem_nil, false_or, mem_map, mem_flatMap]
  constructor
  · rintro ⟨_, ⟨first, hfirst, second, hsecond, rfl⟩, hstop⟩
    exact ⟨first, hfirst, second, hsecond, hstop⟩
  · rintro ⟨first, hfirst, second, hsecond, hstop⟩
    exact ⟨_, ⟨first, hfirst, second, hsecond, rfl⟩, hstop⟩

def needed (needs : Nat → Set (Nat × Nat)) (parts : List Partial) : Set (Nat × Nat) :=
  {token | ∃ part ∈ parts, token ∈ needs part.stop}

@[simp] theorem needed_nil (needs : Nat → Set (Nat × Nat)) : needed needs [] = ∅ := by
  simp [needed]

@[simp] theorem needed_cons (needs : Nat → Set (Nat × Nat)) (part : Partial) (parts : List Partial) :
    needed needs (part :: parts) = needs part.stop ∪ needed needs parts := by
  ext token
  simp [needed]

theorem needed_extendEach {needs now later : Nat → Set (Nat × Nat)}
    (h : ∀ part ∈ parts, needs part.stop = now part.stop ∪ needed later (step part.stop)) :
    needed needs parts = needed now parts ∪ needed later (extendEach step parts) := by
  ext token
  have hlater : token ∈ needed later (extendEach step parts) ↔
      ∃ part ∈ parts, token ∈ needed later (step part.stop) := by
    have hstops : ∀ parts : List Partial, token ∈ needed later parts ↔
        ∃ stop ∈ parts.map (·.stop), token ∈ later stop := by simp [needed]
    simp only [hstops, mem_stops_extendEach]
    exact ⟨fun ⟨stop, ⟨first, hfirst, hstop⟩, htoken⟩ => ⟨first, hfirst, stop, hstop, htoken⟩,
      fun ⟨first, hfirst, stop, hstop, htoken⟩ => ⟨stop, ⟨first, hfirst, hstop⟩, htoken⟩⟩
  rw [Set.mem_union, hlater]
  constructor
  · rintro ⟨part, hpart, htoken⟩
    rw [h part hpart] at htoken
    exact htoken.imp (⟨part, hpart, ·⟩) (⟨part, hpart, ·⟩)
  · rintro (⟨part, hpart, htoken⟩ | ⟨part, hpart, htoken⟩)
    · exact ⟨part, hpart, h part hpart ▸ .inl htoken⟩
    · exact ⟨part, hpart, h part hpart ▸ .inr htoken⟩

end Partial

namespace Item

mutual

def parts (input : Input) (rule : Nat → Nat → List Derivation) : Item → Nat → List Partial
  | .rule id, pos => (rule id pos).map single
  | .terminal id, pos => (input.tokens id pos).map single
  | .seq items, pos => partsSeq input rule items [.nothing pos]
  | .alt items, pos => (partsAny input rule items pos).foldl prefer []
  | .optional inner, pos => prefer (inner.parts input rule pos) (.nothing pos)
  | .rep inner least most, pos =>
    (rounds (fun pos => inner.parts input rule pos) least most (input.size + 2) 0
      [.nothing pos]).foldl compete []

/-- The matches of items in a row, after matches of what comes before them. -/
def partsSeq (input : Input) (rule : Nat → Nat → List Derivation) : List Item → List Partial → List Partial
  | [], found => found
  | item :: items, found =>
    partsSeq input rule items (extendEach (fun pos => item.parts input rule pos) found)

def partsAny (input : Input) (rule : Nat → Nat → List Derivation) : List Item → Nat → List Partial
  | [], _ => []
  | item :: items, pos => item.parts input rule pos ++ partsAny input rule items pos

end

theorem parts_seq_nil (input : Input) (rule : Nat → Nat → List Derivation) (items : List Item) :
    partsSeq input rule items [] = [] := by
  induction items with
  | nil => rfl
  | cons item items ih =>
    have hnone : extendEach (fun pos => item.parts input rule pos) [] = [] := rfl
    simp [partsSeq, hnone, ih]

end Item

namespace Chart

/-- From every chart with an invariant, the computation yields the value and keeps the invariant, which may
depend on the tokens that have been looked for: those that are needed come to them. -/
def Yields {α : Type} (inv : Set (Nat × Nat) → Chart → Prop) (x : ChartM α) (value : α)
    (needs : Set (Nat × Nat)) : Prop :=
  ∀ asked chart, inv asked chart → ∃ after, x.run chart = (value, after) ∧ inv (asked ∪ needs) after

/-- An account of the tokens that evaluations look for, of items, of items in a row, and of a repetition
that has taken some steps. -/
structure Needing (input : Input) (value : Nat → Nat → List Derivation) where
  item : Item → Nat → Set (Nat × Nat)
  all : List Item → Nat → Set (Nat × Nat)
  round : Item → Option Nat → Nat → Nat → Set (Nat × Nat)
  seq : ∀ items pos, item (.seq items) pos = all items pos
  all_nil : ∀ pos, all [] pos = ∅
  all_cons : ∀ first rest pos, pos ≤ input.size → first.repeatsNullable input.nullable = false →
    all (first :: rest) pos = item first pos ∪ needed (all rest) (first.parts input value pos)
  alt_nil : ∀ pos, item (.alt []) pos = ∅
  alt_cons : ∀ first rest pos, item (.alt (first :: rest)) pos = item first pos ∪ item (.alt rest) pos
  optional : ∀ inner pos, item (.optional inner) pos = item inner pos
  rep : ∀ inner least most pos, item (.rep inner least most) pos = round inner most 0 pos
  round_end : ∀ inner most count pos, most.any (· ≤ count) = true → round inner most count pos = ∅
  round_next : ∀ inner most count pos, most.any (· ≤ count) = false → pos ≤ input.size →
    inner.repeatsNullable input.nullable = false → round inner most count pos =
      item inner pos ∪ needed (round inner most (count + 1)) (inner.parts input value pos)

def Needing.none (input : Input) (value : Nat → Nat → List Derivation) : Needing input value where
  item _ _ := ∅
  all _ _ := ∅
  round _ _ _ _ := ∅
  seq _ _ := rfl
  all_nil _ := rfl
  all_cons _ _ _ _ _ := by simp [needed]
  alt_nil _ := rfl
  alt_cons _ _ _ := by simp
  optional _ _ := rfl
  rep _ _ _ _ := rfl
  round_end _ _ _ _ _ := rfl
  round_next _ _ _ _ _ _ _ := by simp [needed]

section Yields

variable {α β : Type} {inv : Set (Nat × Nat) → Chart → Prop} {needs others : Set (Nat × Nat)}

theorem Yields.pure (value : α) : Yields inv (Pure.pure value) value ∅ :=
  fun asked chart hinv => ⟨chart, rfl, by rwa [Set.union_empty]⟩

theorem Yields.bind {x : ChartM α} {value : α} {f : α → ChartM β} {result : β}
    (hx : Yields inv x value needs) (hf : Yields inv (f value) result others) :
    Yields inv (x >>= f) result (needs ∪ others) := by
  intro asked chart hinv
  obtain ⟨between, hbetween, hinv⟩ := hx asked chart hinv
  obtain ⟨after, hafter, hinv⟩ := hf _ between hinv
  refine ⟨after, ?_, Set.union_assoc asked needs others ▸ hinv⟩
  rw [StateT.run_bind, hbetween]
  exact hafter

theorem Yields.map {x : ChartM α} {value : α} {f : α → β} (hx : Yields inv x value needs) :
    Yields inv (x >>= fun value => Pure.pure (f value)) (f value) needs :=
  Set.union_empty needs ▸ hx.bind (.pure (f value))

theorem extend_all_yields {step : Nat → ChartM (List Partial)} {value : Nat → List Partial}
    {needs : Nat → Set (Nat × Nat)} {parts : List Partial}
    (hstep : ∀ part ∈ parts, Yields inv (step part.stop) (value part.stop) (needs part.stop)) :
    Yields inv (extendAll step parts) (extendEach value parts) (needed needs parts) := by
  unfold extendAll extendEach
  generalize ([] : List Partial) = found
  induction parts generalizing found with
  | nil =>
    rw [needed_nil]
    exact .pure found
  | cons part rest ih =>
    rw [foldlM_cons, flatMap_cons, foldl_append, needed_cons]
    exact (hstep part (by simp)).map.bind (ih (fun other hother => hstep other (by simp [hother])) _)

theorem advance_yields {step : Nat → ChartM (List Partial)} {value : List Partial} {pos : Nat}
    (hstep : Yields inv (step pos) value needs) (hlater : ∀ part ∈ value, pos < part.stop) :
    Yields inv (advance step pos) value needs := by
  have hnone : value.any (·.stop ≤ pos) = false := by
    rw [any_eq_false]
    intro part hpart
    simpa using hlater part hpart
  rw [← Set.union_empty needs]
  refine hstep.bind fun asked chart hinv => ⟨chart, ?_, by rwa [Set.union_empty]⟩
  simp only [hnone, Bool.or_false]
  rfl

end Yields

section Items

variable {input : Input} {inv : Set (Nat × Nat) → Chart → Prop} {rule : Nat → Nat → ChartM (List Derivation)}
  {value : Nat → Nat → List Derivation} {needing : Needing input value} {pos : Nat}

/-- Ends at or after a position and inside the source. Only what can match nothing ends at the position
itself. -/
def EndsAfter (input : Input) (nullable : Bool) (pos stop : Nat) : Prop :=
  pos ≤ stop ∧ stop ≤ input.size ∧ (stop = pos → nullable = true)

theorem EndsAfter.lt (h : EndsAfter input false pos stop) : pos < stop :=
  Nat.lt_of_le_of_ne h.1 fun heq => Bool.false_ne_true (h.2.2 heq.symm)

theorem EndsAfter.of_lt {nullable : Bool} (hlt : pos < stop) (hle : stop ≤ input.size) :
    EndsAfter input nullable pos stop :=
  ⟨Nat.le_of_lt hlt, hle, fun heq => absurd heq (Nat.ne_of_gt hlt)⟩

/-- Evaluating a rule at a position yields its derivations, whose ends are those that the rule may
have. -/
def Resolves (inv : Set (Nat × Nat) → Chart → Prop) (rule : Nat → Nat → ChartM (List Derivation))
    (needing : Needing input value) (id pos : Nat) : Prop :=
  Yields inv (rule id pos) (value id pos) (needing.item (.rule id) pos) ∧
    ∀ derivation ∈ value id pos, EndsAfter input (input.nullable.getD id false) pos derivation.stop

/-- The rules that something with the leading rules may enter from a position on. -/
def Enters (input : Input) (leading : List Nat) (pos id next : Nat) : Prop :=
  next ≤ input.size ∧ (pos < next ∨ (next = pos ∧ id ∈ leading))

/-- The same for items in a row after some matches: at the position itself they may enter rules only if one of
the matches ends there. -/
def EntersSeq (input : Input) (items : List Item) (pos : Nat) (found : List Partial) (id next : Nat) : Prop :=
  next ≤ input.size ∧ (pos < next ∨ next = pos ∧ (∃ part ∈ found, part.stop = pos) ∧
    id ∈ leadingSeq input.nullable items)

section

variable {item : Item} {items : List Item} {found : List Partial} {part : Partial} {pos id next : Nat}

theorem Enters.of_seq (h : EntersSeq input items pos found id next) :
    Enters input ((seq items).leading input.nullable) pos id next :=
  ⟨h.1, h.2.imp_right fun h => ⟨h.1, h.2.2⟩⟩

theorem EntersSeq.first (hpart : part ∈ found) (hpos : pos ≤ part.stop)
    (h : Enters input (item.leading input.nullable) part.stop id next) :
    EntersSeq input (item :: items) pos found id next := by
  refine ⟨h.1, ?_⟩
  rcases h.2 with hlt | ⟨rfl, hmem⟩
  · exact .inl (by omega)
  · refine (Nat.lt_or_eq_of_le hpos).imp_right fun heq => ⟨heq.symm, ⟨part, hpart, heq.symm⟩, ?_⟩
    simp [leadingSeq, hmem]

/-- A match that still ends at the position has passed only items that can match nothing. -/
theorem extended_ends {nullable : Bool} (hfound : ∀ part ∈ found, pos ≤ part.stop ∧ part.stop ≤ input.size)
    (hstep : ∀ part ∈ found, ∀ next ∈ step part.stop, EndsAfter input nullable part.stop next.stop)
    (h : part ∈ extendEach step found) : pos ≤ part.stop ∧ part.stop ≤ input.size ∧
      (part.stop = pos → (∃ part ∈ found, part.stop = pos) ∧ nullable = true) := by
  obtain ⟨first, hfirst, second, hsecond, hstop, _⟩ := mem_extendEach h
  obtain ⟨hge, hle⟩ := hfound first hfirst
  obtain ⟨hge', hle', hnull⟩ := hstep first hfirst second hsecond
  exact ⟨by omega, by omega, fun heq => ⟨⟨first, hfirst, by omega⟩, hnull (by omega)⟩⟩

theorem EntersSeq.rest {others : List Partial}
    (hothers : ∀ part ∈ others, part.stop = pos → (∃ part ∈ found, part.stop = pos) ∧ item.nullable input.nullable = true)
    (h : EntersSeq input items pos others id next) : EntersSeq input (item :: items) pos found id next := by
  refine ⟨h.1, h.2.imp_right ?_⟩
  rintro ⟨heq, ⟨part, hpart, hstop⟩, hmem⟩
  obtain ⟨hfirst, hnull⟩ := hothers part hpart hstop
  exact ⟨heq, hfirst, by simp [leadingSeq, hnull, hmem]⟩

/-- After the first step of a repetition everything is later than the position, so any rule may be entered. -/
theorem Enters.of_rep {inner : Item} {middle : Nat} (hpos : pos ≤ middle)
    (h : Enters input (inner.leading input.nullable) middle id next) :
    Enters input ((rep inner least most).leading input.nullable) pos id next := by
  refine ⟨h.1, ?_⟩
  rcases h.2 with hlt | ⟨rfl, hmem⟩
  · exact .inl (by omega)
  · exact (Nat.lt_or_eq_of_le hpos).imp_right fun heq => ⟨heq.symm, hmem⟩

end

theorem frontier_advances
    (hstep : ∀ next, pos ≤ next → next ≤ input.size → ∀ part ∈ result next, EndsAfter input false next part.stop)
    (hfrontier : ∀ part ∈ frontier, pos + count ≤ part.stop ∧ part.stop ≤ input.size) :
    ∀ part ∈ extendEach result frontier, pos + (count + 1) ≤ part.stop ∧ part.stop ≤ input.size := by
  intro part hpart
  obtain ⟨first, hfirst, second, hsecond, hstop, _⟩ := mem_extendEach hpart
  have hbounds := hfrontier first hfirst
  have hends := hstep first.stop (by omega) hbounds.2 second hsecond
  have hlater := hends.lt
  have hinside := hends.2.1
  omega

/-- A repetition whose steps all get past their positions yields the matches of its rounds. The
frontier moves by a character in every round, so that the fuel never runs out. -/
theorem repeated_yields {step : Nat → ChartM (List Partial)} {needs : Nat → Set (Nat × Nat)}
    {round : Nat → Nat → Set (Nat × Nat)}
    (hyields : ∀ next, pos ≤ next → next ≤ input.size → Yields inv (step next) (result next) (needs next))
    (hstep : ∀ next, pos ≤ next → next ≤ input.size → ∀ part ∈ result next, EndsAfter input false next part.stop)
    (hend : ∀ count next, most.any (· ≤ count) = true → round count next = ∅)
    (hnext : ∀ count next, most.any (· ≤ count) = false → next ≤ input.size →
      round count next = needs next ∪ needed (round (count + 1)) (result next)) {found : List Partial}
    (hfrontier : ∀ part ∈ frontier, pos + count ≤ part.stop ∧ part.stop ≤ input.size)
    (hcount : count ≤ input.size + 1) (hfuel : input.size + 1 < count + fuel) :
    Yields inv (repeated step least most fuel count frontier found)
      ((rounds result least most fuel count frontier).foldl compete found)
      (needed (round count) frontier) := by
  induction fuel generalizing count frontier found with
  | zero => omega
  | succ fuel ih =>
    simp only [repeated, rounds, foldl_append]
    rw [show (if least ≤ count then frontier.foldl compete found else found) =
      (if least ≤ count then frontier else []).foldl compete found by split <;> rfl]
    cases hmost : most.any (· ≤ count) with
    | true =>
      have hnone : needed (round count) frontier = ∅ := by simp [needed, hend count _ hmost]
      simp only [Bool.or_true, if_true, hnone]
      exact .pure _
    | false =>
      simp only [Bool.or_false, Bool.false_eq_true, if_false]
      cases frontier with
      | nil =>
        have hnone : extendEach result [] = [] := rfl
        simp only [isEmpty_nil, if_true, hnone, rounds_nil, needed_nil]
        exact .pure _
      | cons first rest =>
        -- A match in the frontier keeps the count below the size of the source.
        have hfirst := hfrontier first (by simp)
        simp only [isEmpty_cons, Bool.false_eq_true, if_false]
        rw [needed_extendEach fun part hpart => hnext count part.stop hmost (hfrontier part hpart).2]
        refine (extend_all_yields fun part hpart => ?_).bind
          (ih (frontier_advances hstep hfrontier) (by omega) (by omega))
        have hbounds := hfrontier part hpart
        have hpos : pos ≤ part.stop := by omega
        exact advance_yields (hyields part.stop hpos hbounds.2) fun next hnext =>
          (hstep part.stop hpos hbounds.2 next hnext).lt

theorem rounds_bounds
    (hstep : ∀ next, pos ≤ next → next ≤ input.size → ∀ part ∈ result next, EndsAfter input false next part.stop)
    (hfrontier : ∀ part ∈ frontier, pos + count ≤ part.stop ∧ part.stop ≤ input.size) {part : Partial}
    (h : part ∈ rounds result least most fuel count frontier) :
    pos + least ≤ part.stop ∧ part.stop ≤ input.size := by
  induction fuel generalizing count frontier with
  | zero => simp [rounds] at h
  | succ fuel ih =>
    simp only [rounds, mem_append] at h
    rcases h with h | h
    · split at h
      · have := hfrontier part h
        omega
      · simp at h
    · split at h
      · simp at h
      · exact ih (frontier_advances hstep hfrontier) h

mutual

theorem item_at_yields (hready : input.Ready)
    (htokens : ∀ id pos, Yields inv (tokensAt input id pos) (input.tokens id pos) (needing.item (.terminal id) pos)) :
    ∀ (item : Item) (pos : Nat), pos ≤ input.size → item.repeatsNullable input.nullable = false →
      (∀ id next, Enters input (item.leading input.nullable) pos id next → Resolves inv rule needing id next) →
      Yields inv (itemAt input rule item pos) (item.parts input value pos) (needing.item item pos) ∧
        ∀ part ∈ item.parts input value pos, EndsAfter input (item.nullable input.nullable) pos part.stop
  | .rule id, pos, hpos, _, hrules => by
    obtain ⟨hyields, hends⟩ := hrules id pos ⟨hpos, .inr ⟨rfl, by simp [leading]⟩⟩
    refine ⟨hyields.map, fun part hpart => ?_⟩
    obtain ⟨derivation, hderivation, rfl⟩ := mem_map.mp hpart
    exact hends derivation hderivation
  | .terminal id, pos, hpos, _, _ => by
    refine ⟨(htokens id pos).map, fun part hpart => ?_⟩
    obtain ⟨token, htoken, rfl⟩ := mem_map.mp hpart
    obtain ⟨hlt, hle⟩ := Input.tokens_bounds hready hpos htoken
    exact .of_lt hlt hle
  | .seq items, pos, hpos, hrepeats, hrules => by
    have hstart : ∀ part ∈ [nothing pos], pos ≤ part.stop ∧ part.stop ≤ input.size := by
      simp [nothing, hpos]
    obtain ⟨hyields, hends⟩ := seq_from_yields hready htokens items pos [.nothing pos] hstart
      hrepeats fun id next hnext => hrules id next (.of_seq hnext)
    rw [needed_cons, needed_nil, Set.union_empty, ← needing.seq] at hyields
    refine ⟨hyields, fun part hpart => ?_⟩
    obtain ⟨hge, hle, hnull⟩ := hends part hpart
    exact ⟨hge, hle, fun heq => (hnull heq).2⟩
  | .alt items, pos, hpos, hrepeats, hrules => by
    obtain ⟨hyields, hends⟩ := any_of_yields hready htokens items pos [] hpos
      hrepeats hrules
    refine ⟨hyields, fun part hpart => ?_⟩
    rcases mem_foldl_prefer hpart with hpart | ⟨hpart, _⟩
    · simp at hpart
    · exact hends part hpart
  | .optional inner, pos, hpos, hrepeats, hrules => by
    obtain ⟨hyields, hends⟩ := item_at_yields hready htokens inner pos hpos
      hrepeats hrules
    rw [needing.optional]
    refine ⟨hyields.map, fun part hpart => ?_⟩
    rcases mem_prefer hpart with hpart | ⟨rfl, _⟩
    · obtain ⟨hge, hle, _⟩ := hends part hpart
      exact ⟨hge, hle, fun _ => rfl⟩
    · exact ⟨Nat.le_refl _, hpos, fun _ => rfl⟩
  | .rep inner least most, pos, hpos, hrepeats, hrules => by
    simp only [repeatsNullable, Bool.or_eq_false_iff] at hrepeats
    have hinner : ∀ next, pos ≤ next → next ≤ input.size →
        Yields inv (itemAt input rule inner next) (inner.parts input value next) (needing.item inner next) ∧
        ∀ part ∈ inner.parts input value next, EndsAfter input false next part.stop := by
      intro next hge hle
      rw [← hrepeats.1]
      exact item_at_yields hready htokens inner next hle hrepeats.2 fun id later hlater =>
        hrules id later (.of_rep hge hlater)
    have hstep := fun next hge hle => (hinner next hge hle).2
    have hstart : ∀ part ∈ [nothing pos], pos + 0 ≤ part.stop ∧ part.stop ≤ input.size := by
      simp [nothing, hpos]
    have hyields := @repeated_yields least 0 (input.size + 2) _ _ _ _ _ _ _ _ _
      (fun next hge hle => (hinner next hge hle).1) hstep
      (fun count next => needing.round_end inner most count next)
      (fun count next hmost hle => needing.round_next inner most count next hmost hle hrepeats.2) []
      hstart (by omega) (by omega)
    rw [needed_cons, needed_nil, Set.union_empty] at hyields
    rw [needing.rep]
    refine ⟨hyields, fun part hpart => ?_⟩
    obtain ⟨origin, horigin, hstop, _⟩ := mem_foldl_compete hpart
    rcases horigin with horigin | horigin
    · simp at horigin
    · have hbounds := rounds_bounds hstep hstart horigin
      refine ⟨by omega, by omega, fun heq => ?_⟩
      have hleast : least = 0 := by omega
      simp [nullable, hleast]

/-- Evaluating items in a row yields their matches if the rules that they may enter resolve. At the
position itself they may enter rules only if something before them ended there. -/
theorem seq_from_yields (hready : input.Ready)
    (htokens : ∀ id pos, Yields inv (tokensAt input id pos) (input.tokens id pos) (needing.item (.terminal id) pos)) :
    ∀ (items : List Item) (pos : Nat) (found : List Partial),
      (∀ part ∈ found, pos ≤ part.stop ∧ part.stop ≤ input.size) →
      anyRepeatsNullable input.nullable items = false →
      (∀ id next, EntersSeq input items pos found id next → Resolves inv rule needing id next) →
      Yields inv (seqFrom input rule items found) (partsSeq input value items found)
          (needed (needing.all items) found) ∧
        ∀ part ∈ partsSeq input value items found, pos ≤ part.stop ∧ part.stop ≤ input.size ∧ (part.stop = pos →
            (∃ part ∈ found, part.stop = pos) ∧ allNullable input.nullable items = true)
  | [], pos, found, hfound, _, _ => by
    have hnone : needed (needing.all []) found = ∅ := by simp [needed, needing.all_nil]
    refine ⟨hnone ▸ .pure found, fun part hpart => ?_⟩
    obtain ⟨hge, hle⟩ := hfound part hpart
    exact ⟨hge, hle, fun heq => ⟨⟨part, hpart, heq⟩, rfl⟩⟩
  | item :: items, pos, found, hfound, hrepeats, hrules => by
    simp only [anyRepeatsNullable, Bool.or_eq_false_iff] at hrepeats
    have hitem : ∀ part ∈ found, Yields inv (itemAt input rule item part.stop) (item.parts input value part.stop)
          (needing.item item part.stop) ∧
        ∀ next ∈ item.parts input value part.stop,
          EndsAfter input (item.nullable input.nullable) part.stop next.stop := by
      intro part hpart
      obtain ⟨hge, hle⟩ := hfound part hpart
      exact item_at_yields hready htokens item part.stop hle hrepeats.1 fun id next hnext =>
        hrules id next (.first hpart hge hnext)
    have hnext : ∀ part ∈ extendEach (fun pos => item.parts input value pos) found,
        pos ≤ part.stop ∧ part.stop ≤ input.size ∧ (part.stop = pos →
          (∃ part ∈ found, part.stop = pos) ∧ item.nullable input.nullable = true) :=
      fun part => extended_ends hfound fun part hpart => (hitem part hpart).2
    obtain ⟨hyields, hends⟩ := seq_from_yields hready htokens items pos
      (extendEach (fun pos => item.parts input value pos) found)
      (fun part hpart => ⟨(hnext part hpart).1, (hnext part hpart).2.1⟩) hrepeats.2
      fun id next hlater => hrules id next (hlater.rest fun part hpart => (hnext part hpart).2.2)
    refine ⟨?_, fun part hpart => ?_⟩
    · rw [needed_extendEach fun part hpart =>
        needing.all_cons item items part.stop (hfound part hpart).2 hrepeats.1]
      refine (extend_all_yields fun part hpart => (hitem part hpart).1).bind ?_
      split
      · next hempty =>
        rw [List.isEmpty_iff] at hempty
        rw [partsSeq, hempty, parts_seq_nil, needed_nil]
        exact .pure _
      · exact hyields
    · obtain ⟨hge, hle, hnull⟩ := hends part hpart
      refine ⟨hge, hle, fun heq => ?_⟩
      obtain ⟨⟨first, hfirst, hstop⟩, hall⟩ := hnull heq
      obtain ⟨hfound, hitem⟩ := (hnext first hfirst).2.2 hstop
      exact ⟨hfound, by simp [allNullable, hitem, hall]⟩

theorem any_of_yields (hready : input.Ready)
    (htokens : ∀ id pos, Yields inv (tokensAt input id pos) (input.tokens id pos) (needing.item (.terminal id) pos)) :
    ∀ (items : List Item) (pos : Nat) (found : List Partial), pos ≤ input.size →
      anyRepeatsNullable input.nullable items = false →
      (∀ id next, Enters input (leadingAlt input.nullable items) pos id next → Resolves inv rule needing id next) →
      Yields inv (anyOf input rule items pos found)
          ((partsAny input value items pos).foldl prefer found) (needing.item (.alt items) pos) ∧
        ∀ part ∈ partsAny input value items pos,
          EndsAfter input (anyNullable input.nullable items) pos part.stop
  | [], pos, found, _, _, _ => ⟨needing.alt_nil pos ▸ .pure found, by simp [partsAny]⟩
  | item :: items, pos, found, hpos, hrepeats, hrules => by
    simp only [anyRepeatsNullable, Bool.or_eq_false_iff] at hrepeats
    obtain ⟨hfirst, hfirstEnds⟩ := item_at_yields hready htokens item pos hpos hrepeats.1
      fun id next hnext => hrules id next ⟨hnext.1, hnext.2.imp_right fun h =>
        ⟨h.1, by simp [leadingAlt, h.2]⟩⟩
    obtain ⟨hrest, hrestEnds⟩ := any_of_yields hready htokens items pos
      ((item.parts input value pos).foldl prefer found) hpos hrepeats.2
      fun id next hnext => hrules id next ⟨hnext.1, hnext.2.imp_right fun h =>
        ⟨h.1, by simp [leadingAlt, h.2]⟩⟩
    refine ⟨?_, fun part hpart => ?_⟩
    · rw [partsAny, foldl_append, needing.alt_cons]
      exact hfirst.bind hrest
    · rcases mem_append.mp hpart with hpart | hpart
      · obtain ⟨hge, hle, hnull⟩ := hfirstEnds part hpart
        exact ⟨hge, hle, fun heq => by simp [anyNullable, hnull heq]⟩
      · obtain ⟨hge, hle, hnull⟩ := hrestEnds part hpart
        exact ⟨hge, hle, fun heq => by simp [anyNullable, hnull heq]⟩

end

end Items

end Chart

end FlightProcedure
