import FlightProcedure.Proofs.Parse.Derivability
import FlightProcedure.Proofs.Parse.Outcome
import FlightProcedure.Proofs.Parse.Termination

/-!
# Parsing recognises exactly what the grammar derives

`spans_complete` says that an evaluation reaches every end that its item can reach, and `parts_read`
that each of its matches is one that the grammar derives, by the first alternatives that allow it.
Together they say that the chart is exact, and that a source is rejected as unexpected only if no
derivation of the start rule reads all of it.
-/

namespace FlightProcedure

open List Partial Item

namespace Item

variable {input : Input} {rule : Nat → Nat → List Derivation} {inner : Item} {items : List Item}
  {frontier : List Partial} {part : Partial} {pos stop least fuel count : Nat} {most : Option Nat}

@[elab_as_elim]
theorem induction_on {motive : Item → Prop} (item : Item) (rule : ∀ id, motive (.rule id))
    (terminal : ∀ id, motive (.terminal id))
    (seq : ∀ items, (∀ item ∈ items, motive item) → motive (.seq items))
    (alt : ∀ items, (∀ item ∈ items, motive item) → motive (.alt items))
    (optional : ∀ inner, motive inner → motive (.optional inner))
    (rep : ∀ inner least most, motive inner → motive (.rep inner least most)) : motive item :=
  match item with
  | .rule id => rule id
  | .terminal id => terminal id
  | .seq items => seq items fun item _ => induction_on item rule terminal seq alt optional rep
  | .alt items => alt items fun item _ => induction_on item rule terminal seq alt optional rep
  | .optional inner => optional inner (induction_on inner rule terminal seq alt optional rep)
  | .rep inner least most =>
    rep inner least most (induction_on inner rule terminal seq alt optional rep)

theorem any_repeats_nullable_eq_false {rules : Array Bool} :
    anyRepeatsNullable rules items = false ↔ ∀ item ∈ items, item.repeatsNullable rules = false := by
  induction items with
  | nil => simp [anyRepeatsNullable]
  | cons item items ih => simp [anyRepeatsNullable, ih]

theorem parts_any_eq (input : Input) (rule : Nat → Nat → List Derivation) (items : List Item)
    (pos : Nat) : partsAny input rule items pos = items.flatMap fun item => item.parts input rule pos := by
  induction items with
  | nil => rfl
  | cons item items ih => rw [partsAny, ih, flatMap_cons]

theorem parts_seq_replicate_succ (input : Input) (rule : Nat → Nat → List Derivation)
    (inner : Item) (count : Nat) (frontier : List Partial) :
    partsSeq input rule (replicate (count + 1) inner) frontier =
      extendEach (fun pos => inner.parts input rule pos)
        (partsSeq input rule (replicate count inner) frontier) := by
  induction count generalizing frontier with
  | zero => rfl
  | succ count ih => rw [replicate_succ, partsSeq, ih, replicate_succ, partsSeq]

def allows (least : Nat) (most : Option Nat) (count : Nat) : Bool := decide (least ≤ count) && most.all (count ≤ ·)

theorem allows_iff : allows least most count = true ↔ least ≤ count ∧ ∀ bound, most = some bound → count ≤ bound := by
  simp [allows, Option.all_eq_true]

/-- The matches of a repetition are those of its body in a row, as many times as the bounds allow. -/
theorem rounds_eq (hmost : ∀ bound, most = some bound → count ≤ bound) :
    rounds (fun pos => inner.parts input rule pos) least most fuel count frontier =
      ((range fuel).filter fun steps => allows least most (count + steps)).flatMap
        fun steps => partsSeq input rule (replicate steps inner) frontier := by
  induction fuel generalizing count frontier with
  | zero => rfl
  | succ fuel ih =>
    -- The frontier itself takes no further step, and all other matches take at least one.
    have hrange : range (fuel + 1) = [0] ++ (range fuel).map Nat.succ := range_succ_eq_map
    have hnow : (if least ≤ count then frontier else []) =
        ([0].filter fun steps => allows least most (count + steps)).flatMap
          fun steps => partsSeq input rule (replicate steps inner) frontier := by
      by_cases hleast : least ≤ count
      · have hallows := allows_iff.mpr ⟨hleast, hmost⟩
        simp [hleast, hallows, partsSeq]
      · simp [hleast, allows]
    have hlater : (fun steps => allows least most (count + steps)) ∘ Nat.succ =
        fun steps => allows least most (count + 1 + steps) := by
      funext steps
      rw [Function.comp_apply, show count + Nat.succ steps = count + 1 + steps by omega]
    rw [rounds, hnow, hrange, filter_append, flatMap_append, filter_map, flatMap_map, hlater]
    congr 1
    by_cases hany : most.any (· ≤ count) = true
    · obtain ⟨bound, rfl, hle⟩ := (Option.any_eq_true _ _).mp hany
      rw [if_pos hany, eq_comm, flatMap_eq_nil_iff]
      intro steps hsteps
      have := (allows_iff.mp (mem_filter.mp hsteps).2).2 bound rfl
      have := of_decide_eq_true hle
      omega
    · rw [if_neg hany]
      apply ih
      rintro bound rfl
      have hlt : ¬ bound ≤ count := by simpa using hany
      omega

theorem mem_rounds : part ∈ rounds (fun pos => inner.parts input rule pos) least most fuel 0 frontier ↔
      ∃ steps, steps < fuel ∧ (least ≤ steps ∧ ∀ bound, most = some bound → steps ≤ bound) ∧
        part ∈ partsSeq input rule (replicate steps inner) frontier := by
  rw [rounds_eq fun _ _ => Nat.zero_le _, mem_flatMap]
  simp only [mem_filter, mem_range, Nat.zero_add, allows_iff, and_assoc]

theorem mem_parts_any_prefer {found : List Partial} (h : part ∈ (partsAny input rule items pos).foldl prefer found) :
    part ∈ found ∨ (part.stop ∉ found.map (·.stop) ∧ ∃ before item after,
      items = before ++ item :: after ∧ part ∈ item.parts input rule pos ∧
        ∀ other ∈ before, part.stop ∉ (other.parts input rule pos).map (·.stop)) := by
  induction items generalizing found with
  | nil => exact .inl h
  | cons item items ih =>
    rw [partsAny, foldl_append] at h
    rcases ih h with hfirst | ⟨hnew, before, next, after, rfl, hpart, hbefore⟩
    · rcases mem_foldl_prefer hfirst with hfound | ⟨hpart, hnew⟩
      · exact .inl hfound
      · exact .inr ⟨hnew, [], item, items, rfl, hpart, by simp⟩
    · rw [stops_foldl_prefer, mem_foldl_add_stop, not_or] at hnew
      refine .inr ⟨hnew.1, item :: before, next, after, rfl, hpart, fun other hother => ?_⟩
      rcases mem_cons.mp hother with rfl | hother
      · exact hnew.2
      · exact hbefore other hother

end Item

namespace Chart

variable {input : Input} {item inner : Item} {items : List Item} {found : List Partial}
  {part : Partial} {id pos stop count : Nat} {policy : Policy} {good : Derivation → Prop}
  {rivals : Nat → Nat → Nat → List (List Derivation) → Prop}

variable (hready : input.Ready)

include hready

theorem alternatives_repeat_nothing (id : Nat) :
    anyRepeatsNullable input.nullable (input.alternatives id) = false := by
  unfold Input.alternatives
  cases hrule : input.grammar.rules[id]? with
  | none => rfl
  | some rule => exact hready.checked.repeats id rule hrule

theorem parts_ends (hpos : pos ≤ input.size) (hrepeats : item.repeatsNullable input.nullable = false)
    (h : part ∈ item.parts input (deriveAt input) pos) :
    EndsAfter input (item.nullable input.nullable) pos part.stop :=
  (item_at_yields hready (tokens_at_yields input) item pos hpos hrepeats
    fun id next hnext => (rule_at_resolves hready hnext.1 (stacked_nil input (id, next))).1).2 part h

theorem extended_inside (hrepeats : item.repeatsNullable input.nullable = false)
    (hfound : ∀ part ∈ found, part.stop ≤ input.size) :
    ∀ part ∈ extendEach (fun pos => item.parts input (deriveAt input) pos) found, part.stop ≤ input.size := by
  intro part hpart
  obtain ⟨first, hfirst, second, hsecond, hstop, _⟩ := mem_extendEach hpart
  rw [hstop]
  exact (parts_ends hready (hfound first hfirst) hrepeats hsecond).2.1

theorem replicate_bounds (hpos : pos ≤ input.size) (hrepeats : inner.repeatsNullable input.nullable = false)
    (hnullable : inner.nullable input.nullable = false)
    (h : part ∈ partsSeq input (deriveAt input) (replicate count inner) [.nothing pos]) :
    pos + count ≤ part.stop ∧ part.stop ≤ input.size := by
  induction count generalizing part with
  | zero =>
    cases mem_singleton.mp h
    exact ⟨Nat.le_refl _, hpos⟩
  | succ count ih =>
    rw [parts_seq_replicate_succ] at h
    refine frontier_advances (fun next _ hnext part hpart => ?_) (fun part hpart => ih hpart) part h
    rw [← hnullable]
    exact parts_ends hready hnext hrepeats hpart

theorem spans_complete {item : Item} {pos stop : Nat} (h : Spans input item pos stop)
    (hpos : pos ≤ input.size) (hrepeats : item.repeatsNullable input.nullable = false) :
    stop ∈ (item.parts input (deriveAt input) pos).map (·.stop) := by
  induction h using Spans.rec (motive_2 := fun items pos stop _ =>
      (∀ item ∈ items, item.repeatsNullable input.nullable = false) → ∀ found : List Partial,
        (∀ part ∈ found, part.stop ≤ input.size) → pos ∈ found.map (·.stop) →
          stop ∈ (partsSeq input (deriveAt input) items found).map (·.stop)) with
  | rule _ ih =>
    rw [parts, derive_at_eq hready hpos, map_map, map_map]
    exact ih hpos (alternatives_repeat_nothing hready _)
  | terminal hterminal hstop =>
    simp only [parts, Input.tokens, hterminal, map_map, mem_map]
    exact ⟨_, hstop, rfl⟩
  | seq _ ih =>
    rw [repeatsNullable, any_repeats_nullable_eq_false] at hrepeats
    exact ih hrepeats [.nothing _] (by simpa [nothing] using hpos) (by simp [nothing])
  | alt hmem _ ih =>
    rw [repeatsNullable, any_repeats_nullable_eq_false] at hrepeats
    rw [parts, stops_foldl_prefer, mem_foldl_add_stop, parts_any_eq, map_flatMap, mem_flatMap]
    exact .inr ⟨_, hmem, ih hpos (hrepeats _ hmem)⟩
  | skipped =>
    rw [parts, stops_prefer, mem_add_stop]
    exact .inr rfl
  | present _ ih =>
    rw [parts, stops_prefer, mem_add_stop]
    exact .inl (ih hpos hrepeats)
  | rep hleast hmost _ ih =>
    simp only [repeatsNullable, Bool.or_eq_false_iff] at hrepeats
    have hstop := ih (fun item hitem => (mem_replicate.mp hitem).2 ▸ hrepeats.2) [.nothing _]
      (by simpa [nothing] using hpos) (by simp [nothing])
    obtain ⟨part, hpart, hpartStop⟩ := mem_map.mp hstop
    -- Every step takes a character, so the rounds have fuel for all steps.
    have hbounds := replicate_bounds hready hpos hrepeats.2 hrepeats.1 hpart
    rw [parts, stops_foldl_compete, mem_foldl_add_stop]
    exact .inr (mem_map.mpr ⟨part, mem_rounds.mpr ⟨_, by omega, ⟨hleast, hmost⟩, hpart⟩, hpartStop⟩)
  | nil _ _ _ hstart => exact hstart
  | cons _ _ ih ihs hrepeats found hfound hstart =>
    obtain ⟨hitem, hitems⟩ := forall_mem_cons.mp hrepeats
    obtain ⟨first, hfirst, hpos⟩ := mem_map.mp hstart
    have hnext := ih (hpos ▸ hfound first hfirst) hitem
    rw [← hpos] at hnext
    exact ihs hitems _ (extended_inside hready hitem hfound) (mem_stops_extendEach.mpr ⟨first, hfirst, hnext⟩)

/-- Every match of the item whose children are good can be read under a policy. -/
def Sound (input : Input) (policy : Policy) (good : Derivation → Prop) (item : Item) : Prop :=
  ∀ pos part, pos ≤ input.size → part ∈ item.parts input (deriveAt input) pos → (∀ child ∈ part.children, good child) →
      Reads input policy item pos part.children part.stop

theorem parts_seq_read (hrepeats : ∀ item ∈ items, item.repeatsNullable input.nullable = false)
    (hsound : ∀ item ∈ items, Sound input policy good item)
    (hfound : ∀ part ∈ found, part.stop ≤ input.size)
    (h : part ∈ partsSeq input (deriveAt input) items found)
    (hgood : ∀ child ∈ part.children, good child) :
    ∃ first ∈ found, ∃ rest, part.children = first.children ++ rest ∧
      ReadsAll input policy items first.stop rest part.stop := by
  induction items generalizing found with
  | nil => exact ⟨part, h, [], by simp, .nil⟩
  | cons item items ih =>
    obtain ⟨next, hnext, rest, hchildren, hrest⟩ :=
      ih (fun other hother => hrepeats other (by simp [hother]))
        (fun other hother => hsound other (by simp [hother]))
        (extended_inside hready (hrepeats item (by simp)) hfound) h
    obtain ⟨first, hfirst, second, hsecond, hstop, happend⟩ := mem_extendEach hnext
    rw [hchildren, happend, append_assoc] at hgood ⊢
    have hreads := hsound item (by simp) first.stop second (hfound first hfirst) hsecond
      fun child hchild => hgood child (by simp [hchild])
    rw [hstop] at hrest
    exact ⟨first, hfirst, second.children ++ rest, rfl, .cons hreads hrest⟩

theorem parts_row_read (hpos : pos ≤ input.size)
    (hrepeats : ∀ item ∈ items, item.repeatsNullable input.nullable = false)
    (hsound : ∀ item ∈ items, Sound input policy good item)
    (h : part ∈ partsSeq input (deriveAt input) items [.nothing pos])
    (hgood : ∀ child ∈ part.children, good child) :
    ReadsAll input policy items pos part.children part.stop := by
  obtain ⟨first, hfirst, rest, hchildren, hrest⟩ := parts_seq_read hready hrepeats hsound
    (by simpa [nothing] using hpos) h hgood
  cases mem_singleton.mp hfirst
  rw [hchildren]
  exact hrest

theorem parts_read (good : Derivation → Prop)
    (hrules : ∀ id pos derivation, pos ≤ input.size → derivation ∈ deriveAt input id pos → good derivation →
        Reads input (.ordered input rivals) (.rule id) pos [derivation] derivation.stop)
    (item : Item) (hrepeats : item.repeatsNullable input.nullable = false) :
    Sound input (.ordered input rivals) good item := by
  induction item using induction_on with
  | rule id =>
    intro pos part hpos hpart hgood
    obtain ⟨derivation, hderivation, rfl⟩ := mem_map.mp hpart
    exact hrules id pos derivation hpos hderivation (hgood derivation (by simp [single]))
  | terminal id =>
    intro pos part _ hpart _
    obtain ⟨token, htoken, rfl⟩ := mem_map.mp hpart
    unfold Input.tokens at htoken
    split at htoken
    · simp at htoken
    · next terminal hterminal =>
      obtain ⟨stop, hstop, rfl⟩ := mem_map.mp htoken
      exact .terminal hterminal hstop
  | seq items ih =>
    intro pos part hpos hpart hgood
    rw [repeatsNullable, any_repeats_nullable_eq_false] at hrepeats
    exact .seq (parts_row_read hready hpos hrepeats (fun item hitem => ih item hitem (hrepeats item hitem)) hpart hgood)
  | alt items ih =>
    intro pos part hpos hpart hgood
    rw [repeatsNullable, any_repeats_nullable_eq_false] at hrepeats
    rcases mem_parts_any_prefer hpart with hnone | ⟨_, before, item, after, rfl, hpart, hfirst⟩
    · simp at hnone
    · -- An earlier alternative with this end would have been found and preferred.
      refine .alt rfl (fun other hother hspans => hfirst other hother ?_)
        (ih item (by simp) (hrepeats item (by simp)) pos part hpos hpart hgood)
      exact spans_complete hready hspans hpos (hrepeats other (by simp [hother]))
  | optional inner ih =>
    intro pos part hpos hpart hgood
    rcases mem_prefer hpart with hpart | ⟨rfl, hfirst⟩
    · exact .present (ih hrepeats pos part hpos hpart hgood)
    · exact .skipped fun hspans => hfirst (spans_complete hready hspans hpos hrepeats)
  | rep inner least most ih =>
    intro pos part hpos hpart hgood
    simp only [repeatsNullable, Bool.or_eq_false_iff] at hrepeats
    obtain ⟨origin, horigin, hstop, hchildren⟩ := mem_foldl_compete hpart
    obtain ⟨count, _, hbounds, horigin⟩ := mem_rounds.mp (horigin.resolve_left (by simp))
    rw [hchildren] at hgood ⊢
    rw [hstop]
    refine .rep hbounds.1 hbounds.2 (parts_row_read hready hpos ?_ ?_ horigin hgood)
    · exact fun item hitem => (mem_replicate.mp hitem).2 ▸ hrepeats.2
    · exact fun item hitem => (mem_replicate.mp hitem).2 ▸ ih hrepeats.2

theorem derive_at_reads (hrivals : ∀ id pos, pos ≤ input.size → ∀ part ∈ ruleParts input (deriveAt input) id pos,
      rivals id pos part.stop part.rivals)
    (derivation : Derivation) (hpos : pos ≤ input.size) (h : derivation ∈ deriveAt input id pos) :
    Reads input (.ordered input rivals) (.rule id) pos [derivation] derivation.stop := by
  -- A derivation is larger than its children, whatever rules they belong to.
  induction hsize : sizeOf derivation using Nat.strong_induction_on generalizing derivation id pos with
  | _ size ih =>
    subst hsize
    rw [derive_at_eq hready hpos] at h
    obtain ⟨part, hpart, rfl⟩ := mem_map.mp h
    refine .rule (hrivals id pos hpos part hpart) (parts_read hready
      (fun child => sizeOf child < sizeOf (part.toDerivation id pos)) ?_
      (.alt (input.alternatives id)) (alternatives_repeat_nothing hready id) pos part hpos hpart
      fun child hchild => ?_)
    · intro other next child hnext hchild hsmaller
      exact ih _ hsmaller child hnext hchild rfl
    · have := sizeOf_lt_of_mem hchild
      simp only [toDerivation, Derivation.node.sizeOf_spec]
      omega

theorem derive_at_free (derivation : Derivation) (hpos : pos ≤ input.size) (h : derivation ∈ deriveAt input id pos) :
    Reads input .free (.rule id) pos [derivation] derivation.stop :=
  have hreads : Reads input (.ordered input fun _ _ _ _ => True) (.rule id) pos [derivation]
      derivation.stop := derive_at_reads hready (fun _ _ _ _ _ => trivial) derivation hpos h
  hreads.free

theorem parts_spans (hpos : pos ≤ input.size) (hrepeats : item.repeatsNullable input.nullable = false) :
    stop ∈ (item.parts input (deriveAt input) pos).map (·.stop) ↔ Spans input item pos stop := by
  refine ⟨fun h => ?_, fun h => spans_complete hready h hpos hrepeats⟩
  obtain ⟨part, hpart, rfl⟩ := mem_map.mp h
  have hsound : Sound input (.ordered input fun _ _ _ _ => True) (fun _ => True) item :=
    parts_read hready _ (fun id next derivation hnext hderivation _ =>
      derive_at_reads hready (fun _ _ _ _ _ => trivial) derivation hnext hderivation) item hrepeats
  exact (hsound pos part hpos hpart fun _ _ => trivial).spans

theorem derive_at_spans (hpos : pos ≤ input.size) :
    stop ∈ (deriveAt input id pos).map (·.stop) ↔ Spans input (.rule id) pos stop := by
  rw [← parts_spans hready hpos rfl, parts, map_map]
  rfl

theorem derive_at_nodup (hpos : pos ≤ input.size) : ((deriveAt input id pos).map (·.stop)).Nodup := by
  rw [derive_at_eq hready hpos, map_map]
  show ((ruleParts input (deriveAt input) id pos).map (·.stop)).Nodup
  rw [ruleParts, stops_foldl_prefer]
  exact foldl_add_stop_nodup nodup_nil

/-- A list that holds exactly one derivation of the rule for each end that the grammar derives. -/
structure Exact (input : Input) (id pos : Nat) (found : List Derivation) : Prop where
  nodup : (found.map (·.stop)).Nodup
  stops : ∀ stop, stop ∈ found.map (·.stop) ↔ Spans input (.rule id) pos stop
  reads : ∀ derivation ∈ found, Reads input .free (.rule id) pos [derivation] derivation.stop
  tokens : ∀ derivation ∈ found, Follows input pos derivation.tokens derivation.stop

theorem derive_at_exact (hpos : pos ≤ input.size) (id : Nat) :
    Exact input id pos (deriveAt input id pos) where
  nodup := derive_at_nodup hready hpos
  stops _ := derive_at_spans hready hpos
  reads derivation hderivation := derive_at_free hready derivation hpos hderivation
  tokens derivation hderivation := by
    have hfollows := (derive_at_free hready derivation hpos hderivation).follows
    simpa [Derivation.tokensAll] using hfollows

end Chart

/-- Parsing by a grammar that can be built recognises exactly what the grammar derives. Every entry of
the chart holds one derivation for each end that its rule can reach, and shows how. The parse yields a
tree or an ambiguity if some derivation of the start rule is followed by ignored text only, and
otherwise reports something unexpected. -/
theorem built_grammar_recognizes {defs : Definitions} {options : GrammarOptions} {grammar : Grammar}
    (h : Grammar.build defs options = .ok grammar) (source : String) (start : Nat) :
    let input := Input.ofChars grammar source.toList.toArray
    let derivable := ∃ stop, Spans input (.rule start) 0 stop ∧ input.skip stop = input.size
    Chart.Exact input start 0 (Chart.derive input start).1 ∧
      (∀ id pos found, (Chart.derive input start).2.rules[(id, pos)]? = some found → Chart.Exact input id pos found) ∧
      (ParsesOrClashes (grammar.parseRule source start) ↔ derivable) ∧
      (¬ derivable → IsUnexpected (grammar.parseRule source start)) := by
  intro input derivable
  have hready : input.Ready := Input.ready_of_build h _
  obtain ⟨hderive, hchart⟩ := Chart.derive_faithful hready start
  have hexact := Chart.derive_at_exact hready (Nat.zero_le _) start
  rw [← hderive] at hexact
  have hread : ∀ derivation ∈ (Chart.derive input start).1,
      input.skip derivation.stop = input.size → derivable := fun derivation hderivation hall =>
    ⟨derivation.stop, (hexact.stops _).mp (mem_map.mpr ⟨derivation, hderivation, rfl⟩), hall⟩
  have hunexpected : ¬ derivable → IsUnexpected (grammar.parseRule source start) := by
    intro hnone
    have hfind : (Chart.derive input start).1.find? input.readsAll = none := by
      rw [find?_eq_none]
      intro derivation hderivation hall
      exact hnone (hread derivation hderivation (of_decide_eq_true hall))
    obtain ⟨last, hlast⟩ := Input.select_eq_unexpected hfind (Chart.derive input start).2.furthest
    exact ⟨_, _, _, _, _, hlast⟩
  refine ⟨hexact, fun id pos found hfound => ?_, ⟨fun hparses => ?_, ?_⟩, hunexpected⟩
  · obtain ⟨hpos, rfl⟩ := hchart.rules id pos found hfound
    exact Chart.derive_at_exact hready hpos id
  · by_cases hderivable : derivable
    · exact hderivable
    · exact absurd (hunexpected hderivable) hparses.not_unexpected
  · rintro ⟨stop, hspans, hall⟩
    obtain ⟨derivation, hderivation, rfl⟩ := mem_map.mp ((hexact.stops stop).mpr hspans)
    exact select_parses_or_clashes hderivation hall _

/-- Three crosses are a row of pairs exactly if the grammar derives them. -/
theorem pair_rows_recognized : ∃ grammar, Grammar.build pairDefinitions { ignore := [" "] } = .ok grammar ∧
      let input := Input.ofChars grammar "x x x".toList.toArray
      Chart.Exact input 0 0 (Chart.derive input 0).1 ∧ (ParsesOrClashes (grammar.parseRule "x x x" 0) ↔
          ∃ stop, Spans input (.rule 0) 0 stop ∧ input.skip stop = input.size) := by
  obtain ⟨grammar, hbuild⟩ := pair_definitions_build
  obtain ⟨hexact, _, hparses, _⟩ := built_grammar_recognizes hbuild "x x x" 0
  exact ⟨grammar, hbuild, hexact, hparses⟩

end FlightProcedure
