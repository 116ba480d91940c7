import FlightProcedure.Proofs.Parse.Evaluation
import Mathlib.Data.Finset.Prod
import Mathlib.Order.WellFounded

/-!
# Parsing comes to an end

A rule that is being evaluated enters other rules only at later positions, or at its own position if
they lead it. For rules that have passed the checks this order is well-founded, so no rule is entered
again at the position where it is being evaluated, and there is never more on the stack of active rules
than there is fuel. `rule_at_resolves` puts this together: whatever right entries the chart holds
already, a rule yields the derivations that it yields on an empty chart.
-/

namespace FlightProcedure

open List

namespace Chart

variable {input : Input} {id pos fuel : Nat} {active : List (Nat × Nat)} {chart : Chart}

/-- The derivations of a rule at a position, evaluated on an empty chart. -/
def deriveAt (input : Input) (id pos : Nat) : List Derivation := ((ruleAt input (enoughFuel input) [] id pos).run {}).1

/-- A chart whose entries are right and that records nothing that went wrong. -/
structure Faithful (input : Input) (chart : Chart) : Prop where
  rules : ∀ id pos found, chart.rules[(id, pos)]? = some found → pos ≤ input.size ∧ found = deriveAt input id pos
  tokens : ∀ id pos found, chart.tokens[(id, pos)]? = some found → found = input.tokens id pos
  reentered : chart.reentered = false
  stalled : chart.stalled = false
  exhausted : chart.exhausted = false

def enter (chart : Chart) (id pos : Nat) (found : List Derivation) : Chart :=
  { chart with rules := chart.rules.insert (id, pos) found }

theorem faithful_empty (input : Input) : Faithful input {} where
  rules id pos found h := by simp at h
  tokens id pos found h := by simp at h
  reentered := rfl
  stalled := rfl
  exhausted := rfl

theorem Faithful.enter (h : Faithful input chart) (id : Nat) (hpos : pos ≤ input.size) :
    Faithful input (chart.enter id pos (deriveAt input id pos)) where
  rules other at' found hfound := by
    rw [Chart.enter, Std.HashMap.getElem?_insert] at hfound
    split at hfound
    · next heq =>
      cases beq_iff_eq.mp heq
      exact ⟨hpos, (Option.some.inj hfound).symm⟩
    · exact h.rules other at' found hfound
  tokens := h.tokens
  reentered := h.reentered
  stalled := h.stalled
  exhausted := h.exhausted

theorem Faithful.insert_tokens (h : Faithful input chart) (id pos : Nat) (furthest : Furthest) :
    Faithful input { chart with
      tokens := chart.tokens.insert (id, pos) (input.tokens id pos), furthest } where
  rules := h.rules
  tokens other at' found hfound := by
    rw [Std.HashMap.getElem?_insert] at hfound
    split at hfound
    · next heq =>
      cases beq_iff_eq.mp heq
      exact (Option.some.inj hfound).symm
    · exact h.tokens other at' found hfound
  reentered := h.reentered
  stalled := h.stalled
  exhausted := h.exhausted

theorem tokens_at_yields (input : Input) (id pos : Nat) :
    Yields (fun _ => Faithful input) (tokensAt input id pos) (input.tokens id pos) ∅ := by
  intro _ chart hchart
  rw [tokensAt, StateT.run_bind, StateT.run_get]
  cases hhit : chart.tokens[(id, pos)]? with
  | some found =>
    rw [hchart.tokens id pos found hhit] at hhit
    refine ⟨chart, ?_, hchart⟩
    simp only [pure_bind, hhit]
    rfl
  | none =>
    simp only [pure_bind, hhit]
    have hinsert := hchart.insert_tokens id pos
    cases hterminal : input.grammar.terminals[id]? with
    | none =>
      refine ⟨chart, ?_, hchart⟩
      simp only [Input.tokens, hterminal]
      rfl
    | some terminal =>
      simp only [Input.tokens, hterminal] at hinsert ⊢
      exact ⟨_, rfl, hinsert _⟩

theorem rule_at_hit {found : List Derivation} (h : chart.rules[(id, pos)]? = some found) :
    (ruleAt input fuel active id pos).run chart = (found, chart) := by
  unfold ruleAt
  rw [StateT.run_bind, StateT.run_get]
  simp only [pure_bind, h]
  rfl

theorem rule_at_miss (h : chart.rules[(id, pos)]? = none) (hactive : (id, pos) ∉ active) :
    (ruleAt input (fuel + 1) active id pos).run chart = let evaluated :=
        (anyOf input (ruleAt input fuel ((id, pos) :: active)) (input.alternatives id) pos []).run chart
      let found := evaluated.1.map (Partial.toDerivation id pos)
      (found, evaluated.2.enter id pos found) := by
  have hcontains : active.contains (id, pos) = false := by simpa using hactive
  rw [ruleAt, StateT.run_bind, StateT.run_get]
  simp only [pure_bind, h, hcontains, Bool.false_eq_true, if_false]
  rfl

/-- One evaluation of a rule at a position may be called by another one: it is at a later position, or
at the same position and the other rule leads to it. -/
def CalledBy (input : Input) (next call : Nat × Nat) : Prop :=
  next.2 ≤ input.size ∧ (call.2 < next.2 ∨ (next.2 = call.2 ∧
    next.1 ∈ Item.leadingAlt input.nullable (input.alternatives call.1)))

theorem called_by_wellFounded (hready : input.Ready) : WellFounded (CalledBy input) := by
  -- The text that remains gets shorter, or it stays the same and the rules follow their leading rules.
  refine Subrelation.wf ?_ (InvImage.wf (fun call : Nat × Nat => (input.size - call.2, call.1))
    (WellFounded.prod_lex Nat.lt_wfRel.wf hready.checked.leads))
  rintro ⟨next, later⟩ ⟨id, pos⟩ ⟨hle, hlt | ⟨heq, hmem⟩⟩
  · apply Prod.Lex.left
    show input.size - later < input.size - pos
    simp only at hle hlt
    omega
  · simp only at heq hmem
    simp only [InvImage, heq]
    apply Prod.Lex.right
    unfold Input.alternatives at hmem
    cases hrule : input.grammar.rules[id]? with
    | none => simp [hrule, Item.leadingAlt] at hmem
    | some rule => exact ⟨rule, rfl, by simpa [hrule, Input.nullable] using hmem⟩

/-- The stack of active evaluations above a call: all of them have led to the call, and together with
the fuel there is room for every rule at every position. -/
structure Stacked (input : Input) (fuel : Nat) (active : List (Nat × Nat)) (call : Nat × Nat) : Prop where
  nodup : active.Nodup
  inside : ∀ other ∈ active, other.1 < input.grammar.rules.size ∧ other.2 ≤ input.size
  above : ∀ other ∈ active, Relation.TransGen (CalledBy input) call other
  fuel_le : enoughFuel input ≤ active.length + fuel

theorem stacked_nil (input : Input) (call : Nat × Nat) : Stacked input (enoughFuel input) [] call where
  nodup := nodup_nil
  inside := by simp
  above := by simp
  fuel_le := by simp

theorem Stacked.not_mem (hready : input.Ready) {call : Nat × Nat}
    (h : Stacked input fuel active call) : call ∉ active := fun hmem =>
  (called_by_wellFounded hready).transGen.irrefl.irrefl call (h.above call hmem)

/-- There is fuel left for a call: the active evaluations are different pairs of a rule and a
position. -/
theorem Stacked.fuel_pos {call : Nat × Nat} (h : Stacked input fuel active call) : 0 < fuel := by
  have hsubset : active.toFinset ⊆
      Finset.range input.grammar.rules.size ×ˢ Finset.range (input.size + 1) := by
    intro other hother
    obtain ⟨hid, hpos⟩ := h.inside other (mem_toFinset.mp hother)
    simp only [Finset.mem_product, Finset.mem_range]
    omega
  have hlength : active.length ≤ input.grammar.rules.size * (input.size + 1) := by
    rw [← toFinset_card_of_nodup h.nodup]
    simpa using Finset.card_le_card hsubset
  have hfuel := h.fuel_le
  unfold enoughFuel at hfuel
  omega

variable (hready : input.Ready)

include hready

theorem Stacked.push {call next : Nat × Nat}
    (h : Stacked input (fuel + 1) active call) (hid : call.1 < input.grammar.rules.size)
    (hpos : call.2 ≤ input.size) (hnext : CalledBy input next call) :
    Stacked input fuel (call :: active) next where
  nodup := nodup_cons.mpr ⟨h.not_mem hready, h.nodup⟩
  inside other hother := by
    rcases mem_cons.mp hother with rfl | hother
    · exact ⟨hid, hpos⟩
    · exact h.inside other hother
  above other hother := by
    rcases mem_cons.mp hother with rfl | hother
    · exact .single hnext
    · exact .head hnext (h.above other hother)
  fuel_le := by
    have := h.fuel_le
    simp only [length_cons]
    omega

/-- The derivations that the alternatives of a rule make up, given those of the rules that they
enter. -/
def ruleParts (input : Input) (rule : Nat → Nat → List Derivation) (id pos : Nat) : List Partial :=
  (Item.partsAny input rule (input.alternatives id) pos).foldl Partial.prefer []

theorem alternatives_yield (hpos : pos ≤ input.size) {rule : Nat → Nat → ChartM (List Derivation)}
    (hcalls : id < input.grammar.rules.size → ∀ next later, CalledBy input (next, later) (id, pos) →
        Resolves (fun _ => Faithful input) rule (.none input (deriveAt input)) next later) :
    Yields (fun _ => Faithful input) (anyOf input rule (input.alternatives id) pos [])
        (ruleParts input (deriveAt input) id pos) ∅ ∧
      ∀ part ∈ ruleParts input (deriveAt input) id pos,
        EndsAfter input (input.nullable.getD id false) pos part.stop := by
  cases hrule : input.grammar.rules[id]? with
  | none =>
    have hnone : input.alternatives id = [] := by simp [Input.alternatives, hrule]
    simp only [ruleParts, hnone, Item.partsAny, foldl_nil]
    exact ⟨.pure [], by simp⟩
  | some definition =>
    have hsome : input.alternatives id = definition.alternatives := by
      simp [Input.alternatives, hrule]
    obtain ⟨hyields, hends⟩ := any_of_yields hready (tokens_at_yields input)
      (input.alternatives id) pos [] hpos
      (hsome ▸ hready.checked.repeats id definition hrule)
      fun next later hlater =>
        hcalls (Array.getElem?_eq_some_iff.mp hrule).1 next later hlater
    refine ⟨hyields, fun part hpart => ?_⟩
    rcases Partial.mem_foldl_prefer hpart with hpart | ⟨hpart, _⟩
    · simp at hpart
    · rw [Input.nullable, nullable_rules_get hrule, ← hsome]
      exact hends part hpart

/-- A rule yields the same derivations on every faithful chart, whatever evaluations are active above
it, and keeps the chart faithful. The derivations are the matches of its alternatives. -/
theorem rule_at_resolves (hpos : pos ≤ input.size) (hstacked : Stacked input fuel active (id, pos)) :
    Resolves (fun _ => Faithful input) (ruleAt input fuel active) (.none input (deriveAt input)) id pos ∧
      deriveAt input id pos = (ruleParts input (deriveAt input) id pos).map (Partial.toDerivation id pos) := by
  induction hcall : (id, pos) using (called_by_wellFounded hready).induction
    generalizing id pos fuel active with
  | _ call ih =>
    subst hcall
    have hparts : ∀ {fuel active}, Stacked input (fuel + 1) active (id, pos) →
        Yields (fun _ => Faithful input) (anyOf input (ruleAt input fuel ((id, pos) :: active))
            (input.alternatives id) pos []) (ruleParts input (deriveAt input) id pos) ∅ ∧
          ∀ part ∈ ruleParts input (deriveAt input) id pos,
            EndsAfter input (input.nullable.getD id false) pos part.stop := by
      intro fuel active hstacked
      refine alternatives_yield hready hpos fun hid next later hcalled => ?_
      exact (ih (next, later) hcalled hcalled.1 (hstacked.push hready hid hpos hcalled) rfl).1
    have hmiss : ∀ {fuel active chart}, Stacked input fuel active (id, pos) →
        Faithful input chart → chart.rules[(id, pos)]? = none →
        let found := (ruleParts input (deriveAt input) id pos).map (Partial.toDerivation id pos)
        ∃ after, Faithful input after ∧
          (ruleAt input fuel active id pos).run chart = (found, after.enter id pos found) := by
      intro fuel active chart hstacked hchart hnone
      obtain ⟨fuel, rfl⟩ := Nat.exists_eq_succ_of_ne_zero hstacked.fuel_pos.ne'
      obtain ⟨after, hrun, hafter⟩ := (hparts hstacked).1 ∅ chart hchart
      refine ⟨after, hafter, ?_⟩
      rw [rule_at_miss hnone (hstacked.not_mem hready), hrun]
    -- The evaluation on the empty chart is one of those that the induction speaks about.
    have heq : deriveAt input id pos = (ruleParts input (deriveAt input) id pos).map (Partial.toDerivation id pos) := by
      obtain ⟨after, _, hrun⟩ := hmiss (stacked_nil input (id, pos)) (faithful_empty input) (by simp)
      exact congrArg Prod.fst hrun
    refine ⟨⟨fun _ chart hchart => ?_, fun derivation hderivation => ?_⟩, heq⟩
    · cases hhit : chart.rules[(id, pos)]? with
      | some found =>
        rw [← (hchart.rules id pos found hhit).2]
        exact ⟨chart, rule_at_hit hhit, hchart⟩
      | none =>
        obtain ⟨after, hafter, hrun⟩ := hmiss hstacked hchart hhit
        rw [← heq] at hrun
        exact ⟨_, hrun, hafter.enter id hpos⟩
    · rw [heq] at hderivation
      obtain ⟨part, hpart, rfl⟩ := mem_map.mp hderivation
      obtain ⟨fuel, rfl⟩ := Nat.exists_eq_succ_of_ne_zero hstacked.fuel_pos.ne'
      exact (hparts hstacked).2 part hpart

theorem derive_at_eq (hpos : pos ≤ input.size) (id : Nat) : deriveAt input id pos =
      (ruleParts input (deriveAt input) id pos).map (Partial.toDerivation id pos) :=
  (rule_at_resolves hready hpos (stacked_nil input (id, pos))).2

theorem derive_faithful (rule : Nat) :
    (derive input rule).1 = deriveAt input rule 0 ∧ Faithful input (derive input rule).2 := by
  obtain ⟨after, hrun, hafter⟩ := (rule_at_resolves hready (Nat.zero_le _)
    (stacked_nil input (rule, 0))).1.1 ∅ {} (faithful_empty input)
  unfold derive
  rw [hrun]
  exact ⟨rfl, hafter⟩

end Chart

/-- Parsing by a grammar that can be built comes to an end by itself: no rule is entered again at the
position where it is being evaluated, every step of a repetition gets past the position where it
started, no evaluation is cut off for lack of fuel, and ignored text is skipped until none is left. What
the chart holds of a rule is what the rule yields by itself. -/
theorem built_grammar_parse_ends {defs : Definitions} {options : GrammarOptions} {grammar : Grammar}
    (h : Grammar.build defs options = .ok grammar) (source : String) (rule : Nat) :
    let input := Input.ofChars grammar source.toList.toArray
    let chart := (Chart.derive input rule).2
    chart.reentered = false ∧ chart.stalled = false ∧ chart.exhausted = false ∧
      (∀ id pos found, chart.rules[(id, pos)]? = some found → found = Chart.deriveAt input id pos) ∧
      ∀ pos, pos ≤ input.size → grammar.skipRound input.chars (input.skip pos) = input.skip pos := by
  intro input chart
  have hready : input.Ready := Input.ready_of_build h _
  have hchart : Chart.Faithful input chart := (Chart.derive_faithful hready rule).2
  refine ⟨hchart.reentered, hchart.stalled, hchart.exhausted,
    fun id pos found hfound => (hchart.rules id pos found hfound).2, fun pos hpos => ?_⟩
  rw [Input.skip_of_chars]
  apply Grammar.skip_rounds_settled grammar hpos
  show source.toList.toArray.size < pos + (source.toList.toArray.size + 1)
  omega

/-- A row of pairs: a pair is an item and perhaps another one, and an item is one cross or two. -/
def pairDefinitions : Definitions where
  rules := [
    { name := "row", line := 1, body := .rep (.symbol "pair") 1 none },
    { name := "pair", line := 2, body := .seq [.symbol "item", .optional (.symbol "item")] },
    { name := "item", line := 3, body := .alt [.literal "x", .seq [.literal "x", .literal "x"]] }]

theorem pair_definitions_build : ∃ grammar, Grammar.build pairDefinitions { ignore := [" "] } = .ok grammar := by
  obtain ⟨grammar, hbuild, -⟩ := @ok_of_any _ _ (Grammar.build pairDefinitions { ignore := [" "] }) (fun _ => true)
    (by decide +kernel)
  exact ⟨grammar, hbuild⟩

/-- Parsing three crosses in a row of pairs comes to an end. -/
theorem pair_parse_ends : ∃ grammar, Grammar.build pairDefinitions { ignore := [" "] } = .ok grammar ∧
      let input := Input.ofChars grammar "x x x".toList.toArray
      (Chart.derive input 0).2.reentered = false ∧ (Chart.derive input 0).2.stalled = false ∧
        (Chart.derive input 0).2.exhausted = false := by
  obtain ⟨grammar, hbuild⟩ := pair_definitions_build
  obtain ⟨hreentered, hstalled, hexhausted, _⟩ := built_grammar_parse_ends hbuild "x x x" 0
  exact ⟨grammar, hbuild, hreentered, hstalled, hexhausted⟩

end FlightProcedure
