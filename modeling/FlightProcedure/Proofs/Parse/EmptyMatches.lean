import FlightProcedure.Proofs.Parse.Recognition

/-!
# Rules that match nothing

The marks of `nullableRules` say exactly what the parser does: a marked rule has a match that ends where it
starts, at every position of every source, and the matches of any other rule consume text. The marks are
reached step by step, and each step marks rules that match nothing if those marked before do; that no
repetition of a checked rule can stall makes room for its least number of steps.
-/

namespace FlightProcedure

variable {input : Input} {known : Array Bool} {item : Item} {pos : Nat}

theorem spans_of_nullable (hknown : ∀ id, known.getD id false = true → Spans input (.rule id) pos pos)
    (hbelow : MarksBelow known input.nullable) (hrepeats : item.repeatsNullable input.nullable = false)
    (h : item.nullable known = true) : Spans input item pos pos := by
  induction item using Item.rec (motive_2 := fun items => Item.anyRepeatsNullable input.nullable items = false →
    (Item.allNullable known items = true → SpansAll input items pos pos) ∧
      (Item.anyNullable known items = true → ∃ item ∈ items, Spans input item pos pos)) with
  | rule id => exact hknown id h
  | terminal => cases h
  | seq _ ih => exact .seq ((ih hrepeats).1 h)
  | alt _ ih =>
    obtain ⟨item, hmem, hitem⟩ := (ih hrepeats).2 h
    exact .alt hmem hitem
  | optional => exact .skipped
  | rep inner least most =>
    rw [Item.nullable, Bool.or_eq_true, beq_iff_eq] at h
    rcases h with rfl | h
    · exact .rep (Nat.le_refl 0) (fun _ _ => Nat.zero_le _) .nil
    · -- A repeated item never matches nothing, whatever is known of the rules.
      have hinner : Item.anyNullable input.nullable [inner] = true :=
        Item.any_nullable_mono hbelow (by rw [Item.anyNullable, h, Bool.true_or])
      simp_all [Item.anyNullable, Item.repeatsNullable]
  | nil => exact ⟨fun _ => .nil, fun h => nomatch h⟩
  | cons first rest ih ihs hrepeats =>
    rw [Item.anyRepeatsNullable, Bool.or_eq_false_iff] at hrepeats
    obtain ⟨hall, hany⟩ := ihs hrepeats.2
    simp only [Item.allNullable, Item.anyNullable, Bool.and_eq_true, Bool.or_eq_true, List.exists_mem_cons_iff]
    exact ⟨fun h => .cons (ih hrepeats.1 h.1) (hall h.2), Or.imp (ih hrepeats.1) hany⟩

theorem spans_of_marked (hready : input.Ready) (pos id : Nat) (h : input.nullable.getD id false = true) :
    Spans input (.rule id) pos pos := by
  refine nullable_rules_induction (motive := fun id => Spans input (.rule id) pos pos)
    (fun known hbelow hknown id rule hrule hnullable => ?_) id h
  have halternatives : input.alternatives id = rule.alternatives := by simp [Input.alternatives, hrule]
  refine .rule (spans_of_nullable hknown hbelow ?_ ?_)
  · exact Chart.alternatives_repeat_nothing hready id
  · rwa [Item.nullable, halternatives]

/-- The rules of a grammar that can be built are marked as the parser treats them. At every position of every
source a rule that can match nothing has a match that ends there, and the matches of any other rule end after
it, whether the rule is evaluated on an empty chart or its matches are found in the chart of a parse. -/
theorem built_grammar_nullability {defs : Definitions} {options : GrammarOptions} {grammar : Grammar}
    (h : Grammar.build defs options = .ok grammar) (source : String) (id : Nat) {pos : Nat}
    (hpos : pos ≤ source.length) :
    let input := Input.ofChars grammar source.toList.toArray
    let agrees (found : List Derivation) := if (nullableRules grammar.rules).getD id false = true then
      ∃ derivation ∈ found, derivation.stop = pos else ∀ derivation ∈ found, pos < derivation.stop
    agrees (Chart.deriveAt input id pos) ∧
      ∀ start found, (Chart.derive input start).2.rules[(id, pos)]? = some found → agrees found := by
  intro input agrees
  have hready : input.Ready := Input.ready_of_build h _
  have hinside : pos ≤ input.size := hpos
  have hagrees : agrees (Chart.deriveAt input id pos) := by
    unfold agrees
    split
    · next hmarked =>
      have hspans := spans_of_marked hready pos id hmarked
      exact List.mem_map.mp ((Chart.derive_at_spans hready hinside).mpr hspans)
    · next hmarked =>
      intro derivation hderivation
      have hends := (Chart.rule_at_resolves hready hinside (Chart.stacked_nil input (id, pos))).1.2 _ hderivation
      rw [show input.nullable.getD id false = false from Bool.eq_false_iff.mpr hmarked] at hends
      exact hends.lt
  refine ⟨hagrees, fun start found hfound => ?_⟩
  rw [((Chart.derive_faithful hready start).2.rules id pos found hfound).2]
  exact hagrees

/-- A pair in a row of pairs consumes text also at the end of the source. -/
theorem pair_consumes : ∃ grammar, Grammar.build pairDefinitions { ignore := [" "] } = .ok grammar ∧
    5 ≤ "x x x".length ∧ let input := Input.ofChars grammar "x x x".toList.toArray
      if (nullableRules grammar.rules).getD 1 false = true then ∃ derivation ∈ Chart.deriveAt input 1 5, derivation.stop = 5
      else ∀ derivation ∈ Chart.deriveAt input 1 5, 5 < derivation.stop := by
  obtain ⟨grammar, hbuild⟩ := pair_definitions_build
  exact ⟨grammar, hbuild, by decide, (built_grammar_nullability hbuild "x x x" 1 (by decide)).1⟩

end FlightProcedure
