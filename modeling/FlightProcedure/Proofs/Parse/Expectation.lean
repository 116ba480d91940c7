import FlightProcedure.Proofs.Parse.Needs

/-!
# What was expected where a parse stopped

A syntax error reports the furthest position at which something is missing and the names of all that is
missing there: `built_grammar_expects`. Read `Missing` first.
-/

namespace FlightProcedure

/-- `Missing input rule pos name` says what is missing at a position after ignored text when the source is
read by the rule: a token that is needed but not there, or the end of the source after a whole match. -/
inductive Missing (input : Input) (rule : Nat) : Nat → String → Prop where
  | token {id next : Nat} {terminal : Terminal} (hneeds : Needs input (.rule rule) 0 id next)
      (hterminal : input.grammar.terminals[id]? = some terminal)
      (hnone : input.tokenEnds terminal (input.skip next) = []) :
      Missing input rule (input.skip next) terminal.name
  | stop {next : Nat} (hspans : Spans input (.rule rule) 0 next) :
      Missing input rule (input.skip next) Input.endName

namespace Input

variable {input : Input} {derivations : List Derivation} {furthest : Furthest}

def noteStops (input : Input) (furthest : Furthest) (derivations : List Derivation) : Furthest :=
  derivations.foldl (fun last derivation => last.note (input.skip derivation.stop) endName) furthest

theorem sums_note_stops {missing : Nat → String → Prop} (h : furthest.Sums missing) :
    (input.noteStops furthest derivations).Sums fun pos name => missing pos name ∨
      ∃ derivation ∈ derivations, pos = input.skip derivation.stop ∧ name = endName := by
  induction derivations generalizing furthest missing with
  | nil => exact h.congr fun _ _ => by simp
  | cons derivation rest ih =>
    refine (ih (h.note (input.skip derivation.stop) endName)).congr fun pos name => ?_
    simp only [List.mem_cons, exists_eq_or_imp, or_assoc]

theorem select_eq_error (h : ∀ derivation ∈ derivations, input.skip derivation.stop ≠ input.size) :
    input.select furthest derivations = .error (input.unexpected (input.noteStops furthest derivations)) := by
  induction derivations generalizing furthest with
  | nil => rfl
  | cons derivation rest ih =>
    rw [select, if_neg (h derivation (by simp)), ih fun other hother => h other (by simp [hother])]
    rfl

end Input

/-- A syntax error of a grammar that can be built reports the furthest position at which something is
missing, or the start of the source if nothing is, and the names of all that is missing there, each once
and in ascending order. -/
theorem built_grammar_expects {defs : Definitions} {options : GrammarOptions} {grammar : Grammar}
    (h : Grammar.build defs options = .ok grammar) {source : String} {rule offset line column : Nat}
    {expected : List String} {found : String}
    (herror : grammar.parseRule source rule = .error (.unexpected offset line column expected found)) :
    Furthest.Sums ⟨offset, expected⟩
      (Missing (Input.ofChars grammar source.toList.toArray) rule) := by
  have hready := Input.ready_of_build h source.toList.toArray
  generalize hinput : Input.ofChars grammar source.toList.toArray = input at hready ⊢
  have hparse : grammar.parseRule source rule =
      input.select (Chart.derive input rule).2.furthest (Chart.derive input rule).1 := by
    subst hinput
    rfl
  rw [hparse] at herror
  have hnone : ∀ derivation ∈ (Chart.derive input rule).1, input.skip derivation.stop ≠ input.size := by
    intro derivation hmem hall
    exact (select_parses_or_clashes hmem hall _).not_unexpected ⟨_, _, _, _, _, herror⟩
  rw [Input.select_eq_error hnone] at herror
  have hsums := @Input.sums_note_stops input (Chart.derive input rule).1 _ _
    (Chart.derive_tracked hready rule)
  generalize input.noteStops (Chart.derive input rule).2.furthest (Chart.derive input rule).1 = last
    at herror hsums
  cases herror
  refine hsums.congr fun pos name => ?_
  rw [(Chart.derive_faithful hready rule).1]
  constructor
  · rintro (⟨id, next, terminal, hneeds, hterminal, hends, rfl, rfl⟩ | ⟨derivation, hmem, rfl, rfl⟩)
    · exact .token hneeds hterminal hends
    · exact .stop ((Chart.derive_at_spans hready (Nat.zero_le _)).mp (List.mem_map_of_mem hmem))
  · intro hmissing
    cases hmissing with
    | token hneeds hterminal hends => exact .inl ⟨_, _, _, hneeds, hterminal, hends, rfl, rfl⟩
    | stop hspans =>
      obtain ⟨derivation, hmem, rfl⟩ := List.mem_map.mp ((Chart.derive_at_spans hready (Nat.zero_le _)).mpr hspans)
      exact .inr ⟨derivation, hmem, rfl, rfl⟩

theorem Reads.stop_at_token {input : Input} {policy : Policy} (hready : input.Ready) {item : Item} {pos stop : Nat}
    {children : List Derivation} (h : Reads input policy item pos children stop) : pos ≤ input.size →
      stop ≤ input.size ∧ (stop = pos ∨
        ∃ terminal ∈ input.grammar.terminals, ∃ start ≤ input.size, stop ∈ input.tokenEnds terminal start) := by
  refine h.induct (fun _ hpos => ⟨hpos, .inl rfl⟩) (fun hfirst hrest hpos => ?_) (fun hterminal hstop hpos => ?_)
    fun _ _ hchildren => hchildren
  · obtain ⟨hmiddle, hfirst⟩ := hfirst hpos
    obtain ⟨hstop, rfl | hrest⟩ := hrest hmiddle
    · exact ⟨hstop, hfirst⟩
    · exact ⟨hstop, .inr hrest⟩
  · exact ⟨(Input.token_ends_bounds hstop).2, .inr ⟨_, Array.mem_of_getElem? hterminal, _,
      (hready.skip_bounds _ hpos).2, hstop⟩⟩

/-- In a row of pairs, only the cross of this source is a token, and it is not the whole source. -/
def crossAlone (grammar : Grammar) : Bool :=
  let input := Input.ofChars grammar "x y".toList.toArray
  (List.range 4).all (fun start =>
    input.grammar.terminals.all fun terminal => (input.tokenEnds terminal start).all (· == 1)) &&
  input.skip 0 != input.size && input.skip 1 != input.size

/-- A row of pairs does not go on with another character than a cross, and the report is right. -/
theorem pair_row_expects : ∃ grammar, Grammar.build pairDefinitions { ignore := [" "] } = .ok grammar ∧
    ∃ offset line column expected found,
      grammar.parseRule "x y" 0 = .error (.unexpected offset line column expected found) ∧
        Furthest.Sums ⟨offset, expected⟩ (Missing (Input.ofChars grammar "x y".toList.toArray) 0) := by
  obtain ⟨grammar, hbuild, hcheck⟩ :=
    @ok_of_any _ _ (Grammar.build pairDefinitions { ignore := [" "] }) crossAlone (by decide +kernel)
  have hready := Input.ready_of_build hbuild "x y".toList.toArray
  simp only [crossAlone, Bool.and_eq_true, List.all_eq_true, bne_iff_ne, ne_eq, List.mem_range,
    Array.all_eq_true_iff_forall_mem, beq_iff_eq] at hcheck
  obtain ⟨⟨htokens, hstart⟩, hcross⟩ := hcheck
  have hnone : ∀ derivation ∈ (Chart.derive (Input.ofChars grammar "x y".toList.toArray) 0).1,
      (Input.ofChars grammar "x y".toList.toArray).skip derivation.stop ≠
        (Input.ofChars grammar "x y".toList.toArray).size := by
    intro derivation hmem
    rw [(Chart.derive_faithful hready 0).1] at hmem
    obtain ⟨-, hstop | ⟨terminal, hterminal, start, hle, hstop⟩⟩ :=
      (Chart.derive_at_free hready derivation (Nat.zero_le _) hmem).stop_at_token hready (Nat.zero_le _)
    · rw [hstop]
      exact hstart
    · rw [htokens start (Nat.lt_succ_of_le hle) terminal hterminal _ hstop]
      exact hcross
  have herror : grammar.parseRule "x y" 0 = .error (.unexpected _ _ _ _ _) :=
    Input.select_eq_error hnone
  exact ⟨grammar, hbuild, _, _, _, _, _, herror, built_grammar_expects hbuild herror⟩

end FlightProcedure
