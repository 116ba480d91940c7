import FlightProcedure.Proofs.Parse.Recognition

/-!
# The tokens that an evaluation looks for

`Needs input item pos terminal next` says that a match of an item can have read the source up to a position
and go on with a token of a terminal there. It knows nothing of charts: any alternative may be taken, and a
repetition may have taken any number of steps within its bounds. `Chart.needs` says that evaluations look for
exactly the tokens that are needed, whatever the chart holds already, so that the record of the chart sums up
exactly those that are needed and not there: `Chart.derive_tracked`.
-/

namespace FlightProcedure

open List

mutual

/-- `Needs input item pos terminal next` says that a match of the item from `pos` on can have read the
source up to `next` and may go on with a token of the terminal. -/
inductive Needs (input : Input) : Item → Nat → Nat → Nat → Prop where
  | rule {id pos terminal next : Nat}
      (hbody : Needs input (.alt (input.alternatives id)) pos terminal next) :
      Needs input (.rule id) pos terminal next
  | terminal {id pos : Nat} {terminal : Terminal}
      (hterminal : input.grammar.terminals[id]? = some terminal) :
      Needs input (.terminal id) pos id pos
  | seq {items : List Item} {pos terminal next : Nat}
      (hitems : NeedsAll input items pos terminal next) : Needs input (.seq items) pos terminal next
  | alt {items : List Item} {item : Item} {pos terminal next : Nat} (hmem : item ∈ items)
      (hitem : Needs input item pos terminal next) : Needs input (.alt items) pos terminal next
  | optional {inner : Item} {pos terminal next : Nat}
      (hinner : Needs input inner pos terminal next) : Needs input (.optional inner) pos terminal next
  | rep {inner : Item} {least count pos middle terminal next : Nat} {most : Option Nat}
      (hmost : ∀ bound, most = some bound → count < bound)
      (hsteps : SpansAll input (replicate count inner) pos middle)
      (hinner : Needs input inner middle terminal next) :
      Needs input (.rep inner least most) pos terminal next

inductive NeedsAll (input : Input) : List Item → Nat → Nat → Nat → Prop where
  | first {item : Item} {items : List Item} {pos terminal next : Nat}
      (hitem : Needs input item pos terminal next) : NeedsAll input (item :: items) pos terminal next
  | later {item : Item} {items : List Item} {pos middle terminal next : Nat}
      (hitem : Spans input item pos middle) (hitems : NeedsAll input items middle terminal next) :
      NeedsAll input (item :: items) pos terminal next

end

namespace Furthest

variable {furthest : Furthest} {missing : Nat → String → Prop} {pos : Nat} {name other : String}
  {names : List String}

theorem mem_insert_name : other ∈ insertName name names ↔ other = name ∨ other ∈ names := by
  induction names with
  | nil => simp [insertName]
  | cons first rest ih =>
    rw [insertName]
    split
    · simp
    split
    · next heq => simp [heq]
    · simp only [mem_cons, ih]
      tauto

theorem insert_name_ascending (h : names.Pairwise (· < ·)) : (insertName name names).Pairwise (· < ·) := by
  induction names with
  | nil => simp [insertName]
  | cons first rest ih =>
    rw [pairwise_cons] at h
    rw [insertName]
    split
    · next hlt =>
      refine pairwise_cons.mpr ⟨fun other hother => ?_, pairwise_cons.mpr h⟩
      rcases mem_cons.mp hother with rfl | hother
      · exact hlt
      · exact String.lt_trans hlt (h.1 other hother)
    split
    · exact pairwise_cons.mpr h
    · next hnot hne =>
      refine pairwise_cons.mpr ⟨fun other hother => ?_, ih h.2⟩
      rcases mem_insert_name.mp hother with rfl | hother
      · exact Std.lt_of_le_of_ne (String.not_lt.mp hnot) (Ne.symm hne)
      · exact h.1 other hother

/-- The record sums up what is missing: it has the furthest position and the names of everything that is
missing there, each once and in ascending order. -/
structure Sums (furthest : Furthest) (missing : Nat → String → Prop) : Prop where
  greatest : ∀ pos name, missing pos name → pos ≤ furthest.pos
  expected : ∀ name, name ∈ furthest.expected ↔ missing furthest.pos name
  ascending : furthest.expected.Pairwise (· < ·)
  reached : (∃ pos name, missing pos name) → ∃ name, missing furthest.pos name
  untouched : (¬ ∃ pos name, missing pos name) → furthest.pos = 0

theorem Sums.congr {others : Nat → String → Prop} (h : furthest.Sums missing)
    (hsame : ∀ pos name, missing pos name ↔ others pos name) : furthest.Sums others := by
  have heq : missing = others := funext fun pos => funext fun name => propext (hsame pos name)
  exact heq ▸ h

theorem sums_nothing : ({} : Furthest).Sums fun _ _ => False where
  greatest _ _ h := h.elim
  expected _ := by simp
  ascending := .nil
  reached h := by
    obtain ⟨_, _, h⟩ := h
    exact h.elim
  untouched _ := rfl

theorem Sums.note (h : furthest.Sums missing) (pos : Nat) (name : String) :
    (furthest.note pos name).Sums fun at' other =>
      missing at' other ∨ at' = pos ∧ other = name := by
  unfold Furthest.note
  split
  · next hlt =>
    -- All that was missing before lies before the new position.
    have hnew : ∀ other, ¬ missing pos other := fun other hother =>
      Nat.not_le.mpr hlt (h.greatest pos other hother)
    refine ⟨fun at' other hother => ?_, fun other => ?_, pairwise_singleton _ _,
      fun _ => ⟨name, .inr ⟨rfl, rfl⟩⟩, fun hnone => (hnone ⟨pos, name, .inr ⟨rfl, rfl⟩⟩).elim⟩
    · rcases hother with hother | ⟨rfl, -⟩
      · exact Nat.le_trans (h.greatest at' other hother) (Nat.le_of_lt hlt)
      · exact Nat.le_refl _
    · simp [hnew]
  · next hnot =>
    split
    · next heq =>
      subst heq
      refine ⟨fun at' other hother => ?_, fun other => ?_, insert_name_ascending h.ascending,
        fun _ => ⟨name, .inr ⟨rfl, rfl⟩⟩,
        fun hnone => (hnone ⟨furthest.pos, name, .inr ⟨rfl, rfl⟩⟩).elim⟩
      · rcases hother with hother | ⟨rfl, -⟩
        · exact h.greatest at' other hother
        · exact Nat.le_refl _
      · show other ∈ insertName name furthest.expected ↔ _
        rw [mem_insert_name, h.expected]
        constructor
        · rintro (rfl | hother)
          · exact .inr ⟨rfl, rfl⟩
          · exact .inl hother
        · rintro (hother | ⟨-, rfl⟩)
          · exact .inr hother
          · exact .inl rfl
    · next hne =>
      have hlt : pos < furthest.pos := by omega
      refine ⟨fun at' other hother => ?_, fun other => ?_, h.ascending, fun _ => ?_, fun hnone => ?_⟩
      · rcases hother with hother | ⟨rfl, -⟩
        · exact h.greatest at' other hother
        · exact Nat.le_of_lt hlt
      · rw [h.expected]
        constructor
        · exact .inl
        · rintro (hother | ⟨rfl, -⟩)
          · exact hother
          · omega
      · -- A position behind the start is one at which something was missing.
        by_cases hsome : ∃ pos name, missing pos name
        · obtain ⟨other, hother⟩ := h.reached hsome
          exact ⟨other, .inl hother⟩
        · have := h.untouched hsome
          omega
      · exact (hnone ⟨pos, name, .inr ⟨rfl, rfl⟩⟩).elim

end Furthest

namespace Chart

variable {input : Input} {chart : Chart} {id pos : Nat}

def Asked (chart : Chart) (id pos : Nat) : Prop := (id, pos) ∈ chart.tokens

/-- What the tokens that have been looked for in vain are: a position after ignored text and the name of
a terminal. -/
def Missed (input : Input) (asked : Nat → Nat → Prop) (at' : Nat) (name : String) : Prop :=
  ∃ id pos terminal, asked id pos ∧ input.grammar.terminals[id]? = some terminal ∧
    input.tokenEnds terminal (input.skip pos) = [] ∧ at' = input.skip pos ∧ name = terminal.name

/-- A faithful chart whose record sums up the tokens that it has looked for in vain, and which has looked
for all tokens that its rules need. -/
structure Tracked (input : Input) (chart : Chart) : Prop where
  faithful : Faithful input chart
  closed : ∀ id pos, (id, pos) ∈ chart.rules → ∀ terminal next,
    Needs input (.rule id) pos terminal next → chart.Asked terminal next
  sums : chart.furthest.Sums (Missed input chart.Asked)

/-- The chart is tracked and has looked for the tokens, and for no others. -/
def Tracking (input : Input) (asked : Set (Nat × Nat)) (chart : Chart) : Prop :=
  Tracked input chart ∧ ∀ id pos, chart.Asked id pos ↔ (id, pos) ∈ asked

theorem asked_insert {found : List Derivation} {furthest : Furthest} {other next : Nat} :
    Asked { chart with tokens := chart.tokens.insert (id, pos) found, furthest } other next ↔
      chart.Asked other next ∨ other = id ∧ next = pos := by
  simp only [Asked, Std.HashMap.mem_insert, beq_iff_eq, Prod.mk.injEq]
  tauto

theorem missed_once_more {asked more : Nat → Nat → Prop} {terminal : Terminal}
    (hterminal : input.grammar.terminals[id]? = some terminal)
    (hmore : ∀ other next, more other next ↔ asked other next ∨ other = id ∧ next = pos)
    (at' : Nat) (name : String) :
    Missed input more at' name ↔ Missed input asked at' name ∨
      input.tokenEnds terminal (input.skip pos) = [] ∧ at' = input.skip pos ∧ name = terminal.name := by
  constructor
  · rintro ⟨other, next, found, hasked, hfound, hnone, rfl, rfl⟩
    rcases (hmore other next).mp hasked with hasked | ⟨rfl, rfl⟩
    · exact .inl ⟨other, next, found, hasked, hfound, hnone, rfl, rfl⟩
    · cases hterminal.symm.trans hfound
      exact .inr ⟨hnone, rfl, rfl⟩
  · rintro (⟨other, next, found, hasked, hrest⟩ | ⟨hnone, rfl, rfl⟩)
    · exact ⟨other, next, found, (hmore other next).mpr (.inl hasked), hrest⟩
    · exact ⟨id, pos, terminal, (hmore id pos).mpr (.inr ⟨rfl, rfl⟩), hterminal, hnone, rfl, rfl⟩

theorem tokens_at_tracks (input : Input) (id pos : Nat) :
    Yields (Tracking input) (tokensAt input id pos) (input.tokens id pos)
      {token | Needs input (.terminal id) pos token.1 token.2} := by
  rintro asked chart ⟨hchart, hasked⟩
  have hneeds : ∀ terminal next, Needs input (.terminal id) pos terminal next ↔
      terminal = id ∧ next = pos ∧ (input.grammar.terminals[id]?).isSome := by
    intro terminal next
    constructor
    · intro h
      cases h with
      | terminal hterminal => exact ⟨rfl, rfl, by simp [hterminal]⟩
    · rintro ⟨rfl, rfl, hsome⟩
      obtain ⟨found, hfound⟩ := Option.isSome_iff_exists.mp hsome
      exact .terminal hfound
  simp only [Tracking, Set.mem_union, Set.mem_ofPred_eq, hneeds, ← hasked]
  rw [tokensAt, StateT.run_bind, StateT.run_get]
  cases hhit : chart.tokens[(id, pos)]? with
  | some found =>
    have hold : chart.Asked id pos := by
      rw [Asked, Std.HashMap.mem_iff_isSome_getElem?, hhit]
      rfl
    rw [hchart.faithful.tokens id pos found hhit] at hhit
    refine ⟨chart, ?_, hchart, fun terminal next => ⟨.inl, ?_⟩⟩
    · simp only [pure_bind, hhit]
      rfl
    · rintro (h | ⟨rfl, rfl, -⟩)
      · exact h
      · exact hold
  | none =>
    simp only [pure_bind, hhit]
    cases hterminal : input.grammar.terminals[id]? with
    | none =>
      refine ⟨chart, ?_, hchart, fun terminal next => by simp⟩
      simp only [Input.tokens, hterminal]
      rfl
    | some terminal =>
      have hfaithful := hchart.faithful.insert_tokens id pos
      simp only [Input.tokens, hterminal] at hfaithful ⊢
      refine ⟨_, rfl, ⟨hfaithful _, fun rule at' hmem other next hother => ?_, ?_⟩,
        fun other next => by simp [asked_insert]⟩
      · exact asked_insert.mpr (.inl (hchart.closed rule at' hmem other next hother))
      · have hmissed := fun furthest => missed_once_more hterminal
          (@asked_insert chart id pos ((input.tokenEnds terminal (input.skip pos)).map
            (Derivation.token id (input.skip pos))) furthest)
        cases hends : input.tokenEnds terminal (input.skip pos) with
        | nil =>
          refine (hchart.sums.note _ _).congr fun at' name => ?_
          rw [hends] at hmissed
          rw [hmissed]
          simp
        | cons stop stops =>
          refine hchart.sums.congr fun at' name => ?_
          rw [hends] at hmissed
          rw [hmissed]
          simp

/-- What a repetition that has taken some steps needs from the end of the last one on. -/
def RoundNeeds (input : Input) (inner : Item) (most : Option Nat) (count pos terminal next : Nat) : Prop :=
  ∃ steps middle, (∀ bound, most = some bound → count + steps < bound) ∧
    SpansAll input (replicate steps inner) pos middle ∧ Needs input inner middle terminal next

theorem round_needs_iff {inner : Item} {most : Option Nat} {count terminal next : Nat}
    (hopen : ∀ bound, most = some bound → count < bound) :
    RoundNeeds input inner most count pos terminal next ↔ Needs input inner pos terminal next ∨
      ∃ middle, Spans input inner pos middle ∧ RoundNeeds input inner most (count + 1) middle terminal next := by
  constructor
  · rintro ⟨steps, last, hbound, hsteps, hneeds⟩
    cases steps with
    | zero =>
      cases hsteps
      exact .inl hneeds
    | succ steps =>
      cases hsteps with
      | cons hitem hitems =>
        refine .inr ⟨_, hitem, steps, last, fun bound hmost => ?_, hitems, hneeds⟩
        have := hbound bound hmost
        omega
  · rintro (hneeds | ⟨middle, hitem, steps, last, hbound, hsteps, hneeds⟩)
    · exact ⟨0, pos, hopen, .nil, hneeds⟩
    · refine ⟨steps + 1, last, fun bound hmost => ?_, .cons hitem hsteps, hneeds⟩
      have := hbound bound hmost
      omega

theorem needs_all_cons {item : Item} {items : List Item} {terminal next : Nat} :
    NeedsAll input (item :: items) pos terminal next ↔ Needs input item pos terminal next ∨
      ∃ middle, Spans input item pos middle ∧ NeedsAll input items middle terminal next := by
  constructor
  · rintro (hneeds | ⟨hspans, hneeds⟩)
    · exact .inl hneeds
    · exact .inr ⟨_, hspans, hneeds⟩
  · rintro (hneeds | ⟨middle, hspans, hneeds⟩)
    · exact .first hneeds
    · exact .later hspans hneeds

theorem mem_needed_parts (hready : input.Ready) {item : Item} (hpos : pos ≤ input.size)
    (hrepeats : item.repeatsNullable input.nullable = false) {later : Nat → Set (Nat × Nat)} {token : Nat × Nat} :
    token ∈ Partial.needed later (item.parts input (deriveAt input) pos) ↔
      ∃ middle, Spans input item pos middle ∧ token ∈ later middle := by
  simp only [← parts_spans hready hpos hrepeats, mem_map, Partial.needed, Set.mem_ofPred_eq]
  constructor
  · rintro ⟨part, hpart, htoken⟩
    exact ⟨part.stop, ⟨part, hpart, rfl⟩, htoken⟩
  · rintro ⟨_, ⟨part, hpart, rfl⟩, htoken⟩
    exact ⟨part, hpart, htoken⟩

def needs (hready : input.Ready) : Needing input (deriveAt input) where
  item item pos := {token | Needs input item pos token.1 token.2}
  all items pos := {token | NeedsAll input items pos token.1 token.2}
  round inner most count pos := {token | RoundNeeds input inner most count pos token.1 token.2}
  seq items pos := Set.ext fun token => ⟨fun (.seq hitems) => hitems, .seq⟩
  all_nil pos := Set.eq_empty_of_forall_notMem fun token hneeds => nomatch (hneeds : NeedsAll input [] pos token.1 token.2)
  all_cons first rest pos hpos hrepeats := by
    ext token
    rw [Set.mem_union, mem_needed_parts hready hpos hrepeats]
    exact needs_all_cons
  alt_nil pos := Set.eq_empty_of_forall_notMem fun token (.alt hmem _) => not_mem_nil hmem
  alt_cons first rest pos := by
    ext token
    constructor
    · intro (.alt hmem hneeds)
      rcases mem_cons.mp hmem with rfl | hmem
      · exact .inl hneeds
      · exact .inr (.alt hmem hneeds)
    · intro
      | .inl hneeds => exact .alt (by simp) hneeds
      | .inr (.alt hmem hneeds) => exact .alt (by simp [hmem]) hneeds
  optional inner pos := Set.ext fun token => ⟨fun (.optional hinner) => hinner, .optional⟩
  rep inner least most pos := by
    ext token
    constructor
    · intro (.rep hmost hsteps hneeds)
      exact ⟨_, _, by simpa using hmost, hsteps, hneeds⟩
    · rintro ⟨steps, middle, hmost, hsteps, hneeds⟩
      exact .rep (by simpa using hmost) hsteps hneeds
  round_end inner most count pos hmost := by
    obtain ⟨bound, hbound, hle⟩ := (Option.any_eq_true _ _).mp hmost
    refine Set.eq_empty_of_forall_notMem ?_
    rintro token ⟨steps, middle, hopen, -⟩
    have := hopen bound hbound
    have := of_decide_eq_true hle
    omega
  round_next inner most count pos hmost hpos hrepeats := by
    ext token
    rw [Set.mem_union, mem_needed_parts hready hpos hrepeats]
    refine round_needs_iff fun bound hbound => ?_
    simpa [hbound] using hmost

theorem alternatives_track (hready : input.Ready) (hpos : pos ≤ input.size)
    {rule : Nat → Nat → ChartM (List Derivation)}
    (hcalls : id < input.grammar.rules.size → ∀ next later, CalledBy input (next, later) (id, pos) →
      Resolves (Tracking input) rule (needs hready) next later) :
    Yields (Tracking input) (anyOf input rule (input.alternatives id) pos [])
      (ruleParts input (deriveAt input) id pos) {token | Needs input (.rule id) pos token.1 token.2} := by
  have hbody : (needs hready).item (.alt (input.alternatives id)) pos = (needs hready).item (.rule id) pos :=
    Set.ext fun token => ⟨.rule, fun (.rule hbody) => hbody⟩
  refine (?_ : Yields _ _ _ ((needs hready).item (.rule id) pos))
  rw [← hbody]
  by_cases hid : id < input.grammar.rules.size
  · exact (any_of_yields hready (tokens_at_tracks input) (input.alternatives id) pos [] hpos
      (alternatives_repeat_nothing hready id) (hcalls hid)).1
  · have hnone : input.alternatives id = [] := by
      simp [Input.alternatives, Array.getElem?_eq_none (Nat.not_lt.mp hid)]
    rw [ruleParts, hnone, (needs hready).alt_nil]
    exact .pure _

theorem Tracked.enter (h : Tracked input chart) (hpos : pos ≤ input.size)
    (hneeds : ∀ terminal next, Needs input (.rule id) pos terminal next → chart.Asked terminal next) :
    Tracked input (chart.enter id pos (deriveAt input id pos)) where
  faithful := h.faithful.enter id hpos
  closed rule at' hmem terminal next hneed := by
    rcases Std.HashMap.mem_insert.mp hmem with heq | hmem
    · cases beq_iff_eq.mp heq
      exact hneeds terminal next hneed
    · exact h.closed rule at' hmem terminal next hneed
  sums := h.sums

theorem rule_at_tracks (hready : input.Ready) (hpos : pos ≤ input.size) {fuel : Nat}
    {active : List (Nat × Nat)} (hstacked : Stacked input fuel active (id, pos)) :
    Yields (Tracking input) (ruleAt input fuel active id pos) (deriveAt input id pos)
      {token | Needs input (.rule id) pos token.1 token.2} := by
  induction hcall : (id, pos) using (called_by_wellFounded hready).induction
    generalizing id pos fuel active with
  | _ call ih =>
    subst hcall
    rintro asked chart ⟨hchart, hasked⟩
    cases hhit : chart.rules[(id, pos)]? with
    | some found =>
      rw [← (hchart.faithful.rules id pos found hhit).2]
      refine ⟨chart, rule_at_hit hhit, hchart, fun terminal next => ?_⟩
      rw [Set.mem_union, ← hasked]
      refine ⟨.inl, ?_⟩
      rintro (hold | hneeds)
      · exact hold
      · refine hchart.closed id pos ?_ terminal next hneeds
        rw [Std.HashMap.mem_iff_isSome_getElem?, hhit]
        rfl
    | none =>
      obtain ⟨fuel, rfl⟩ := Nat.exists_eq_succ_of_ne_zero hstacked.fuel_pos.ne'
      have hbody := alternatives_track hready hpos fun hid next later hcalled =>
        ⟨ih (next, later) hcalled hcalled.1 (hstacked.push hready hid hpos hcalled) rfl,
          (rule_at_resolves hready hcalled.1 (stacked_nil input (next, later))).1.2⟩
      obtain ⟨after, hrun, htracked, hasked⟩ := hbody asked chart ⟨hchart, hasked⟩
      refine ⟨after.enter id pos (deriveAt input id pos), ?_, htracked.enter hpos fun terminal next h =>
        (hasked terminal next).mpr (.inr h), hasked⟩
      rw [rule_at_miss hhit (hstacked.not_mem hready), hrun, derive_at_eq hready hpos]

theorem derive_tracked (hready : input.Ready) (rule : Nat) :
    (derive input rule).2.furthest.Sums (Missed input (Needs input (.rule rule) 0)) := by
  have hempty : Tracked input {} := by
    refine ⟨faithful_empty input, fun _ _ hmem => by simp at hmem, Furthest.sums_nothing.congr ?_⟩
    refine fun at' name => ⟨False.elim, ?_⟩
    rintro ⟨id, pos, terminal, hasked, -⟩
    simp [Asked] at hasked
  obtain ⟨after, hrun, htracked, hasked⟩ :=
    rule_at_tracks hready (Nat.zero_le _) (stacked_nil input (rule, 0)) ∅ {} ⟨hempty, by simp [Asked]⟩
  have hsame : after.Asked = Needs input (.rule rule) 0 := by
    funext id pos
    simpa using hasked id pos
  unfold derive
  rw [hrun, ← hsame]
  exact htracked.sums

end Chart

end FlightProcedure
