import FlightProcedure.Proofs.Parse.Expectation

/-!
# A grammar inside another one

`Embeds small large num new rules terminals` says that some rules and terminals of one grammar are found in
another one, under the numbers that `num` gives them and the names that `new` does. What the small grammar
derives the large one derives, too, in the same order and with the same rivals:
`Chart.rule_agrees`. Parses by the two grammars therefore have the same outcome up to names:
`select_matches`.
-/

namespace FlightProcedure

open List Partial

/-- New numbers for the rules and the terminals of a grammar. -/
structure Renumbering where
  rule : Nat → Nat
  terminal : Nat → Nat

namespace Item

mutual

def renumber (num : Renumbering) : Item → Item
  | .rule id => .rule (num.rule id)
  | .terminal id => .terminal (num.terminal id)
  | .seq items => .seq (renumberAll num items)
  | .alt items => .alt (renumberAll num items)
  | .optional inner => .optional (inner.renumber num)
  | .rep inner least most => .rep (inner.renumber num) least most

def renumberAll (num : Renumbering) : List Item → List Item
  | [] => []
  | item :: items => item.renumber num :: renumberAll num items

end

mutual

def Within (rules terminals : Nat → Prop) : Item → Prop
  | .rule id => rules id
  | .terminal id => terminals id
  | .seq items => AllWithin rules terminals items
  | .alt items => AllWithin rules terminals items
  | .optional inner => inner.Within rules terminals
  | .rep inner _ _ => inner.Within rules terminals

def AllWithin (rules terminals : Nat → Prop) : List Item → Prop
  | [] => True
  | item :: items => item.Within rules terminals ∧ AllWithin rules terminals items

end

variable {num : Renumbering} {rules terminals : Nat → Prop} {items : List Item}

theorem renumber_all_eq (num : Renumbering) (items : List Item) : renumberAll num items = items.map (renumber num) := by
  induction items with
  | nil => rfl
  | cons item items ih => rw [renumberAll, ih, map_cons]

theorem all_within_iff : AllWithin rules terminals items ↔ ∀ item ∈ items, item.Within rules terminals := by
  induction items with
  | nil => simp [AllWithin]
  | cons item items ih => simp [AllWithin, ih]

end Item

namespace Derivation

mutual

def renumber (num : Renumbering) : Derivation → Derivation
  | .token id start stop => .token (num.terminal id) start stop
  | .node id start stop span children rivals =>
    .node (num.rule id) start stop span (renumberAll num children) (renumberRivals num rivals)

def renumberAll (num : Renumbering) : List Derivation → List Derivation
  | [] => []
  | derivation :: rest => derivation.renumber num :: renumberAll num rest

def renumberRivals (num : Renumbering) : List (List Derivation) → List (List Derivation)
  | [] => []
  | rival :: rest => renumberAll num rival :: renumberRivals num rest

end

variable (num : Renumbering)

theorem renumber_all_eq (derivations : List Derivation) :
    renumberAll num derivations = derivations.map (renumber num) := by
  induction derivations with
  | nil => rfl
  | cons derivation rest ih => rw [renumberAll, ih, map_cons]

theorem renumber_rivals_eq (rivals : List (List Derivation)) :
    renumberRivals num rivals = rivals.map (List.map (renumber num)) := by
  induction rivals with
  | nil => rfl
  | cons rival rest ih => rw [renumberRivals, ih, renumber_all_eq, map_cons]

@[simp] theorem stop_renumber (derivation : Derivation) : (derivation.renumber num).stop = derivation.stop := by
  cases derivation <;> simp [renumber, stop]

theorem span_comp_renumber : span ∘ renumber num = span := by
  funext derivation
  cases derivation <;> simp [renumber, span]

theorem span_of_renumber (children : List Derivation) : spanOf (children.map (renumber num)) = spanOf children := by
  simp only [spanOf, ← map_reverse, findSome?_map, span_comp_renumber]

end Derivation

namespace Partial

def renumber (num : Renumbering) (part : Partial) : Partial where
  stop := part.stop
  children := part.children.map (Derivation.renumber num)
  rivals := part.rivals.map (List.map (Derivation.renumber num))

variable (num : Renumbering)

@[simp] theorem stop_renumber (part : Partial) : (part.renumber num).stop = part.stop := rfl

theorem renumber_single (child : Derivation) : (single child).renumber num = single (child.renumber num) := by
  simp [single, renumber]

theorem renumber_extend (first second : Partial) :
    (first.extend second).renumber num = (first.renumber num).extend (second.renumber num) := by
  simp [extend, renumber, map_take, Function.comp_def]

theorem renumber_add_rival (kept other : Partial) :
    (kept.addRival other).renumber num = (kept.renumber num).addRival (other.renumber num) := by
  simp [addRival, renumber, map_take]

theorem renumber_to_derivation (id start : Nat) (part : Partial) : (part.toDerivation id start).renumber num =
      (part.renumber num).toDerivation (num.rule id) start := by
  simp [toDerivation, renumber, Derivation.renumber, Derivation.renumber_all_eq,
    Derivation.renumber_rivals_eq, Derivation.span_of_renumber]

theorem renumber_prefer (found : List Partial) (other : Partial) :
    (prefer found other).map (renumber num) = prefer (found.map (renumber num)) (other.renumber num) := by
  induction found with
  | nil => rfl
  | cons kept rest ih =>
    rw [prefer, map_cons, prefer, stop_renumber, stop_renumber]
    split
    · rfl
    · rw [map_cons, ih]

theorem renumber_compete (found : List Partial) (other : Partial) : (compete found other).map (renumber num) =
      compete (found.map (renumber num)) (other.renumber num) := by
  induction found with
  | nil => rfl
  | cons kept rest ih =>
    rw [compete, map_cons, compete, stop_renumber, stop_renumber]
    split
    · rw [map_cons, renumber_add_rival]
    · rw [map_cons, ih]

theorem renumber_foldl_prefer (parts found : List Partial) : (parts.foldl prefer found).map (renumber num) =
      (parts.map (renumber num)).foldl prefer (found.map (renumber num)) := by
  rw [foldl_map]
  exact (foldl_hom _ fun _ _ => (renumber_prefer num _ _).symm).symm

theorem renumber_foldl_compete (parts found : List Partial) : (parts.foldl compete found).map (renumber num) =
      (parts.map (renumber num)).foldl compete (found.map (renumber num)) := by
  rw [foldl_map]
  exact (foldl_hom _ fun _ _ => (renumber_compete num _ _).symm).symm

theorem renumber_extend_each {step other : Nat → List Partial} {parts : List Partial}
    (h : ∀ part ∈ parts, other part.stop = (step part.stop).map (renumber num)) :
    extendEach other (parts.map (renumber num)) = (extendEach step parts).map (renumber num) := by
  rw [extendEach, extendEach, renumber_foldl_compete]
  congr 1
  rw [flatMap_map, map_flatMap]
  refine flatMap_congr fun part hpart => ?_
  rw [stop_renumber, h part hpart, map_map, map_map]
  refine map_congr_left fun second _ => ?_
  exact (renumber_extend num part second).symm

end Partial

/-- A terminal that matches the same text under another name. -/
structure Terminal.Stands (small large : Input) (new : String → String) (terminal other : Terminal) : Prop where
  ends : ∀ start, large.tokenEnds other start = small.tokenEnds terminal start
  filtered : other.filtered = terminal.filtered
  anonymous : other.anonymous = terminal.anonymous
  tokenName : other.tokenName = if terminal.anonymous then terminal.tokenName else new terminal.name

/-- A rule with the same alternatives, in other numbers, under another name. -/
structure Rule.Stands (num : Renumbering) (new : String → String) (rule other : Rule) : Prop where
  alternatives : other.alternatives = Item.renumberAll num rule.alternatives
  shaping : other.shaping = rule.shaping
  hidden : other.isHidden = rule.isHidden
  name : other.name = new rule.name

/-- Some rules and terminals of the small grammar are those of the large one with other numbers and names,
and the rules are made of such rules and terminals. The source is the same. -/
structure Embeds (small large : Input) (num : Renumbering) (new : String → String)
    (rules terminals : Nat → Prop) : Prop where
  chars : large.chars = small.chars
  skip : ∀ pos, large.skip pos = small.skip pos
  rule : ∀ id, rules id → ∃ rule other, small.grammar.rules[id]? = some rule ∧
    large.grammar.rules[num.rule id]? = some other ∧ rule.Stands num new other ∧
      Item.AllWithin rules terminals rule.alternatives
  terminal : ∀ id, terminals id → ∃ terminal other, small.grammar.terminals[id]? = some terminal ∧
    large.grammar.terminals[num.terminal id]? = some other ∧ terminal.Stands small large new other

namespace Embeds

variable {small large : Input} {num : Renumbering} {new : String → String}
  {rules terminals : Nat → Prop}

variable (h : Embeds small large num new rules terminals)

include h

theorem size : large.size = small.size := by
  rw [Input.size, Input.size, h.chars]

theorem alternatives {id : Nat} (hid : rules id) :
    large.alternatives (num.rule id) = Item.renumberAll num (small.alternatives id) ∧
      Item.AllWithin rules terminals (small.alternatives id) := by
  obtain ⟨rule, other, hrule, hother, hstands, hwithin⟩ := h.rule id hid
  simp only [Input.alternatives, hrule, hother, Option.map_some, Option.getD_some]
  exact ⟨hstands.alternatives, hwithin⟩

theorem tokens {id : Nat} (hid : terminals id) (pos : Nat) :
    large.tokens (num.terminal id) pos = (small.tokens id pos).map (Derivation.renumber num) := by
  obtain ⟨terminal, other, hterminal, hother, hstands⟩ := h.terminal id hid
  simp only [Input.tokens, hterminal, hother, h.skip, hstands.ends, map_map]
  rfl

end Embeds

namespace Chart

variable {small large input : Input} {num : Renumbering} {new : String → String}
  {rules terminals : Nat → Prop} {items : List Item} {pos : Nat}

def missedAt (input : Input) (tokens : Set (Nat × Nat)) : Set Nat :=
  {at' | ∃ token ∈ tokens, ∃ terminal, input.grammar.terminals[token.1]? = some terminal ∧
    input.tokenEnds terminal (input.skip token.2) = [] ∧ at' = input.skip token.2}

theorem missed_at_empty : missedAt input ∅ = ∅ := by
  simp [missedAt]

theorem missed_at_union (first second : Set (Nat × Nat)) :
    missedAt input (first ∪ second) = missedAt input first ∪ missedAt input second := by
  ext at'
  simp only [missedAt, Set.mem_ofPred_eq, Set.mem_union, or_and_right, exists_or]

theorem missed_at_needed {needs others : Nat → Set (Nat × Nat)} {parts : List Partial}
    (h : ∀ part ∈ parts, missedAt large (others part.stop) = missedAt small (needs part.stop)) :
    missedAt large (needed others (parts.map (renumber num))) =
      missedAt small (needed needs parts) := by
  induction parts with
  | nil => simp [missed_at_empty]
  | cons part parts ih =>
    obtain ⟨hpart, hparts⟩ := forall_mem_cons.mp h
    rw [map_cons, needed_cons, needed_cons, missed_at_union, missed_at_union, ih hparts,
      stop_renumber, hpart]

/-- The rule yields the same derivations in both grammars, up to numbers, and misses tokens at the same
positions. -/
def Agrees (hsmall : small.Ready) (hlarge : large.Ready) (num : Renumbering) (id pos : Nat) : Prop :=
  deriveAt large (num.rule id) pos = (deriveAt small id pos).map (Derivation.renumber num) ∧
    missedAt large ((needs hlarge).item (.rule (num.rule id)) pos) = missedAt small ((needs hsmall).item (.rule id) pos)

/-- The item yields the same matches in both grammars and misses tokens at the same positions, wherever the
rules that it may enter agree. -/
def ItemAgrees (hsmall : small.Ready) (hlarge : large.Ready) (num : Renumbering) (rules : Nat → Prop) (item : Item) :
    Prop :=
  ∀ pos, pos ≤ small.size → (∀ id next, rules id → Enters small (item.leading small.nullable) pos id next →
      Agrees hsmall hlarge num id next) →
    (item.renumber num).parts large (deriveAt large) pos =
        (item.parts small (deriveAt small) pos).map (renumber num) ∧
      missedAt large ((needs hlarge).item (item.renumber num) pos) = missedAt small ((needs hsmall).item item pos)

/-- No repetition in the item has a body that can match nothing, in either grammar. -/
def Settled (small large : Input) (num : Renumbering) (item : Item) : Prop :=
  item.repeatsNullable small.nullable = false ∧ (item.renumber num).repeatsNullable large.nullable = false

theorem settled_all (hsmall : Item.anyRepeatsNullable small.nullable items = false)
    (hlarge : Item.anyRepeatsNullable large.nullable (Item.renumberAll num items) = false) :
    ∀ item ∈ items, Settled small large num item := by
  rw [Item.any_repeats_nullable_eq_false] at hsmall hlarge
  rw [Item.renumber_all_eq, forall_mem_map] at hlarge
  exact fun item hitem => ⟨hsmall item hitem, hlarge item hitem⟩

theorem mem_missed_at_terminal (hready : input.Ready) {id at' : Nat} {terminal : Terminal}
    (hterminal : input.grammar.terminals[id]? = some terminal) :
    at' ∈ missedAt input ((needs hready).item (.terminal id) pos) ↔
      input.tokenEnds terminal (input.skip pos) = [] ∧ at' = input.skip pos := by
  constructor
  · rintro ⟨⟨_, _⟩, hneeds, found, hfound, hnone, heq⟩
    have hneeds : Needs input (.terminal id) pos _ _ := hneeds
    cases hneeds
    cases hterminal.symm.trans hfound
    exact ⟨hnone, heq⟩
  · rintro ⟨hnone, heq⟩
    exact ⟨(id, pos), .terminal hterminal, terminal, hterminal, hnone, heq⟩

section

variable {hsmall : small.Ready} {hlarge : large.Ready} (hsize : large.size = small.size)
  (hsettled : ∀ item ∈ items, Settled small large num item)
  (hitems : ∀ item ∈ items, ItemAgrees hsmall hlarge num rules item)

include hsize hsettled hitems in
theorem seq_agrees {found : List Partial} (hfound : ∀ part ∈ found, pos ≤ part.stop ∧ part.stop ≤ small.size)
    (hrules : ∀ id next, rules id → EntersSeq small items pos found id next → Agrees hsmall hlarge num id next) :
    Item.partsSeq large (deriveAt large) (items.map (Item.renumber num)) (found.map (renumber num)) =
        (Item.partsSeq small (deriveAt small) items found).map (renumber num) ∧
      missedAt large (needed ((needs hlarge).all (items.map (Item.renumber num)))
        (found.map (renumber num))) = missedAt small (needed ((needs hsmall).all items) found) := by
  induction items generalizing found with
  | nil => exact ⟨rfl, missed_at_needed fun part _ => by simp [Needing.all_nil, missed_at_empty]⟩
  | cons item items ih =>
    obtain ⟨hitem, hrest⟩ := forall_mem_cons.mp hsettled
    obtain ⟨hfirst, hitems⟩ := forall_mem_cons.mp hitems
    have hstep := fun part hpart => hfirst part.stop (hfound part hpart).2 fun id next hid henters =>
      hrules id next hid (.first hpart (hfound part hpart).1 henters)
    have hnext := fun part => @extended_ends _ small found part pos _ hfound fun part hpart next =>
      parts_ends hsmall (hfound part hpart).2 hitem.1
    obtain ⟨hparts, hmissed⟩ := ih hrest hitems (fun part hpart => ⟨(hnext part hpart).1, (hnext part hpart).2.1⟩)
      fun id next hid henters => hrules id next hid (henters.rest fun part hpart => (hnext part hpart).2.2)
    rw [← renumber_extend_each num fun part hpart => (hstep part hpart).1] at hparts hmissed
    refine ⟨hparts, ?_⟩
    rw [map_cons, @needed_extendEach _ _ ((needs hlarge).all _) _ _ fun part hpart => ?_,
      needed_extendEach fun part hpart => (needs hsmall).all_cons item items part.stop (hfound part hpart).2 hitem.1,
      missed_at_union, missed_at_union, hmissed, missed_at_needed fun part hpart => (hstep part hpart).2]
    obtain ⟨old, hold, rfl⟩ := mem_map.mp hpart
    exact (needs hlarge).all_cons _ _ _ (hsize ▸ (hfound old hold).2) hitem.2

include hitems in
theorem any_agrees (hpos : pos ≤ small.size)
    (hrules : ∀ id next, rules id → Enters small (Item.leadingAlt small.nullable items) pos id next →
      Agrees hsmall hlarge num id next) :
    Item.partsAny large (deriveAt large) (items.map (Item.renumber num)) pos =
        (Item.partsAny small (deriveAt small) items pos).map (renumber num) ∧
      missedAt large ((needs hlarge).item (.alt (items.map (Item.renumber num))) pos) =
        missedAt small ((needs hsmall).item (.alt items) pos) := by
  induction items with
  | nil =>
    rw [map_nil, Needing.alt_nil, Needing.alt_nil, missed_at_empty, missed_at_empty]
    exact ⟨rfl, rfl⟩
  | cons item items ih =>
    obtain ⟨hfirst, hitems⟩ := forall_mem_cons.mp hitems
    obtain ⟨hparts, hmissed⟩ := hfirst pos hpos fun id next hid henters => hrules id next hid
      ⟨henters.1, henters.2.imp_right fun h => ⟨h.1, by simp [Item.leadingAlt, h.2]⟩⟩
    obtain ⟨hmore, hmissed'⟩ := ih hitems fun id next hid henters => hrules id next hid
      ⟨henters.1, henters.2.imp_right fun h => ⟨h.1, by simp [Item.leadingAlt, h.2]⟩⟩
    rw [map_cons, Item.partsAny, Item.partsAny, hparts, hmore, map_append, Needing.alt_cons, Needing.alt_cons,
      missed_at_union, missed_at_union, hmissed, hmissed']
    exact ⟨rfl, rfl⟩

end

theorem rounds_agree {step other : Nat → List Partial} {least fuel count : Nat} {most : Option Nat}
    {frontier : List Partial}
    (hstep : ∀ next, pos ≤ next → next ≤ small.size → other next = (step next).map (renumber num))
    (hends : ∀ next, next ≤ small.size → ∀ part ∈ step next, next < part.stop ∧ part.stop ≤ small.size)
    (hfrontier : ∀ part ∈ frontier, pos ≤ part.stop ∧ part.stop ≤ small.size) :
    rounds other least most fuel count (frontier.map (renumber num)) =
      (rounds step least most fuel count frontier).map (renumber num) := by
  induction fuel generalizing count frontier with
  | zero => rfl
  | succ fuel ih =>
    have hbounds : ∀ part ∈ extendEach step frontier, pos ≤ part.stop ∧ part.stop ≤ small.size := by
      intro part hpart
      obtain ⟨first, hfirst, second, hsecond, hstop, _⟩ := mem_extendEach hpart
      have hfirst := hfrontier first hfirst
      have hlater := hends first.stop hfirst.2 second hsecond
      omega
    have hnext := @ih (count + 1) _ hbounds
    rw [← renumber_extend_each num fun part hpart =>
      hstep part.stop (hfrontier part hpart).1 (hfrontier part hpart).2] at hnext
    rw [rounds, rounds, map_append, hnext]
    congr 1
    · split <;> rfl
    · split <;> rfl

variable (hsmall : small.Ready) (hlarge : large.Ready) (h : Embeds small large num new rules terminals)

include hsmall hlarge h

theorem item_agrees (item : Item) (hwithin : item.Within rules terminals) (hsettled : Settled small large num item) :
    ItemAgrees hsmall hlarge num rules item := by
  induction item using Item.induction_on with
  | rule id =>
    intro pos hpos hrules
    obtain ⟨hagrees, hmissed⟩ := hrules id pos hwithin ⟨hpos, .inr ⟨rfl, by simp [Item.leading]⟩⟩
    refine ⟨?_, hmissed⟩
    rw [Item.renumber, Item.parts, Item.parts, hagrees, map_map, map_map]
    refine map_congr_left fun derivation _ => ?_
    exact (renumber_single num derivation).symm
  | terminal id =>
    intro pos hpos hrules
    obtain ⟨terminal, other, hterminal, hother, hstands⟩ := h.terminal id hwithin
    refine ⟨?_, Set.ext fun at' => ?_⟩
    · rw [Item.renumber, Item.parts, Item.parts, h.tokens hwithin, map_map, map_map]
      refine map_congr_left fun token _ => ?_
      exact (renumber_single num token).symm
    · rw [Item.renumber, mem_missed_at_terminal hlarge hother, mem_missed_at_terminal hsmall hterminal, hstands.ends,
        h.skip]
  | seq items ih =>
    intro pos hpos hrules
    have hall := settled_all hsettled.1 hsettled.2
    have hstart : ∀ part ∈ [nothing pos], pos ≤ part.stop ∧ part.stop ≤ small.size := by
      simp [nothing, hpos]
    obtain ⟨hparts, hmissed⟩ := seq_agrees h.size hall
      (fun item hitem => ih item hitem (Item.all_within_iff.mp hwithin item hitem) (hall item hitem)) hstart
      fun id next hid henters => hrules id next hid (.of_seq henters)
    simp only [map_cons, map_nil, needed_cons, needed_nil, Set.union_empty] at hmissed
    rw [Item.renumber, Item.renumber_all_eq, Needing.seq, Needing.seq]
    exact ⟨hparts, hmissed⟩
  | alt items ih =>
    intro pos hpos hrules
    have hall := settled_all hsettled.1 hsettled.2
    obtain ⟨hparts, hmissed⟩ := any_agrees
      (fun item hitem => ih item hitem (Item.all_within_iff.mp hwithin item hitem) (hall item hitem)) hpos hrules
    rw [Item.renumber, Item.renumber_all_eq, Item.parts, Item.parts, renumber_foldl_prefer, hparts]
    exact ⟨rfl, hmissed⟩
  | optional inner ih =>
    intro pos hpos hrules
    obtain ⟨hparts, hmissed⟩ := ih hwithin hsettled pos hpos hrules
    rw [Item.renumber, Item.parts, Item.parts, renumber_prefer, hparts, Needing.optional, Needing.optional]
    exact ⟨rfl, hmissed⟩
  | rep inner least most ih =>
    intro pos hpos hrules
    obtain ⟨hfew, hmany⟩ := hsettled
    simp only [Item.renumber, Item.repeatsNullable, Bool.or_eq_false_iff] at hfew hmany
    have hinner := fun next hge hle => ih hwithin ⟨hfew.2, hmany.2⟩ next hle fun id later hid henters =>
      hrules id later hid (.of_rep (hge : pos ≤ next) henters)
    have hends : ∀ next, next ≤ small.size → ∀ part ∈ inner.parts small (deriveAt small) next,
        next < part.stop ∧ part.stop ≤ small.size := by
      intro next hle part hpart
      have hends := parts_ends hsmall hle hfew.2 hpart
      rw [hfew.1] at hends
      exact ⟨hends.lt, hends.2.1⟩
    rw [Item.renumber, Item.parts, Item.parts, renumber_foldl_compete, map_nil, h.size, Needing.rep,
      Needing.rep]
    have hstart : ∀ part ∈ [nothing pos], pos ≤ part.stop ∧ part.stop ≤ small.size := by
      simp [nothing, hpos]
    refine ⟨congrArg _ (rounds_agree (fun next hge hle => (hinner next hge hle).1) hends hstart), ?_⟩
    -- Each round starts behind the one before it.
    have hround : ∀ left count next, left + next = small.size → pos ≤ next →
        missedAt large ((needs hlarge).round (inner.renumber num) most count next) =
          missedAt small ((needs hsmall).round inner most count next) := by
      intro left
      induction left using Nat.strongRecOn with
      | _ left ihleft =>
        intro count next hleft hge
        have hle : next ≤ small.size := by omega
        cases hmost : most.any (· ≤ count) with
        | true => rw [Needing.round_end _ _ _ _ _ hmost, Needing.round_end _ _ _ _ _ hmost, missed_at_empty, missed_at_empty]
        | false =>
          obtain ⟨hparts, hmissed⟩ := hinner next hge hle
          rw [Needing.round_next _ _ _ _ _ hmost (h.size ▸ hle) hmany.2, Needing.round_next _ _ _ _ _ hmost hle hfew.2,
            missed_at_union, missed_at_union, hmissed, hparts, missed_at_needed fun part hpart => ?_]
          have hlater := hends next hle part hpart
          exact ihleft (small.size - part.stop) (by omega) _ _ (by omega) (by omega)
    exact hround (small.size - pos) 0 pos (by omega) (Nat.le_refl _)

theorem rule_agrees {id : Nat} (hid : rules id) (hpos : pos ≤ small.size) :
    Agrees hsmall hlarge num id pos := by
  induction hcall : (id, pos) using (called_by_wellFounded hsmall).induction generalizing id pos with
  | _ call ih =>
    subst hcall
    obtain ⟨halternatives, hwithin⟩ := h.alternatives hid
    have hbody : ∀ {input : Input} (hready : input.Ready) (id : Nat),
        (needs hready).item (.rule id) pos = (needs hready).item (.alt (input.alternatives id)) pos :=
      fun hready id => Set.ext fun token => ⟨fun (.rule hbody) => hbody, .rule⟩
    have hsettled := settled_all (alternatives_repeat_nothing hsmall id)
      (halternatives ▸ alternatives_repeat_nothing hlarge (num.rule id))
    obtain ⟨hparts, hmissed⟩ := any_agrees (fun item hitem => item_agrees hsmall hlarge h item
      (Item.all_within_iff.mp hwithin item hitem) (hsettled item hitem)) hpos
      fun next later hnext henters => ih (next, later) henters hnext henters.1 rfl
    rw [← Item.renumber_all_eq, ← halternatives] at hparts hmissed
    refine ⟨?_, by rw [hbody, hbody, hmissed]⟩
    rw [derive_at_eq hlarge (h.size ▸ hpos), derive_at_eq hsmall hpos, ruleParts, ruleParts, hparts, map_map,
      ← map_nil (f := renumber num), ← renumber_foldl_prefer, map_map]
    exact map_congr_left fun part _ => (renumber_to_derivation num id pos part).symm

end Chart

end FlightProcedure
