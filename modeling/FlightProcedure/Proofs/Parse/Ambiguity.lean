import FlightProcedure.Proofs.Parse.Recognition
import FlightProcedure.Proofs.Parse.Rivals

/-!
# When a match is ambiguous

The first alternative that matches a part of the source wins. Within that alternative a match is
ambiguous if it can be split in two ways: a split fixes where each item of a sequence ends and where each
step of a repetition does. What another rule or a terminal matches counts as a whole, and of a choice
only the alternative that wins counts. `parts_account` says that the rivals of a match count its splits.
-/

namespace FlightProcedure

open List Item

/-- Where the pieces of a match end, and how each piece is split in turn. -/
inductive Split where
  | whole
  | pieces (pieces : List (Nat × Split))

mutual

/-- `Splits input item pos split stop` says that the item matches the source from `pos` to `stop` in
pieces that end where the split says, by the first alternatives that do. -/
inductive Splits (input : Input) : Item → Nat → Split → Nat → Prop where
  | rule {id pos stop : Nat} (hspans : Spans input (.rule id) pos stop) :
      Splits input (.rule id) pos .whole stop
  | terminal {id pos stop : Nat} (hspans : Spans input (.terminal id) pos stop) :
      Splits input (.terminal id) pos .whole stop
  | seq {items : List Item} {pos stop : Nat} {pieces : List (Nat × Split)}
      (hitems : SplitsAll input items pos pieces stop) :
      Splits input (.seq items) pos (.pieces pieces) stop
  | alt {items before after : List Item} {item : Item} {pos stop : Nat} {split : Split}
      (hitems : items = before ++ item :: after)
      (hfirst : ∀ other ∈ before, ¬ Spans input other pos stop)
      (hitem : Splits input item pos split stop) : Splits input (.alt items) pos split stop
  | skipped {inner : Item} {pos : Nat} (hinner : ¬ Spans input inner pos pos) :
      Splits input (.optional inner) pos .whole pos
  | present {inner : Item} {pos stop : Nat} {split : Split}
      (hinner : Splits input inner pos split stop) :
      Splits input (.optional inner) pos split stop
  | rep {inner : Item} {least count pos stop : Nat} {most : Option Nat}
      {pieces : List (Nat × Split)} (hleast : least ≤ count)
      (hmost : ∀ bound, most = some bound → count ≤ bound)
      (hsteps : SplitsAll input (replicate count inner) pos pieces stop) :
      Splits input (.rep inner least most) pos (.pieces pieces) stop

/-- `SplitsAll input items pos pieces stop` says that the items match the source one after another, each
in its piece. -/
inductive SplitsAll (input : Input) : List Item → Nat → List (Nat × Split) → Nat → Prop where
  | nil {pos : Nat} : SplitsAll input [] pos [] pos
  | cons {item : Item} {items : List Item} {pos next stop : Nat} {split : Split}
      {rest : List (Nat × Split)} (hitem : Splits input item pos split next)
      (hitems : SplitsAll input items next rest stop) :
      SplitsAll input (item :: items) pos ((next, split) :: rest) stop

end

def splitsAt (input : Input) (item : Item) (pos stop : Nat) : Set Split := {split | Splits input item pos split stop}

def ruleSplits (input : Input) (id pos stop : Nat) : Set Split := splitsAt input (.alt (input.alternatives id)) pos stop

variable {input : Input} {items : List Item} {item inner : Item} {pos stop : Nat} {split : Split}
  {pieces : List (Nat × Split)}

theorem SplitsAll.length (h : SplitsAll input items pos pieces stop) : pieces.length = items.length := by
  induction items generalizing pos pieces with
  | nil =>
    cases h
    rfl
  | cons item items ih =>
    cases h with
    | cons _ hitems => rw [length_cons, length_cons, ih hitems]

theorem splits_seq : Splits input (.seq items) pos split stop ↔
    ∃ pieces, SplitsAll input items pos pieces stop ∧ .pieces pieces = split := by
  constructor
  · intro h
    cases h with
    | seq hitems => exact ⟨_, hitems, rfl⟩
  · rintro ⟨pieces, hitems, rfl⟩
    exact .seq hitems

theorem splits_alt_cons : Splits input (.alt (item :: items)) pos split stop ↔ Splits input item pos split stop ∨
      (¬ Spans input item pos stop ∧ Splits input (.alt items) pos split stop) := by
  constructor
  · intro h
    cases h with
    | @alt _ before after found _ _ _ hitems hfirst hitem =>
      cases before with
      | nil =>
        obtain ⟨rfl, rfl⟩ := cons.inj hitems
        exact .inl hitem
      | cons other before =>
        obtain ⟨rfl, rfl⟩ := cons.inj hitems
        exact .inr ⟨hfirst item (by simp), .alt rfl (fun other hother => hfirst other (by simp [hother])) hitem⟩
  · rintro (hitem | ⟨hnot, h⟩)
    · exact .alt (show item :: items = [] ++ item :: items from rfl) (by simp) hitem
    · cases h with
      | @alt _ before after found _ _ _ hitems hfirst hitem =>
        have hcons : item :: items = (item :: before) ++ found :: after := by rw [hitems]; rfl
        refine .alt hcons (fun other hother => ?_) hitem
        rcases mem_cons.mp hother with rfl | hother
        · exact hnot
        · exact hfirst other hother

theorem splits_optional : Splits input (.optional inner) pos split stop ↔ Splits input inner pos split stop ∨
      (¬ Spans input inner pos stop ∧ split = .whole ∧ stop = pos) := by
  constructor
  · intro h
    cases h with
    | skipped hinner => exact .inr ⟨hinner, rfl, rfl⟩
    | present hinner => exact .inl hinner
  · rintro (hinner | ⟨hinner, rfl, rfl⟩)
    · exact .present hinner
    · exact .skipped hinner

variable {least id : Nat} {derivation : Derivation}

theorem splits_rep {most : Option Nat} : Splits input (.rep inner least most) pos split stop ↔
      ∃ pieces, (∃ count, allows least most count = true ∧
        SplitsAll input (replicate count inner) pos pieces stop) ∧ .pieces pieces = split := by
  constructor
  · intro h
    cases h with
    | rep hleast hmost hsteps => exact ⟨_, ⟨_, allows_iff.mpr ⟨hleast, hmost⟩, hsteps⟩, rfl⟩
  · rintro ⟨pieces, ⟨count, hallows, hsteps⟩, rfl⟩
    obtain ⟨hleast, hmost⟩ := allows_iff.mp hallows
    exact .rep hleast hmost hsteps

namespace Chart

open Partial

theorem accounts_ends {σ : Type} {parts : List Partial} {ends : Nat → Prop} (own : σ)
    (hnodup : (parts.map (·.stop)).Nodup) (hends : ∀ stop, stop ∈ parts.map (·.stop) ↔ ends stop)
    (hrivals : ∀ part ∈ parts, part.rivals = []) : Accounts (fun stop => {way | way = own ∧ ends stop}) parts where
  nodup := hnodup
  stops stop := by
    rw [hends]
    exact ⟨fun h => ⟨own, rfl, h⟩, fun ⟨_, _, h⟩ => h⟩
  rivals part hpart := by
    refine iff_of_false (not_not.mpr (hrivals part hpart)) ?_
    rintro ⟨one, ⟨rfl, _⟩, two, ⟨rfl, _⟩, hne⟩
    exact hne rfl

theorem accounts_image {σ τ : Type} {ways : Nat → Set σ} {parts : List Partial} {f : σ → τ}
    (hf : Function.Injective f) (h : Accounts ways parts) :
    Accounts (fun stop => f '' ways stop) parts where
  nodup := h.nodup
  stops stop := by rw [h.stops, Set.image_nonempty]
  rivals part hpart := by
    rw [h.rivals part hpart]
    exact ⟨fun hways => hways.image hf, Set.nontrivial_of_image f _⟩

theorem accounts_nothing (pos : Nat) {σ : Type} (nothing : σ) :
    Accounts (fun stop => {way | way = nothing ∧ stop = pos}) [.nothing pos] :=
  accounts_ends nothing (by simp) (by simp [Partial.nothing]) (by simp [Partial.nothing])

def Accounted (input : Input) (item : Item) : Prop :=
  ∀ pos, pos ≤ input.size → Accounts (splitsAt input item pos) (item.parts input (deriveAt input) pos)

variable (hready : input.Ready)

include hready

theorem parts_seq_account (pos : Nat) {ways : Nat → Set (List (Nat × Split))} {found : List Partial}
    (hrepeats : ∀ item ∈ items, item.repeatsNullable input.nullable = false)
    (hitems : ∀ item ∈ items, Accounted input item) (hfound : Accounts ways found)
    (hreach : ∀ stop, ∀ pieces ∈ ways stop, reach pos pieces = stop)
    (hinside : ∀ part ∈ found, part.stop ≤ input.size) :
    Accounts (fun stop => {way | ∃ next, ∃ pieces ∈ ways next, ∃ rest,
      SplitsAll input items next rest stop ∧ way = pieces ++ rest})
      (partsSeq input (deriveAt input) items found) := by
  -- Each item adds a piece to the ways, so these change along the induction.
  induction items generalizing found ways with
  | nil =>
    refine hfound.congr fun stop way => ⟨fun hway => ⟨stop, way, hway, [], .nil, by simp⟩, ?_⟩
    rintro ⟨next, pieces, hpieces, rest, hrest, rfl⟩
    cases hrest
    rwa [append_nil]
  | cons item items ih =>
    have hnext := hfound.extend_each (fun pos => item.parts input (deriveAt input) pos)
      (splitsAt input item) hreach fun part hpart =>
        hitems item (by simp) part.stop (hinside part hpart)
    refine (ih (fun other hother => hrepeats other (by simp [hother]))
      (fun other hother => hitems other (by simp [hother])) hnext ?_
      (extended_inside hready (hrepeats item (by simp)) hinside)).congr fun stop way => ⟨?_, ?_⟩
    · rintro stop _ ⟨_, pieces, _, split, _, rfl⟩
      exact reach_append_single pos stop pieces split
    · rintro ⟨next, _, ⟨first, pieces, hpieces, split, hsplit, rfl⟩, rest, hrest, rfl⟩
      exact ⟨first, pieces, hpieces, (next, split) :: rest, .cons hsplit hrest, by simp⟩
    · rintro ⟨first, pieces, hpieces, _, hrest, rfl⟩
      cases hrest with
      | @cons _ _ _ next _ split rest hsplit hrest =>
        exact ⟨next, _, ⟨first, pieces, hpieces, split, hsplit, rfl⟩, rest, hrest, by simp⟩

theorem parts_row_account (hpos : pos ≤ input.size)
    (hrepeats : ∀ item ∈ items, item.repeatsNullable input.nullable = false)
    (hitems : ∀ item ∈ items, Accounted input item) :
    Accounts (fun stop => {pieces | SplitsAll input items pos pieces stop})
      (partsSeq input (deriveAt input) items [.nothing pos]) := by
  refine (parts_seq_account hready pos hrepeats hitems (accounts_nothing pos []) ?_ ?_).congr
    fun stop way => ⟨?_, ?_⟩
  · rintro stop _ ⟨rfl, rfl⟩
    rfl
  · simpa [Partial.nothing] using hpos
  · rintro ⟨next, _, ⟨rfl, rfl⟩, rest, hrest, rfl⟩
    exact hrest
  · intro hway
    exact ⟨pos, [], ⟨rfl, rfl⟩, way, hway, rfl⟩

theorem splits_at_eq_empty (hpos : pos ≤ input.size)
    (hrepeats : item.repeatsNullable input.nullable = false) (hitem : Accounted input item)
    (stop : Nat) : splitsAt input item pos stop = ∅ ↔ ¬ Spans input item pos stop := by
  rw [← parts_spans hready hpos hrepeats, (hitem pos hpos).stops, Set.not_nonempty_iff_eq_empty]

/-- Preferred matches of alternatives account for the splits of the first alternative that matches, where
no earlier match accounts for anything. -/
theorem parts_any_account (hpos : pos ≤ input.size) {ways : Nat → Set Split} {found : List Partial}
    (hrepeats : ∀ item ∈ items, item.repeatsNullable input.nullable = false)
    (hitems : ∀ item ∈ items, Accounted input item) (hfound : Accounts ways found) :
    Accounts (fun stop => {split | split ∈ ways stop ∨
      (ways stop = ∅ ∧ split ∈ splitsAt input (.alt items) pos stop)})
      ((partsAny input (deriveAt input) items pos).foldl Partial.prefer found) := by
  induction items generalizing found ways with
  | nil =>
    refine hfound.congr fun stop split => ⟨.inl, ?_⟩
    rintro (hsplit | ⟨_, hsplit⟩)
    · exact hsplit
    · cases hsplit with
      | alt hitems => simp at hitems
  | cons item items ih =>
    rw [partsAny, foldl_append]
    have hfirst := hfound.prefer (hitems item (by simp) pos hpos)
    refine (ih (fun other hother => hrepeats other (by simp [hother]))
      (fun other hother => hitems other (by simp [hother])) hfirst).congr fun stop split => ?_
    have hempty := splits_at_eq_empty hready hpos (hrepeats item (by simp)) (hitems item (by simp))
      stop
    -- An end that was reached before is settled; at any other one this alternative comes next.
    rcases (ways stop).eq_empty_or_nonempty with hnone | hsome
    · simp only [hnone, Set.mem_empty_iff_false, false_or, true_and, Set.ofPred_mem_eq, hempty]
      exact splits_alt_cons.symm
    · simp [hsome.ne_empty]

theorem rounds_account (hpos : pos ≤ input.size) {most : Option Nat}
    (hrepeats : inner.repeatsNullable input.nullable = false)
    (hnullable : inner.nullable input.nullable = false) (hinner : Accounted input inner) :
    Accounts (fun stop => {pieces | ∃ count, allows least most count = true ∧
      SplitsAll input (replicate count inner) pos pieces stop})
      ((Partial.rounds (fun pos => inner.parts input (deriveAt input) pos) least most (input.size + 2) 0
        [.nothing pos]).foldl Partial.compete []) := by
  have hsteps : ∀ count, ∀ item ∈ replicate count inner,
      item.repeatsNullable input.nullable = false ∧ Accounted input item := by
    intro count item hitem
    rw [(mem_replicate.mp hitem).2]
    exact ⟨hrepeats, hinner⟩
  have hrow := fun count => parts_row_account hready hpos
    (fun item hitem => (hsteps count item hitem).1) (fun item hitem => (hsteps count item hitem).2)
  rw [rounds_eq fun _ _ => Nat.zero_le _]
  refine (accounts_blocks _ (fun count _ => hrow count) ?_).congr fun stop pieces => ⟨?_, ?_⟩
  · -- Splits into different numbers of pieces differ.
    refine (nodup_range.filter _).imp fun {count other} hne stop pieces => ?_
    intro hpieces hother
    have hcount := hpieces.length
    have hcount' := hother.length
    rw [length_replicate] at hcount hcount'
    exact hne (hcount.symm.trans hcount')
  · rintro ⟨count, hcount, hpieces⟩
    have hallows := (mem_filter.mp hcount).2
    rw [Nat.zero_add] at hallows
    exact ⟨count, hallows, hpieces⟩
  · rintro ⟨count, hallows, hpieces⟩
    obtain ⟨part, hpart, _⟩ := mem_map.mp (((hrow count).stops stop).mpr ⟨pieces, hpieces⟩)
    have hbounds := replicate_bounds hready hpos hrepeats hnullable hpart
    refine ⟨count, mem_filter.mpr ⟨mem_range.mpr (by omega), ?_⟩, hpieces⟩
    rw [Nat.zero_add]
    exact hallows

theorem parts_account (item : Item)
    (hrepeats : item.repeatsNullable input.nullable = false) : Accounted input item := by
  have hpieces : Function.Injective Split.pieces := fun _ _ => Split.pieces.inj
  induction item using induction_on with
  | rule id =>
    intro pos hpos
    refine (accounts_ends .whole ?_ (fun stop => parts_spans hready hpos hrepeats) (by simp [parts, single])).congr
      fun stop split => ⟨?_, ?_⟩
    · rw [parts, map_map]
      exact derive_at_nodup hready hpos
    · rintro ⟨rfl, hspans⟩
      exact .rule hspans
    · intro hsplit
      cases hsplit with
      | rule hspans => exact ⟨rfl, hspans⟩
  | terminal id =>
    intro pos hpos
    refine (accounts_ends .whole ?_ (fun stop => parts_spans hready hpos hrepeats) (by simp [parts, single])).congr
      fun stop split => ⟨?_, ?_⟩
    · rw [parts, map_map]
      exact input.tokens_nodup id pos
    · rintro ⟨rfl, hspans⟩
      exact .terminal hspans
    · intro hsplit
      cases hsplit with
      | terminal hspans => exact ⟨rfl, hspans⟩
  | seq items ih =>
    intro pos hpos
    rw [repeatsNullable, any_repeats_nullable_eq_false] at hrepeats
    exact (accounts_image hpieces (parts_row_account hready hpos hrepeats
      fun item hitem => ih item hitem (hrepeats item hitem))).congr fun stop split => splits_seq.symm
  | alt items ih =>
    intro pos hpos
    rw [repeatsNullable, any_repeats_nullable_eq_false] at hrepeats
    refine (parts_any_account hready hpos hrepeats
      (fun item hitem => ih item hitem (hrepeats item hitem)) accounts_nil).congr fun stop split => ?_
    simp
  | optional inner ih =>
    intro pos hpos
    have hinner := ih hrepeats
    refine ((hinner pos hpos).prefer (accounts_nothing pos Split.whole)).congr fun stop split => ?_
    have hempty := splits_at_eq_empty hready hpos (show inner.repeatsNullable _ = false from hrepeats)
      hinner stop
    rw [Set.mem_ofPred_eq, hempty]
    exact splits_optional.symm
  | rep inner least most ih =>
    intro pos hpos
    simp only [repeatsNullable, Bool.or_eq_false_iff] at hrepeats
    exact (accounts_image hpieces (rounds_account hready hpos hrepeats.2 hrepeats.1
      (ih hrepeats.2))).congr fun stop split => splits_rep.symm

end Chart

/-- The policy by which ambiguities are reported: what comes first is preferred, and a match of a rule
has rivals exactly if it has two splits. -/
def Policy.counted (input : Input) : Policy :=
  .ordered input fun id pos stop rivals => rivals ≠ [] ↔ (ruleSplits input id pos stop).Nontrivial

namespace Derivation

def Respects (policy : Policy) : Derivation → Prop
  | .token _ _ _ => True
  | .node id pos stop _ _ rivals => policy.rivals id pos stop rivals

/-- A match of a rule with two splits. -/
def Contested (input : Input) : Derivation → Prop
  | .token _ _ _ => False
  | .node id pos stop _ _ _ => (ruleSplits input id pos stop).Nontrivial

end Derivation

open FlightProcedure.Derivation

variable {policy : Policy}

theorem Reads.respects {children : List Derivation} (h : Reads input policy item pos children stop) :
    ∀ node ∈ nodesAll children, node.Respects policy := by
  refine h.induct (by simp [nodesAll]) (fun hfirst hrest node hnode => ?_) (by simp [nodesAll, nodes])
    fun hrivals _ hchildren node hnode => ?_
  · rw [nodes_all_append, mem_append] at hnode
    exact hnode.elim (hfirst node) (hrest node)
  · rw [nodesAll, nodesAll, append_nil, nodes, mem_cons] at hnode
    rcases hnode with rfl | hnode
    · exact hrivals
    · exact hchildren node hnode

theorem ambiguity_eq_none_iff_not_contested {node : Derivation} (h : node.Respects (.counted input)) :
    input.ambiguity? node = none ↔ ¬ node.Contested input := by
  cases node with
  | token => exact iff_of_true rfl id
  | node id pos stop span children rivals =>
    rw [Input.ambiguity_eq_none_iff]
    exact not_iff_not.mp (by rw [not_not]; exact h)

theorem tree_of_ambiguous_iff {name : String} (h : ∀ node ∈ derivation.nodes, node.Respects (.counted input)) :
    (∃ start stop ways, input.treeOf derivation = .error (.ambiguous name start stop ways)) ↔
      ∃ before id pos stop span children rivals after,
        derivation.nodes = before ++ .node id pos stop span children rivals :: after ∧
          (ruleSplits input id pos stop).Nontrivial ∧
          (∀ other ∈ before, ¬ other.Contested input) ∧ name = input.ruleName id := by
  have hsettles := input.tree_of_settles derivation
  constructor
  · rintro ⟨start, stop, ways, htree⟩
    cases hcause : derivation.nodes.findSome? input.ambiguity? with
    | none =>
      rw [hcause, htree] at hsettles
      obtain ⟨_, hok⟩ := hsettles
      cases hok
    | some cause =>
      rw [hcause, htree] at hsettles
      obtain ⟨before, node, after, hnodes, hnode, hbefore⟩ := findSome?_eq_some_iff.mp hcause
      obtain ⟨id, pos, stop, span, children, rivals, rfl, hrivals, _, _, _, rfl⟩ := Input.ambiguity_eq_some hnode
      cases hsettles
      have hrespects : Respects (.counted input) (.node id pos stop span children rivals) := h _ (by simp [hnodes])
      refine ⟨before, id, pos, stop, span, children, rivals, after, hnodes, hrespects.mp hrivals,
        fun other hother => ?_, rfl⟩
      exact (ambiguity_eq_none_iff_not_contested (h other (by simp [hnodes, hother]))).mp
        (hbefore other hother)
  · rintro ⟨before, id, pos, stop, span, children, rivals, after, hnodes, hsplits, hbefore, rfl⟩
    have hrespects : Respects (.counted input) (.node id pos stop span children rivals) := h _ (by simp [hnodes])
    obtain ⟨cause, hnode⟩ : ∃ cause, input.ambiguity? (.node id pos stop span children rivals) = some cause := by
      rw [← Option.ne_none_iff_exists', ne_eq, Input.ambiguity_eq_none_iff]
      exact hrespects.mpr hsplits
    have hcause : derivation.nodes.findSome? input.ambiguity? = some cause := by
      refine findSome?_eq_some_iff.mpr ⟨before, _, after, hnodes, hnode, fun other hother => ?_⟩
      exact (ambiguity_eq_none_iff_not_contested (h other (by simp [hnodes, hother]))).mpr
        (hbefore other hother)
    obtain ⟨_, _, _, _, _, _, heq, _, first, last, ways, rfl⟩ := Input.ambiguity_eq_some hnode
    cases heq
    rw [hcause] at hsettles
    exact ⟨first, last, ways, hsettles⟩

section

variable (hready : input.Ready) (hpos : pos ≤ input.size) (h : derivation ∈ Chart.deriveAt input id pos)

include hready hpos h

theorem derive_at_counted :
    Reads input (.counted input) (.rule id) pos [derivation] derivation.stop := by
  refine Chart.derive_at_reads hready (fun other next hnext part hpart => ?_) derivation hpos h
  exact (Chart.parts_account hready (.alt (input.alternatives other))
    (Chart.alternatives_repeat_nothing hready other) next hnext).rivals part hpart

/-- A match of the rule that the policy decides on: its children come from the first alternative that
reaches its end, and it has rivals exactly if that alternative can be split in two ways. -/
def Derivation.Decided (input : Input) (id pos : Nat) (derivation : Derivation) : Prop :=
  ∃ children rivals, derivation = .node id pos derivation.stop (spanOf children) children rivals ∧
      Reads input (.counted input) (.alt (input.alternatives id)) pos children derivation.stop ∧
      (rivals ≠ [] ↔ (ruleSplits input id pos derivation.stop).Nontrivial)

theorem derive_at_decided : derivation.Decided input id pos := by
  have hreads := derive_at_counted hready hpos h
  generalize derivation.stop = stop at hreads
  cases hreads with
  | @rule _ _ _ children rivals hrivals hbody => exact ⟨children, rivals, rfl, hbody, hrivals⟩

end

/-- Parsing by a grammar that can be built keeps the policy for ambiguities. Every derivation in the
chart comes from the first alternative that reaches its end, and has rivals exactly if that alternative
can be split in two ways. A source is rejected as ambiguous exactly if the first derivation that reads
all of it contains a match with two splits, and the rule that is named is that of the first such match
in pre-order. -/
theorem built_grammar_ambiguity {defs : Definitions} {options : GrammarOptions} {grammar : Grammar}
    (h : Grammar.build defs options = .ok grammar) (source : String) (start : Nat) :
    let input := Input.ofChars grammar source.toList.toArray
    let derived := Chart.derive input start
    (∀ derivation ∈ derived.1, Decided input start 0 derivation) ∧
      (∀ id pos found, derived.2.rules[(id, pos)]? = some found →
        ∀ derivation ∈ found, Decided input id pos derivation) ∧
      ∀ name, (∃ first last ways, grammar.parseRule source start = .error (.ambiguous name first last ways)) ↔
        ∃ candidate, derived.1.find? input.readsAll = some candidate ∧ ∃ before id pos stop span children rivals after,
            candidate.nodes = before ++ .node id pos stop span children rivals :: after ∧
              (ruleSplits input id pos stop).Nontrivial ∧
              (∀ other ∈ before, ¬ other.Contested input) ∧ name = input.ruleName id := by
  intro input derived
  have hready : input.Ready := Input.ready_of_build h _
  obtain ⟨hderive, hchart⟩ := Chart.derive_faithful hready start
  have hroot : derived.1 = Chart.deriveAt input start 0 := hderive
  refine ⟨fun derivation hderivation => ?_, fun id pos found hfound derivation hderivation => ?_, fun name => ?_⟩
  · rw [hroot] at hderivation
    exact derive_at_decided hready (Nat.zero_le _) hderivation
  · obtain ⟨hpos, rfl⟩ := hchart.rules id pos found hfound
    exact derive_at_decided hready hpos hderivation
  · have hparse : grammar.parseRule source start = input.select derived.2.furthest derived.1 := rfl
    rw [hparse]
    cases hfind : derived.1.find? input.readsAll with
    | none =>
      obtain ⟨last, hlast⟩ := Input.select_eq_unexpected hfind derived.2.furthest
      rw [hlast]
      constructor
      · rintro ⟨_, _, _, herror⟩
        cases herror
      · rintro ⟨_, hsome, _⟩
        cases hsome
    | some candidate =>
      have hmem := mem_of_find?_eq_some hfind
      rw [hroot] at hmem
      have hrespects := (derive_at_counted hready (Nat.zero_le _) hmem).respects
      rw [nodesAll, nodesAll, append_nil] at hrespects
      rw [Input.select_eq_tree hfind, tree_of_ambiguous_iff hrespects]
      constructor
      · intro hfirst
        exact ⟨candidate, rfl, hfirst⟩
      · rintro ⟨_, hsame, hfirst⟩
        cases hsame
        exact hfirst

/-- Three crosses in a row of pairs are rejected exactly if the first derivation of all of them contains a
match with two splits. -/
theorem pair_rows_ambiguity : ∃ grammar, Grammar.build pairDefinitions { ignore := [" "] } = .ok grammar ∧
      let input := Input.ofChars grammar "x x x".toList.toArray
      (∀ derivation ∈ (Chart.derive input 0).1, Decided input 0 0 derivation) ∧
        ((∃ first last ways, grammar.parseRule "x x x" 0 = .error (.ambiguous "row" first last ways)) ↔
          ∃ candidate, (Chart.derive input 0).1.find? input.readsAll = some candidate ∧
            ∃ before id pos stop span children rivals after,
              candidate.nodes = before ++ .node id pos stop span children rivals :: after ∧
                (ruleSplits input id pos stop).Nontrivial ∧
                (∀ other ∈ before, ¬ other.Contested input) ∧ "row" = input.ruleName id) := by
  obtain ⟨grammar, hbuild⟩ := pair_definitions_build
  obtain ⟨hroot, _, hambiguous⟩ := built_grammar_ambiguity hbuild "x x x" 0
  exact ⟨grammar, hbuild, hroot, hambiguous "row"⟩

end FlightProcedure
