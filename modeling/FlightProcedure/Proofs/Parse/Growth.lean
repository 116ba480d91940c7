import FlightProcedure.Proofs.Parse.Recognition

/-!
# The trees that a grammar grows

`Grows input keepTokens item pos trees stop` says which trees an item contributes to the node that it
belongs to, and where. It knows nothing of derivations: a node starts at the first token of its rule and
ends where the rule does. Read it first: `parse_grows` says that every tree that a parse yields has grown
so, if no rule of the grammar can match nothing.
-/

namespace FlightProcedure

open List Input Derivation

mutual

/-- `Grows input keepTokens item pos trees stop` says that the item, matched from `pos` to `stop` inside a
rule that keeps or drops the tokens of literals, contributes the trees. -/
inductive Grows (input : Input) : Bool → Item → Nat → List Tree → Nat → Prop where
  | rule {keepTokens : Bool} {id pos stop : Nat} {rule : Rule} {inner : List Tree}
      (hrule : input.grammar.rules[id]? = some rule)
      (hbody : Grows input rule.shaping.keepTokens (.alt rule.alternatives) pos inner stop) :
      Grows input keepTokens (.rule id) pos
        (input.splice id (.node rule.name (input.skip pos) stop inner)) stop
  | terminal {keepTokens : Bool} {id pos stop : Nat} {terminal : Terminal}
      (hterminal : input.grammar.terminals[id]? = some terminal)
      (hstop : stop ∈ input.tokenEnds terminal (input.skip pos)) :
      Grows input keepTokens (.terminal id) pos
        (input.tokenTree? keepTokens id (input.skip pos) stop).toList stop
  | seq {keepTokens : Bool} {items : List Item} {pos stop : Nat} {trees : List Tree}
      (hitems : GrowsAll input keepTokens items pos trees stop) :
      Grows input keepTokens (.seq items) pos trees stop
  | alt {keepTokens : Bool} {items : List Item} {item : Item} {pos stop : Nat} {trees : List Tree}
      (hmem : item ∈ items) (hitem : Grows input keepTokens item pos trees stop) :
      Grows input keepTokens (.alt items) pos trees stop
  | skipped {keepTokens : Bool} {inner : Item} {pos : Nat} :
      Grows input keepTokens (.optional inner) pos [] pos
  | present {keepTokens : Bool} {inner : Item} {pos stop : Nat} {trees : List Tree}
      (hinner : Grows input keepTokens inner pos trees stop) :
      Grows input keepTokens (.optional inner) pos trees stop
  | rep {keepTokens : Bool} {inner : Item} {least count pos stop : Nat} {most : Option Nat}
      {trees : List Tree} (hleast : least ≤ count)
      (hsteps : GrowsAll input keepTokens (replicate count inner) pos trees stop) :
      Grows input keepTokens (.rep inner least most) pos trees stop

/-- `GrowsAll input keepTokens items pos trees stop` says that the items contribute the trees one after
another. -/
inductive GrowsAll (input : Input) : Bool → List Item → Nat → List Tree → Nat → Prop where
  | nil {keepTokens : Bool} {pos : Nat} : GrowsAll input keepTokens [] pos [] pos
  | cons {keepTokens : Bool} {item : Item} {items : List Item} {pos next stop : Nat}
      {first rest : List Tree} (hitem : Grows input keepTokens item pos first next)
      (hitems : GrowsAll input keepTokens items next rest stop) :
      GrowsAll input keepTokens (item :: items) pos (first ++ rest) stop

end

def Input.Solid (input : Input) : Prop :=
  ∀ (id : Nat) (rule : Rule), input.grammar.rules[id]? = some rule → Item.anyNullable #[] rule.alternatives = false

variable {input : Input} {policy : Policy}

variable {pos stop id : Nat} {children : List Derivation} {tree : Tree} {item : Item}
  {rivals : List (List Derivation)}

theorem Reads.rule_exists (h : Reads input policy (.alt (input.alternatives id)) pos children stop) :
    ∃ rule, input.grammar.rules[id]? = some rule ∧ input.alternatives id = rule.alternatives := by
  unfold alternatives at h ⊢
  cases hrule : input.grammar.rules[id]? with
  | none =>
    rw [hrule] at h
    cases h with
    | alt hitems => simp at hitems
  | some rule => exact ⟨rule, rfl, rfl⟩

theorem nullable_of_any {rules : Array Bool} {items : List Item} (h : Item.anyNullable rules items = false)
    (hmem : item ∈ items) : item.nullable rules = false := by
  induction items with
  | nil => cases hmem
  | cons first rest ih =>
    simp only [Item.anyNullable, Bool.or_eq_false_iff] at h
    rcases mem_cons.mp hmem with rfl | hmem
    · exact h.1
    · exact ih h.2 hmem

theorem all_nullable_replicate {rules : Array Bool} {inner : Item} {least count : Nat}
    {most : Option Nat} (hleast : least ≤ count)
    (h : (Item.rep inner least most).nullable rules = false) :
    Item.allNullable rules (replicate count inner) = false := by
  simp only [Item.nullable, Bool.or_eq_false_iff, beq_eq_false_iff_ne] at h
  obtain ⟨more, rfl⟩ : ∃ more, count = more + 1 := ⟨count - 1, by omega⟩
  rw [replicate_succ, Item.allNullable, h.2, Bool.false_and]

theorem Reads.children_ne_nil (h : Reads input policy item pos children stop) :
    item.nullable #[] = false → children ≠ [] := by
  induction h using Reads.rec
    (motive_2 := fun items _ children _ _ => Item.allNullable #[] items = false → children ≠ []) with
  | rule | terminal => exact fun _ => cons_ne_nil _ _
  | seq _ ih => exact ih
  | skipped | present => simp [Item.nullable]
  | nil hsolid => cases hsolid
  | alt hitems _ _ ih => exact fun hsolid => ih (nullable_of_any hsolid (by simp [hitems]))
  | rep hleast _ _ ih => exact fun hsolid => ih (all_nullable_replicate hleast hsolid)
  | cons _ _ hitem hitems hsolid =>
    simp only [Item.allNullable, Bool.and_eq_false_iff] at hsolid
    simp only [ne_eq, append_eq_nil_iff, not_and_or]
    exact hsolid.imp hitem hitems

namespace Derivation

theorem span_of_singleton (derivation : Derivation) : spanOf [derivation] = derivation.span := by
  unfold spanOf
  cases hspan : derivation.span with
  | none => simp [hspan]
  | some ends => simp [hspan]

def joinSpans : Option (Nat × Nat) → Option (Nat × Nat) → Option (Nat × Nat)
  | none, second => second
  | some first, none => some first
  | some (start, _), some (_, stop) => some (start, stop)

theorem span_of_append (first second : List Derivation) :
    spanOf (first ++ second) = joinSpans (spanOf first) (spanOf second) := by
  have hreverse : ∀ children : List Derivation,
      children.reverse.findSome? span = none ↔ children.findSome? span = none := by
    simp [findSome?_eq_none_iff]
  have hfirst := hreverse first
  have hsecond := hreverse second
  unfold spanOf
  rw [findSome?_append, reverse_append, findSome?_append]
  cases hhead : first.findSome? span with
  | none =>
    rw [hfirst.mpr hhead]
    cases hnext : second.findSome? span with
    | none => simp [joinSpans]
    | some next => cases second.reverse.findSome? span <;> simp [joinSpans]
  | some head =>
    obtain ⟨last, hlast⟩ := Option.ne_none_iff_exists'.mp
      (fun hnone => by simp [hfirst.mp hnone] at hhead : first.reverse.findSome? span ≠ none)
    cases hnext : second.findSome? span with
    | none => simp [hsecond.mpr hnext, hlast, joinSpans]
    | some next =>
      obtain ⟨end', hend⟩ := Option.ne_none_iff_exists'.mp
        (fun hnone => by simp [hsecond.mp hnone] at hnext : second.reverse.findSome? span ≠ none)
      simp [hend, hlast, joinSpans]

end Derivation

theorem Reads.rule_nonempty (hsolid : input.Solid)
    (h : Reads input policy (.alt (input.alternatives id)) pos children stop) :
    ∃ rule, input.grammar.rules[id]? = some rule ∧ input.alternatives id = rule.alternatives ∧ children ≠ [] := by
  obtain ⟨rule, hrule, halternatives⟩ := h.rule_exists
  refine ⟨rule, hrule, halternatives, h.children_ne_nil ?_⟩
  rw [halternatives, Item.nullable]
  exact hsolid id rule hrule

theorem Reads.span (hsolid : input.Solid) (h : Reads input policy item pos children stop) :
    children = [] ∧ stop = pos ∨ spanOf children = some (input.skip pos, stop) := by
  refine h.induct (fun _ => .inl ⟨rfl, rfl⟩) (fun hfirst hrest => ?_) (fun _ _ => .inr rfl) fun _ hbody hchildren => .inr ?_
  · rcases hfirst with ⟨rfl, rfl⟩ | hfirst
    · exact hrest
    · rcases hrest with ⟨rfl, rfl⟩ | hrest
      · rw [append_nil]
        exact .inr hfirst
      · exact .inr (by rw [span_of_append, hfirst, hrest, joinSpans])
  · obtain ⟨_, _, _, hne⟩ := hbody.rule_nonempty hsolid
    rw [Derivation.span_of_singleton, Derivation.span, hchildren.resolve_left fun hnil => hne hnil.1]

theorem Reads.rule_span (hsolid : input.Solid)
    (h : Reads input policy (.alt (input.alternatives id)) pos children stop) :
    ∃ rule, input.grammar.rules[id]? = some rule ∧ input.alternatives id = rule.alternatives ∧
      spanOf children = some (input.skip pos, stop) := by
  obtain ⟨rule, hrule, halternatives, hne⟩ := h.rule_nonempty hsolid
  exact ⟨rule, hrule, halternatives, (h.span hsolid).resolve_left fun hnil => hne hnil.1⟩

theorem trees_of_append {keepTokens : Bool} {first second : List Derivation} {trees : List Tree}
    (h : input.treesOf keepTokens (first ++ second) = .ok trees) :
    ∃ front back, input.treesOf keepTokens first = .ok front ∧
      input.treesOf keepTokens second = .ok back ∧ trees = front ++ back := by
  induction first generalizing trees with
  | nil => exact ⟨[], trees, by rw [treesOf], h, rfl⟩
  | cons child first ih =>
    cases child with
    | token id start stop =>
      rw [cons_append, treesOf] at h
      obtain ⟨others, hothers, h⟩ := bind_eq_ok h
      cases h
      obtain ⟨front, back, hfront, hback, rfl⟩ := ih hothers
      refine ⟨(input.tokenTree? keepTokens id start stop).toList ++ front, back, ?_, hback, ?_⟩
      · rw [treesOf, hfront]
        rfl
      · rw [append_assoc]
    | node id pos stop span children rivals =>
      rw [cons_append, treesOf] at h
      obtain ⟨tree, htree, h⟩ := bind_eq_ok h
      obtain ⟨others, hothers, h⟩ := bind_eq_ok h
      cases h
      obtain ⟨front, back, hfront, hback, rfl⟩ := ih hothers
      refine ⟨input.splice id tree ++ front, back, ?_, hback, ?_⟩
      · rw [treesOf, htree, hfront]
        rfl
      · rw [append_assoc]

theorem tree_of_node_eq (input : Input) (id pos stop : Nat) (span : Option (Nat × Nat))
    (children : List Derivation) (rivals : List (List Derivation)) :
    input.treeOf (.node id pos stop span children rivals) =
      if rivals.isEmpty then
        input.treesOf ((input.grammar.rules[id]?.map (·.shaping.keepTokens)).getD false) children >>=
          fun inner => .ok (.node (input.ruleName id) (span.getD (pos, pos)).1 (span.getD (pos, pos)).2 inner)
      else
        .error (.ambiguous (input.ruleName id) (span.getD (pos, pos)).1 (span.getD (pos, pos)).2
          ((children :: rivals).map input.describe)) := by
  rw [treeOf]

theorem tree_of_eq_ok {span : Option (Nat × Nat)}
    (h : input.treeOf (.node id pos stop span children rivals) = .ok tree) :
    ∃ inner, input.treesOf ((input.grammar.rules[id]?.map (·.shaping.keepTokens)).getD false) children = .ok inner ∧
      tree = .node (input.ruleName id) (span.getD (pos, pos)).1 (span.getD (pos, pos)).2 inner := by
  rw [tree_of_node_eq] at h
  split at h
  · obtain ⟨inner, hinner, h⟩ := bind_eq_ok h
    cases h
    exact ⟨inner, hinner, rfl⟩
  · cases h

theorem tree_of_node {start last : Nat} {rule : Rule} (hrule : input.grammar.rules[id]? = some rule)
    (hspan : spanOf children = some (start, last))
    (h : input.treeOf (.node id pos stop (spanOf children) children rivals) = .ok tree) :
    ∃ inner, input.treesOf rule.shaping.keepTokens children = .ok inner ∧ tree = .node rule.name start last inner := by
  obtain ⟨inner, hinner, rfl⟩ := tree_of_eq_ok h
  refine ⟨inner, ?_, ?_⟩
  · simpa [hrule] using hinner
  · simp [ruleName, hrule, hspan]

theorem Reads.grows (hsolid : input.Solid) (h : Reads input policy item pos children stop) :
    ∀ {keepTokens : Bool} {trees : List Tree},
      input.treesOf keepTokens children = .ok trees → Grows input keepTokens item pos trees stop := by
  induction h using Reads.rec (motive_2 := fun items pos children stop _ => ∀ {keepTokens : Bool} {trees : List Tree},
    input.treesOf keepTokens children = .ok trees → GrowsAll input keepTokens items pos trees stop) with
  | rule _ hbody ih =>
    intro keepTokens trees h
    obtain ⟨rule, hrule, halternatives, hspan⟩ := hbody.rule_span hsolid
    rw [treesOf] at h
    obtain ⟨tree, htree, h⟩ := bind_eq_ok h
    obtain ⟨others, hothers, h⟩ := bind_eq_ok h
    rw [treesOf] at hothers
    cases hothers
    cases h
    obtain ⟨inner, hinner, rfl⟩ := tree_of_node hrule hspan htree
    have hgrows := ih hinner
    rw [halternatives] at hgrows
    rw [append_nil]
    exact .rule hrule hgrows
  | terminal hterminal hstop =>
    intro keepTokens trees h
    rw [treesOf] at h
    obtain ⟨others, hothers, h⟩ := bind_eq_ok h
    rw [treesOf] at hothers
    cases hothers
    cases h
    rw [append_nil]
    exact .terminal hterminal hstop
  | seq _ ih => exact fun h => .seq (ih h)
  | alt hitems _ _ ih => exact fun h => .alt (by simp [hitems]) (ih h)
  | skipped =>
    intro keepTokens trees h
    rw [treesOf] at h
    cases h
    exact .skipped
  | present _ ih => exact fun h => .present (ih h)
  | rep hleast _ _ ih => exact fun h => .rep hleast (ih h)
  | nil h =>
    rw [treesOf] at h
    cases h
    exact .nil
  | cons _ _ hitem hitems h =>
    obtain ⟨front, back, hfront, hback, rfl⟩ := trees_of_append h
    exact .cons (hitem hfront) (hitems hback)

theorem select_eq_ok {derivations : List Derivation} {furthest : Furthest}
    (h : input.select furthest derivations = .ok tree) :
    ∃ derivation ∈ derivations, input.skip derivation.stop = input.size ∧ input.treeOf derivation = .ok tree := by
  cases hfind : derivations.find? input.readsAll with
  | none =>
    obtain ⟨last, hlast⟩ := select_eq_unexpected hfind furthest
    rw [hlast] at h
    cases h
  | some derivation =>
    rw [select_eq_tree hfind] at h
    have hall := find?_some hfind
    exact ⟨derivation, mem_of_find?_eq_some hfind, of_decide_eq_true hall, h⟩

theorem select_grows (hready : input.Ready) (hsolid : input.Solid) {furthest : Furthest}
    (h : input.select furthest (Chart.derive input id).1 = .ok tree) :
    ∃ (stop : Nat) (rule : Rule) (inner : List Tree), input.grammar.rules[id]? = some rule ∧
      tree = .node rule.name (input.skip 0) stop inner ∧
      Grows input rule.shaping.keepTokens (.alt rule.alternatives) 0 inner stop := by
  obtain ⟨derivation, hmem, -, htree⟩ := select_eq_ok h
  rw [(Chart.derive_faithful hready id).1] at hmem
  have hreads := Chart.derive_at_free hready derivation (Nat.zero_le _) hmem
  cases hreads with
  | rule hrivals hbody =>
    obtain ⟨rule, hrule, halternatives, hspan⟩ := hbody.rule_span hsolid
    obtain ⟨inner, hinner, rfl⟩ := tree_of_node hrule hspan htree
    have hgrows := hbody.grows hsolid hinner
    rw [halternatives] at hgrows
    exact ⟨_, rule, inner, hrule, rfl, hgrows⟩

theorem parse_grows {grammar : Grammar} {source start : String} {input : Input}
    (hinput : input = ofChars grammar source.toList.toArray) (hready : input.Ready) (hsolid : input.Solid)
    (h : grammar.parse source start = .ok tree) :
    ∃ (id stop : Nat) (rule : Rule) (inner : List Tree), grammar.ruleId? start = some id ∧
      grammar.rules[id]? = some rule ∧ tree = .node rule.name (input.skip 0) stop inner ∧
      Grows input rule.shaping.keepTokens (.alt rule.alternatives) 0 inner stop := by
  subst hinput
  unfold Grammar.parse at h
  split at h
  · next id hid =>
    obtain ⟨stop, rule, inner, hrule, htree, hgrows⟩ := select_grows hready hsolid h
    exact ⟨id, stop, rule, inner, hid, hrule, htree, hgrows⟩
  · cases h

end FlightProcedure
