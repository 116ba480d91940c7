import FlightProcedure.Grammar.Build
import FlightProcedure.Proofs.Grammar.Nullability
import FlightProcedure.Proofs.Outcome
import Mathlib.Logic.Relation

/-!
# Checked rules have no left recursion

The search for a cycle visits every rule and, before it finishes a rule, everything that the rule
leads to. If it finds no cycle, every chain of leading rules therefore ends: `leads_to_wellFounded`.
`Checked` collects what the checks on the rules of a grammar establish, and `build_checked` says that
every grammar that can be built has passed them.
-/

namespace FlightProcedure

open Relation List Array

def LeadsTo (leading : Array (List Nat)) (next id : Nat) : Prop :=
  next ∈ leading.getD id []

/-- The marks of a search: there is one for each rule, and no chain of leading rules from a finished
rule goes on for ever. -/
structure Settled (leading : Array (List Nat)) (marks : Array Mark) : Prop where
  size_eq : marks.size = leading.size
  acc : ∀ id, marks.getD id .finished = .finished → Acc (LeadsTo leading) id

def freshCount (marks : Array Mark) : Nat := marks.count .fresh

mutual

/-- `Visits leading id marks outcome` says that a visit of a rule comes to an end with that outcome: each
run of the search, however deep, is a finite derivation. -/
inductive Visits (leading : Array (List Nat)) : Nat → Array Mark → Except Nat (Array Mark) → Prop where
  | active {id : Nat} {marks : Array Mark} (h : marks.getD id .finished = .active) : Visits leading id marks (.error id)
  | finished {id : Nat} {marks : Array Mark} (h : marks.getD id .finished = .finished) :
      Visits leading id marks (.ok marks)
  | fresh {id : Nat} {marks : Array Mark} {outcome : Except Nat (Array Mark)} (h : marks.getD id .finished = .fresh)
      (hnext : VisitsAll leading (leading.getD id []) (marks.setIfInBounds id .active) outcome) :
      Visits leading id marks (outcome.map (·.setIfInBounds id .finished))

/-- Rules are visited in order, up to the first visit that finds a cycle. -/
inductive VisitsAll (leading : Array (List Nat)) : List Nat → Array Mark → Except Nat (Array Mark) → Prop where
  | nil {marks : Array Mark} : VisitsAll leading [] marks (.ok marks)
  | stop {id found : Nat} {rest : List Nat} {marks : Array Mark} (h : Visits leading id marks (.error found)) :
      VisitsAll leading (id :: rest) marks (.error found)
  | next {id : Nat} {rest : List Nat} {marks between : Array Mark} {outcome : Except Nat (Array Mark)}
      (h : Visits leading id marks (.ok between)) (hrest : VisitsAll leading rest between outcome) :
      VisitsAll leading (id :: rest) marks outcome

end

variable {leading : Array (List Nat)} {marks after : Array Mark} {id other fuel : Nat} {ids : List Nat}
  {outcome : Except Nat (Array Mark)}

theorem acc_of_size_le (h : leading.size ≤ id) : Acc (LeadsTo leading) id := by
  refine ⟨id, fun next hnext => ?_⟩
  simp [LeadsTo, Array.getD_eq_getD_getElem?, Array.getElem?_eq_none h] at hnext

theorem get_marked {mark : Mark} (hne : id ≠ other) :
    (marks.setIfInBounds id mark).getD other .finished = marks.getD other .finished := by
  rw [getD_eq_getD_getElem?, getElem?_setIfInBounds, if_neg hne, ← getD_eq_getD_getElem?]

theorem lt_size_of_fresh (h : marks.getD id .finished = .fresh) : id < marks.size := by
  apply Nat.lt_of_not_le
  intro hle
  simp [Array.getD_eq_getD_getElem?, Array.getElem?_eq_none hle] at h

theorem fresh_count_activate (h : marks.getD id .finished = .fresh) :
    freshCount (marks.setIfInBounds id .active) < freshCount marks := by
  have hlt := lt_size_of_fresh h
  have hget : marks[id] = .fresh := by
    simpa [Array.getD_eq_getD_getElem?, hlt] using h
  have hpos : 0 < marks.count .fresh := Array.count_pos_iff.mpr (hget ▸ Array.getElem_mem hlt)
  rw [freshCount, freshCount, Array.setIfInBounds, dif_pos hlt, Array.count_set hlt, hget]
  simp only [beq_self_eq_true, if_true, show (Mark.active == Mark.fresh) = false from rfl, Bool.false_eq_true, if_false]
  omega

theorem fresh_count_finish_le (marks : Array Mark) (id : Nat) :
    freshCount (marks.setIfInBounds id .finished) ≤ freshCount marks := by
  unfold freshCount setIfInBounds
  split
  · next hlt =>
    rw [Array.count_set hlt]
    simp
  · exact Nat.le_refl _

theorem Settled.activate (h : Settled leading marks) (hfresh : marks.getD id .finished = .fresh) :
    Settled leading (marks.setIfInBounds id .active) := by
  refine ⟨by simpa using h.size_eq, fun other hother => ?_⟩
  by_cases heq : id = other
  · subst heq
    simp [getD_eq_getD_getElem?, lt_size_of_fresh hfresh] at hother
  · exact h.acc other (get_marked heq ▸ hother)

theorem Settled.finish (h : Settled leading marks) (hnext : ∀ next ∈ leading.getD id [], Acc (LeadsTo leading) next) :
    Settled leading (marks.setIfInBounds id .finished) := by
  refine ⟨by simpa using h.size_eq, fun other hother => ?_⟩
  by_cases heq : id = other
  · subst heq
    exact ⟨id, hnext⟩
  · exact h.acc other (get_marked heq ▸ hother)

/-- What visits achieve that find no cycle: no rule becomes fresh or stays active, the marks stay settled, and
chains from the visited rules end. -/
structure Visited (leading : Array (List Nat)) (ids : List Nat) (marks after : Array Mark) : Prop where
  fresh_le : freshCount after ≤ freshCount marks
  active : ∀ other, after.getD other .finished = .active → marks.getD other .finished = .active
  settled : Settled leading marks → Settled leading after ∧ ∀ id ∈ ids, Acc (LeadsTo leading) id

/-- Active rules lead to every rule that is visited, so the rule that a visit finds leads back to itself. -/
def ClosesCycle (leading : Array (List Nat)) (ids : List Nat) (marks : Array Mark) (found : Nat) : Prop :=
  (∀ id ∈ ids, ∀ other, marks.getD other .finished = .active → TransGen (LeadsTo leading) id other) →
    TransGen (LeadsTo leading) found found

theorem VisitsAll.ends (h : VisitsAll leading ids marks outcome) :
    Ends (Visited leading ids marks) (ClosesCycle leading ids marks) outcome := by
  induction h using VisitsAll.rec (motive_1 := fun id marks outcome _ =>
    Ends (Visited leading [id] marks) (ClosesCycle leading [id] marks) outcome) with
  | active hactive => exact fun hleads => hleads _ (mem_singleton_self _) _ hactive
  | finished hfinished =>
    exact ⟨Nat.le_refl _, fun _ h => h, fun h => ⟨h, forall_mem_singleton.mpr (h.acc _ hfinished)⟩⟩
  | @fresh id marks outcome hfresh _ ih =>
    have hactive : ∀ other, (marks.setIfInBounds id .active).getD other .finished = .active →
        id = other ∨ marks.getD other .finished = .active := by
      intro other hother
      by_cases hne : id = other
      · exact .inl hne
      · exact .inr (get_marked hne ▸ hother)
    cases outcome with
    | error found =>
      refine fun hleads => ih fun next hnext other hother => ?_
      rcases hactive other hother with rfl | hother
      · exact .single hnext
      · exact .head hnext (hleads id (mem_singleton_self _) other hother)
    | ok after =>
      refine ⟨?_, fun other hother => ?_, fun h => ?_⟩
      · refine Nat.le_trans (fresh_count_finish_le after id) (Nat.le_trans ih.fresh_le ?_)
        exact Nat.le_of_lt (fresh_count_activate hfresh)
      · have hne : id ≠ other := by
          rintro rfl
          rw [getD_eq_getD_getElem?, getElem?_setIfInBounds] at hother
          grind
        exact (hactive other (ih.active other (get_marked hne ▸ hother))).resolve_left hne
      · obtain ⟨hafter, hacc⟩ := ih.settled (h.activate hfresh)
        exact ⟨hafter.finish hacc, forall_mem_singleton.mpr ⟨id, hacc⟩⟩
  | nil => exact ⟨Nat.le_refl _, fun _ h => h, fun h => ⟨h, by simp⟩⟩
  | stop _ ih => exact fun hleads => ih fun id hid => hleads id (mem_singleton.mp hid ▸ mem_cons_self)
  | @next id rest marks between outcome _ _ ih ihs =>
    cases outcome with
    | error found =>
      exact fun hleads => ihs fun next hnext other hother =>
        hleads next (mem_cons_of_mem _ hnext) other (ih.active other hother)
    | ok after =>
      refine ⟨Nat.le_trans ihs.fresh_le ih.fresh_le, fun other h => ih.active other (ihs.active other h), fun h => ?_⟩
      obtain ⟨hbetween, hid⟩ := ih.settled h
      obtain ⟨hafter, hrest⟩ := ihs.settled hbetween
      exact ⟨hafter, forall_mem_cons.mpr ⟨hid id (mem_singleton_self _), hrest⟩⟩

theorem Visits.fresh_le (h : Visits leading id marks (.ok after)) : freshCount after ≤ freshCount marks :=
  (VisitsAll.next h .nil).ends.fresh_le

theorem visits_all {visit : Nat → Array Mark → Except Nat (Array Mark)}
    (hvisit : ∀ {id marks}, freshCount marks < fuel → Visits leading id marks (visit id marks))
    (hfuel : freshCount marks < fuel) :
    VisitsAll leading ids marks (ids.foldlM (fun marks id => visit id marks) marks) := by
  induction ids generalizing marks with
  | nil => exact .nil
  | cons id rest ih =>
    have hfirst : Visits leading id marks (visit id marks) := hvisit hfuel
    rw [foldlM_cons]
    cases houtcome : visit id marks with
    | error found => exact .stop (houtcome ▸ hfirst)
    | ok between =>
      rw [houtcome] at hfirst
      exact .next hfirst (ih (Nat.lt_of_le_of_lt hfirst.fresh_le hfuel))

/-- The fuel exceeds the number of fresh rules, so a visit never runs out of it. -/
theorem visit_rule_visits (hfuel : freshCount marks < fuel) :
    Visits leading id marks (visitRule leading fuel id marks) := by
  induction fuel generalizing id marks with
  | zero => omega
  | succ fuel ih =>
    rw [visitRule]
    cases hmark : marks.getD id .finished with
    | active => exact .active hmark
    | finished => exact .finished hmark
    | fresh =>
      -- While its leading rules are visited the rule is active, so there is one fresh rule less.
      have hactive := fresh_count_activate hmark
      exact .fresh hmark (visits_all ih (by omega))

theorem visit_rules_visits (leading : Array (List Nat)) : VisitsAll leading (range leading.size)
    (replicate leading.size .fresh) (visitRules leading) :=
  visits_all visit_rule_visits (by simp [freshCount])

theorem leads_to_wellFounded (h : findCycle? leading = none) : WellFounded (LeadsTo leading) := by
  have hends := (visit_rules_visits leading).ends
  unfold findCycle? at h
  split at h
  · next after hvisit =>
    rw [hvisit] at hends
    have hsettled : Settled leading (replicate leading.size .fresh) := by
      refine ⟨by simp, fun id hid => ?_⟩
      apply acc_of_size_le
      apply Nat.le_of_not_lt
      intro hlt
      simp [getD_eq_getD_getElem?, hlt] at hid
    refine ⟨fun id => ?_⟩
    by_cases hlt : id < leading.size
    · exact (hends.settled hsettled).2 id (mem_range.mpr hlt)
    · exact acc_of_size_le (Nat.le_of_not_lt hlt)
  · cases h

theorem find_cycle_eq_some (h : findCycle? leading = some id) : TransGen (LeadsTo leading) id id := by
  have hends := (visit_rules_visits leading).ends
  unfold findCycle? at h
  split at h
  · cases h
  · next found hvisit =>
    cases h
    rw [hvisit] at hends
    refine hends fun id _ other hother => ?_
    rw [Array.getD_eq_getD_getElem?, Array.getElem?_replicate] at hother
    split at hother <;> cases hother

theorem not_trans_gen_of_acc {α : Type} {r : α → α → Prop} {a : α} (h : Acc r a) : ¬ TransGen r a a := by
  have hacc := acc_transGen_iff.mpr h
  clear h
  induction hacc with
  | intro a _ ih => exact fun hcycle => ih a hcycle hcycle

theorem find_cycle_eq_none_iff : findCycle? leading = none ↔ ∀ id, ¬ TransGen (LeadsTo leading) id id := by
  refine ⟨fun h id => not_trans_gen_of_acc ((leads_to_wellFounded h).apply id), fun h => ?_⟩
  cases hfound : findCycle? leading with
  | none => rfl
  | some id => exact absurd (find_cycle_eq_some hfound) (h id)

/-- Visiting all rules in order on one table of marks always comes to an end. It finds a cycle exactly if some
rule leads back to itself, and the rule that it finds does. -/
theorem cycle_search_exact (leading : Array (List Nat)) :
    VisitsAll leading (List.range leading.size) (Array.replicate leading.size .fresh) (visitRules leading) ∧
      ((findCycle? leading).isSome = true ↔ ∃ id, TransGen (LeadsTo leading) id id) ∧
      ∀ id, findCycle? leading = some id → TransGen (LeadsTo leading) id id := by
  refine ⟨visit_rules_visits leading, ?_, fun id => find_cycle_eq_some⟩
  rw [← Option.ne_none_iff_isSome, Ne, find_cycle_eq_none_iff]
  simp

structure Checked (rules : Array Rule) : Prop where
  repeats : ∀ (id : Nat) (rule : Rule), rules[id]? = some rule →
    Item.anyRepeatsNullable (nullableRules rules) rule.alternatives = false
  /-- Chains of rules that lead to one another before any text is consumed end. -/
  leads : WellFounded fun next id : Nat => ∃ rule : Rule, rules[id]? = some rule ∧
    next ∈ Item.leadingAlt (nullableRules rules) rule.alternatives

def leadingRules (rules : Array Rule) : Array (List Nat) :=
  rules.map fun rule => Item.leadingAlt (nullableRules rules) rule.alternatives

theorem check_rules_eq_ok {rules : Array Rule} : checkRules rules = .ok () ↔
    (∀ rule ∈ rules, Item.anyRepeatsNullable (nullableRules rules) rule.alternatives = false) ∧
      findCycle? (leadingRules rules) = none := by
  simp only [checkRules, leadingRules, ← Bool.not_eq_true, ← Array.find?_eq_none]
  split
  · next hrepeats => simp [hrepeats]
  · next hrepeats =>
    split
    · next hcycle => simp [hrepeats, hcycle]
    · next hcycle => simp [hcycle]

theorem check_rules_checked {rules : Array Rule} (h : checkRules rules = .ok ()) : Checked rules := by
  obtain ⟨hrepeats, hcycle⟩ := check_rules_eq_ok.mp h
  refine ⟨fun id rule hrule => hrepeats rule (mem_of_getElem? hrule), ?_⟩
  refine Subrelation.wf ?_ (leads_to_wellFounded hcycle)
  rintro next id ⟨rule, hrule, hnext⟩
  simpa [LeadsTo, leadingRules, getD_eq_getD_getElem?, hrule] using hnext

theorem build_eq_ok {defs : Definitions} {options : GrammarOptions} {grammar : Grammar} :
    Grammar.build defs options = .ok grammar ↔ ∃ named rules vocabulary ignore,
      Definitions.duplicate? [] (defs.toList.map (·.name)) = none ∧ Vocabulary.ofDefinitions defs options = .ok named ∧
      Vocabulary.rules defs named defs.rules = .ok (rules, vocabulary) ∧
      options.ignore.mapM (fun source => compilePattern "%ignore" (leadingSource source)) = .ok ignore ∧
      checkRules rules.toArray = .ok () ∧
      grammar = ⟨rules.toArray, vocabulary.terminals, ignore, vocabulary.keywords.insertMany options.reserved,
        vocabulary.phrases⟩ := by
  unfold Grammar.build
  constructor
  · intro h
    split at h
    · cases h
    · next hnone =>
      obtain ⟨named, hnamed, h⟩ := bind_eq_ok h
      obtain ⟨⟨rules, vocabulary⟩, hrules, h⟩ := bind_eq_ok h
      obtain ⟨ignore, hignore, h⟩ := bind_eq_ok h
      obtain ⟨⟨⟩, hcheck, h⟩ := bind_eq_ok h
      cases h
      exact ⟨named, rules, vocabulary, ignore, hnone, hnamed, hrules, hignore, hcheck, rfl⟩
  · rintro ⟨named, rules, vocabulary, ignore, hnone, hnamed, hrules, hignore, hcheck, rfl⟩
    simp only [hnone, hnamed, hrules, hignore, hcheck, ok_bind]

theorem build_checked {defs : Definitions} {options : GrammarOptions} {grammar : Grammar}
    (h : Grammar.build defs options = .ok grammar) : Checked grammar.rules := by
  obtain ⟨_, _, _, _, _, _, _, _, hcheck, rfl⟩ := build_eq_ok.mp h
  exact check_rules_checked hcheck

end FlightProcedure
