import FlightProcedure.Proofs.Language.EmbeddedTexts
import FlightProcedure.Proofs.Procedure.Watchdogs

/-!
# Procedures of the embedded language

The tree of every source that the embedded language parses as a procedure denotes one, apart from statements
that are not supported and times that do not exist: `embedded_procedure_foreseen`. The references in such a
procedure form a tree: `read_procedure_closed`. Its watchdogs are the statements in watchdog bodies:
`watchdogs_are_guards`.
-/

namespace FlightProcedure

section

variable {language : Language} {source : String} {tree : Tree} (hlanguage : Language.embedded = .ok language)
  (htree : language.parseProcedure source = .ok tree)

include hlanguage htree

theorem embedded_procedure_sound :
    ∃ defs input, defs.Embedded ∧ defs.Readable Language.procedureOptions ∧
      tree.Sound input defs Language.procedureOptions ∧ tree.label = .rule Language.procedureRoot := by
  obtain ⟨defs, hbuild, hembedded⟩ := Language.embedded_eq_ok hlanguage
  obtain ⟨hreadable, hvisible, hsolid⟩ := readable_of_definitions hembedded.sorted
    fun definition hmem => (hembedded.readable definition hmem).1
  have hfollows := Input.follows_of_build hbuild (fun definition hmem => (hembedded.readable definition hmem).2)
    hvisible hsolid source.toList.toArray
  exact ⟨defs, _, hembedded, hreadable, parse_sound rfl hfollows htree⟩

theorem embedded_procedure_meets (name : String) :
    Meets tree.tokens Procedure.Rooted (Procedure.ofTree name tree) := by
  obtain ⟨defs, input, -, hreadable, hsound, hlabel⟩ := embedded_procedure_sound hlanguage htree
  refine of_tree_meets hreadable name hsound ?_
  rw [hlabel]
  decide

end

/-- The tree of every source that the embedded language parses denotes a procedure, or it has a statement
that is not supported or a time that does not exist. -/
theorem embedded_procedure_foreseen (source name : String) :
    match Language.embedded with
    | .error _ => True
    | .ok language =>
      match language.parseProcedure source with
      | .error _ => True
      | .ok tree =>
        match Procedure.ofTree name tree with
        | .error cause => cause.Foreseen tree.tokens
        | .ok _ => True := by
  split
  · trivial
  · next language hlanguage =>
    split
    · trivial
    · next tree htree =>
      have hmeets := embedded_procedure_meets hlanguage htree name
      split
      · next cause hcause =>
        rw [hcause] at hmeets
        exact hmeets
      · trivial

/-- The references of every procedure lead to its declarations, each to another statement, and if the
embedded language has parsed its source, they form a tree. -/
theorem read_procedure_closed {name : String} {tree : Tree} {procedure : Procedure}
    (h : Procedure.ofTree name tree = .ok procedure) :
    procedure.Closed ∧ ∀ language source, Language.embedded = .ok language →
      language.parseProcedure source = .ok tree → procedure.Rooted := by
  refine ⟨(of_tree_linked h).closed, fun language source hlanguage htree => ?_⟩
  have hmeets := embedded_procedure_meets hlanguage htree name
  rw [h] at hmeets
  exact hmeets

def flagAt (start : Nat) : Tree :=
  .node "boolean_constant" start (start + 4) [.leaf ⟨"TRUE", "TRUE", start, start + 4⟩]

def flagTree : Tree :=
  .node "procedure_definition" 0 68 [ .node "procedure_main_body" 10 53 [ .node "if_statement" 15 43 [
        .leaf ⟨"if", "if", 15, 17⟩, flagAt 18, .leaf ⟨"then", "then", 23, 27⟩,
        .node "log_statement" 28 36 [flagAt 32], .leaf ⟨";", ";", 36, 37⟩,
        .leaf ⟨"end if", "end if", 38, 44⟩]]]

/-- The procedure of the tree is closed, and both of its statements are listed. -/
theorem flag_procedure_closed : ∃ procedure, Procedure.ofTree "flag" flagTree = .ok procedure ∧
    procedure.listed = [statementKey 28, statementKey 15] ∧ procedure.Closed := by
  have hread : Procedure.ofTree "flag" flagTree = .ok _ := rfl
  exact ⟨_, hread, rfl, (read_procedure_closed hread).1⟩

/-- Every key in a watchdog body, of the procedure or of a step, belongs to a statement that runs a step as a
watchdog, and if the embedded language has parsed the source, no other statement runs a step so. -/
theorem watchdogs_are_guards {name : String} {tree : Tree} {procedure : Procedure}
    (h : Procedure.ofTree name tree = .ok procedure) :
    (∀ key, procedure.Guards key → ∃ stepClass continuation,
      Declaration.statement key (.initiateAndConfirmStep stepClass true continuation) ∈ procedure.declarations) ∧
    ∀ language source, Language.embedded = .ok language → language.parseProcedure source = .ok tree →
      ∀ key stepClass watchdog continuation,
        Declaration.statement key (.initiateAndConfirmStep stepClass watchdog continuation) ∈ procedure.declarations →
          (watchdog = true ↔ procedure.Guards key) := by
  have hwatched := of_tree_watched h
  have hflagged : ∀ key, procedure.Guards key → Flagged procedure.declarations key :=
    fun key hguards => (hwatched true key (Procedure.guards_iff.mp hguards)).mp rfl
  refine ⟨hflagged, fun language source hlanguage htree key stepClass watchdog continuation hmem => ?_⟩
  constructor
  · rintro rfl
    have hmeets := embedded_procedure_meets hlanguage htree name
    rw [h] at hmeets
    have honce : procedure.listed.count key = 1 := hmeets.listed_once key _ hmem
    exact (hwatched.guards_iff (List.count_pos_iff.mp (by omega))).mpr ⟨_, _, hmem⟩
  · intro hguards
    obtain ⟨otherClass, otherTest, hother⟩ := hflagged key hguards
    have hsame := List.inj_on_of_nodup_map (of_tree_linked h).nodup hmem hother rfl
    cases hsame
    rfl

def watchAt (start : Nat) (bodies : List Tree) : Tree :=
  .node "initiate_and_confirm_step_statement" start (start + 40) [ .leaf ⟨"IDENTIFIER", "watch", start, start + 5⟩,
    .node "step_definition" (start + 6) (start + 40) ( .node "step_main_body" (start + 6) (start + 18) [
      .node "log_statement" (start + 8) (start + 16) [flagAt (start + 12)]] :: bodies)]

/-- The tree of a procedure with a step, and with a watchdog that has a watchdog of its own. -/
def watchTree : Tree :=
  .node "procedure_definition" 0 300 [ .node "procedure_main_body" 10 80 [watchAt 20 []],
    .node "watchdog_body" 100 280 [watchAt 110 [ .node "watchdog_body" 130 270 [watchAt 140 []]]]]

/-- Both watchdogs are marked. -/
theorem nested_watchdogs_marked : ∃ procedure, Procedure.ofTree "watch" watchTree = .ok procedure ∧
    ∀ key ∈ [statementKey 140, statementKey 110], procedure.Guards key ∧ ∃ stepClass continuation,
      Declaration.statement key (.initiateAndConfirmStep stepClass true continuation) ∈ procedure.declarations := by
  have hread : Procedure.ofTree "watch" watchTree = .ok _ := rfl
  refine ⟨_, hread, fun key hkey => ?_⟩
  suffices hguards : _ from ⟨hguards, (watchdogs_are_guards hread).1 key hguards⟩
  refine Procedure.guards_iff.mpr ?_
  rcases List.mem_cons.mp hkey with rfl | hkey
  · decide
  · cases List.mem_singleton.mp hkey
    decide

end FlightProcedure
