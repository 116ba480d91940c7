import FlightProcedure.Proofs.Grammar.ReservedWords
import FlightProcedure.Proofs.Parse.Geometry

/-!
# Names never swallow reserved words

Every token in a tree is one of a terminal of the grammar. If that is a guarded terminal of the definitions,
the text of the token has no reserved words. A token of a literal or a pattern in a rule is not guarded, but
it may have the name of a guarded terminal.
-/

namespace FlightProcedure

open List Input

structure Input.IsToken (input : Input) (terminal : Terminal) (token : Token) : Prop where
  known : terminal ∈ input.grammar.terminals
  name : token.terminal = terminal.tokenName
  text : token.text = input.textBetween token.start token.stop
  stop : token.stop ∈ input.tokenEnds terminal token.start

variable {terminal : Terminal} {token : Token} {options : GrammarOptions}

section

variable {input : Input} {policy : Policy}

theorem token_tree_token {keepTokens : Bool} {id start stop : Nat}
    (hterminal : input.grammar.terminals[id]? = some terminal) (hstop : stop ∈ input.tokenEnds terminal start)
    (hmem : .leaf token ∈ Tree.subtreesOf (input.tokenTree? keepTokens id start stop).toList) :
    input.IsToken terminal token := by
  unfold tokenTree? at hmem
  rw [hterminal] at hmem
  dsimp only at hmem
  split at hmem
  · cases hmem
  · rw [Option.toList_some, Tree.subtreesOf, Tree.subtrees, Tree.subtreesOf, append_nil, mem_singleton] at hmem
    cases hmem
    exact ⟨Array.mem_of_getElem? hterminal, rfl, rfl, hstop⟩

theorem Reads.leaf_tokens {item : Item} {pos stop : Nat} {children : List Derivation}
    (h : Reads input policy item pos children stop) : ∀ ⦃keepTokens trees⦄,
      input.treesOf keepTokens children = .ok trees → ∀ token, .leaf token ∈ Tree.subtreesOf trees →
        ∃ terminal, input.IsToken terminal token := by
  refine h.induct ?_ ?_ ?_ ?_
  · intro _ _ _ htrees token hmem
    rw [treesOf] at htrees
    cases htrees
    cases hmem
  · intro _ _ _ _ _ hfirst hrest _ _ htrees token hmem
    obtain ⟨front, back, hfront, hback, rfl⟩ := trees_of_append htrees
    rw [Tree.subtrees_of_append] at hmem
    exact (mem_append.mp hmem).elim (hfirst hfront token) (hrest hback token)
  · intro _ _ _ terminal hterminal hstop _ _ htrees token hmem
    obtain ⟨others, hothers, rfl⟩ := trees_of_cons_token htrees
    rw [treesOf] at hothers
    cases hothers
    rw [append_nil] at hmem
    exact ⟨terminal, token_tree_token hterminal hstop hmem⟩
  · intro _ _ _ _ _ _ _ hchildren _ _ htrees token hmem
    obtain ⟨tree, others, htree, hothers, rfl⟩ := trees_of_cons_node htrees
    obtain ⟨inner, hinner, rfl⟩ := tree_of_eq_ok htree
    rw [treesOf] at hothers
    cases hothers
    rw [append_nil] at hmem
    rcases mem_subtrees_splice hmem with hself | hmem
    · cases hself
    · exact hchildren hinner token hmem

theorem select_leaf_tokens (hready : input.Ready) {id : Nat} {furthest : Furthest} {tree : Tree}
    (h : input.select furthest (Chart.derive input id).1 = .ok tree) (hmem : .leaf token ∈ tree.subtrees) :
    ∃ terminal, input.IsToken terminal token := by
  obtain ⟨derivation, hreads, _, htree, _⟩ := select_stems hready h
  cases hreads with
  | rule _ hbody =>
    obtain ⟨trees, htrees, rfl⟩ := tree_of_eq_ok htree
    rcases mem_cons.mp hmem with hself | hmem
    · cases hself
    · exact hbody.leaf_tokens htrees token hmem

theorem Input.IsToken.not_reserved (h : input.IsToken terminal token) (hguarded : terminal.guarded = true) :
    input.grammar.isReserved token.text.toList = false := by
  have hstop := h.stop
  unfold tokenEnds at hstop
  split at hstop
  · cases hstop
  · split at hstop
    · cases hstop
    · rw [mem_filter, allowed, Bool.and_eq_true, Bool.not_eq_true'] at hstop
      rw [h.text, textBetween, String.toList_ofList]
      exact hstop.2.2

end

theorem Terminal.IsDefined.guarded_of_guards {defs : Definitions} (h : terminal.IsDefined defs options)
    (hguards : defs.Guards options terminal.tokenName) : terminal.guarded = true := by
  obtain ⟨definition, hmem, h⟩ := h
  obtain ⟨source, _, h⟩ := bind_eq_ok h
  obtain ⟨leading, _, h⟩ := bind_eq_ok h
  obtain ⟨exact, _, h⟩ := bind_eq_ok h
  cases h
  have hname : defs.Guards options definition.name := by
    unfold Terminal.tokenName at hguards
    split at hguards <;> exact hguards
  exact decide_eq_true hname.mem_closure

/-- A token whose terminal is guarded has no reserved words in its text, unless it is a token of a literal
or a pattern in a rule. -/
theorem guarded_token_avoids {defs : Definitions} {options : GrammarOptions} {grammar : Grammar}
    (h : Grammar.build defs options = .ok grammar) {source start : String} {tree : Tree}
    (hparse : grammar.parse source start = .ok tree) {token : Token} (hmem : .leaf token ∈ tree.subtrees)
    (hguards : defs.Guards options token.terminal) :
    defs.Avoids options token.text.toList ∨
      ∃ terminal, (Input.ofChars grammar source.toList.toArray).IsToken terminal token ∧
        terminal.StandsIn defs.ruleLeaves := by
  unfold Grammar.parse at hparse
  split at hparse
  · next id hid =>
    obtain ⟨terminal, htoken⟩ := select_leaf_tokens (Input.ready_of_build h source.toList.toArray) hparse hmem
    have hknows := build_knows h
    rcases hknows.terminals terminal htoken.known with hstands | hdefined
    · exact .inr ⟨terminal, htoken, hstands.stands_in⟩
    · rw [htoken.name] at hguards
      exact .inl (hknows.not_reserved_iff.mp (htoken.not_reserved (hdefined.guarded_of_guards hguards)))
  · cases hparse

theorem Terminal.StandsIn.token_name {leaves : List BodyToken} (h : terminal.StandsIn leaves) :
    .literal terminal.tokenName ∈ leaves ∨
      ∃ regex flags, .pattern regex flags ∈ leaves ∧ terminal.tokenName = "/" ++ regex ++ "/" ++ flags := by
  rcases h with ⟨text, hmem, h⟩ | ⟨regex, flags, hmem, h⟩
  · rw [Terminal.tokenName, h.written, h.anonymous]
    exact .inl hmem
  · rw [Terminal.tokenName, h.written]
    exact .inr ⟨regex, flags, hmem, h.name⟩

/-- The tokens directly below the root of the tree of a source, by the matches of the alternatives of the
start rule, if it is the first rule. -/
def startTokens? (defs : Definitions) (options : GrammarOptions) (source start : String) :
    Option (List (Option Token)) :=
  match Grammar.build defs options with
  | .error _ => none
  | .ok grammar =>
    let input := ofChars grammar source.toList.toArray
    let derivations := (Chart.ruleParts input (Chart.deriveAt input) 0 0).map (Partial.toDerivation 0 0)
    if grammar.ruleId? start = some 0 then
      (input.select (Chart.derive input 0).2.furthest derivations).toOption.map fun tree =>
        tree.children.map Tree.token?
    else none

theorem parse_of_start_tokens {defs : Definitions} {source start : String} {tokens : List (Option Token)}
    (h : startTokens? defs options source start = some tokens) :
    ∃ grammar, Grammar.build defs options = .ok grammar ∧
      ∃ tree, grammar.parse source start = .ok tree ∧ tree.children.map Tree.token? = tokens := by
  unfold startTokens? at h
  split at h
  · cases h
  · next grammar hbuild =>
    dsimp only at h
    split at h
    · next hid =>
      rw [← parse_eq_select hbuild hid] at h
      obtain ⟨tree, htree, htokens⟩ := Option.map_eq_some_iff.mp h
      exact ⟨grammar, hbuild, tree, eq_ok_of_to_option htree, htokens⟩
    · cases h

theorem mem_subtrees_of_child {tree : Tree} (h : some token ∈ tree.children.map Tree.token?) :
    .leaf token ∈ tree.subtrees := by
  obtain ⟨child, hchild, htoken⟩ := mem_map.mp h
  have hleaf : child = .leaf token := by
    cases child <;> cases htoken
    rfl
  rw [hleaf] at hchild
  cases tree with
  | leaf other => cases hchild
  | node rule start stop children =>
    refine mem_cons_of_mem _ ?_
    clear h
    induction children with
    | nil => cases hchild
    | cons first rest ih =>
      rw [Tree.subtreesOf]
      rcases mem_cons.mp hchild with rfl | hchild
      · exact mem_append_left _ (mem_singleton_self _)
      · exact mem_append_right _ (ih hchild)

theorem token_ends_of_guarded {input : Input} {start longest : Nat} (hguarded : terminal.guarded = true)
    (hfind : (terminal.leading.find? ⟨input.chars, start, input.size⟩ start).map (·.2.pos) = some longest)
    (hlt : start < longest) :
    input.tokenEnds terminal start =
      (longest :: gaps (input.chars.extract start longest).toList start true []).filter
        (input.allowed terminal start) := by
  obtain ⟨⟨found, t⟩, hfound, rfl⟩ := Option.map_eq_some_iff.mp hfind
  unfold tokenEnds
  rw [hfound]
  dsimp only at hlt ⊢
  rw [if_neg (by omega), if_pos hguarded]

def endedDefinitions : Definitions where
  rules := [{ name := "start", line := 1, body := .seq [.symbol "NAME", .literal "end"] }]
  terminals := [
    { name := "NAME", line := 2,
      body := .seq [.symbol "WORD", .rep (.seq [.literal " ", .symbol "WORD"]) 0 none] },
    { name := "WORD", line := 3, body := .pattern "[a-z]+" "" }]

def endedOptions : GrammarOptions where
  ignore := [" "]
  guarded := ["WORD"]

def endedPart : Partial where
  stop := 7
  children := [.token 0 0 3, .token 2 4 7]

/-- What it takes to read `set end`: a start rule of a name and a word, a guarded name that may reach to the
end of the source or to the gap in it, and a word behind the gap. The reserved words are left out, since
their table cannot be evaluated. -/
def readsEnded (grammar : Grammar) : Bool :=
  let input := ofChars grammar "set end".toList.toArray
  match input.alternatives 0, grammar.terminals[0]?, grammar.terminals[2]? with
  | [.seq [.terminal 0, .terminal 2]], some name, some word =>
    grammar.ruleId? "start" == some 0 &&
    (name.guarded && name.exact.isMatch ⟨input.chars, 0, 3⟩ &&
      (name.leading.find? ⟨input.chars, 0, 7⟩ 0).map (·.2.pos) == some 7) &&
    input.tokenEnds word 4 == [7] &&
    (input.skip 0 == 0 && input.skip 3 == 4 && input.skip 7 == 7) &&
    (input.treeOf (endedPart.toDerivation 0 0)).toOption.map (·.children.map Tree.token?) ==
      some [some ⟨"NAME", "set", 0, 3⟩]
  | _, _, _ => false

theorem parse_ended {grammar : Grammar} (hbuild : Grammar.build endedDefinitions endedOptions = .ok grammar)
    (h : readsEnded grammar = true) : ∃ tree, grammar.parse "set end" "start" = .ok tree ∧
      tree.children.map Tree.token? = [some ⟨"NAME", "set", 0, 3⟩] := by
  unfold readsEnded at h
  generalize hinput : ofChars grammar "set end".toList.toArray = input at h
  dsimp only at h
  split at h
  · next name word halternatives hname hword =>
    simp only [Bool.and_eq_true, beq_iff_eq] at h
    obtain ⟨⟨⟨⟨hid, ⟨hguarded, hexact⟩, hfind⟩, hends⟩, ⟨hskip, hgap⟩, hend⟩, htree⟩ := h
    have hready : input.Ready := hinput ▸ ready_of_build hbuild _
    have hgrammar : input.grammar = grammar := by rw [← hinput]; rfl
    have hsize : input.size = 7 := by rw [← hinput]; rfl
    have hchars : input.chars = "set end".toList.toArray := by rw [← hinput]; rfl
    have hnameTokens : input.tokens 0 0 = [.token 0 0 3] := by
      have hgaps : gaps (input.chars.extract 0 7).toList 0 true [] = [3] := by
        rw [hchars]
        decide
      have hrefused : input.allowed name 0 7 = false := by
        have htext : (input.chars.extract 0 7).toList = "set end".toList := by rw [hchars]; decide
        have hreserved : grammar.isReserved "set end".toList = true := by
          rw [← Bool.not_eq_false, (build_knows hbuild).not_reserved_iff]
          decide
        rw [allowed, htext, hgrammar, hreserved, Bool.not_true, Bool.and_false]
      have hallowed : input.allowed name 0 3 = true := by
        have htext : (input.chars.extract 0 3).toList = "set".toList := by rw [hchars]; decide
        have hfree : grammar.isReserved "set".toList = false := by
          rw [(build_knows hbuild).not_reserved_iff]
          decide
        rw [allowed, htext, hgrammar, hfree, hexact, Bool.not_false, Bool.and_true]
      rw [← hsize] at hfind
      rw [tokens, hgrammar, hname]
      dsimp only
      rw [hskip, token_ends_of_guarded hguarded hfind (by omega), hsize, hgaps]
      simp [hrefused, hallowed]
    have hwordTokens : input.tokens 2 3 = [.token 2 4 7] := by
      rw [tokens, hgrammar, hword]
      dsimp only
      rw [hgap, hends]
      rfl
    have hparts : Chart.ruleParts input (Chart.deriveAt input) 0 0 = [endedPart] := by
      simp [Chart.ruleParts, halternatives, Item.partsAny, Item.parts, Item.partsSeq, endedPart,
        Partial.extendEach, Partial.compete, Partial.prefer, Partial.extend, Partial.single,
        Partial.nothing, hnameTokens, hwordTokens, Derivation.stop]
    have hparse : grammar.parse "set end" "start" =
        input.select (Chart.derive input 0).2.furthest (Chart.derive input 0).1 := by
      rw [Grammar.parse, hid, ← hinput]
      rfl
    have hfirst : [endedPart.toDerivation 0 0].find? input.readsAll = some (endedPart.toDerivation 0 0) := by
      simp [readsAll, Partial.toDerivation, Derivation.stop, endedPart, hend, hsize]
    rw [hparse, (Chart.derive_faithful hready 0).1, Chart.derive_at_eq hready (Nat.zero_le _), hparts,
      map_singleton, select_eq_tree hfirst]
    obtain ⟨tree, htree, hchildren⟩ := Option.map_eq_some_iff.mp htree
    exact ⟨tree, eq_ok_of_to_option htree, hchildren⟩
  · cases h

/-- A name ends before a reserved word, also if only the terminal that it refers to is listed. -/
theorem ended_name_avoids : endedDefinitions.Guards endedOptions "NAME" ∧
    ∃ grammar, Grammar.build endedDefinitions endedOptions = .ok grammar ∧
    ∃ tree, grammar.parse "set end" "start" = .ok tree ∧ .leaf ⟨"NAME", "set", 0, 3⟩ ∈ tree.subtrees ∧
      endedDefinitions.Avoids endedOptions "set".toList := by
  have hguards : endedDefinitions.Guards endedOptions "NAME" := by
    have hrefers : ∃ definition ∈ endedDefinitions.terminals, definition.name = "NAME" ∧
        "WORD" ∈ definition.body.symbols := ⟨_, mem_cons_self, rfl, mem_cons_self⟩
    obtain ⟨definition, hmem, hname, hsymbol⟩ := hrefers
    exact hname ▸ .refers hmem hsymbol (.listed (by decide))
  obtain ⟨grammar, hbuild, hcheck⟩ :=
    @ok_of_any _ _ (Grammar.build endedDefinitions endedOptions) readsEnded (by decide +kernel)
  obtain ⟨tree, hparse, hchildren⟩ := parse_ended hbuild hcheck
  have hmem : .leaf ⟨"NAME", "set", 0, 3⟩ ∈ tree.subtrees :=
    mem_subtrees_of_child (by rw [hchildren]; exact mem_singleton_self _)
  refine ⟨hguards, grammar, hbuild, tree, hparse, hmem, ?_⟩
  rcases guarded_token_avoids hbuild hparse hmem hguards with havoids | ⟨terminal, htoken, hstands⟩
  · exact havoids
  · -- The only literal is named differently, and there is no pattern.
    rcases hstands.token_name with hliteral | ⟨_, _, hpattern, _⟩
    · rw [← htoken.name] at hliteral
      exact absurd hliteral (by decide)
    · simp [Definitions.ruleLeaves, endedDefinitions, Body.leaves, Body.leavesOf] at hpattern

def numberedDefinitions : Definitions where
  rules := [{ name := "start", shaping := { keepTokens := true }, line := 1,
              body := .seq [.optional (.symbol "ID"), .literal "ID", .pattern "[0-9]+" ""] }]
  terminals := [{ name := "ID", line := 2, body := .pattern "[a-z]+" "" }]

def numberedOptions : GrammarOptions where
  ignore := [" "]
  guarded := ["ID", "/[0-9]+/"]
  reserved := ["7"]

/-- The token of a literal in a rule may have the name of a guarded terminal, and a pattern in a rule is not
guarded although it is listed. -/
theorem inline_tokens_unguarded : ∃ grammar, Grammar.build numberedDefinitions numberedOptions = .ok grammar ∧
    ∃ tree, grammar.parse "ID 7" "start" = .ok tree ∧
      (.leaf ⟨"ID", "ID", 0, 2⟩ ∈ tree.subtrees ∧ numberedDefinitions.Guards numberedOptions "ID" ∧
        ¬ numberedDefinitions.Avoids numberedOptions "ID".toList) ∧
      .leaf ⟨"/[0-9]+/", "7", 3, 4⟩ ∈ tree.subtrees ∧ numberedDefinitions.Guards numberedOptions "/[0-9]+/" ∧
        ¬ numberedDefinitions.Avoids numberedOptions "7".toList := by
  have htokens : startTokens? numberedDefinitions numberedOptions "ID 7" "start" =
      some [some ⟨"ID", "ID", 0, 2⟩, some ⟨"/[0-9]+/", "7", 3, 4⟩] := by
    decide +kernel
  obtain ⟨grammar, hbuild, tree, hparse, hchildren⟩ := parse_of_start_tokens htokens
  refine ⟨grammar, hbuild, tree, hparse, ⟨?_, .listed (by decide), by decide⟩, ?_, .listed (by decide), by decide⟩
  · exact mem_subtrees_of_child (by rw [hchildren]; simp)
  · exact mem_subtrees_of_child (by rw [hchildren]; simp)

end FlightProcedure
