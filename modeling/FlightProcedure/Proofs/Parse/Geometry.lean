import FlightProcedure.Proofs.Parse.Growth

/-!
# Where the parts of a tree stand

The trees of a parse are consistent with its source: a token is the text from its start to its end, the
children of a node lie one after another, and a node reaches from the first token that it has matched to
the last one, whether they are left out of the tree or not. This holds for every grammar, also if its rules
can match nothing.

`Derivation.Runs` says where the parts of a derivation stand. Read it and `Tree.Placed` first:
`built_grammar_tree_placed` says what holds of every tree that a parse yields.
-/

namespace FlightProcedure

open List Input

/-- The parts stand one after another between two positions. -/
structure InOrder {α : Type} (ends : α → Nat × Nat) (pos : Nat) (parts : List α) (stop : Nat) : Prop where
  ordered : parts.Pairwise fun first second => (ends first).2 ≤ (ends second).1
  bounds : ∀ part ∈ parts, pos ≤ (ends part).1 ∧ (ends part).1 ≤ (ends part).2 ∧ (ends part).2 ≤ stop

namespace InOrder

variable {α : Type} {ends : α → Nat × Nat} {pos next stop : Nat} {first second : List α}

theorem nil : InOrder ends pos [] stop := ⟨.nil, fun _ h => nomatch h⟩

theorem singleton {part : α} (h : pos ≤ (ends part).1 ∧ (ends part).1 ≤ (ends part).2 ∧ (ends part).2 ≤ stop) :
    InOrder ends pos [part] stop :=
  ⟨pairwise_singleton _ _, fun _ hmem => mem_singleton.mp hmem ▸ h⟩

theorem append (hfirst : InOrder ends pos first next) (hsecond : InOrder ends next second stop)
    (hpos : pos ≤ next) (hstop : next ≤ stop) : InOrder ends pos (first ++ second) stop := by
  constructor
  · refine pairwise_append.mpr ⟨hfirst.ordered, hsecond.ordered, fun part hpart other hother => ?_⟩
    have hbefore := hfirst.bounds part hpart
    have hbehind := hsecond.bounds other hother
    omega
  · intro part hpart
    rcases mem_append.mp hpart with hpart | hpart
    · have hbounds := hfirst.bounds part hpart
      omega
    · have hbounds := hsecond.bounds part hpart
      omega

end InOrder

variable {start last : Nat} {more rest nodes : List Derivation} {tree : Tree} {rivals : List (List Derivation)}

namespace Derivation

/-- `Runs input pos children stop` says that the matches stand one after another from `pos` to `stop`: tokens
after ignored text, and matches of rules at the end of what comes before. -/
inductive Runs (input : Input) : Nat → List Derivation → Nat → Prop where
  | nil {pos : Nat} : Runs input pos [] pos
  | token {id pos next stop : Nat} {rest : List Derivation} (hstart : input.skip pos < next)
      (hnext : next ≤ input.size) (hrest : Runs input next rest stop) :
      Runs input pos (.token id (input.skip pos) next :: rest) stop
  | node {id pos next stop : Nat} {children rest : List Derivation} {rivals : List (List Derivation)}
      (hbody : Runs input pos children next) (hrest : Runs input next rest stop) :
      Runs input pos (.node id pos next (spanOf children) children rivals :: rest) stop

def frame (tokens : List (Nat × Nat)) : Option (Nat × Nat) :=
  match tokens.head?, tokens.getLast? with
  | some first, some last => some (first.1, last.2)
  | _, _ => none

variable {input : Input} {pos stop : Nat} {children : List Derivation}

theorem Runs.append {next : Nat} (h : Runs input pos children next) (hmore : Runs input next more stop) :
    Runs input pos (children ++ more) stop := by
  induction h with
  | nil => exact hmore
  | token hstart hnext _ ih => exact .token hstart hnext (ih hmore)
  | node hbody _ _ ih => exact .node hbody (ih hmore)

theorem Runs.bounds (hready : input.Ready) (h : Runs input pos children stop) (hpos : pos ≤ input.size) :
    pos ≤ stop ∧ stop ≤ input.size := by
  induction h with
  | nil => exact ⟨Nat.le_refl _, hpos⟩
  | token hstart hnext _ ih =>
    have hskip := hready.skip_bounds _ hpos
    have hrest := ih hnext
    omega
  | node _ _ ihbody ihrest =>
    have hbody := ihbody hpos
    have hrest := ihrest hbody.2
    omega

section Frame

variable {tokens : List (Nat × Nat)}

theorem frame_eq_some (htokens : tokens ≠ []) :
    frame tokens = some ((tokens.head htokens).1, (tokens.getLast htokens).2) := by
  rw [frame, head?_eq_some_head htokens, getLast?_eq_some_getLast htokens]

theorem frame_append (first second : List (Nat × Nat)) :
    frame (first ++ second) = joinSpans (frame first) (frame second) := by
  by_cases hfirst : first = []
  · subst hfirst
    rfl
  · rw [frame_eq_some hfirst, frame_eq_some (append_ne_nil_of_left_ne_nil hfirst second), head_append_of_ne_nil hfirst]
    by_cases hsecond : second = []
    · subst hsecond
      simp [frame, joinSpans]
    · rw [frame_eq_some hsecond, getLast_append_of_ne_nil _ hsecond]
      rfl

theorem frame_bounds (h : InOrder id pos tokens stop) {token : Nat × Nat} (hmem : token ∈ tokens)
    (hframe : frame tokens = some (start, last)) : start ≤ token.1 ∧ token.2 ≤ last := by
  have htokens := ne_nil_of_mem hmem
  rw [frame_eq_some htokens] at hframe
  cases hframe
  constructor
  · obtain ⟨first, rest, rfl⟩ := exists_cons_of_ne_nil htokens
    have hfirst := h.bounds first mem_cons_self
    rcases mem_cons.mp hmem with rfl | hmem
    · exact Nat.le_refl _
    · have hnext := rel_of_pairwise_cons h.ordered hmem
      simp only [id_eq, head_cons] at hfirst hnext ⊢
      omega
  · have hlast := h.bounds _ (getLast_mem htokens)
    have hordered := h.ordered
    rw [← dropLast_append_getLast htokens] at hmem hordered
    rcases mem_append.mp hmem with hmem | hmem
    · have hbefore := (pairwise_append.mp hordered).2.2 _ hmem _ (mem_singleton_self _)
      simp only [id_eq] at hlast hbefore
      omega
    · rw [mem_singleton.mp hmem]

end Frame

theorem Runs.span_eq (h : Runs input pos children stop) : spanOf children = frame (tokensAll children) := by
  induction h with
  | nil => rfl
  | token _ _ _ ih =>
    rw [← singleton_append, span_of_append, tokens_all_append, frame_append, ih, span_of_singleton]
    rfl
  | node _ _ ihbody ihrest =>
    rw [← singleton_append, span_of_append, tokens_all_append, frame_append, ihrest, span_of_singleton, span, ihbody]
    simp [tokensAll, tokens]

theorem Runs.tokens_in_order (hready : input.Ready) (h : Runs input pos children stop) (hpos : pos ≤ input.size) :
    InOrder id pos (tokensAll children) stop ∧ ∀ token ∈ tokensAll children, token.1 < token.2 := by
  induction h with
  | nil => exact ⟨.nil, fun _ h => nomatch h⟩
  | @token id pos next stop rest hstart hnext hrest ih =>
    have hskip := hready.skip_bounds _ hpos
    obtain ⟨hordered, hfull⟩ := ih hnext
    refine ⟨(InOrder.singleton (by simp only [id_eq]; omega)).append hordered (by omega)
      (hrest.bounds hready hnext).1, fun token hmem => ?_⟩
    rcases mem_cons.mp hmem with rfl | hmem
    · exact hstart
    · exact hfull token hmem
  | node hbody hrest ihbody ihrest =>
    have hbounds := hbody.bounds hready hpos
    obtain ⟨hordered, hfull⟩ := ihbody hpos
    obtain ⟨hothers, hmore⟩ := ihrest hbounds.2
    refine ⟨hordered.append hothers hbounds.1 (hrest.bounds hready hbounds.2).1, fun token hmem => ?_⟩
    rcases mem_append.mp hmem with hmem | hmem
    · exact hfull token hmem
    · exact hmore token hmem

theorem Runs.node_runs (hready : input.Ready) (h : Runs input pos children stop) (hpos : pos ≤ input.size)
    {node : Derivation} (hmem : node ∈ nodesAll children) :
    ∃ (id start next : Nat) (inner : List Derivation) (rivals : List (List Derivation)),
      node = .node id start next (spanOf inner) inner rivals ∧ start ≤ input.size ∧ Runs input start inner next := by
  induction h with
  | nil => cases hmem
  | token _ hnext _ ih => exact ih hnext hmem
  | node hbody _ ihbody ihrest =>
    rcases mem_append.mp hmem with hmem | hmem
    · rcases mem_cons.mp hmem with rfl | hmem
      · exact ⟨_, _, _, _, _, rfl, hpos, hbody⟩
      · exact ihbody hpos hmem
    · exact ihrest (hbody.bounds hready hpos).2 hmem

end Derivation

theorem Reads.runs {input : Input} {policy : Policy} {item : Item} {pos stop : Nat} {children : List Derivation}
    (h : Reads input policy item pos children stop) : Derivation.Runs input pos children stop := by
  refine h.induct (fun _ => .nil) .append (fun _ hstop => ?_) fun _ _ hchildren => .node hchildren .nil
  obtain ⟨hlt, hle⟩ := token_ends_bounds hstop
  exact .token hlt hle .nil

/-- The token is a piece of the source that is not empty. -/
structure Token.InSource (source : String) (token : Token) : Prop where
  nonempty : token.text ≠ ""
  inside : token.stop ≤ source.toList.length
  text : token.text.toList = (source.toList.drop token.start).take (token.stop - token.start)

namespace Tree

mutual

def subtrees : Tree → List Tree
  | .leaf token => [.leaf token]
  | .node rule start stop children => .node rule start stop children :: subtreesOf children

def subtreesOf : List Tree → List Tree
  | [] => []
  | tree :: trees => tree.subtrees ++ subtreesOf trees

end

def ends (tree : Tree) : Nat × Nat := (tree.start, tree.stop)

/-- A node that has matched the tokens stands where they do. -/
structure Placed (tree : Tree) (tokens : List (Nat × Nat)) : Prop where
  ordered : tree.children.Pairwise fun first second => first.stop ≤ second.start
  inside : ∀ child ∈ tree.children, child.start < child.stop → tree.start ≤ child.start ∧ child.stop ≤ tree.stop
  first : ∀ token, tokens.head? = some token → tree.start = token.1
  last : ∀ token, tokens.getLast? = some token → tree.stop = token.2
  covers : tree.start < tree.stop ↔ tokens ≠ []

/-- A tree that is not empty reaches at most from one of the tokens to another. -/
def Within (tokens : List (Nat × Nat)) (tree : Tree) : Prop :=
  tree.start < tree.stop → ∃ first ∈ tokens, ∃ last ∈ tokens, first.1 ≤ tree.start ∧ tree.stop ≤ last.2

theorem Within.mono {tokens more : List (Nat × Nat)} (h : tree.Within tokens)
    (hmore : ∀ token ∈ tokens, token ∈ more) : tree.Within more := by
  intro hfull
  obtain ⟨first, hfirst, last, hlast, hends⟩ := h hfull
  exact ⟨first, hmore first hfirst, last, hmore last hlast, hends⟩

theorem subtrees_of_append (first second : List Tree) :
    subtreesOf (first ++ second) = subtreesOf first ++ subtreesOf second := by
  induction first with
  | nil => rfl
  | cons tree trees ih => simp only [cons_append, subtreesOf, ih, append_assoc]

end Tree

section

variable {input : Input} {pos stop id next : Nat} {keepTokens : Bool} {children : List Derivation} {trees : List Tree}

theorem splice_cases (input : Input) (id : Nat) (tree : Tree) :
    input.splice id tree = [tree] ∨ input.splice id tree = tree.children := by
  unfold splice
  split
  · exact .inl rfl
  · split
    · exact .inr rfl
    · exact .inl rfl

theorem mem_subtrees_splice {rule : String} {inner : List Tree}
    (h : tree ∈ Tree.subtreesOf (input.splice id (.node rule start last inner))) :
    tree = .node rule start last inner ∨ tree ∈ Tree.subtreesOf inner := by
  rcases splice_cases input id (.node rule start last inner) with hself | hspliced
  · simpa [hself, Tree.subtreesOf, Tree.subtrees] using h
  · rw [hspliced] at h
    exact .inr h

theorem token_tree_cases (input : Input) (keepTokens : Bool) (id start stop : Nat) :
    (input.tokenTree? keepTokens id start stop).toList = [] ∨
      ∃ name, (input.tokenTree? keepTokens id start stop).toList =
        [.leaf ⟨name, input.textBetween start stop, start, stop⟩] := by
  unfold tokenTree?
  split
  · exact .inl rfl
  · split
    · exact .inl rfl
    · exact .inr ⟨_, rfl⟩

theorem trees_of_cons_token (h : input.treesOf keepTokens (.token id start next :: rest) = .ok trees) :
    ∃ others, input.treesOf keepTokens rest = .ok others ∧
      trees = (input.tokenTree? keepTokens id start next).toList ++ others := by
  obtain ⟨others, hothers, h⟩ := bind_eq_ok h
  cases h
  exact ⟨others, hothers, rfl⟩

theorem trees_of_cons_node {span : Option (Nat × Nat)} {children : List Derivation}
    (h : input.treesOf keepTokens (.node id start next span children rivals :: rest) = .ok trees) :
    ∃ tree others, input.treeOf (.node id start next span children rivals) = .ok tree ∧
      input.treesOf keepTokens rest = .ok others ∧ trees = input.splice id tree ++ others := by
  obtain ⟨tree, htree, h⟩ := bind_eq_ok h
  obtain ⟨others, hothers, h⟩ := bind_eq_ok h
  cases h
  exact ⟨tree, others, htree, hothers, rfl⟩

/-- The trees stand one after another between the positions where the matches do, and those that are not
empty reach from token to token. -/
structure Strung (pos : Nat) (tokens : List (Nat × Nat)) (trees : List Tree) (stop : Nat) : Prop where
  inOrder : InOrder Tree.ends pos trees stop
  within : ∀ tree ∈ trees, tree.Within tokens

theorem Strung.append {tokens others : List (Nat × Nat)} {more : List Tree}
    (h : Strung pos tokens trees next) (hmore : Strung next others more stop) (hpos : pos ≤ next)
    (hstop : next ≤ stop) : Strung pos (tokens ++ others) (trees ++ more) stop := by
  refine ⟨h.inOrder.append hmore.inOrder hpos hstop, fun tree hmem => ?_⟩
  rcases mem_append.mp hmem with hmem | hmem
  · exact (h.within tree hmem).mono fun token htoken => mem_append_left _ htoken
  · exact (hmore.within tree hmem).mono fun token htoken => mem_append_right _ htoken

section

variable {children : List Derivation} (hready : input.Ready) (h : Derivation.Runs input pos children stop)
  (hpos : pos ≤ input.size)

include hready h hpos

theorem node_ends (hends : (Derivation.spanOf children).getD (pos, pos) = (start, last)) :
    (pos ≤ start ∧ start ≤ last ∧ last ≤ stop) ∧ (start < last ↔ Derivation.tokensAll children ≠ []) ∧
      ∀ htokens : Derivation.tokensAll children ≠ [], start = ((Derivation.tokensAll children).head htokens).1 ∧
          last = ((Derivation.tokensAll children).getLast htokens).2 := by
  obtain ⟨hordered, hfull⟩ := h.tokens_in_order hready hpos
  have hbounds := h.bounds hready hpos
  rw [h.span_eq] at hends
  by_cases htokens : Derivation.tokensAll children = []
  · rw [htokens] at hends
    cases hends
    exact ⟨⟨Nat.le_refl _, Nat.le_refl _, hbounds.1⟩, by simp [htokens], fun h => absurd htokens h⟩
  · have hframe := Derivation.frame_eq_some htokens
    rw [hframe, Option.getD_some] at hends
    cases hends
    have hhead := head_mem htokens
    have hlast := getLast_mem htokens
    have hstart := hordered.bounds _ hhead
    have hstop := hordered.bounds _ hlast
    have hinside := Derivation.frame_bounds hordered hhead hframe
    have hlt := hfull _ hhead
    simp only [id_eq] at hstart hstop
    exact ⟨by omega, ⟨fun _ => htokens, fun _ => by omega⟩, fun _ => ⟨rfl, rfl⟩⟩

theorem node_strung {rule : String} {inner : List Tree}
    (hends : (Derivation.spanOf children).getD (pos, pos) = (start, last)) :
    Strung pos (Derivation.tokensAll children) [.node rule start last inner] stop := by
  obtain ⟨hbounds, hcovers, hexact⟩ := node_ends hready h hpos hends
  refine ⟨.singleton hbounds, fun tree hmem hfull => ?_⟩
  rw [mem_singleton.mp hmem] at hfull ⊢
  have htokens := hcovers.mp hfull
  obtain ⟨rfl, rfl⟩ := hexact htokens
  exact ⟨_, head_mem htokens, _, getLast_mem htokens, Nat.le_refl _, Nat.le_refl _⟩

theorem Derivation.Runs.strung (htrees : input.treesOf keepTokens children = .ok trees) :
    Strung pos (Derivation.tokensAll children) trees stop := by
  induction h generalizing keepTokens trees with
  | nil =>
    cases htrees
    exact ⟨.nil, fun _ h => nomatch h⟩
  | @token id pos next stop rest hstart hnext hrest ih =>
    obtain ⟨others, hothers, rfl⟩ := trees_of_cons_token htrees
    have hskip := hready.skip_bounds _ hpos
    have hfirst : Strung pos [(input.skip pos, next)]
        (input.tokenTree? keepTokens id (input.skip pos) next).toList next := by
      rcases token_tree_cases input keepTokens id (input.skip pos) next with hnone | ⟨name, hleaf⟩
      · rw [hnone]
        exact ⟨.nil, fun _ h => nomatch h⟩
      · rw [hleaf]
        refine ⟨.singleton ⟨hskip.1, Nat.le_of_lt hstart, Nat.le_refl _⟩, fun tree hmem _ => ?_⟩
        rw [mem_singleton.mp hmem]
        exact ⟨_, mem_singleton_self _, _, mem_singleton_self _, Nat.le_refl _, Nat.le_refl _⟩
    exact hfirst.append (ih hnext hothers) (by omega) (hrest.bounds hready hnext).1
  | @node id pos next stop children rest rivals hbody hrest ihbody ihrest =>
    obtain ⟨tree, others, htree, hothers, rfl⟩ := trees_of_cons_node htrees
    obtain ⟨inner, hinner, rfl⟩ := tree_of_eq_ok htree
    have hbounds := hbody.bounds hready hpos
    refine Strung.append ?_ (ihrest hbounds.2 hothers) hbounds.1 (hrest.bounds hready hbounds.2).1
    rcases splice_cases input id _ with hself | hspliced
    · rw [hself]
      exact node_strung hready hbody hpos rfl
    · rw [hspliced]
      exact ihbody hpos hinner

theorem Derivation.Runs.placed
    (htree : input.treeOf (.node id pos stop (Derivation.spanOf children) children rivals) = .ok tree) :
    tree.Placed (Derivation.tokensAll children) := by
  obtain ⟨inner, hinner, rfl⟩ := tree_of_eq_ok htree
  have hstrung := h.strung hready hpos hinner
  have hordered := (h.tokens_in_order hready hpos).1
  generalize hends : (Derivation.spanOf children).getD (pos, pos) = ends
  obtain ⟨start, last⟩ := ends
  obtain ⟨-, hcovers, hexact⟩ := node_ends hready h hpos hends
  refine ⟨hstrung.inOrder.ordered, fun child hchild hfull => ?_, fun token htoken => ?_,
    fun token htoken => ?_, hcovers⟩
  · obtain ⟨low, hlow, high, hhigh, hstart, hstop⟩ := hstrung.within child hchild hfull
    have htokens := ne_nil_of_mem hlow
    obtain ⟨rfl, rfl⟩ := hexact htokens
    have hframe := Derivation.frame_eq_some htokens
    exact ⟨Nat.le_trans (Derivation.frame_bounds hordered hlow hframe).1 hstart,
      Nat.le_trans hstop (Derivation.frame_bounds hordered hhigh hframe).2⟩
  · have htokens := ne_nil_of_mem (mem_of_head? htoken)
    rw [head?_eq_some_head htokens] at htoken
    cases htoken
    exact (hexact htokens).1
  · have htokens := ne_nil_of_mem (mem_of_getLast? htoken)
    rw [getLast?_eq_some_getLast htokens] at htoken
    cases htoken
    exact (hexact htokens).2

/-- Every tree in the tree of a parse is a token of the source or the tree of a match of a rule. -/
def Stems (input : Input) (nodes : List Derivation) : Tree → Prop
  | .leaf token => token.start < token.stop ∧ token.stop ≤ input.size ∧
      token.text = input.textBetween token.start token.stop
  | .node rule start stop children =>
    ∃ node ∈ nodes, input.treeOf node = .ok (.node rule start stop children)

end

theorem Stems.mono (h : Stems input nodes tree) (hmore : ∀ node ∈ nodes, node ∈ more) : Stems input more tree := by
  cases tree with
  | leaf token => exact h
  | node rule start stop children =>
    obtain ⟨node, hnode, htree⟩ := h
    exact ⟨node, hmore node hnode, htree⟩

theorem Derivation.Runs.stems (h : Derivation.Runs input pos children stop)
    (htrees : input.treesOf keepTokens children = .ok trees) :
    ∀ tree ∈ Tree.subtreesOf trees, Stems input (Derivation.nodesAll children) tree := by
  induction h generalizing keepTokens trees with
  | nil =>
    cases htrees
    exact fun _ h => nomatch h
  | @token id pos next stop rest hstart hnext hrest ih =>
    obtain ⟨others, hothers, rfl⟩ := trees_of_cons_token htrees
    intro tree hmem
    rw [Tree.subtrees_of_append] at hmem
    rcases mem_append.mp hmem with hmem | hmem
    · rcases token_tree_cases input keepTokens id (input.skip pos) next with hnone | ⟨name, hleaf⟩
      · simp [hnone, Tree.subtreesOf] at hmem
      · simp only [hleaf, Tree.subtreesOf, Tree.subtrees, append_nil, mem_singleton] at hmem
        subst hmem
        exact ⟨hstart, hnext, rfl⟩
    · exact ih hothers tree hmem
  | @node id pos next stop children rest rivals hbody hrest ihbody ihrest =>
    obtain ⟨tree, others, htree, hothers, rfl⟩ := trees_of_cons_node htrees
    obtain ⟨inner, hinner, rfl⟩ := tree_of_eq_ok htree
    intro part hmem
    rw [Tree.subtrees_of_append] at hmem
    rcases mem_append.mp hmem with hmem | hmem
    · rcases mem_subtrees_splice hmem with rfl | hmem
      · exact ⟨_, mem_append_left _ mem_cons_self, htree⟩
      · exact (ihbody hinner part hmem).mono fun node hnode =>
          mem_append_left _ (mem_cons_of_mem _ hnode)
    · exact (ihrest hothers part hmem).mono fun node hnode => mem_append_right _ hnode

theorem select_stems (hready : input.Ready) {furthest : Furthest}
    (h : input.select furthest (Chart.derive input id).1 = .ok tree) :
    ∃ derivation : Derivation, Reads input .free (.rule id) 0 [derivation] derivation.stop ∧
      input.skip derivation.stop = input.size ∧ input.treeOf derivation = .ok tree ∧
      (∀ part ∈ tree.subtrees, Stems input derivation.nodes part) ∧
      ∀ node ∈ derivation.nodes, ∀ part, input.treeOf node = .ok part → part.Placed node.tokens := by
  obtain ⟨derivation, hmem, hall, htree⟩ := select_eq_ok h
  rw [(Chart.derive_faithful hready id).1] at hmem
  have hreads := Chart.derive_at_free hready derivation (Nat.zero_le _) hmem
  refine ⟨derivation, hreads, hall, htree, ?_, fun node hnode part hpart => ?_⟩
  · cases hreads with
    | rule _ hbody =>
      obtain ⟨trees, htrees, rfl⟩ := tree_of_eq_ok htree
      intro part hpart
      rcases mem_cons.mp hpart with rfl | hpart
      · exact ⟨_, mem_cons_self, htree⟩
      · exact (hbody.runs.stems htrees part hpart).mono fun node hnode => mem_cons_of_mem _ hnode
  · obtain ⟨_, _, _, inner, rivals, rfl, hpos, hinner⟩ :=
      hreads.runs.node_runs hready (Nat.zero_le _) (mem_append_left _ hnode)
    exact hinner.placed hready hpos hpart

end

theorem in_source_of_stems {grammar : Grammar} {source : String} {token : Token}
    (h : Stems (ofChars grammar source.toList.toArray) nodes (.leaf token)) : token.InSource source := by
  obtain ⟨hstart, hstop, htext⟩ := h
  have hsize : token.stop ≤ source.toList.length := hstop
  have hchars : token.text.toList = (source.toList.drop token.start).take (token.stop - token.start) := by
    rw [htext, textBetween, String.toList_ofList]
    simp [ofChars]
  refine ⟨fun hempty => ?_, hsize, hchars⟩
  have hlength := congrArg List.length hchars
  simp only [hempty, String.toList_empty, length_nil, length_take, length_drop] at hlength
  omega

/-- The tokens of a tree that a grammar yields are pieces of the source that are not empty. Every node is
the tree of a match in a derivation of the source: its children stand one after another, and inside it if
they have matched a token; and if the node has matched tokens, it reaches from the first to the last of
them. -/
theorem built_grammar_tree_placed {defs : Definitions} {options : GrammarOptions} {grammar : Grammar}
    (h : Grammar.build defs options = .ok grammar) {source start : String} {tree : Tree}
    (hparse : grammar.parse source start = .ok tree) :
    let input := Input.ofChars grammar source.toList.toArray
    (∀ token, .leaf token ∈ tree.subtrees → token.InSource source) ∧
      ∃ (id : Nat) (derivation : Derivation), grammar.ruleId? start = some id ∧
        Reads input .free (.rule id) 0 [derivation] derivation.stop ∧
        input.skip derivation.stop = input.size ∧ input.treeOf derivation = .ok tree ∧
        ∀ part ∈ tree.subtrees, part.token? = none →
          ∃ node ∈ derivation.nodes, input.treeOf node = .ok part ∧ part.Placed node.tokens := by
  have hready := Input.ready_of_build h source.toList.toArray
  unfold Grammar.parse at hparse
  split at hparse
  · next id hid =>
    obtain ⟨derivation, hreads, hall, htree, hstems, hplaced⟩ := select_stems hready hparse
    refine ⟨fun token hmem => in_source_of_stems (hstems _ hmem), id, derivation, hid, hreads, hall,
      htree, fun part hpart hnone => ?_⟩
    cases part with
    | leaf token => cases hnone
    | node rule start stop children =>
      obtain ⟨node, hnode, htree⟩ := hstems _ hpart
      exact ⟨node, hnode, htree, hplaced node hnode _ htree⟩
  · cases hparse

theorem parse_eq_select {defs : Definitions} {options : GrammarOptions} {grammar : Grammar} {start : String} {id : Nat}
    (h : Grammar.build defs options = .ok grammar) (hid : grammar.ruleId? start = some id) (source : String) :
    let input := ofChars grammar source.toList.toArray
    grammar.parse source start = input.select (Chart.derive input id).2.furthest
      ((Chart.ruleParts input (Chart.deriveAt input) id 0).map (Partial.toDerivation id 0)) := by
  intro input
  have hready : input.Ready := ready_of_build h _
  rw [← Chart.derive_at_eq hready (Nat.zero_le _), ← (Chart.derive_faithful hready id).1, Grammar.parse, hid]
  rfl

def quotedDefinitions : Definitions where
  rules := [{ name := "quoted", line := 1, body := .seq [.literal "«", .symbol "WORD", .literal "»"] }]
  terminals := [{ name := "WORD", line := 2, body := .pattern "[a-zé]+" "" }]

/-- The children of the tree that a quoted word yields by the matches of the alternatives of its rule, and
where the tree starts and ends. -/
def quotedParts? (grammar : Grammar) : Option (Nat × Nat × List (Option Token)) :=
  let input := ofChars grammar "« été »".toList.toArray
  let derivations := (Chart.ruleParts input (Chart.deriveAt input) 0 0).map (Partial.toDerivation 0 0)
  (input.select (Chart.derive input 0).2.furthest derivations).toOption.map fun tree =>
    (tree.start, tree.stop, tree.children.map Tree.token?)

/-- The tree of a quoted word reaches from the one quotation mark to the other, although it lacks both. -/
theorem quoted_word_placed : ∃ grammar, Grammar.build quotedDefinitions { ignore := [" "] } = .ok grammar ∧
    ∃ tree, grammar.parse "« été »" "quoted" = .ok tree ∧ tree.start = 0 ∧ tree.stop = 7 ∧
      tree.children.map Tree.token? = [some ⟨"WORD", "été", 2, 5⟩] ∧
      ∃ (derivation : Derivation), ∃ node ∈ derivation.nodes, tree.Placed node.tokens := by
  obtain ⟨grammar, hbuild, hcheck⟩ := @ok_of_any _ _ (Grammar.build quotedDefinitions { ignore := [" "] }) (fun grammar =>
    grammar.ruleId? "quoted" == some 0 && quotedParts? grammar == some (0, 7, [some ⟨"WORD", "été", 2, 5⟩]))
    (by decide +kernel)
  simp only [quotedParts?, Bool.and_eq_true, beq_iff_eq] at hcheck
  obtain ⟨hid, hselect⟩ := hcheck
  rw [← parse_eq_select hbuild hid] at hselect
  obtain ⟨tree, htree, hparts⟩ := Option.map_eq_some_iff.mp hselect
  obtain ⟨hstart, hstop, hchildren⟩ : tree.start = 0 ∧ tree.stop = 7 ∧
      tree.children.map Tree.token? = [some ⟨"WORD", "été", 2, 5⟩] := by
    simpa only [Prod.mk.injEq] using hparts
  have hparse : grammar.parse "« été »" "quoted" = .ok tree := eq_ok_of_to_option htree
  have hroot : tree.token? = none ∧ tree ∈ tree.subtrees := by
    cases tree with
    | leaf token => cases hchildren
    | node rule start stop children => exact ⟨rfl, mem_cons_self⟩
  obtain ⟨-, -, derivation, -, -, -, -, hplaced⟩ := built_grammar_tree_placed hbuild hparse
  obtain ⟨node, hnode, -, hself⟩ := hplaced tree hroot.2 hroot.1
  exact ⟨grammar, hbuild, tree, hparse, hstart, hstop, hchildren, derivation, node, hnode, hself⟩

end FlightProcedure
