import FlightProcedure.Proofs.Procedure.Acceptance
import FlightProcedure.Proofs.Procedure.Declaring
import FlightProcedure.Proofs.Procedure.Rooting
import FlightProcedure.Proofs.Procedure.SignatureCheck
import FlightProcedure.Proofs.Procedure.TokenText

/-!
# Reading a sound tree

A tree that conforms to definitions is read without surprises: the result is a procedure, or one of the
foreseen errors. The trees of statements declare keys of positions inside them, and those of their parts
declare nothing; since the trees below a node lie one after another, no key is declared twice.

Read `Definitions.Readable` and `Read` first: `value_meets` says what reading a sound tree leads to.
-/

namespace FlightProcedure

open List

namespace Tree

mutual

def tokens : Tree → List Token
  | .leaf token => [token]
  | .node _ _ _ children => tokensOf children

def tokensOf : List Tree → List Token
  | [] => []
  | tree :: trees => tree.tokens ++ tokensOf trees

end

end Tree

variable {low high offset : Nat} {tree : Tree} {name rule : String} {role other : Role} {value : Value}
  {kind : RuleKind} {signature : Signature}

theorem mem_tokens_of {trees : List Tree} (hmem : tree ∈ trees) :
    ∀ token ∈ tree.tokens, token ∈ Tree.tokensOf trees := by
  intro token htoken
  induction hmem with
  | head => exact mem_append_left _ htoken
  | tail _ _ ih => exact mem_append_right _ ih

def Role.isQuiet : Role → Bool
  | .key | .step | .body | .bodies | .procedure => false
  | _ => true

theorem keys_of_quiet (hquiet : role.isQuiet = true) (h : role.Holds value) : value.keys = [] := by
  cases role <;> first | (cases hquiet; done) | skip
  all_goals cases value <;> first | exact h.elim | rfl

theorem covers_cases (h : other.covers role = true) :
    other = role ∨ other = .anyToken ∧ ∃ terminal, role = .token terminal := by
  unfold Role.covers at h
  split at h
  · exact .inr ⟨rfl, _, rfl⟩
  · exact .inl (beq_iff_eq.mp h)

theorem holds_of_covers (hcovers : other.covers role = true) (h : role.Holds value) : other.Holds value := by
  rcases covers_cases hcovers with rfl | ⟨rfl, terminal, rfl⟩
  · exact h
  · cases value <;> first | exact h.elim | exact trivial

/-- Definitions whose trees can be read: the rules conform to their signatures, tokens have known texts,
and statements with statements inside start with a word. -/
structure Definitions.Readable (defs : Definitions) (options : GrammarOptions) : Prop where
  conforms : defs.Conforms
  spelled : defs.Spelled options
  opening : ∀ definition ∈ defs.rules, ∀ kind, RuleKind.ofName? definition.name = some kind →
    kind.opens = true → definition.body.opensWithLiteral = true

def Tree.IsLoud (tree : Tree) : Prop := ∃ role, tree.label.role? = some role ∧ role.isQuiet = false

/-- The position lies in a tree of a statement or of a part with statements. -/
def DeclaredIn (trees : List Tree) (pos : Nat) : Prop :=
  ∃ tree ∈ trees, tree.IsLoud ∧ tree.start ≤ pos ∧ pos < tree.stop

/-- `ReadAs table tree value` says that the tree has the meaning, with the declarations of the table. -/
structure ReadAs (table : DeclarationTable) (tree : Tree) (value : Value) : Prop where
  role : ∃ role, tree.label.role? = some role ∧ role.Holds value
  step : tree.label.role? = some .step → ∃ key, value = .key key ∧ table.RunsStep key
  tag : ∀ tag, value = .caseTag tag → tag.start = tree.start ∧ tree.isNode = true
  token : ∀ token, value = .token token → token ∈ tree.tokens

structure Read (table result : DeclarationTable) (trees : List Tree) (values : List Value) : Prop where
  growth : Growth table result (DeclaredIn trees)
  ties : table.keys.Nodup → ∀ pending, Tied table.entries pending → Tied result.entries (keysOf values ++ pending)
  meanings : Forall₂ (ReadAs result) trees values

section

variable {table between result : DeclarationTable} {trees others : List Tree}
  {values more : List Value}

theorem Tied.of_perm {declarations : List Declaration} {pending waiting : List String}
    (h : Tied declarations pending) (hperm : pending.Perm waiting) : Tied declarations waiting := by
  refine ⟨fun key => ?_, fun declaration hmem => ?_⟩
  · rw [← h.count_eq key, count_append, count_append, hperm.count_eq]
  · refine (h.reached declaration hmem).lift (fun other hother => ⟨other, hother, rfl, rfl⟩)
      fun root hroot => .root (hperm.mem_iff.mp hroot)

theorem ReadAs.grow {allowed : Nat → Prop} (h : ReadAs between tree value)
    (hgrowth : Growth between result allowed) : ReadAs result tree value := by
  refine ⟨h.role, fun hstep => ?_, h.tag, h.token⟩
  obtain ⟨key, hkey, hruns⟩ := h.step hstep
  exact ⟨key, hkey, hgrowth.steps key hruns⟩

theorem Read.nil (table : DeclarationTable) : Read table table [] [] := ⟨.refl table _, fun _ _ h => h, .nil⟩

theorem Read.append (hfirst : Read table between trees values) (hsecond : Read between result others more) :
    Read table result (trees ++ others) (values ++ more) := by
  constructor
  · refine (hfirst.growth.mono fun pos hpos => ?_).trans (hsecond.growth.mono fun pos hpos => ?_)
    · obtain ⟨tree, hmem, hrest⟩ := hpos
      exact ⟨tree, mem_append_left _ hmem, hrest⟩
    · obtain ⟨tree, hmem, hrest⟩ := hpos
      exact ⟨tree, mem_append_right _ hmem, hrest⟩
  · intro hnodup pending htied
    have hboth := hsecond.ties (hfirst.growth.nodup hnodup) _ (hfirst.ties hnodup pending htied)
    refine hboth.of_perm ?_
    rw [keysOf, keysOf, keysOf, flatMap_append, ← append_assoc]
    exact (perm_append_comm).append_right pending
  · refine rel_append ?_ hsecond.meanings
    exact hfirst.meanings.imp fun _ _ h => h.grow hsecond.growth

end

section

variable {table : DeclarationTable} {children : List Tree} {values : List Value}

theorem ReadAs.plays (h : ReadAs table tree value) {roles : List Role} (hplays : tree.label.Plays roles) :
    value.Plays roles := by
  obtain ⟨role, hrole, hholds⟩ := h.role
  obtain ⟨other, hother, hcovers⟩ := hplays role hrole
  exact ⟨other, hother, holds_of_covers hcovers hholds⟩

variable (hmeanings : Forall₂ (ReadAs table) children values)

include hmeanings

theorem accepts_values {slots : List Slot}
    (h : Accepts Label.Plays slots (children.map Tree.label)) : Accepts Value.Plays slots values := by
  refine accepts_map ?_ h
  rw [forall₂_map_left_iff]
  exact hmeanings.imp fun _ _ h _ => h.plays

theorem keys_of_quiet_children (hquiet : ∀ child ∈ children, ¬ child.IsLoud) : keysOf values = [] := by
  rw [keysOf, flatMap_eq_nil_iff]
  intro value hvalue
  obtain ⟨child, hchild, hread⟩ := forall2_exists_left hmeanings hvalue
  obtain ⟨role, hrole, hholds⟩ := hread.role
  refine keys_of_quiet ?_ hholds
  cases hloud : role.isQuiet with
  | true => rfl
  | false => exact absurd ⟨role, hrole, hloud⟩ (hquiet child hchild)

end

def RuleKind.asksForParts (kind : RuleKind) : Bool :=
  match kind.signature? with
  | none => false
  | some signature =>
    signature.choices.all (·.all (·.roles.all (·.all Role.isQuiet)))

section

variable (hsignature : kind.signature? = some signature)

include hsignature

theorem asks_for_parts (h : signature.role.isQuiet = true ∨ kind.isSimple = true) : kind.asksForParts = true := by
  cases kind <;> cases hsignature <;> first | rfl | (rcases h with h | h <;> cases h)

theorem silent_role (hsilent : kind.isSilent = true) :
    signature.role.isQuiet = true := by
  cases kind <;> cases hsignature <;> first | rfl | cases hsilent

theorem role_not_token (token : Token) :
    ¬ signature.role.Holds (.token token) := by
  cases kind <;> cases hsignature <;> exact fun h => h.elim

end

theorem action_unsupported {values : List Value} (h : kind.signature? = none) :
    action name ⟨kind, offset⟩ values = .error (.unsupported kind.name offset) := by
  cases kind <;> first | rfl | cases h

theorem case_tag_start {values : List Value} {effect : Effect}
    (hsignature : kind.signature? = some signature) (h : action name ⟨kind, offset⟩ values = .ok effect)
    {tag : CaseTag} (hholds : signature.role.Holds effect.value) (htag : effect.value = .caseTag tag) :
    tag.start = offset := by
  rw [htag] at hholds
  cases kind <;> cases hsignature <;> first | exact hholds.elim | skip
  obtain ⟨test, _, h⟩ := bind_eq_ok h
  cases h
  cases htag
  rfl

section

variable {defs : Definitions} {options : GrammarOptions} {definition : Definition} {kind : RuleKind}
  {signature : Signature} {children : List Tree} {start stop : Nat} {values : List Value}

theorem children_quiet {slots : List Slot} (hsignature : kind.signature? = some signature)
    (hparts : kind.asksForParts = true) (hslots : slots ∈ signature.choices)
    (h : Accepts Label.Plays slots (children.map Tree.label)) :
    ∀ child ∈ children, ¬ child.IsLoud := by
  rintro child hchild ⟨role, hrole, hloud⟩
  obtain ⟨slot, hslot, roles, hroles, hplays⟩ := accepts_roles h child.label (mem_map_of_mem hchild)
  obtain ⟨other, hother, hcovers⟩ := hplays role hrole
  simp only [RuleKind.asksForParts, hsignature, all_eq_true] at hparts
  have hquiet := hparts slots hslots slot hslot roles hroles other hother
  rcases covers_cases hcovers with rfl | ⟨-, terminal, rfl⟩
  · rw [hquiet] at hloud
    cases hloud
  · cases hloud

theorem loud_is_node (h : tree.IsLoud) : tree.isNode = true := by
  obtain ⟨role, hrole, hloud⟩ := h
  cases tree with
  | leaf token =>
    cases hrole
    cases hloud
  | node => rfl

theorem Laid.eq_of_overlap {trees : List Tree} (h : Laid low trees high) {first second : Tree}
    (hfirst : first ∈ trees) (hsecond : second ∈ trees) (hle : second.start ≤ first.start)
    (hlt : first.start < second.stop) : first = second := by
  induction trees generalizing low with
  | nil => cases hfirst
  | cons tree trees ih =>
    obtain ⟨-, hspan, -, hrest⟩ := h
    rcases mem_cons.mp hfirst with rfl | hbehind
    · rcases mem_cons.mp hsecond with rfl | hbehind
      · rfl
      · have := hrest.start_le hbehind
        omega
    · rcases mem_cons.mp hsecond with rfl | hlater
      · have := hrest.start_le hbehind
        omega
      · exact ih hrest hbehind hlater

theorem Laid.stop_le {trees : List Tree} (h : Laid low trees high) (hmem : tree ∈ trees) :
    tree.start < tree.stop ∧ tree.stop ≤ high := by
  induction trees generalizing low with
  | nil => cases hmem
  | cons first rest ih =>
    obtain ⟨-, hspan, hstop, hrest⟩ := h
    rcases mem_cons.mp hmem with rfl | hmem
    · exact ⟨hspan, hstop⟩
    · exact ih hrest hmem

theorem tags_ascend {table : DeclarationTable}
    (hmeanings : Forall₂ (ReadAs table) children values) (hlaid : Laid low children high) :
    (values.filterMap Value.caseTag?).Pairwise (·.start < ·.start) ∧
      ∀ tag ∈ values.filterMap Value.caseTag?, low ≤ tag.start := by
  induction hmeanings generalizing low with
  | nil => simp
  | @cons child value children values hread hmeanings ih =>
    obtain ⟨hstart, hspan, hstop, hrest⟩ := hlaid
    obtain ⟨hpairwise, hlow⟩ := ih hrest
    have hlater : ∀ tag ∈ values.filterMap Value.caseTag?, child.start < tag.start := by
      intro tag htag
      have := hlow tag htag
      omega
    cases htag : value.caseTag? with
    | none =>
      rw [filterMap_cons, htag]
      refine ⟨hpairwise, fun tag hmem => ?_⟩
      have := hlater tag hmem
      omega
    | some tag =>
      have hvalue : value = .caseTag tag := by
        cases value <;> cases htag
        rfl
      have hown := (hread.tag tag hvalue).1
      rw [filterMap_cons, htag]
      refine ⟨pairwise_cons.mpr ⟨fun other hother => ?_, hpairwise⟩, fun other hother => ?_⟩
      · have := hlater other hother
        omega
      · rcases mem_cons.mp hother with rfl | hother
        · omega
        · have := hlater other hother
          omega

theorem tokens_of_meanings {table : DeclarationTable} (hmeanings : Forall₂ (ReadAs table) children values) :
    ∀ token ∈ values.filterMap Value.token?, token ∈ Tree.tokensOf children := by
  intro token htoken
  obtain ⟨value, hvalue, hpicked⟩ := mem_filterMap.mp htoken
  obtain ⟨child, hchild, hread⟩ := forall2_exists_left hmeanings hvalue
  have heq : value = .token token := by
    cases value <;> cases hpicked
    rfl
  exact mem_tokens_of hchild token (hread.token token heq)

theorem not_otherwise {roles : List Role}
    (hroles : ∀ role ∈ roles, role.isToken = true → ∃ word ∈ caseWords, role = .token word)
    (h : value.Plays roles) : value.isOtherwise = false := by
  cases value with
  | token token =>
    obtain ⟨role, hmem, hholds⟩ := h
    have htoken : role.isToken = true := by
      cases role <;> first | exact hholds.elim | rfl
    obtain ⟨word, hword, rfl⟩ := hroles role hmem htoken
    obtain ⟨hterminal, hspelled⟩ := hholds
    have hsame := hspelled.words (by simp [keywords, hterminal, hword])
    rw [Value.isOtherwise, beq_eq_false_iff_ne]
    intro hother
    rw [hother, hterminal] at hsame
    have hnone : keywordText "otherwise" ∉ caseWords := by decide
    exact hnone (hsame ▸ hword)
  | _ => rfl

theorem otherwise_once {signature : Signature} (hsignature : RuleKind.caseStatement.signature? = some signature)
    (h : ∃ slots ∈ signature.choices, Accepts Value.Plays slots values) :
    values.countP Value.isOtherwise ≤ 1 := by
  have hnone : ∀ {roles : List Role} {part : List Value},
      (∀ role ∈ roles, role.isToken = true → ∃ word ∈ caseWords, role = .token word) →
      (∀ value ∈ part, value.Plays roles) → part.countP Value.isOtherwise = 0 := by
    intro roles part hroles hpart
    rw [countP_eq_zero]
    intro value hvalue
    rw [not_otherwise hroles (hpart value hvalue)]
    exact Bool.false_ne_true
  cases hsignature
  obtain ⟨slots, hslots, h⟩ := h
  cases mem_singleton.mp hslots
  obtain ⟨first, rest, rfl, hfirst, second, rest, rfl, hsecond, third, rest, rfl, hthird, tag, rest,
    rfl, htag, front, rest, rfl, hfront, hrest⟩ := h
  have hlast : ∀ others, Accepts Value.Plays
      [.many (statementRoles ++ [.token ":", .token ";", .token "end case"])] others →
      others.countP Value.isOtherwise = 0 := by
    rintro _ ⟨others, rest, rfl, hothers, rfl⟩
    rw [append_nil]
    exact hnone (by decide) hothers
  have hcount : rest.countP Value.isOtherwise ≤ 1 := by
    rcases hrest with hrest | ⟨mark, others, rfl, -, hothers⟩
    · have := hlast rest hrest
      omega
    · rw [countP_cons, hlast others hothers]
      split <;> omega
  have hbefore : ([first, second, third, tag] ++ front).countP Value.isOtherwise = 0 := by
    have hhead : [first, second, third, tag].countP Value.isOtherwise = 0 := by
      simp [not_otherwise (by decide) hfirst, not_otherwise (by decide) hsecond,
        not_otherwise (by decide) hthird, not_otherwise (by decide) htag]
    rw [countP_append, hhead, hnone (by decide) hfront]
  have hall : first :: second :: third :: tag :: (front ++ rest) =
      ([first, second, third, tag] ++ front) ++ rest := by simp
  rw [hall, countP_append, hbefore]
  omega

end

theorem loud_statement (hsignature : kind.signature? = some signature)
    (h : kind.isSimple = true ∨ kind.opens = true) : signature.role.isQuiet = false := by
  cases kind <;> cases hsignature <;> first | rfl | (rcases h with h | h <;> cases h)

theorem step_kind (hsignature : kind.signature? = some signature) (hrole : signature.role = .step) :
    kind = .initiateAndConfirmStepStatement := by
  cases kind <;> cases hsignature <;> first | rfl | cases hrole

/-- A node whose rule has a signature and whose children have been read, from one table to the next. -/
structure Prepared (kind : RuleKind) (signature : Signature) (start stop : Nat) (children : List Tree)
    (table between : DeclarationTable) (values : List Value) : Prop where
  signature_eq : kind.signature? = some signature
  accepts : ∃ slots ∈ signature.choices, Accepts Label.Plays slots (children.map Tree.label)
  laid : Laid start children stop
  span : start < stop
  behind : kind.opens = true → ∀ child ∈ children, child.isNode = true → start < child.start
  free : ∀ pos, start ≤ pos → pos < stop → table.Free pos
  read : Read table between children values

namespace Prepared

variable {kind : RuleKind} {signature : Signature} {start stop : Nat} {children : List Tree}
  {table between result : DeclarationTable} {values : List Value} {effect : Effect}

variable (h : Prepared kind signature start stop children table between values)

include h

theorem accepts_values :
    ∃ slots ∈ signature.choices, Accepts Value.Plays slots values := by
  obtain ⟨slots, hslots, haccepts⟩ := h.accepts
  exact ⟨slots, hslots, FlightProcedure.accepts_values h.read.meanings haccepts⟩

theorem quiet (hquiet : signature.role.isQuiet = true ∨ kind.isSimple = true) :
    ∀ child ∈ children, ¬ child.IsLoud := by
  obtain ⟨slots, hslots, haccepts⟩ := h.accepts
  exact children_quiet h.signature_eq (asks_for_parts h.signature_eq hquiet) hslots haccepts

theorem keeps : Keeps ⟨kind, start⟩ values where
  silent hsilent := keys_of_quiet_children h.read.meanings (h.quiet (.inl (silent_role h.signature_eq hsilent)))
  marks hkind := by
    cases hkind
    exact otherwise_once h.signature_eq h.accepts_values

theorem tag_child {tag : CaseTag} (htag : tag ∈ values.filterMap Value.caseTag?) :
    ∃ child ∈ children, child.start = tag.start ∧ child.isNode = true ∧ ¬ child.IsLoud := by
  obtain ⟨value, hvalue, hpicked⟩ := mem_filterMap.mp htag
  obtain ⟨child, hchild, hread⟩ := forall2_exists_left h.read.meanings hvalue
  have heq : value = .caseTag tag := by
    cases value <;> cases hpicked
    rfl
  obtain ⟨hstart, hnode⟩ := hread.tag tag heq
  refine ⟨child, hchild, hstart.symm, hnode, ?_⟩
  rintro ⟨role, hrole, hloud⟩
  obtain ⟨other, hother, hholds⟩ := hread.role
  cases hrole.symm.trans hother
  rw [heq] at hholds
  cases role <;> first | (cases hloud; done) | exact hholds.elim

theorem free_at (hkind : kind.isSimple = true ∨ kind.opens = true) {pos : Nat}
    (hpos : pos = start ∨ ∃ tag ∈ values.filterMap Value.caseTag?, tag.start = pos) :
    start ≤ pos ∧ pos < stop ∧ between.Free pos := by
  rcases hpos with rfl | ⟨tag, htag, rfl⟩
  · refine ⟨Nat.le_refl _, h.span, h.read.growth.free (h.free _ (Nat.le_refl _) h.span) ?_⟩
    rintro ⟨child, hchild, hloud, hle, hlt⟩
    rcases hkind with hsimple | hopens
    · exact h.quiet (.inr hsimple) child hchild hloud
    · have := h.behind hopens child hchild (loud_is_node hloud)
      omega
  · obtain ⟨child, hchild, hstart, -, hquiet⟩ := h.tag_child htag
    have hbounds := h.laid.stop_le hchild
    have hlow := h.laid.start_le hchild
    have hinside : start ≤ tag.start ∧ tag.start < stop := by omega
    refine ⟨hinside.1, hinside.2, h.read.growth.free (h.free _ hinside.1 hinside.2) ?_⟩
    rintro ⟨other, hother, hloud, hle, hlt⟩
    have hsame := h.laid.eq_of_overlap hchild hother (by omega) (by omega)
    exact hquiet (hsame ▸ hloud)

theorem runs_step (hkind : kind = .watchdogBody) {key : String} (hkey : key ∈ keysOf values) :
    between.RunsStep key := by
  cases hkind
  obtain ⟨value, hvalue, hkey⟩ := mem_flatMap.mp hkey
  obtain ⟨child, hchild, hread⟩ := forall2_exists_left h.read.meanings hvalue
  obtain ⟨slots, hslots, haccepts⟩ := h.accepts
  cases h.signature_eq
  cases mem_singleton.mp hslots
  obtain ⟨slot, hslot, roles, hroles, hplays⟩ := accepts_roles haccepts child.label (mem_map_of_mem hchild)
  cases mem_singleton.mp hslot
  cases mem_singleton.mp hroles
  obtain ⟨role, hrole, -⟩ := hread.role
  obtain ⟨other, hother, hcovers⟩ := hplays role hrole
  cases mem_singleton.mp hother
  rcases covers_cases hcovers with rfl | ⟨hnone, -⟩
  · obtain ⟨found, rfl, hruns⟩ := hread.step hrole
    cases mem_singleton.mp hkey
    exact hruns
  · cases hnone

theorem applies (hdoes : Does ⟨kind, start⟩ values effect) :
    ∃ result, effect.apply ⟨kind, start⟩ between = .ok result ∧
      result.keys = between.keys ++ effect.declarations.map Declaration.key ∧
      ∀ key, DeclarationTable.RunsStep ⟨between.entries ++ effect.declarations⟩ key → result.RunsStep key := by
  refine Effect.apply_ok (fun declaration hmem => ?_) ?_ fun key hkey => ?_
  · obtain ⟨hkind, pos, hkey, hpos⟩ := hdoes.declared_at hmem
    exact (h.free_at hkind hpos).2.2 _ hkey
  · refine hdoes.declared_nodup (tags_ascend h.read.meanings h.laid).1 fun hopens tag htag => ?_
    obtain ⟨child, hchild, hstart, hnode, -⟩ := h.tag_child htag
    exact hstart ▸ h.behind hopens child hchild hnode
  · obtain ⟨hkind, hmem⟩ := hdoes.watchdog_mem hkey
    exact h.runs_step hkind hmem

theorem growth (hdoes : Does ⟨kind, start⟩ values effect) {node : Tree} (hstart : node.start = start)
    (hstop : node.stop = stop) (hrole : node.label.role? = some signature.role)
    (hkeys : result.keys = between.keys ++ effect.declarations.map Declaration.key)
    (hsteps : ∀ key, DeclarationTable.RunsStep ⟨between.entries ++ effect.declarations⟩ key →
      result.RunsStep key) : Growth table result (DeclaredIn [node]) := by
  have hdeclared : ∀ pos, signature.role.isQuiet = false → start ≤ pos → pos < stop →
      DeclaredIn [node] pos := fun pos hloud hle hlt =>
    ⟨node, mem_singleton_self _, ⟨_, hrole, hloud⟩, by omega, by omega⟩
  refine (h.read.growth.mono fun pos hpos => ?_).trans ⟨fun key hkey => ?_, fun key hkey => ?_, ?_⟩
  · obtain ⟨child, hchild, hloud, hle, hlt⟩ := hpos
    have hbounds := h.laid.stop_le hchild
    have hlow := h.laid.start_le hchild
    refine hdeclared pos ?_ (by omega) (by omega)
    exact Bool.eq_false_iff.mpr fun hquiet => h.quiet (.inl hquiet) child hchild hloud
  · rw [hkeys, mem_append] at hkey
    rcases hkey with hkey | hkey
    · exact .inl hkey
    · obtain ⟨declaration, hmem, rfl⟩ := mem_map.mp hkey
      obtain ⟨hkind, pos, hkey, hpos⟩ := hdoes.declared_at hmem
      obtain ⟨hle, hlt, -⟩ := h.free_at hkind hpos
      exact .inr ⟨pos, hdeclared pos (loud_statement h.signature_eq hkind) hle hlt, hkey⟩
  · exact hsteps key (hkey.append _)
  · intro hnodup
    rw [hkeys]
    refine nodup_append.mpr ⟨hnodup, ?_, fun key hold other hnew => ?_⟩
    · refine hdoes.declared_nodup (tags_ascend h.read.meanings h.laid).1 fun hopens tag htag => ?_
      obtain ⟨child, hchild, hstart, hnode, -⟩ := h.tag_child htag
      exact hstart ▸ h.behind hopens child hchild hnode
    · rintro rfl
      obtain ⟨declaration, hmem, rfl⟩ := mem_map.mp hnew
      obtain ⟨hkind, pos, hkey, hpos⟩ := hdoes.declared_at hmem
      exact (h.free_at hkind hpos).2.2 _ hkey hold

theorem read_as (hkind : RuleKind.ofName? rule = some kind) (haction : action name ⟨kind, start⟩ values = .ok effect)
    (hholds : signature.role.Holds effect.value)
    (hsteps : ∀ key, DeclarationTable.RunsStep ⟨between.entries ++ effect.declarations⟩ key →
      result.RunsStep key) : ReadAs result (.node rule start stop children) effect.value := by
  have hrole : (Tree.node rule start stop children).label.role? = some signature.role := by
    simp [Tree.label, Label.role?, hkind, RuleKind.role?, h.signature_eq]
  refine ⟨⟨_, hrole, hholds⟩, fun hstep => ?_, fun tag htag => ?_, fun token htoken => ?_⟩
  · have hdoes := action_does haction
    have hsame := step_kind h.signature_eq (Option.some.inj (hrole.symm.trans hstep))
    obtain ⟨hvalue, stepClass, continuation, more, hdeclared⟩ := hdoes.step_declared hsame
    refine ⟨_, hvalue, hsteps _ ?_⟩
    rw [hdeclared]
    refine DeclarationTable.runs_step_declared ?_ more
    exact (h.free_at (.inr (hsame ▸ rfl)) (.inl rfl)).2.2 _ mem_cons_self
  · exact ⟨case_tag_start h.signature_eq haction hholds htag, rfl⟩
  · exact absurd (htoken ▸ hholds) (role_not_token h.signature_eq token)

theorem meets (hkind : RuleKind.ofName? rule = some kind) :
    Meets (Tree.tokensOf children)
      (fun found => Read table found.2 [.node rule start stop children] [found.1])
      (do
        let effect ← action name ⟨kind, start⟩ values
        .ok (effect.value, ← effect.apply ⟨kind, start⟩ between)) := by
  have hmeets : Meets _ _ (action name ⟨kind, start⟩ values) := action_meets h.signature_eq h.accepts_values
  refine (hmeets.mono (tokens_of_meanings h.read.meanings)).bind_eq fun effect haction hholds => ?_
  have hdoes := action_does haction
  obtain ⟨result, hresult, hkeys, hsteps⟩ := h.applies hdoes
  rw [hresult, ok_bind]
  have hread := h.read_as hkind haction hholds hsteps
  refine ⟨h.growth hdoes rfl rfl ?_ hkeys hsteps, fun hnodup pending htied => ?_, .cons hread .nil⟩
  · simp [Tree.label, Label.role?, hkind, RuleKind.role?, h.signature_eq]
  · have hties := Tied.apply hdoes h.keeps (h.read.growth.nodup hnodup)
      (h.read.ties hnodup pending htied) hresult
    simpa [keysOf] using hties

end Prepared

section

variable {input : Input} {defs : Definitions} {options : GrammarOptions}

mutual

theorem value_meets (hreadable : defs.Readable options) (name : String) :
    ∀ {tree : Tree} {table : DeclarationTable}, tree.Sound input defs options →
      (∀ pos, tree.start ≤ pos → pos < tree.stop → table.Free pos) →
        Meets tree.tokens (fun found => Read table found.2 [tree] [found.1]) (valueOf name tree table)
  | .leaf token, table, .leaf hlexeme, _ => by
    rw [valueOf]
    refine ⟨.refl table _, fun _ pending htied => ?_, .cons ⟨⟨_, rfl, rfl, ?_⟩, ?_, ?_, ?_⟩ .nil⟩
    · simpa [keysOf, Value.keys] using htied
    · exact lexeme_spelled hreadable.spelled hlexeme
    · intro hstep
      cases hstep
    · intro tag htag
      cases htag
    · intro other hother
      cases hother
      exact mem_singleton_self _
  | .node _ start stop children, table,
      @Tree.Sound.node _ _ _ definition _ _ _ hmem hfits hspan hlaid hopens hchildren, hfree => by
      obtain ⟨kind, hkind, -⟩ := conforms_kind hreadable.conforms hmem
      rw [valueOf, hkind, Tree.tokens]
      refine (values_meets hreadable name hlaid hchildren hfree).bind ?_
      rintro ⟨values, between⟩ hread
      cases hsignature : kind.signature? with
      | none =>
        dsimp only
        rw [action_unsupported hsignature]
        exact .unsupported _ _
      | some signature =>
        have haccepts := fits_accepted hreadable.conforms hmem hkind hfits hsignature
        refine Prepared.meets ⟨hsignature, haccepts, hlaid, hspan, fun hkindOpens => ?_, hfree, hread⟩
          hkind
        exact hopens (hreadable.opening definition hmem kind hkind hkindOpens)

theorem values_meets (hreadable : defs.Readable options) (name : String) :
    ∀ {trees : List Tree} {table : DeclarationTable} {low high : Nat}, Laid low trees high →
      (∀ tree ∈ trees, tree.Sound input defs options) →
      (∀ pos, low ≤ pos → pos < high → table.Free pos) →
        Meets (Tree.tokensOf trees) (fun found => Read table found.2 trees found.1)
          (valuesOf name trees table)
  | [], table, _, _, _, _, _ => by
    rw [valuesOf]
    exact Read.nil table
  | tree :: trees, table, low, high, ⟨hlow, hspan, hhigh, hlaid⟩, hsound, hfree => by
    rw [valuesOf, Tree.tokensOf]
    have hfirst := value_meets hreadable name (hsound tree mem_cons_self)
      fun pos hle hlt => hfree pos (by omega) (by omega)
    refine (hfirst.mono fun _ => mem_append_left _).bind fun first hread => ?_
    -- The first tree declares only keys of its own positions, which lie before the other trees.
    have hrest : ∀ pos, tree.stop ≤ pos → pos < high → first.2.Free pos := by
      intro pos hle hlt
      refine hread.growth.free (hfree pos (by omega) hlt) ?_
      rintro ⟨other, hother, -, -, hinside⟩
      cases mem_singleton.mp hother
      omega
    have hsecond := values_meets hreadable name hlaid
      (fun other hother => hsound other (mem_cons_of_mem _ hother)) hrest
    refine (hsecond.mono fun _ => mem_append_right _).bind fun rest hothers => ?_
    exact hread.append hothers

end

theorem of_tree_meets (hreadable : defs.Readable options) (name : String)
    (hsound : tree.Sound input defs options) (hrole : tree.label.role? = some .procedure) :
    Meets tree.tokens Procedure.Rooted (Procedure.ofTree name tree) := by
  have hempty : ∀ pos, tree.start ≤ pos → pos < tree.stop → ({} : DeclarationTable).Free pos :=
    fun _ _ _ _ _ => not_mem_nil
  have hmeets := value_meets hreadable name hsound hempty
  rw [Procedure.ofTree]
  refine hmeets.bind_eq ?_
  rintro ⟨value, table⟩ hvalue hread
  obtain ⟨hmeaning, -⟩ := forall₂_cons.mp hread.meanings
  obtain ⟨role, hsame, hholds⟩ := hmeaning.role
  cases hrole.symm.trans hsame
  cases value <;> first | exact hholds.elim | skip
  next main =>
    have hprocedure : Procedure.ofTree name tree = .ok (table.finish main) := by
      rw [Procedure.ofTree, hvalue, ok_bind]
    have htied : Tied ({} : DeclarationTable).entries [] := ⟨fun _ => rfl, fun _ h => (not_mem_nil h).elim⟩
    have hties := hread.ties nodup_nil [] htied
    rw [keysOf, flatMap_singleton, append_nil] at hties
    exact Tied.rooted (of_tree_linked hprocedure) hties

end

end FlightProcedure
