import FlightProcedure.Proofs.Procedure.Effects
import Mathlib.Data.List.Nodup

/-!
# References of a procedure are closed

A declaration is only ever added under a fresh key, and making a watchdog of a step statement changes
none of its references. `Linked declarations pending` says what holds of the declarations made so far
and of the keys that wait to be listed; `value_linked` says that reading a tree keeps it.
-/

namespace FlightProcedure

open List Declaration Effect

def Declaration.outline : Declaration → Declaration
  | .statement key (.initiateAndConfirmStep stepClass _ continuation) =>
    .statement key (.initiateAndConfirmStep stepClass false continuation)
  | declaration => declaration

namespace Declaration

@[simp] theorem key_outline (declaration : Declaration) : declaration.outline.key = declaration.key := by
  unfold outline
  split <;> rfl

@[simp] theorem listed_outline (declaration : Declaration) : declaration.outline.listed = declaration.listed := by
  unfold outline
  split <;> rfl

@[simp] theorem step_class_outline (declaration : Declaration) :
    declaration.outline.stepClass? = declaration.stepClass? := by
  unfold outline
  split <;> rfl

@[simp] theorem statement_key_outline (declaration : Declaration) :
    declaration.outline.statementKey? = declaration.statementKey? := by
  unfold outline
  split <;> rfl

@[simp] theorem class_name_outline (declaration : Declaration) :
    declaration.outline.className? = declaration.className? := by
  unfold outline
  split <;> rfl

end Declaration

section

variable {α : Type} {declarations others : List Declaration}

theorem map_of_outline {view : Declaration → α} (hview : ∀ declaration : Declaration, view declaration.outline = view declaration)
    (h : others.map outline = declarations.map outline) :
    others.map view = declarations.map view := by
  have hcongr := congrArg (List.map view) h
  simpa only [map_map, Function.comp_def, hview] using hcongr

theorem filter_map_of_outline {view : Declaration → Option α}
    (hview : ∀ declaration : Declaration, view declaration.outline = view declaration)
    (h : others.map outline = declarations.map outline) :
    others.filterMap view = declarations.filterMap view := by
  have hcongr := congrArg (List.filterMap id) (map_of_outline hview h)
  simpa only [filterMap_map, Function.id_comp] using hcongr

end

namespace DeclarationTable

variable {table result : DeclarationTable} {declaration : Declaration} {key : String}

theorem declare_eq_ok {kind : RuleKind} {new : NewDeclaration} (h : table.declare kind new = .ok result) :
    new.declaration.key ∉ table.entries.map Declaration.key ∧ result.entries = table.entries ++ [new.declaration] := by
  unfold declare insert? at h
  split at h
  · next hinsert =>
    cases h
    split at hinsert
    · cases hinsert
    · next hfresh =>
      cases hinsert
      simpa [get?] using hfresh
  · cases h

theorem guard_eq_ok {site : Site} (h : table.guard site key = .ok result) : table.markWatchdog? key = some result := by
  unfold guard at h
  split at h
  · next hmark =>
    cases h
    exact hmark
  · cases h

theorem mark_watchdog_eq_some (h : table.markWatchdog? key = some result) :
    ∃ stepClass watchdog continuation,
      statement key (.initiateAndConfirmStep stepClass watchdog continuation) ∈ table.entries ∧
      result.entries = table.entries.map fun entry =>
        if entry.key == key then .statement key (.initiateAndConfirmStep stepClass true continuation) else entry := by
  obtain ⟨marked, hmarked, h⟩ := Option.bind_eq_some_iff.mp h
  obtain ⟨found, hfound, hmarked⟩ := Option.bind_eq_some_iff.mp hmarked
  have hmem := mem_of_find?_eq_some hfound
  have hkey := find?_some hfound
  cases h
  unfold watchdog? at hmarked
  split at hmarked
  · cases hmarked
    cases eq_of_beq hkey
    exact ⟨_, _, _, hmem, rfl⟩
  · cases hmarked

variable (hnodup : (table.entries.map Declaration.key).Nodup)

include hnodup

theorem outline_mark_watchdog (h : table.markWatchdog? key = some result) :
    result.entries.map outline = table.entries.map outline := by
  obtain ⟨stepClass, watchdog, continuation, hmem, hentries⟩ := mark_watchdog_eq_some h
  rw [hentries, map_map]
  refine map_congr_left fun entry hentry => ?_
  simp only [Function.comp]
  split
  · next heq =>
    -- Keys are distinct, so the entry is the one that was found.
    rw [inj_on_of_nodup_map hnodup hentry hmem (eq_of_beq heq)]
    rfl
  · rfl

theorem declare_all_eq_ok {kind : RuleKind} {news : List NewDeclaration}
    (h : news.foldlM (declare kind) table = .ok result) :
    (result.entries.map Declaration.key).Nodup ∧ result.entries = table.entries ++ news.map (·.declaration) := by
  induction news generalizing table with
  | nil =>
    cases h
    exact ⟨hnodup, by simp⟩
  | cons new news ih =>
    rw [foldlM_cons] at h
    obtain ⟨next, hnext, hrest⟩ := bind_eq_ok h
    obtain ⟨hfresh, hentries⟩ := declare_eq_ok hnext
    have hkeys : (next.entries.map Declaration.key).Nodup := by
      rw [hentries, map_append]
      exact nodup_append.mpr ⟨hnodup, by simp, by
        rintro key hkey other hother rfl
        rw [map_singleton, mem_singleton] at hother
        exact hfresh (hother ▸ hkey)⟩
    obtain ⟨hall, hresult⟩ := ih hkeys hrest
    exact ⟨hall, by simp [hresult, hentries]⟩

theorem outline_guard_all {site : Site} {keys : List String} (h : keys.foldlM (guard site) table = .ok result) :
    result.entries.map Declaration.outline = table.entries.map Declaration.outline := by
  refine foldl_m_invariant
    (fun other => other.entries.map Declaration.outline = table.entries.map Declaration.outline)
    (fun other key next _ hother hnext => ?_) rfl h
  refine (outline_mark_watchdog ?_ (guard_eq_ok hnext)).trans hother
  rw [map_of_outline Declaration.key_outline hother]
  exact hnodup

end DeclarationTable

def Effect.declarations (effect : Effect) : List Declaration := effect.declares.map (·.declaration)

variable {table result : DeclarationTable}

theorem Effect.apply_eq_ok {site : Site} {effect : Effect}
    (hnodup : (table.entries.map Declaration.key).Nodup) (h : effect.apply site table = .ok result) :
    ((table.entries ++ effect.declarations).map Declaration.key).Nodup ∧ result.entries.map Declaration.outline =
        (table.entries ++ effect.declarations).map Declaration.outline := by
  obtain ⟨declared, hdeclared, hguarded⟩ := bind_eq_ok h
  obtain ⟨hkeys, hentries⟩ := DeclarationTable.declare_all_eq_ok hnodup hdeclared
  rw [declarations, ← hentries]
  exact ⟨hkeys, DeclarationTable.outline_guard_all hkeys hguarded⟩

variable {name : String} {tree : Tree} {procedure : Procedure}

theorem value_of_node {rule : String} {start stop : Nat} {children : List Tree} {value : Value}
    (h : valueOf name (.node rule start stop children) table = .ok (value, result)) :
    ∃ kind values between effect, RuleKind.ofName? rule = some kind ∧
      valuesOf name children table = .ok (values, between) ∧
      action name ⟨kind, start⟩ values = .ok effect ∧
      effect.apply ⟨kind, start⟩ between = .ok result ∧ value = effect.value := by
  unfold valueOf at h
  split at h
  · cases h
  · next kind hkind =>
    obtain ⟨⟨values, between⟩, hvalues, h⟩ := bind_eq_ok h
    obtain ⟨effect, heffect, h⟩ := bind_eq_ok h
    obtain ⟨last, hlast, h⟩ := bind_eq_ok h
    cases h
    exact ⟨kind, values, between, effect, hkind, hvalues, heffect, hlast, rfl⟩

theorem values_of_cons {trees : List Tree} {values : List Value}
    (h : valuesOf name (tree :: trees) table = .ok (values, result)) :
    ∃ value between others, valueOf name tree table = .ok (value, between) ∧
      valuesOf name trees between = .ok (others, result) ∧ values = value :: others := by
  unfold valuesOf at h
  obtain ⟨⟨value, between⟩, hvalue, h⟩ := bind_eq_ok h
  obtain ⟨⟨others, last⟩, hothers, h⟩ := bind_eq_ok h
  cases h
  exact ⟨value, between, others, hvalue, hothers, rfl⟩

/-- The declarations made so far and the keys that wait to be listed: every key is listed or waits at
most once, and only if it belongs to a declared statement, and each class is named by one statement. -/
structure Linked (declarations : List Declaration) (pending : List String) : Prop where
  nodup : (declarations.map key).Nodup
  count_le : ∀ key, (declarations.flatMap listed ++ pending).count key ≤
    (declarations.filterMap statementKey?).count key
  classes : declarations.filterMap stepClass? = declarations.filterMap className?

theorem Linked.of_outline {declarations others : List Declaration} {pending : List String}
    (h : others.map outline = declarations.map outline) (hlinked : Linked declarations pending) : Linked others pending := by
  constructor
  · rw [map_of_outline key_outline h]
    exact hlinked.nodup
  · rw [flatMap_def, map_of_outline listed_outline h, ← flatMap_def,
      filter_map_of_outline statement_key_outline h]
    exact hlinked.count_le
  · rw [filter_map_of_outline step_class_outline h, filter_map_of_outline class_name_outline h]
    exact hlinked.classes

theorem keys_case_chain (subject : Expr) (otherwise : List String) (offset : Nat)
    (branch : CaseBranch) (rest : List CaseBranch) :
    let chain := (caseChain subject otherwise offset (branch :: rest)).map (·.declaration)
    let keys := statementKey offset :: rest.map fun branch => statementKey branch.tag.start
    chain.map key = keys ∧ chain.filterMap statementKey? = keys := by
  induction rest generalizing offset branch with
  | nil => exact ⟨rfl, rfl⟩
  | cons next rest ih =>
    obtain ⟨hkeys, hstatements⟩ := ih next.tag.start next
    simp only [caseChain, map_cons, filterMap_cons, key, statementKey?] at hkeys hstatements ⊢
    exact ⟨congrArg _ hkeys, congrArg _ hstatements⟩

theorem count_listed_case_chain (subject : Expr) (otherwise : List String) (offset : Nat)
    (branch : CaseBranch) (rest : List CaseBranch) (key : String) :
    (((caseChain subject otherwise offset (branch :: rest)).map (·.declaration)).flatMap listed).count key =
      ((branch :: rest).flatMap (·.statements) ++ otherwise).count key +
        (rest.map fun branch => statementKey branch.tag.start).count key := by
  induction rest generalizing offset branch with
  | nil => simp [caseChain, listed]
  | cons next rest ih =>
    have hrest := ih next.tag.start next
    simp only [caseChain, map_cons, flatMap_cons, listed, count_append, count_cons, count_nil] at hrest ⊢
    omega

theorem classes_case_chain (subject : Expr) (otherwise : List String) (offset : Nat) (branches : List CaseBranch) :
    ((caseChain subject otherwise offset branches).map (·.declaration)).filterMap
        stepClass? = [] ∧
      ((caseChain subject otherwise offset branches).map (·.declaration)).filterMap
        className? = [] := by
  induction branches generalizing offset with
  | nil => exact ⟨rfl, rfl⟩
  | cons branch rest ih =>
    cases rest with
    | nil => exact ⟨rfl, rfl⟩
    | cons next rest => exact ih next.tag.start

/-- A node that loses no key: a part of a statement has no keys, and a case statement has at most one
mark for all other cases. -/
structure Keeps (site : Site) (values : List Value) : Prop where
  silent : site.kind.isSilent = true → keysOf values = []
  marks : site.kind = .caseStatement → values.countP Value.isOtherwise ≤ 1

section

variable {site : Site} {values : List Value} {effect : Effect}

theorem Does.count_listed (h : Does site values effect) (key : String) :
    (effect.declarations.flatMap listed ++ effect.value.keys).count key ≤
        (keysOf values ++ effect.declarations.filterMap statementKey?).count key ∧
      (Keeps site values → (effect.declarations.flatMap listed ++ effect.value.keys).count key =
          (keysOf values ++ effect.declarations.filterMap statementKey?).count key) := by
  cases h with
  | means hsilent hkeys =>
    refine ⟨by simp [declarations, ofValue, hkeys], fun hkeeps => ?_⟩
    simp [declarations, ofValue, hkeys, hkeeps.silent hsilent]
  | passes _ hvalues => simp [declarations, ofValue, hvalues]
  | collects _ hkeys => simp [declarations, hkeys]
  | @states statement _ hlisted hkeys =>
    have hnone := (append_eq_nil_iff.mp (hlisted (statementKey site.offset))).2
    simp [declarations, ofStatement, hkeys, hnone, Value.keys, statementKey?]
  | decides _ hkeys =>
    simp [declarations, ofStatement, listed, hkeys, Value.keys, statementKey?]
  | runs _ hkeys =>
    simp [declarations, listed, StepClass.listed, hkeys, Value.keys,
      statementKey?, filterMap_cons]
  | @chooses subject branches otherwise hkind hbranches _ hkeys hall =>
    obtain ⟨branch, rest, rfl⟩ := exists_cons_of_ne_nil hbranches
    simp only [declarations, (keys_case_chain ..).2, count_append, Value.keys,
      count_listed_case_chain, count_cons, count_nil]
    constructor
    · have hcount := hkeys.count_le key
      simp only [count_append] at hcount
      omega
    · intro hkeeps
      have hcount := congrArg (List.count key) (hall (hkeeps.marks hkind))
      simp only [count_append] at hcount
      omega

theorem Does.classes (h : Does site values effect) : effect.declarations.filterMap stepClass? =
      effect.declarations.filterMap className? := by
  cases h with
  | means | passes | collects | decides | runs => rfl
  | @states statement _ hlisted hkeys =>
    have hnone := (append_eq_nil_iff.mp (hlisted (statementKey site.offset))).1
    rw [Option.toList_eq_nil_iff] at hnone
    simp [declarations, ofStatement, className?, filterMap_cons, hnone]
  | chooses =>
    obtain ⟨hclasses, hnames⟩ := classes_case_chain _ _ _ _
    exact hclasses.trans hnames.symm

theorem Linked.apply {table result : DeclarationTable} {pending : List String}
    (hdoes : Does site values effect) (hlinked : Linked table.entries (keysOf values ++ pending))
    (h : effect.apply site table = .ok result) :
    Linked result.entries (effect.value.keys ++ pending) := by
  obtain ⟨hnodup, houtline⟩ := apply_eq_ok hlinked.nodup h
  refine Linked.of_outline houtline ⟨hnodup, fun key => ?_, ?_⟩
  · have hbefore := hlinked.count_le key
    have hnode := (hdoes.count_listed key).1
    simp only [flatMap_append, filterMap_append, count_append] at hbefore hnode ⊢
    omega
  · simp only [filterMap_append, hlinked.classes, hdoes.classes]

end

mutual

theorem value_linked : ∀ {tree : Tree} {table result : DeclarationTable}
    {value : Value} {pending : List String}, valueOf name tree table = .ok (value, result) →
      Linked table.entries pending → Linked result.entries (value.keys ++ pending)
  | .leaf _, _, _, _, _, h, hlinked => by
    cases h
    exact hlinked
  | .node _ _ _ _, _, _, _, _, h, hlinked => by
    obtain ⟨kind, values, between, effect, _, hvalues, haction, happly, rfl⟩ := value_of_node h
    exact (values_linked hvalues hlinked).apply (action_does haction) happly

theorem values_linked : ∀ {trees : List Tree} {table result : DeclarationTable}
    {values : List Value} {pending : List String}, valuesOf name trees table = .ok (values, result) →
      Linked table.entries pending → Linked result.entries (keysOf values ++ pending)
  | [], _, _, _, _, h, hlinked => by
    cases h
    exact hlinked
  | tree :: trees, _, _, _, pending, h, hlinked => by
    obtain ⟨value, between, others, hvalue, hothers, rfl⟩ := values_of_cons h
    have hrest := values_linked hothers (value_linked hvalue hlinked)
    refine ⟨hrest.nodup, fun key => ?_, hrest.classes⟩
    have hcount := hrest.count_le key
    simp only [keys_of_cons, count_append] at hcount ⊢
    omega

end

section

variable {declarations : List Declaration} {pending : List String}

theorem filter_map_sublist_keys {view : Declaration → Option String}
    (hview : ∀ declaration found, view declaration = some found → found = declaration.key)
    (declarations : List Declaration) : (declarations.filterMap view).Sublist (declarations.map key) := by
  induction declarations with
  | nil => exact .slnil
  | cons declaration declarations ih =>
    rw [filterMap_cons, map_cons]
    split
    · exact ih.cons _
    · next hfound => exact hview _ _ hfound ▸ ih.cons_cons _

theorem statement_keys_sublist (declarations : List Declaration) :
    (declarations.filterMap statementKey?).Sublist (declarations.map key) :=
  filter_map_sublist_keys (fun declaration _ h => by cases declaration <;> cases h; rfl) declarations

theorem mem_statement_keys {key : String} : key ∈ declarations.filterMap Declaration.statementKey? ↔
      ∃ statement, Declaration.statement key statement ∈ declarations := by
  rw [mem_filterMap]
  constructor
  · rintro ⟨declaration, hmem, hkey⟩
    cases declaration <;> cases hkey
    exact ⟨_, hmem⟩
  · rintro ⟨statement, hmem⟩
    exact ⟨_, hmem, rfl⟩

theorem mem_class_names : name ∈ declarations.filterMap className? ↔
      ∃ definition, step definition ∈ declarations ∧ definition.name = name := by
  rw [mem_filterMap]
  constructor
  · rintro ⟨declaration, hmem, hname⟩
    cases declaration <;> cases hname
    exact ⟨_, hmem, rfl⟩
  · rintro ⟨definition, hmem, rfl⟩
    exact ⟨_, hmem, rfl⟩

theorem Linked.statement_key_count_le (h : Linked declarations pending) (key : String) :
    (declarations.filterMap statementKey?).count key ≤ 1 :=
  nodup_iff_count_le_one.mp (h.nodup.sublist (statement_keys_sublist declarations)) key

end

theorem Linked.closed (h : Linked procedure.declarations procedure.main.listed) : procedure.Closed where
  keys_nodup := h.nodup
  listed_declared key hkey := by
    have hlisted : 0 < procedure.listed.count key := count_pos_iff.mpr hkey
    exact mem_statement_keys.mp (count_pos_iff.mp (Nat.lt_of_lt_of_le hlisted (h.count_le key)))
  listed_nodup := nodup_iff_count_le_one.mpr fun key =>
    Nat.le_trans (h.count_le key) (h.statement_key_count_le key)
  class_declared key stepClass watchdog continuation hmem := by
    rw [← mem_class_names, ← h.classes]
    exact mem_filterMap.mpr ⟨_, hmem, rfl⟩

theorem of_tree_eq_ok (h : Procedure.ofTree name tree = .ok procedure) :
    ∃ table, valueOf name tree {} = .ok (.procedure procedure.main, table) ∧
      procedure.declarations = table.entries := by
  obtain ⟨⟨value, table⟩, hvalue, h⟩ := bind_eq_ok h
  cases value <;> cases h
  exact ⟨table, hvalue, rfl⟩

theorem of_tree_linked (h : Procedure.ofTree name tree = .ok procedure) :
    Linked procedure.declarations procedure.main.listed := by
  obtain ⟨table, hvalue, hentries⟩ := of_tree_eq_ok h
  have hstart : Linked ({} : DeclarationTable).entries [] := ⟨nodup_nil, fun _ => Nat.le_refl _, rfl⟩
  have hlinked := value_linked hvalue hstart
  rw [append_nil] at hlinked
  rw [hentries]
  exact hlinked

end FlightProcedure
