import FlightProcedure.Proofs.Procedure.Closure

/-!
# When declarations can be made

Declarations can be made if their keys are fresh, and statements become watchdogs if they run steps. A
node at a position declares only keys of that position, and keys of different positions differ. Read
`DeclarationTable.Free` and `DeclarationTable.RunsStep` first.
-/

namespace FlightProcedure

open List DeclarationTable Declaration

theorem statement_key_inj {first second : Nat} (h : statementKey first = statementKey second) : first = second := by
  have hrepr : first.repr = second.repr := (String.append_right_inj _).mp h
  rw [Nat.repr_eq_ofList_toDigits, Nat.repr_eq_ofList_toDigits, String.ofList_inj] at hrepr
  rw [← @Nat.ofDigitChars_toDigits 10 first (by decide) (by decide), hrepr,
    Nat.ofDigitChars_toDigits (by decide) (by decide)]

theorem statement_key_ne_class (first : Nat) (key : String) : statementKey first ≠ stepClassName key := by
  intro h
  have hlist := congrArg String.toList h
  simp [statementKey, stepClassName] at hlist

def keysAt (pos : Nat) : List String := [statementKey pos, stepClassName (statementKey pos)]

theorem keys_at_disjoint {first second : Nat} {key : String} (hfirst : key ∈ keysAt first)
    (hsecond : key ∈ keysAt second) : first = second := by
  simp only [keysAt, mem_cons, not_mem_nil, or_false] at hfirst hsecond
  rcases hfirst with rfl | rfl
  · rcases hsecond with h | h
    · exact statement_key_inj h
    · exact absurd h (statement_key_ne_class _ _)
  · rcases hsecond with h | h
    · exact absurd h.symm (statement_key_ne_class _ _)
    · exact statement_key_inj ((String.append_right_inj _).mp h)

namespace DeclarationTable

def keys (table : DeclarationTable) : List String := table.entries.map key

def Free (table : DeclarationTable) (pos : Nat) : Prop := ∀ key ∈ keysAt pos, key ∉ table.keys

def RunsStep (table : DeclarationTable) (key : String) : Prop := ∃ marked, (table.get? key).bind watchdog? = some marked

variable {table : DeclarationTable} {key : String}

theorem get_eq_none (h : key ∉ table.keys) : table.get? key = none := by
  rw [get?, find?_eq_none]
  intro entry hentry hkey
  exact h (mem_map.mpr ⟨entry, hentry, by simpa using hkey⟩)

theorem RunsStep.append (h : table.RunsStep key) (more : List Declaration) :
    RunsStep ⟨table.entries ++ more⟩ key := by
  obtain ⟨marked, hmarked⟩ := h
  obtain ⟨found, hfound, hmarked⟩ := Option.bind_eq_some_iff.mp hmarked
  refine ⟨marked, ?_⟩
  rw [get?] at hfound ⊢
  rw [find?_append, hfound]
  exact hmarked

theorem runs_step_declared {stepClass : String} {watchdog : Bool}
    {continuation : ContinuationTest} (hfresh : key ∉ table.keys) (more : List Declaration) :
    RunsStep ⟨table.entries ++
      .statement key (.initiateAndConfirmStep stepClass watchdog continuation) :: more⟩ key := by
  have hnone := get_eq_none hfresh
  rw [get?] at hnone
  refine ⟨.statement key (.initiateAndConfirmStep stepClass true continuation), ?_⟩
  rw [get?, find?_append, hnone]
  simp [Declaration.key, watchdog?]

theorem declare_all_ok {kind : RuleKind} {news : List NewDeclaration}
    (hfresh : ∀ new ∈ news, new.declaration.key ∉ table.keys)
    (hnodup : (news.map (·.declaration.key)).Nodup) :
    news.foldlM (declare kind) table = .ok ⟨table.entries ++ news.map (·.declaration)⟩ := by
  induction news generalizing table with
  | nil => simp [pure, Except.pure]
  | cons new news ih =>
    rw [map_cons, nodup_cons] at hnodup
    have hinsert : table.insert? new.declaration = some ⟨table.entries ++ [new.declaration]⟩ := by
      simp [insert?, get_eq_none (hfresh new mem_cons_self)]
    have hrest : ∀ other ∈ news, other.declaration.key ∉
        (⟨table.entries ++ [new.declaration]⟩ : DeclarationTable).keys := by
      intro other hother hmem
      rw [keys, map_append, map_singleton, mem_append, mem_singleton] at hmem
      rcases hmem with hmem | hmem
      · exact hfresh other (mem_cons_of_mem _ hother) hmem
      · exact hnodup.1 (mem_map.mpr ⟨other, hother, hmem⟩)
    rw [foldlM_cons, declare, hinsert, ok_bind, ih hrest hnodup.2]
    simp

theorem key_replaced (key : String) (statement : Statement) (entry : Declaration) :
    (if entry.key == key then .statement key statement else entry).key = entry.key := by
  split
  · next heq => exact (eq_of_beq heq).symm
  · rfl

theorem keys_mark_watchdog {result : DeclarationTable} (h : table.markWatchdog? key = some result) :
    result.keys = table.keys := by
  obtain ⟨stepClass, watchdog, continuation, -, hentries⟩ := mark_watchdog_eq_some h
  rw [keys, keys, hentries, map_map]
  exact map_congr_left fun entry _ => key_replaced key _ entry

theorem guard_ok {site : Site} (h : table.RunsStep key) :
    ∃ result, guard site table key = .ok result ∧ result.keys = table.keys ∧
      ∀ other, table.RunsStep other → result.RunsStep other := by
  obtain ⟨marked, hmarked⟩ := h
  obtain ⟨result, hresult⟩ : ∃ result, table.markWatchdog? key = some result := ⟨_, by rw [markWatchdog?, hmarked]; rfl⟩
  refine ⟨result, by rw [guard, hresult], keys_mark_watchdog hresult, fun other hother => ?_⟩
  obtain ⟨stepClass, watchdog, continuation, -, hentries⟩ := mark_watchdog_eq_some hresult
  -- Looking up another key finds the entry of before, which may be the one that is marked now.
  obtain ⟨old, hold⟩ := hother
  obtain ⟨entry, hentry, hold⟩ := Option.bind_eq_some_iff.mp hold
  rw [get?] at hentry
  rw [RunsStep, get?, hentries, find?_map]
  simp only [Function.comp_def, key_replaced, hentry, Option.map_some, Option.bind_some]
  split
  · exact ⟨_, rfl⟩
  · exact ⟨old, hold⟩

theorem guard_all_ok {site : Site} {keys : List String} (h : ∀ key ∈ keys, table.RunsStep key) :
    ∃ result, keys.foldlM (guard site) table = .ok result ∧ result.keys = table.keys ∧
      ∀ other, table.RunsStep other → result.RunsStep other := by
  induction keys generalizing table with
  | nil => exact ⟨table, rfl, rfl, fun _ h => h⟩
  | cons key rest ih =>
    obtain ⟨next, hnext, hkeys, hsteps⟩ := guard_ok (h key mem_cons_self)
    obtain ⟨result, hresult, hsame, hlater⟩ := ih fun other hother => hsteps other (h other (mem_cons_of_mem _ hother))
    refine ⟨result, ?_, hsame.trans hkeys, fun other hother => hlater other (hsteps other hother)⟩
    rw [foldlM_cons, hnext, ok_bind, hresult]

end DeclarationTable

/-- What reading a part of a tree does to the table: it introduces only keys of allowed positions, and
leaves the statements that run steps. -/
structure Growth (table result : DeclarationTable) (allowed : Nat → Prop) : Prop where
  introduced : ∀ key ∈ result.keys, key ∈ table.keys ∨ ∃ pos, allowed pos ∧ key ∈ keysAt pos
  steps : ∀ key, table.RunsStep key → result.RunsStep key
  nodup : table.keys.Nodup → result.keys.Nodup

section

variable {table between result : DeclarationTable} {allowed more : Nat → Prop}

theorem Growth.refl (table : DeclarationTable) (allowed : Nat → Prop) : Growth table table allowed :=
  ⟨fun _ h => .inl h, fun _ h => h, fun h => h⟩

theorem Growth.trans (hfirst : Growth table between allowed) (hsecond : Growth between result allowed) :
    Growth table result allowed := by
  refine ⟨fun key hkey => ?_, fun key h => hsecond.steps key (hfirst.steps key h),
    fun h => hsecond.nodup (hfirst.nodup h)⟩
  rcases hsecond.introduced key hkey with hkey | hallowed
  · exact hfirst.introduced key hkey
  · exact .inr hallowed

theorem Growth.mono (h : Growth table result allowed) (hmore : ∀ pos, allowed pos → more pos) :
    Growth table result more := by
  refine ⟨fun key hkey => ?_, h.steps, h.nodup⟩
  rcases h.introduced key hkey with hkey | ⟨pos, hpos, hkey⟩
  · exact .inl hkey
  · exact .inr ⟨pos, hmore pos hpos, hkey⟩

theorem Growth.free (h : Growth table result allowed) {pos : Nat} (hfree : table.Free pos)
    (hnot : ¬ allowed pos) : result.Free pos := by
  intro key hkey hmem
  rcases h.introduced key hmem with hmem | ⟨other, hother, hsame⟩
  · exact hfree key hkey hmem
  · exact hnot (keys_at_disjoint hsame hkey ▸ hother)

end

theorem Effect.apply_ok {site : Site} {effect : Effect} {table : DeclarationTable}
    (hfresh : ∀ declaration ∈ effect.declarations, declaration.key ∉ table.keys)
    (hnodup : (effect.declarations.map key).Nodup)
    (hwatchdogs : ∀ key ∈ effect.watchdogs, table.RunsStep key) :
    ∃ result, effect.apply site table = .ok result ∧
      result.keys = table.keys ++ effect.declarations.map key ∧
      ∀ key, RunsStep ⟨table.entries ++ effect.declarations⟩ key → result.RunsStep key := by
  have hdeclared : effect.declares.foldlM (declare site.kind) table =
      .ok ⟨table.entries ++ effect.declarations⟩ := by
    refine declare_all_ok
      (fun new hnew => hfresh new.declaration (mem_map_of_mem hnew)) ?_
    rw [Effect.declarations, map_map] at hnodup
    exact hnodup
  have hguarded : ∀ key ∈ effect.watchdogs, RunsStep ⟨table.entries ++ effect.declarations⟩ key :=
    fun key hkey => (hwatchdogs key hkey).append _
  obtain ⟨result, hresult, hkeys, hsteps⟩ := guard_all_ok hguarded
  refine ⟨result, ?_, ?_, hsteps⟩
  · rw [Effect.apply, hdeclared, ok_bind]
    exact hresult
  · rw [hkeys]
    simp [DeclarationTable.keys]

def RuleKind.opens : RuleKind → Bool
  | .ifStatement | .caseStatement | .initiateAndConfirmStepStatement => true
  | _ => false

section

variable {site : Site} {values : List Value} {effect : Effect}

variable (h : Does site values effect)

include h

theorem Does.declared_at {declaration : Declaration} (hmem : declaration ∈ effect.declarations) :
    (site.kind.isSimple = true ∨ site.kind.opens = true) ∧ ∃ pos, declaration.key ∈ keysAt pos ∧
      (pos = site.offset ∨ ∃ tag ∈ values.filterMap Value.caseTag?, tag.start = pos) := by
  have hown : statementKey site.offset ∈ keysAt site.offset := mem_cons_self
  cases h with
  | means | passes | collects => cases hmem
  | states hsimple =>
    cases mem_singleton.mp hmem
    exact ⟨.inl hsimple, site.offset, hown, .inl rfl⟩
  | decides hkind =>
    cases mem_singleton.mp hmem
    exact ⟨.inr (by rw [hkind]; rfl), site.offset, hown, .inl rfl⟩
  | runs hkind =>
    refine ⟨.inr (by rw [hkind]; rfl), site.offset, ?_, .inl rfl⟩
    simp only [Effect.declarations, map_cons, map_nil, mem_cons, not_mem_nil, or_false] at hmem
    rcases hmem with rfl | rfl
    · exact hown
    · exact mem_cons_of_mem _ (mem_singleton_self _)
  | @chooses subject branches otherwise hkind hbranches htags =>
    refine ⟨.inr (by rw [hkind]; rfl), ?_⟩
    obtain ⟨branch, rest, rfl⟩ := exists_cons_of_ne_nil hbranches
    have hkey := mem_map_of_mem (f := key) hmem
    rw [Effect.declarations, (keys_case_chain ..).1, mem_cons, mem_map] at hkey
    rcases hkey with hkey | ⟨other, hother, hkey⟩
    · exact ⟨site.offset, hkey ▸ hown, .inl rfl⟩
    · refine ⟨other.tag.start, hkey ▸ mem_cons_self, .inr ⟨other.tag, ?_, rfl⟩⟩
      rw [← htags]
      exact mem_map.mpr ⟨other, mem_cons_of_mem _ hother, rfl⟩

theorem Does.declared_nodup (hascend : (values.filterMap Value.caseTag?).Pairwise (·.start < ·.start))
    (hbehind : site.kind.opens = true → ∀ tag ∈ values.filterMap Value.caseTag?, site.offset < tag.start) :
    (effect.declarations.map key).Nodup := by
  cases h with
  | means | passes | collects => exact nodup_nil
  | states | decides => exact nodup_singleton _
  | runs =>
    refine nodup_cons.mpr ⟨fun hmem => ?_, nodup_singleton _⟩
    exact statement_key_ne_class _ _ (mem_singleton.mp hmem)
  | @chooses subject branches otherwise hkind hbranches htags =>
    obtain ⟨branch, rest, rfl⟩ := exists_cons_of_ne_nil hbranches
    have hopens : site.kind.opens = true := by rw [hkind]; rfl
    rw [← htags, map_cons, pairwise_cons, pairwise_map] at hascend
    rw [Effect.declarations, (keys_case_chain ..).1, nodup_cons]
    constructor
    · intro hmem
      obtain ⟨other, hother, hkey⟩ := mem_map.mp hmem
      have hlater := hbehind hopens other.tag
        (htags ▸ mem_map.mpr ⟨other, mem_cons_of_mem _ hother, rfl⟩)
      have := statement_key_inj hkey
      omega
    · rw [List.Nodup, pairwise_map]
      refine hascend.2.imp fun hlt hkey => ?_
      have := statement_key_inj hkey
      omega

theorem Does.watchdog_mem {key : String}
    (hmem : key ∈ effect.watchdogs) : site.kind = .watchdogBody ∧ key ∈ keysOf values := by
  cases h with
  | collects _ _ hwatchdogs =>
    rcases hwatchdogs with rfl | ⟨hkind, rfl⟩
    · cases hmem
    · exact ⟨hkind, hmem⟩
  | _ => cases hmem

theorem Does.step_declared (hkind : site.kind = .initiateAndConfirmStepStatement) :
    effect.value = .key (statementKey site.offset) ∧ ∃ stepClass continuation more,
      effect.declarations = .statement (statementKey site.offset)
        (.initiateAndConfirmStep stepClass false continuation) :: more := by
  cases h with
  | runs => exact ⟨rfl, _, _, _, rfl⟩
  | means hother => simp [hkind, RuleKind.isSilent] at hother
  | passes hother => simp [hkind, RuleKind.isWrapper] at hother
  | collects hother => simp [hkind, RuleKind.isContainer] at hother
  | states hother => simp [hkind, RuleKind.isSimple] at hother
  | decides hother | chooses hother => simp [hkind] at hother

end

end FlightProcedure
