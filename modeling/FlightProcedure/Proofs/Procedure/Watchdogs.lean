import FlightProcedure.Proofs.Procedure.Declaring

/-!
# Which statements are watchdogs

A statement becomes a watchdog when its key is put into a watchdog body, and it stays one. Since a key is
carried by one meaning at a time, the key of a watchdog is in no other body and in no conditional.
`Watched declarations pending` says this of the declarations made so far and of the meanings that wait to be
used, and `value_watched` that reading a tree keeps it.
-/

namespace FlightProcedure

open List Declaration

/-- The key is listed in a watchdog body, of the procedure or of a step. -/
def Procedure.Guards (procedure : Procedure) (key : String) : Prop :=
  ∃ definition, (definition = procedure.main ∨ step definition ∈ procedure.declarations) ∧
    ∃ body ∈ definition.bodies, body.kind = .watchdog ∧ key ∈ body.statements

def StatementList.marks (body : StatementList) : List (Bool × String) := body.statements.map (body.kind == .watchdog, ·)

/-- The keys that a meaning carries, each with whether it is in a watchdog body. -/
def Value.marks : Value → List (Bool × String)
  | .key found => [(false, found)]
  | .body found => found.marks
  | .bodies found => found.flatMap (·.marks)
  | .procedure main => main.bodies.flatMap (·.marks)
  | _ => []

def Declaration.marks : Declaration → List (Bool × String)
  | .step definition => definition.bodies.flatMap (·.marks)
  | declaration => declaration.listed.map (false, ·)

def marksOf (declarations : List Declaration) (pending : List Value) : List (Bool × String) :=
  declarations.flatMap marks ++ pending.flatMap Value.marks

def Flagged (declarations : List Declaration) (key : String) : Prop :=
  ∃ stepClass continuation, statement key (.initiateAndConfirmStep stepClass true continuation) ∈ declarations

/-- What is in a watchdog body is a watchdog, and what is elsewhere is none. -/
def Watched (declarations : List Declaration) (pending : List Value) : Prop :=
  ∀ guarded key, (guarded, key) ∈ marksOf declarations pending → (guarded = true ↔ Flagged declarations key)

theorem Value.marks_keys (value : Value) : value.marks.map Prod.snd = value.keys := by
  cases value <;> simp [marks, keys, StatementList.marks, StepClass.listed, map_flatMap, Function.comp_def]

theorem Declaration.marks_listed (declaration : Declaration) : declaration.marks.map Prod.snd = declaration.listed := by
  cases declaration with
  | statement key statement => simp [marks, Function.comp_def]
  | step definition => simp [marks, listed, StatementList.marks, StepClass.listed, map_flatMap, Function.comp_def]

theorem Declaration.marks_outline (declaration : Declaration) : declaration.outline.marks = declaration.marks := by
  unfold outline
  split <;> rfl

variable {key : String} {procedure : Procedure}

theorem mem_marks_keys {declarations : List Declaration} {values : List Value} :
    (∃ guarded, (guarded, key) ∈ marksOf declarations values) ↔
      key ∈ declarations.flatMap listed ++ keysOf values := by
  have hkeys : (marksOf declarations values).map Prod.snd = declarations.flatMap listed ++ keysOf values := by
    simp [marksOf, keysOf, map_flatMap, Value.marks_keys, marks_listed]
  simp [← hkeys]

/-! ## One node -/

section

variable {name key : String} {site : Site} {values : List Value} {effect : Effect} {guarded : Bool}

theorem if_parts_plain {parts result : IfParts} (h : ifParts site parts values = .ok result) :
    ∀ value ∈ values, value.marks = value.keys.map (false, ·) := by
  induction values generalizing parts with
  | nil => nofun
  | cons value values ih =>
    cases value <;> simp only [ifParts] at h <;> try cases h
    case expr | key | token =>
      split at h <;> first | cases h | exact forall_mem_cons.mpr ⟨rfl, ih h⟩

theorem case_parts_plain {parts result : CaseParts} (h : caseParts site parts values = .ok result) :
    ∀ value ∈ values, value.marks = value.keys.map (false, ·) := by
  induction values generalizing parts with
  | nil => nofun
  | cons value values ih =>
    cases value <;> simp only [caseParts] at h <;> try cases h
    case caseTag => exact forall_mem_cons.mpr ⟨rfl, ih h⟩
    case expr | key | token =>
      split at h <;> first | cases h | exact forall_mem_cons.mpr ⟨rfl, ih h⟩

/-- Where a node may leave a key: where its children carry it, in a conditional or in its meaning if it is a key
of its own, or in its watchdog body. -/
def Effect.Leaves (effect : Effect) (values : List Value) (guarded : Bool) (key : String) : Prop :=
  effect.watchdogs = [] ∧ ((guarded, key) ∈ marksOf [] values ∨
      guarded = false ∧ key ∈ effect.declarations.map Declaration.key) ∨
    guarded = true ∧ key ∈ effect.watchdogs

theorem Does.leaves_plain (h : Does site values effect) (hplain : ∀ value ∈ values, value.marks = value.keys.map (false, ·))
    (hclasses : effect.declarations.filterMap Declaration.className? = [])
    (heffect : effect.watchdogs = [] ∧ effect.value.marks = effect.value.keys.map (false, ·))
    (hmark : (guarded, key) ∈ marksOf effect.declarations [effect.value]) : effect.Leaves values guarded key := by
  have hfalse : guarded = false := by
    simp only [marksOf, flatMap_singleton, mem_append, mem_flatMap, heffect.2, mem_map] at hmark
    rcases hmark with ⟨declaration, hmem, hmark⟩ | ⟨_, -, hmark⟩
    · have hstatement := filterMap_eq_nil_iff.mp hclasses declaration hmem
      cases declaration <;> cases hstatement
      obtain ⟨_, -, hmark⟩ := mem_map.mp hmark
      cases hmark
      rfl
    · cases hmark
      rfl
  subst hfalse
  have hlisted := mem_marks_keys.mp ⟨_, hmark⟩
  rw [keys_of_cons, keys_of_nil, append_nil] at hlisted
  have hcount := Nat.lt_of_lt_of_le (count_pos_iff.mpr hlisted) (h.count_listed key).1
  refine .inl ⟨heffect.1, (mem_append.mp (count_pos_iff.mp hcount)).imp (fun hkey => ?_) fun hkey => ⟨rfl, ?_⟩⟩
  · obtain ⟨value, hvalue, hkey⟩ := mem_flatMap.mp hkey
    refine mem_flatMap.mpr ⟨value, hvalue, ?_⟩
    rw [hplain value hvalue]
    exact mem_map_of_mem hkey
  · exact (statement_keys_sublist _).subset hkey

theorem collects_leaves (hcontainer : site.kind.isContainer = true) (h : action name site values = .ok effect)
    (hmark : (guarded, key) ∈ effect.value.marks) : effect.Leaves values guarded key := by
  have hbodies : ∀ {bodies}, site.bodies values = .ok bodies → values.flatMap Value.marks = bodies.flatMap (·.marks) :=
    flat_map_of_take_all fun value found hpick => by cases value <;> cases hpick; rfl
  have hkeys : ∀ {keys}, site.keys values = .ok keys → values.flatMap Value.marks = keys.map (false, ·) := by
    intro keys hfound
    rw [map_eq_flatMap]
    exact flat_map_of_take_all (fun value found hpick => by cases value <;> cases hpick; rfl) hfound
  obtain ⟨kind, offset⟩ := site
  cases kind <;> first | (cases hcontainer; done) | skip
  case procedureDefinition | stepDefinition =>
    obtain ⟨bodies, hfound, h⟩ := bind_eq_ok h
    cases h
    refine .inl ⟨rfl, .inl ?_⟩
    rw [marksOf, hbodies hfound]
    exact hmark
  case watchdogBody =>
    obtain ⟨keys, hfound, h⟩ := bind_eq_ok h
    cases h
    obtain ⟨_, hkey, hmark⟩ := mem_map.mp hmark
    cases hmark
    exact .inr ⟨rfl, hkey⟩
  all_goals
    obtain ⟨keys, hfound, h⟩ := bind_eq_ok h
    cases h
    refine .inl ⟨rfl, .inl ?_⟩
    rw [marksOf, hkeys hfound]
    exact hmark

theorem action_leaves (h : action name site values = .ok effect)
    (hmark : (guarded, key) ∈ marksOf effect.declarations [effect.value]) : effect.Leaves values guarded key := by
  have hdoes := action_does h
  cases action_does h with
  | @means value hsilent hkeys =>
    have hnone := mem_marks_keys.mp ⟨_, hmark⟩
    simp [Effect.declarations, Effect.ofValue, hkeys] at hnone
  | passes hwrapper hvalues => exact .inl ⟨rfl, .inl (hvalues ▸ hmark)⟩
  | collects hcontainer => exact collects_leaves hcontainer h (by simpa [marksOf, Effect.declarations] using hmark)
  | states hsimple hlisted hkeys =>
    refine hdoes.leaves_plain (fun value hvalue => ?_) rfl ⟨rfl, rfl⟩ hmark
    have hnone := flatMap_eq_nil_iff.mp hkeys value hvalue
    have hmarks := value.marks_keys
    rw [hnone, map_eq_nil_iff] at hmarks
    rw [hnone, hmarks, map_nil]
  | decides hkind =>
    obtain ⟨kind, offset⟩ := site
    cases hkind
    obtain ⟨parts, hparts, -⟩ := bind_eq_ok h
    exact hdoes.leaves_plain (if_parts_plain hparts) rfl ⟨rfl, rfl⟩ hmark
  | @runs bodies continuation hkind =>
    obtain ⟨kind, offset⟩ := site
    cases hkind
    obtain ⟨⟨_, rest⟩, hname, h⟩ := bind_eq_ok h
    obtain ⟨⟨_, others⟩, hbodies, h⟩ := bind_eq_ok h
    obtain ⟨⟨⟩, -, h⟩ := bind_eq_ok h
    cases h
    obtain ⟨first, rfl, -⟩ := take_eq_ok hname
    obtain ⟨value, rfl, hpick⟩ := take_eq_ok hbodies
    cases value <;> cases hpick
    refine .inl ⟨rfl, ?_⟩
    rcases mem_append.mp hmark with hmark | hmark
    · have hmark : (guarded, key) ∈ bodies.flatMap (·.marks) := by
        simpa [Effect.declarations, Declaration.marks, Declaration.listed] using hmark
      exact .inl (mem_append_right first.marks (mem_append_left _ hmark))
    · cases mem_singleton.mp hmark
      exact .inr ⟨rfl, mem_cons_self⟩
  | @chooses subject branches otherwise hkind =>
    obtain ⟨kind, offset⟩ := site
    cases hkind
    obtain ⟨parts, hparts, -⟩ := bind_eq_ok h
    exact hdoes.leaves_plain (case_parts_plain hparts) (classes_case_chain ..).2 ⟨rfl, rfl⟩ hmark

end

/-! ## The table of declarations -/

section

variable {site : Site} {values pending others : List Value} {effect : Effect} {table result : DeclarationTable}
  {declarations : List Declaration} {name key : String}

theorem DeclarationTable.flagged_mark_watchdog {other : String} (h : table.markWatchdog? key = some result) :
    Flagged result.entries other ↔ Flagged table.entries other ∨ other = key := by
  obtain ⟨stepClass, watchdog, continuation, hmem, hentries⟩ := mark_watchdog_eq_some h
  rw [Flagged, hentries]
  constructor
  · rintro ⟨otherClass, otherTest, hflag⟩
    obtain ⟨entry, hentry, heq⟩ := mem_map.mp hflag
    split at heq
    · cases heq
      exact .inr rfl
    · exact .inl ⟨otherClass, otherTest, heq ▸ hentry⟩
  · intro hflag
    by_cases hother : other = key
    · exact ⟨stepClass, continuation, mem_map.mpr ⟨_, hmem, by simp [Declaration.key, hother]⟩⟩
    · obtain ⟨otherClass, otherTest, hflag⟩ := hflag.resolve_right hother
      exact ⟨otherClass, otherTest, mem_map.mpr ⟨_, hflag, by simp [Declaration.key, hother]⟩⟩

theorem DeclarationTable.flagged_guard_all {keys : List String} (h : keys.foldlM (guard site) table = .ok result) :
    Flagged result.entries key ↔ Flagged table.entries key ∨ key ∈ keys := by
  induction keys generalizing table with
  | nil =>
    cases h
    simp
  | cons first rest ih =>
    rw [foldlM_cons] at h
    obtain ⟨next, hnext, hrest⟩ := bind_eq_ok h
    rw [ih hrest, flagged_mark_watchdog (guard_eq_ok hnext), mem_cons, or_assoc]

theorem Does.not_flagged (h : Does site values effect) : ¬ Flagged effect.declarations key := by
  rintro ⟨stepClass, continuation, hmem⟩
  cases h with
  | means | passes | collects => cases hmem
  | states hsimple hlisted =>
    cases mem_singleton.mp hmem
    cases hlisted (statementKey site.offset)
  | decides => cases mem_singleton.mp hmem
  | runs => simp [Effect.declarations] at hmem
  | @chooses subject branches otherwise =>
    have hclasses := (classes_case_chain subject otherwise site.offset branches).1
    cases filterMap_eq_nil_iff.mp hclasses _ hmem

theorem flagged_apply (hdoes : Does site values effect) (hnodup : (table.entries.map Declaration.key).Nodup)
    (h : effect.apply site table = .ok result) :
    Flagged result.entries key ↔ Flagged table.entries key ∨ key ∈ effect.watchdogs := by
  obtain ⟨declared, hdeclared, hguarded⟩ := bind_eq_ok h
  rw [DeclarationTable.flagged_guard_all hguarded]
  refine or_congr_left ?_
  rw [Flagged, (DeclarationTable.declare_all_eq_ok hnodup hdeclared).2]
  simp only [mem_append, exists_or]
  exact or_iff_left hdoes.not_flagged

/-! ## Reading a tree -/

theorem Watched.mono (h : Watched declarations pending) (hothers : others ⊆ pending) : Watched declarations others := by
  intro guarded key hmark
  refine h guarded key (mem_append.mpr ((mem_append.mp hmark).imp_right fun hmark => ?_))
  obtain ⟨value, hvalue, hmark⟩ := mem_flatMap.mp hmark
  exact mem_flatMap.mpr ⟨value, hothers hvalue, hmark⟩

theorem Watched.apply (hwatched : Watched table.entries (values ++ pending))
    (hlinked : Linked table.entries (keysOf values ++ keysOf pending))
    (haction : action name site values = .ok effect) (h : effect.apply site table = .ok result) :
    Watched result.entries (effect.value :: pending) := by
  have hdoes := action_does haction
  obtain ⟨hnodup, houtline⟩ := Effect.apply_eq_ok hlinked.nodup h
  have hmarks : ∀ mark, mark ∈ marksOf result.entries (effect.value :: pending) →
      mark ∈ marksOf effect.declarations [effect.value] ∨ mark ∈ marksOf table.entries pending := by
    intro mark hmark
    rw [marksOf, flatMap_def, map_of_outline Declaration.marks_outline houtline, ← flatMap_def] at hmark
    simp only [marksOf, flatMap_append, flatMap_cons, flatMap_nil, append_nil, mem_append] at hmark ⊢
    tauto
  have hbefore : ∀ mark, mark ∈ marksOf [] values ∨ mark ∈ marksOf table.entries pending →
      mark ∈ marksOf table.entries (values ++ pending) := by
    intro mark hmark
    simp only [marksOf, flatMap_append, flatMap_nil, nil_append, mem_append] at hmark ⊢
    tauto
  intro guarded key hmark
  rw [flagged_apply hdoes hlinked.nodup h]
  rcases hmarks _ hmark with hmark | hmark
  · rcases action_leaves haction hmark with ⟨hnone, hmark | ⟨rfl, hkey⟩⟩ | ⟨rfl, hkey⟩
    · rw [hwatched guarded key (hbefore _ (.inl hmark)), hnone]
      simp
    · -- A node declares fresh keys only.
      simp only [hnone, not_mem_nil, or_false, Bool.false_eq_true, false_iff]
      rintro ⟨stepClass, continuation, hmem⟩
      rw [map_append] at hnodup
      exact (nodup_append.mp hnodup).2.2 key (mem_map.mpr ⟨_, hmem, rfl⟩) key hkey rfl
    · exact ⟨fun _ => .inr hkey, fun _ => rfl⟩
  · rw [hwatched guarded key (hbefore _ (.inr hmark))]
    refine ⟨.inl, fun hflag => hflag.resolve_right fun hkey => ?_⟩
    -- The key waits in the watchdog body, so it is nowhere else.
    have hcount := Nat.le_trans (hlinked.count_le key) (hlinked.statement_key_count_le key)
    have hbody := count_pos_iff.mpr (hdoes.watchdog_mem hkey).2
    have hother := count_pos_iff.mpr (mem_marks_keys.mp ⟨_, hmark⟩)
    simp only [count_append] at hcount hother
    omega

end

theorem value_watched {name : String} {tree : Tree} {table result : DeclarationTable} {value : Value}
    {pending : List Value} (h : valueOf name tree table = .ok (value, result))
    (hlinked : Linked table.entries (keysOf pending)) (hwatched : Watched table.entries pending) :
    Watched result.entries (value :: pending) := by
  induction tree using Tree.rec (motive_2 := fun trees => ∀ {table result : DeclarationTable}
      {values pending : List Value}, valuesOf name trees table = .ok (values, result) →
      Linked table.entries (keysOf pending) → Watched table.entries pending → Watched result.entries (values ++ pending))
    generalizing table result value pending with
  | leaf =>
    cases h
    exact hwatched
  | node _ _ _ _ ih =>
    obtain ⟨kind, values, between, effect, _, hvalues, haction, happly, rfl⟩ := value_of_node h
    exact (ih hvalues hlinked hwatched).apply (values_linked hvalues hlinked) haction happly
  | nil h _ hwatched =>
    cases h
    exact hwatched
  | cons tree trees ih ihs h hlinked hwatched =>
    obtain ⟨value, between, others, hvalue, hothers, rfl⟩ := values_of_cons h
    have hbetween : Linked between.entries (keysOf (value :: _)) := value_linked hvalue hlinked
    have hrest := ihs hothers hbetween (ih hvalue hlinked hwatched)
    exact hrest.mono fun other hother => by
      simp only [cons_append, mem_cons, mem_append] at hother ⊢
      tauto

theorem of_tree_watched {name : String} {tree : Tree}
    (h : Procedure.ofTree name tree = .ok procedure) : Watched procedure.declarations [.procedure procedure.main] := by
  obtain ⟨table, hvalue, hentries⟩ := of_tree_eq_ok h
  have hlinked : Linked ({} : DeclarationTable).entries [] := ⟨nodup_nil, fun _ => Nat.le_refl _, rfl⟩
  have hwatched : Watched ({} : DeclarationTable).entries [] := nofun
  rw [hentries]
  exact value_watched hvalue hlinked hwatched

theorem Procedure.guards_iff : procedure.Guards key ↔
    (true, key) ∈ marksOf procedure.declarations [.procedure procedure.main] := by
  have hbodies : ∀ bodies : List StatementList, (true, key) ∈ bodies.flatMap (·.marks) ↔
      ∃ body ∈ bodies, body.kind = .watchdog ∧ key ∈ body.statements := by
    intro bodies
    simp [StatementList.marks, and_comm]
  simp only [marksOf, flatMap_singleton, Value.marks, mem_append, hbodies]
  constructor
  · rintro ⟨definition, rfl | hmem, hbody⟩
    · exact .inr hbody
    · exact .inl (mem_flatMap.mpr ⟨_, hmem, (hbodies definition.bodies).mpr hbody⟩)
  · rintro (hkey | hbody)
    · obtain ⟨declaration, hmem, hkey⟩ := mem_flatMap.mp hkey
      cases declaration with
      | statement other statement => simp [marks] at hkey
      | step definition => exact ⟨definition, .inr hmem, (hbodies definition.bodies).mp hkey⟩
    · exact ⟨procedure.main, .inl rfl, hbody⟩

theorem Watched.guards_iff
    (h : Watched procedure.declarations [.procedure procedure.main]) (hlisted : key ∈ procedure.listed) :
    procedure.Guards key ↔ Flagged procedure.declarations key := by
  rw [Procedure.guards_iff]
  refine ⟨fun hmark => (h true key hmark).mp rfl, fun hflag => ?_⟩
  have hkeys : key ∈ procedure.declarations.flatMap listed ++ keysOf [.procedure procedure.main] := by
    simpa [Procedure.listed, Value.keys] using hlisted
  obtain ⟨guarded, hmark⟩ := mem_marks_keys.mpr hkeys
  rwa [(h guarded key hmark).mpr hflag] at hmark

end FlightProcedure
