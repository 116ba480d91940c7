import FlightProcedure.Proofs.Procedure.Closure

/-!
# Nothing that is declared is lost

`Tied declarations pending` says that every declared statement is listed once or waits to be listed, and
that references lead from the waiting keys to every declaration. A node keeps it if it loses no key of its
children. Read `Tied.rooted` first: a procedure whose class lists all keys that wait at the end is a tree
of references.
-/

namespace FlightProcedure

open List Declaration

/-- The declarations made so far and the keys that wait to be listed: each statement is listed or waits
once, and everything can be reached from what waits. -/
structure Tied (declarations : List Declaration) (pending : List String) : Prop where
  count_eq : ∀ key, (declarations.flatMap listed ++ pending).count key =
    (declarations.filterMap statementKey?).count key
  reached : ∀ declaration ∈ declarations, ReachedFrom declarations pending declaration.key

/-- Each of the declarations is among the others, at least as far as its key and its references go. -/
def FoundIn (others declarations : List Declaration) : Prop :=
  ∀ declaration ∈ declarations, ∃ other ∈ others,
    other.key = declaration.key ∧ other.references = declaration.references

section

variable {declarations others : List Declaration} {roots more : List String} {key : String}

theorem ReachedFrom.follow {declaration : Declaration} (hfound : FoundIn others declarations)
    (hmem : declaration ∈ declarations) (hreached : ReachedFrom others roots declaration.key)
    (hkey : key ∈ declaration.references) : ReachedFrom others roots key := by
  obtain ⟨other, hother, hsame, hreferences⟩ := hfound declaration hmem
  exact .reference hother (hsame ▸ hreached) (hreferences ▸ hkey)

theorem ReachedFrom.lift (hfound : FoundIn others declarations) (hroots : ∀ root ∈ roots, ReachedFrom others more root)
    (h : ReachedFrom declarations roots key) : ReachedFrom others more key := by
  induction h with
  | root hroot => exact hroots _ hroot
  | reference hdeclared _ hkey ih => exact ih.follow hfound hdeclared hkey

theorem found_in_of_outline (h : others.map outline = declarations.map outline) :
    FoundIn others declarations := by
  intro declaration hmem
  have houtline : declaration.outline ∈ others.map outline := h ▸ mem_map_of_mem hmem
  obtain ⟨other, hother, hsame⟩ := mem_map.mp houtline
  refine ⟨other, hother, ?_, ?_⟩
  · rw [← other.key_outline, hsame, declaration.key_outline]
  · rw [references, references, ← other.step_class_outline,
      ← other.listed_outline, hsame, declaration.step_class_outline, declaration.listed_outline]

theorem case_chain_reached {subject : Expr} {otherwise : List String} {offset : Nat}
    {branch : CaseBranch} {rest : List CaseBranch}
    (hfound : FoundIn others ((caseChain subject otherwise offset (branch :: rest)).map (·.declaration)))
    (hfirst : ReachedFrom others roots (statementKey offset)) :
    (∀ declaration ∈ (caseChain subject otherwise offset (branch :: rest)).map (·.declaration),
        ReachedFrom others roots declaration.key) ∧
      ∀ key ∈ (branch :: rest).flatMap (·.statements) ++ otherwise, ReachedFrom others roots key := by
  induction rest generalizing offset branch with
  | nil =>
    refine ⟨fun declaration hmem => ?_, fun key hkey => ?_⟩
    · cases mem_singleton.mp hmem
      exact hfirst
    · exact hfirst.follow hfound (mem_singleton_self _)
        (by simpa [references, stepClass?, listed] using hkey)
  | cons next rest ih =>
    simp only [caseChain, map_cons] at hfound ⊢
    have hnext : ReachedFrom others roots (statementKey next.tag.start) :=
      hfirst.follow hfound mem_cons_self
        (by simp [references, listed])
    obtain ⟨hdeclared, hlisted⟩ := ih
      (fun declaration hmem => hfound declaration (mem_cons_of_mem _ hmem)) hnext
    refine ⟨fun declaration hmem => ?_, fun key hkey => ?_⟩
    · rcases mem_cons.mp hmem with rfl | hmem
      · exact hfirst
      · exact hdeclared declaration hmem
    · rw [flatMap_cons, append_assoc, mem_append] at hkey
      rcases hkey with hkey | hkey
      · exact hfirst.follow hfound mem_cons_self
          (by simp [references, listed, hkey])
      · exact hlisted key hkey

end

section

variable {site : Site} {values : List Value} {effect : Effect}

theorem Does.reached (h : Does site values effect) (hkeeps : Keeps site values)
    {others : List Declaration} {roots : List String} (hfound : FoundIn others effect.declarations)
    (hroots : ∀ key ∈ effect.value.keys, ReachedFrom others roots key) :
    (∀ declaration ∈ effect.declarations, ReachedFrom others roots declaration.key) ∧
      ∀ key ∈ keysOf values, ReachedFrom others roots key := by
  cases h with
  | means hsilent _ =>
    rw [hkeeps.silent hsilent]
    simp [Effect.declarations, Effect.ofValue]
  | passes _ hvalues =>
    rw [hvalues]
    simpa [Effect.declarations, Effect.ofValue] using hroots
  | collects _ hkeys =>
    rw [← hkeys]
    exact ⟨by simp [Effect.declarations], hroots⟩
  | states _ _ hkeys =>
    rw [hkeys]
    simpa [Effect.declarations, Effect.ofStatement, key, Value.keys] using hroots
  | decides _ hkeys =>
    have hself := hroots _ (mem_singleton_self (statementKey site.offset))
    refine ⟨by simpa [Effect.declarations, Effect.ofStatement, key] using hself, fun key hkey => ?_⟩
    refine hself.follow hfound (mem_singleton_self _) ?_
    simpa [references, stepClass?, listed, hkeys] using hkey
  | runs _ hkeys =>
    have hself := hroots _ (mem_singleton_self (statementKey site.offset))
    have hclass : ReachedFrom others roots (stepClassName (statementKey site.offset)) :=
      hself.follow hfound mem_cons_self (by simp [references, stepClass?])
    refine ⟨fun declaration hmem => ?_, fun key hkey => ?_⟩
    · simp only [Effect.declarations, map_cons, map_nil, mem_cons, not_mem_nil, or_false] at hmem
      rcases hmem with rfl | rfl
      · exact hself
      · exact hclass
    · refine hclass.follow hfound (mem_cons_of_mem _ (mem_singleton_self _)) ?_
      simpa [references, stepClass?, listed, StepClass.listed, hkeys] using hkey
  | chooses hkind hbranches _ _ hall =>
    obtain ⟨branch, rest, rfl⟩ := exists_cons_of_ne_nil hbranches
    rw [← hall (hkeeps.marks hkind)]
    exact case_chain_reached hfound (hroots _ (mem_singleton_self _))

theorem Tied.apply {table result : DeclarationTable} {pending : List String}
    (hdoes : Does site values effect) (hkeeps : Keeps site values)
    (hnodup : (table.entries.map key).Nodup)
    (htied : Tied table.entries (keysOf values ++ pending))
    (h : effect.apply site table = .ok result) :
    Tied result.entries (effect.value.keys ++ pending) := by
  obtain ⟨-, houtline⟩ := Effect.apply_eq_ok hnodup h
  have hfound := found_in_of_outline houtline
  have hroots : ∀ key ∈ effect.value.keys, ReachedFrom result.entries (effect.value.keys ++ pending) key :=
    fun key hkey => .root (mem_append_left _ hkey)
  obtain ⟨hdeclared, hcarried⟩ := hdoes.reached hkeeps
    (fun declaration hmem => hfound declaration (mem_append_right _ hmem)) hroots
  constructor
  · intro key
    rw [flatMap_def, map_of_outline listed_outline houtline, ← flatMap_def,
      filter_map_of_outline statement_key_outline houtline]
    have hbefore := htied.count_eq key
    have hnode := (hdoes.count_listed key).2 hkeeps
    simp only [flatMap_append, filterMap_append, count_append] at hbefore hnode ⊢
    omega
  · intro declaration hmem
    -- Up to its mark the declaration was there before, or it is one that the node makes.
    obtain ⟨other, hother, hkey, -⟩ := found_in_of_outline houtline.symm declaration hmem
    rw [← hkey]
    rcases mem_append.mp hother with hother | hother
    · refine (htied.reached other hother).lift
        (fun declaration hmem => hfound declaration (mem_append_left _ hmem)) fun root hroot => ?_
      rcases mem_append.mp hroot with hroot | hroot
      · exact hcarried root hroot
      · exact .root (mem_append_right _ hroot)
    · exact hdeclared other hother

end

theorem Tied.rooted {procedure : Procedure} (hlinked : Linked procedure.declarations procedure.main.listed)
    (h : Tied procedure.declarations procedure.main.listed) : procedure.Rooted where
  listed_once key statement hmem := by
    have hle := hlinked.statement_key_count_le key
    have hpos := count_pos_iff.mpr (mem_statement_keys.mpr ⟨statement, hmem⟩)
    rw [Procedure.listed, h.count_eq key]
    omega
  named_once definition hmem := by
    have hname : ∀ declaration name, className? declaration = some name → name = declaration.key := by
      rintro (_ | _) name ⟨⟩
      rfl
    have hle := nodup_iff_count_le_one.mp
      (hlinked.nodup.sublist (filter_map_sublist_keys hname _)) definition.name
    have hpos := count_pos_iff.mpr (mem_class_names.mpr ⟨definition, hmem, rfl⟩)
    rw [hlinked.classes]
    omega
  reached := h.reached

end FlightProcedure
