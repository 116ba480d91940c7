import FlightProcedure.Proofs.Command.Preservation

/-!
# The order in which procedures are compiled

What becomes of a procedure depends on the locations that the paths to its source and to its target pass, and
it changes at most the one that its target leads to. If no procedure changes what another one passes
(`Job.Apart`), each does what it would do alone (`compile_all_alone`), so in every order they end with
the same outcomes, files and exit code: `compile_schedule_independent`.
-/

namespace FlightProcedure

open List FileTree

/-- The location that a path leads to, if it leads to one. -/
def FileTree.ends (tree : FileTree) (path : Path) : List Location := (tree.locate path).toOption.toList

namespace Job

/-- The locations that a procedure depends on. -/
def passed (job : Job) (tree : FileTree) (source : Path) : List Location :=
  [source, job.target source].flatMap fun path => tree.crossed path ++ tree.ends path

/-- A procedure does not write what another one passes. -/
def Apart (job : Job) (tree : FileTree) (source other : Path) : Prop :=
  ∀ place ∈ tree.ends (job.target source), place ∉ job.passed tree other

/-- What becomes of a procedure and of the files. -/
abbrev compiled (job : Job) (tree : FileTree) (source : Path) : Except CommandError Generated × FileTree :=
  (job.compile source : StateM FileTree _).run tree

end Job

variable {job : Job} {tree other : FileTree} {source path : Path} {sources : List Path} {place : Location}

theorem mem_ends : place ∈ tree.ends path ↔ tree.locate path = .ok place := by
  unfold ends
  cases tree.locate path <;> simp [Except.toOption, eq_comm]

theorem change_run_bind {α : Type} (f : FileTree → Except FileError FileTree)
    (next : Except FileError Unit → StateM FileTree α) (tree : FileTree) : (FileTree.change f >>= next).run tree =
      match f tree with
      | .ok after => (next (.ok ())).run after
      | .error error => (next (.error error)).run tree := by
  show (next (FileTree.change f tree).1).run (FileTree.change f tree).2 = _
  unfold FileTree.change
  cases f tree <;> rfl

/-- A procedure does what it would do alone, if nothing is changed that it passes. -/
theorem compile_alone (hworking : other.working = tree.working)
    (hsame : ∀ place ∈ job.passed tree source, other.get? place = tree.get? place) :
    (job.compiled other source).1 = (job.compiled tree source).1 ∧ ∀ place,
      (job.compiled other source).2.get? place =
        if place ∈ tree.ends (job.target source) then (job.compiled tree source).2.get? place else other.get? place := by
  have hends (path : Path) (hpath : path ∈ [source, job.target source]) : other.locate path = tree.locate path ∧
      ∀ place ∈ tree.ends path, other.get? place = tree.get? place :=
    ⟨locate_congr hworking fun place hplace => hsame place (mem_flatMap.mpr ⟨path, hpath, mem_append_left _ hplace⟩),
      fun place hplace => hsame place (mem_flatMap.mpr ⟨path, hpath, mem_append_right _ hplace⟩)⟩
  obtain ⟨htarget, hentry⟩ := hends (job.target source) (by simp)
  have hread : other.readText source = tree.readText source := by
    obtain ⟨hsource, hentry⟩ := hends source (by simp)
    unfold readText
    rw [hsource]
    cases hplace : tree.locate source with
    | error error => rfl
    | ok place => rw [ok_bind, ok_bind, hentry place (mem_ends.mpr hplace)]
  have hidle (place : Location) : other.get? place =
      if place ∈ tree.ends (job.target source) then tree.get? place else other.get? place := by
    split
    · exact hentry place (by assumption)
    · rfl
  unfold Job.compiled Job.compile
  rw [(read_text_reads source).run_bind hread, (read_text_reads source).run_bind (show _ = tree.readText source from rfl)]
  split
  · exact ⟨rfl, hidle⟩
  split
  · exact ⟨rfl, hidle⟩
  split
  · exact ⟨rfl, hidle⟩
  dsimp only [Files.writeText]
  rw [change_run_bind, change_run_bind]
  unfold writeText
  rw [htarget]
  cases hplace : tree.locate (job.target source) with
  | error error => exact ⟨rfl, hidle⟩
  | ok place =>
    rw [ok_bind, ok_bind, hentry place (mem_ends.mpr hplace)]
    have hset (hfile : tree.get? place ≠ some .directory) (entry : FileEntry) (key : Location) :
        (other.set place entry).get? key = if key ∈ tree.ends (job.target source) then (tree.set place entry).get? key
          else other.get? key := by
      rw [get_set (ne_root_of_get hfile), get_set (ne_root_of_get hfile)]
      simp only [mem_ends, hplace]
      by_cases hkey : key = place
      · simp [hkey]
      · simp [hkey, Ne.symm hkey]
    cases hget : tree.get? place with
    | none => exact ⟨rfl, hset (by simp [hget]) _⟩
    | some entry =>
      cases entry with
      | directory => exact ⟨rfl, hidle⟩
      | file content => exact ⟨rfl, hset (by simp [hget]) _⟩

/-- Procedures that are apart do one after the other what each would do alone. -/
theorem compile_all_alone (hworking : other.working = tree.working)
    (hsame : ∀ source ∈ sources, ∀ place ∈ job.passed tree source, other.get? place = tree.get? place)
    (hapart : sources.Pairwise fun source next => job.Apart tree source next ∧ job.Apart tree next source) :
    let run := (job.compileAll sources : StateM FileTree _).run other
    run.1 = sources.map (fun source => ⟨source, (job.compiled tree source).1⟩) ∧
      ∀ place, (∀ source ∈ sources, place ∈ tree.ends (job.target source) →
          run.2.get? place = (job.compiled tree source).2.get? place) ∧
        ((∀ source ∈ sources, place ∉ tree.ends (job.target source)) → run.2.get? place = other.get? place) := by
  induction sources generalizing other with
  | nil => exact ⟨rfl, fun place => ⟨nofun, fun _ => rfl⟩⟩
  | cons source rest ih =>
    rw [forall_mem_cons] at hsame
    rw [pairwise_cons] at hapart
    obtain ⟨hresult, hentry⟩ := compile_alone hworking hsame.1
    have hnext := (@compile_rewrites job [job.target source] source (by simp) other).working
    obtain ⟨houtcomes, hafter⟩ := ih (hnext.trans hworking) (fun next hmem place hplace => by
      rw [hentry, if_neg (fun hwritten => (hapart.1 next hmem).1 place hwritten hplace)]
      exact hsame.2 next hmem place hplace) hapart.2
    refine ⟨?_, fun place => ⟨forall_mem_cons.mpr ⟨fun hwritten => ?_, (hafter place).1⟩, fun hnone => ?_⟩⟩
    · rw [map_cons, ← hresult, ← houtcomes]
      rfl
    · refine ((hafter place).2 fun next hmem hagain => ?_).trans ((hentry place).trans (if_pos hwritten))
      exact (hapart.1 next hmem).2 place hagain (by simp [Job.passed, hwritten])
    · rw [forall_mem_cons] at hnone
      exact ((hafter place).2 hnone.2).trans ((hentry place).trans (if_neg hnone.1))

/-- The exit code says whether a procedure has failed. -/
theorem of_outcomes_code (quiet colour stdout : Bool) (outcomes : List Outcome) :
    (Report.ofOutcomes quiet colour stdout outcomes).code = if Report.failures outcomes = 0 then 0 else 1 := by
  have hfold (report : Report) : (outcomes.foldl (Report.addOutcome quiet colour) report).code = report.code := by
    induction outcomes generalizing report with
    | nil => rfl
    | cons outcome rest ih =>
      rw [foldl_cons, ih]
      unfold Report.addOutcome
      repeat' split
      all_goals rfl
  unfold Report.ofOutcomes
  dsimp only
  split
  · split <;> exact hfold {}
  · rfl

/-- Procedures that are apart have the same outcomes in every order, leave the same files and end with the same
exit code. -/
theorem compile_schedule_independent (job : Job) (tree : FileTree) (sources order : List Path)
    (hapart : sources.Pairwise fun source next => job.Apart tree source next ∧ job.Apart tree next source)
    (horder : order ~ sources) :
    let first := (job.compileAll sources : StateM FileTree _).run tree
    let second := (job.compileAll order : StateM FileTree _).run tree
    second.1 ~ first.1 ∧ (∀ place, second.2.get? place = first.2.get? place) ∧
      ∀ quiet colour, (Report.ofOutcomes quiet colour job.stdout second.1).code =
        (Report.ofOutcomes quiet colour job.stdout first.1).code := by
  intro first second
  have hrun (paths : List Path) (hpaths : paths ~ sources) := @compile_all_alone job tree tree paths rfl
    (fun _ _ _ _ => rfl) ((hpaths.pairwise_iff And.symm).mpr hapart)
  obtain ⟨⟨hfirst, hbefore⟩, hsecond, hafter⟩ := And.intro (hrun sources (.refl _)) (hrun order horder)
  have houtcomes : second.1 ~ first.1 := by
    rw [hfirst, hsecond]
    exact horder.map _
  refine ⟨houtcomes, fun place => ?_, fun quiet colour => ?_⟩
  · by_cases hwritten : ∃ source ∈ sources, place ∈ tree.ends (job.target source)
    · obtain ⟨source, hmem, hplace⟩ := hwritten
      exact ((hafter place).1 source (horder.mem_iff.mpr hmem) hplace).trans ((hbefore place).1 source hmem hplace).symm
    · push Not at hwritten
      exact ((hafter place).2 fun source hmem => hwritten source (horder.mem_iff.mp hmem)).trans
        ((hbefore place).2 hwritten).symm
  · rw [of_outcomes_code, of_outcomes_code, Report.failures, Report.failures, (houtcomes.filter _).length_eq]

/-- A job with a language in which every procedure is the letter `a`. -/
def letterJob : Job where
  session := ⟨{}, (Language.ofTexts ⟨"procedure_definition : \"a\"\n", "engineering_units : \"m\"\n"⟩).toOption.get
    (by decide +kernel)⟩
  output := none
  name := none
  stdout := false

theorem letters_in_reverse :
    let tree : FileTree := { entries := [(["x.pluto"], .file "a".toUTF8), (["y.pluto"], .file "a".toUTF8)] }
    let first := (letterJob.compileAll [⟨"x.pluto"⟩, ⟨"y.pluto"⟩] : StateM FileTree _).run tree
    let second := (letterJob.compileAll [⟨"y.pluto"⟩, ⟨"x.pluto"⟩] : StateM FileTree _).run tree
    second.1 ~ first.1 ∧ (∀ place, second.2.get? place = first.2.get? place) ∧
      ∀ quiet colour, (Report.ofOutcomes quiet colour letterJob.stdout second.1).code =
        (Report.ofOutcomes quiet colour letterJob.stdout first.1).code :=
  compile_schedule_independent letterJob _ _ _ (by unfold Job.Apart; decide +kernel) (.swap _ _ _)

end FlightProcedure
