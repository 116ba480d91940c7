import FlightProcedure.Proofs.Command.SourceLists
import FlightProcedure.Proofs.Files.Lookup

/-!
# What compiling does to files

Settings, grammars and sources are only read, and the directory for the scripts is made before the first
procedure is compiled. From then on each procedure changes at most the file that its script is written
to, so every file stays as it is unless the target of a selected procedure leads to it:
`compile_changes_only_targets`. Nothing keeps a target from being a source: a source that already has the
extension of scripts is its own target.
-/

namespace FlightProcedure

open List FileTree

theorem session_load_reads (config : Option Path) (path : Path) : Changes Eq (Session.load config path) := by
  have hcanonical (path : Path) : Changes Eq (Files.canonical path) := fun _ => rfl
  unfold Session.load Session.startDirectory Settings.load Settings.discover Settings.loadFrom Settings.loadFile
    Settings.grammarTexts Settings.grammarText
  repeat' first
    | exact .pure _
    | exact kind_reads _
    | exact read_text_reads _
    | exact hcanonical _
    | exact first_file_reads _
    | refine .bind ?_ fun _ => ?_
    | split

theorem find_sources_reads (request : CompileRequest) : Changes Eq request.findSources := by
  have hfrom (paths : List Path) : Changes Eq (sourcesFrom paths) := fun tree => by rw [sources_from_run]
  unfold CompileRequest.findSources sources
  repeat' first
    | exact .pure _
    | exact hfrom _
    | refine .bind ?_ fun _ => ?_
    | split

variable {job : Job} {targets : List Path}

theorem compile_rewrites {source : Path} (h : job.stdout = false → job.target source ∈ targets) :
    Changes (Rewrites targets) (job.compile source) := by
  refine .bind (fun tree => refl_of _ tree) fun text => ?_
  split
  · exact .pure _
  split
  · exact .pure _
  split
  · exact .pure _
  · next hstdout =>
    refine .bind (.change fun tree after hwrite => ?_) fun written => ?_
    · obtain ⟨place, hplace, hwrite⟩ := bind_eq_ok hwrite
      split at hwrite
      · cases hwrite
      · next hentry =>
        cases hwrite
        exact rewrites_set hentry (.inr ⟨_, h (Bool.eq_false_iff.mpr hstdout), hplace⟩)
    · cases written <;> exact .pure _

theorem compile_all_rewrites {sources : List Path}
    (h : ∀ source ∈ sources, job.stdout = false → job.target source ∈ targets) :
    Changes (Rewrites targets) (job.compileAll sources) := by
  induction sources with
  | nil => exact .pure _
  | cons source rest ih =>
    rw [forall_mem_cons] at h
    exact .bind (compile_rewrites h.1) fun _ => .bind (ih h.2) fun _ => .pure _

theorem make_output_rewrites (request : CompileRequest) (output : Option Path) :
    Changes (Rewrites targets) (request.makeOutput output) := by
  unfold CompileRequest.makeOutput
  split
  · refine .bind (make_directories_from_rewrites _ _) fun made => ?_
    cases made <;> exact .pure _
  · exact .pure _

/-- The targets of the selected procedures, if scripts are written to files. -/
def CompileRequest.selectedTargets (request : CompileRequest) (config : Option Path) (tree : FileTree) : List Path :=
  match ((Session.load config (request.paths.head?.getD ⟨"."⟩) : StateM FileTree _).run tree).1,
      ((request.findSources : StateM FileTree _).run tree).1, request.stdout with
  | .ok session, .ok found, false =>
    let output := request.output.orElse fun _ => session.settings.outputDirectory?
    found.map (Job.target { session, output, name := request.name, stdout := false })
  | _, _, _ => []

theorem run_rewrites (request : CompileRequest) (config : Option Path) (quiet colour : Bool) (tree : FileTree) :
    Rewrites (request.selectedTargets config tree) tree
      ((request.run config quiet colour : StateM FileTree _).run tree).2 := by
  unfold CompileRequest.run CompileRequest.selectedTargets
  cases hsession : ((Session.load config (request.paths.head?.getD ⟨"."⟩) : StateM FileTree _).run tree).1 with
  | error error =>
    rw [(session_load_reads config _).run_bind hsession]
    exact refl_of _ tree
  | ok session =>
    rw [(session_load_reads config _).run_bind hsession]
    dsimp only
    cases hfound : ((request.findSources : StateM FileTree _).run tree).1 with
    | error error =>
      rw [(find_sources_reads request).run_bind hfound]
      exact refl_of _ tree
    | ok found =>
      rw [(find_sources_reads request).run_bind hfound]
      dsimp only
      refine Changes.bind (make_output_rewrites request _) (fun made => ?_) tree
      cases made with
      | error error => exact .pure _
      | ok _ =>
        refine .bind (compile_all_rewrites fun source hsource hstdout => ?_) fun _ => .pure _
        have hstdout : request.stdout = false := hstdout
        rw [hstdout]
        exact mem_map_of_mem hsource

/-- A command changes nothing but this: it adds directories where nothing was, and it writes the scripts of
selected procedures to the places that their targets lead to. Whatever has been at another place is still
there, a selected procedure for one, and its path still leads there. -/
theorem compile_changes_only_targets (request : CompileRequest) (config : Option Path) (quiet colour : Bool)
    (tree : FileTree) :
    let after := ((request.run config quiet colour : StateM FileTree Report).run tree).2
    (∀ path place, tree.locate path = .ok place → after.locate path = .ok place) ∧
      ∀ place, after.get? place = tree.get? place ∨ tree.get? place = none ∨
        ∃ target ∈ request.selectedTargets config tree, after.locate target = .ok place := by
  have hrun := run_rewrites request config quiet colour tree
  exact ⟨fun _ _ => locate_kept hrun.working hrun.directory, hrun.entry⟩

end FlightProcedure
