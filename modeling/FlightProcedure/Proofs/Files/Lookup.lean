import FlightProcedure.Files.Access
import FlightProcedure.Proofs.Outcome
import Mathlib.Order.Defs.Unbundled

/-!
# Looking up and changing files

Where a path leads depends on the locations alone that it crosses (`locate_congr`), and a path that leads
somewhere crosses directories only. So a change that keeps the directories keeps where such paths lead
(`locate_kept`).
-/

namespace FlightProcedure

open List

namespace FileTree

variable {tree other after : FileTree} {location here place : Location} {path : Path} {pieces : List (List Char)}
  {targets : List Path}

theorem get_set (hroot : location ≠ []) (entry : FileEntry) (key : Location) :
    (tree.set location entry).get? key = if key = location then some entry else tree.get? key := by
  have hlookup (entries) : (setEntry location entry entries).lookup key =
      if key = location then some entry else entries.lookup key := by
    induction entries with
    | nil => by_cases h : key = location <;> simp [setEntry, lookup_cons, h, beq_false_of_ne]
    | cons first rest ih =>
      obtain ⟨name, old⟩ := first
      rw [setEntry]
      by_cases hname : name = location <;> by_cases h : key = name <;> simp_all [lookup_cons, beq_false_of_ne]
  unfold get? set
  by_cases hkey : key = []
  · simp [hkey, hroot.symm]
  · simp [hkey, hlookup]

theorem ne_root_of_get (h : tree.get? location ≠ some .directory) : location ≠ [] := by
  rintro rfl
  exact h rfl

/-- The locations from which the pieces of a path are followed. -/
def crossedFrom (tree : FileTree) : Location → List (List Char) → List Location
  | _, [] => []
  | here, piece :: rest =>
    here :: match tree.enter here piece with
      | .ok next => tree.crossedFrom next rest
      | .error _ => []

/-- The locations that a path crosses on its way to the one it leads to. -/
def crossed (tree : FileTree) (path : Path) : List Location :=
  tree.crossedFrom (if path.isAbsolute then [] else tree.working) path.pieces

theorem fold_enter_congr (h : ∀ place ∈ tree.crossedFrom here pieces, other.get? place = tree.get? place) :
    pieces.foldlM other.enter here = pieces.foldlM tree.enter here := by
  induction pieces generalizing here with
  | nil => rfl
  | cons piece rest ih =>
    have hsame : other.enter here piece = tree.enter here piece := by
      unfold enter
      rw [h here mem_cons_self]
    rw [foldlM_cons, foldlM_cons, hsame]
    cases hnext : tree.enter here piece with
    | error error => rfl
    | ok next =>
      refine ih fun place hplace => h place (mem_cons_of_mem _ ?_)
      rw [hnext]
      exact hplace

theorem locate_congr (hworking : other.working = tree.working)
    (h : ∀ place ∈ tree.crossed path, other.get? place = tree.get? place) :
    other.locate path = tree.locate path := by
  unfold locate locatePieces
  rw [hworking, fold_enter_congr h]

theorem directory_of_crossed (h : pieces.foldlM tree.enter here = .ok location)
    (hplace : place ∈ tree.crossedFrom here pieces) : tree.get? place = some .directory := by
  induction pieces generalizing here with
  | nil => cases hplace
  | cons piece rest ih =>
    rw [foldlM_cons] at h
    obtain ⟨next, hnext, h⟩ := bind_eq_ok h
    rw [crossedFrom, hnext] at hplace
    rcases mem_cons.mp hplace with rfl | hplace
    · unfold enter at hnext
      split at hnext
      · cases hnext
      · cases hnext
      · assumption
    · exact ih h hplace

theorem locate_kept (hworking : after.working = tree.working)
    (hdirectory : ∀ place, tree.get? place = some .directory → after.get? place = some .directory)
    (h : tree.locate path = .ok location) : after.locate path = .ok location := by
  rw [← h]
  refine locate_congr hworking fun place hplace => ?_
  unfold locate locatePieces at h
  rw [error_if_eq_ok, error_if_eq_ok] at h
  have hcrossed := directory_of_crossed h.2.2 hplace
  rw [hcrossed, hdirectory place hcrossed]

/-- Directories stay, and so does what is at a location, unless a target leads there. -/
structure Rewrites (targets : List Path) (tree after : FileTree) : Prop where
  working : after.working = tree.working
  directory : ∀ place, tree.get? place = some .directory → after.get? place = some .directory
  entry : ∀ place, after.get? place = tree.get? place ∨ tree.get? place = none ∨
    ∃ target ∈ targets, after.locate target = .ok place

instance : IsPreorder FileTree (Rewrites targets) where
  refl _ := ⟨rfl, fun _ => id, fun _ => .inl rfl⟩
  trans first second third h hnext := by
    refine ⟨hnext.working.trans h.working, fun place hplace => hnext.directory place (h.directory place hplace),
      fun place => ?_⟩
    rcases h.entry place with hsame | hnone | ⟨target, htarget, hleads⟩
    · exact hsame ▸ hnext.entry place
    · exact .inr (.inl hnone)
    · exact .inr (.inr ⟨target, htarget, locate_kept hnext.working hnext.directory hleads⟩)

theorem rewrites_set {entry : FileEntry} (hentry : tree.get? place ≠ some .directory)
    (h : tree.get? place = none ∨ ∃ target ∈ targets, tree.locate target = .ok place) :
    Rewrites targets tree (tree.set place entry) := by
  have hset := @get_set tree place (ne_root_of_get hentry) entry
  have hdirectory (key : Location) (hkey : tree.get? key = some .directory) :
      (tree.set place entry).get? key = some .directory := by
    rw [hset, if_neg (by rintro rfl; exact hentry hkey), hkey]
  refine ⟨rfl, hdirectory, fun key => ?_⟩
  rw [hset]
  split
  · next heq =>
    subst heq
    refine .inr (h.imp_right ?_)
    rintro ⟨target, htarget, hleads⟩
    exact ⟨target, htarget, locate_kept (by rfl) hdirectory hleads⟩
  · exact .inl rfl

end FileTree

open FileTree

/-- How a program may change the files. -/
def Changes {α : Type} (allowed : FileTree → FileTree → Prop) (program : StateM FileTree α) : Prop :=
  ∀ tree, allowed tree (program.run tree).2

namespace Changes

variable {α β : Type} {allowed : FileTree → FileTree → Prop} [IsPreorder FileTree allowed]

theorem pure (value : α) : Changes allowed (pure value) := refl_of allowed

theorem bind {first : StateM FileTree α} {next : α → StateM FileTree β} (hfirst : Changes allowed first)
    (hnext : ∀ value, Changes allowed (next value)) : Changes allowed (first >>= next) := fun tree =>
  trans_of allowed (hfirst tree) (hnext _ _)

theorem run_bind {first : StateM FileTree α} {next : α → StateM FileTree β} {tree : FileTree} {value : α}
    (h : Changes Eq first) (hvalue : (first.run tree).1 = value) :
    (first >>= next).run tree = (next value).run tree := by
  rw [StateT.run_bind, ← hvalue]
  show (next _).run _ = _
  rw [← h tree]

theorem change {f : FileTree → Except FileError FileTree} (h : ∀ tree after, f tree = .ok after → allowed tree after) :
    Changes allowed (FileTree.change f) := by
  intro tree
  show allowed tree (FileTree.change f tree).2
  unfold FileTree.change
  cases hf : f tree with
  | error error => exact refl_of allowed tree
  | ok after => exact h tree after hf

end Changes

section

variable (path : Path)

theorem kind_reads : Changes Eq (Files.kind? path) := fun _ => rfl

theorem is_file_reads : Changes Eq (Files.isFile path) := fun _ => rfl

theorem read_text_reads : Changes Eq (Files.readText path) := fun _ => rfl

end

theorem first_file_reads (paths : List Path) : Changes Eq (Files.firstFile? paths) := by
  induction paths with
  | nil => exact .pure none
  | cons path rest ih =>
    refine .bind (is_file_reads path) fun found => ?_
    cases found
    · exact ih
    · exact .pure (some path)

theorem make_directories_from_rewrites {targets : List Path} (fuel : Nat) (path : Path) :
    Changes (Rewrites targets) (Files.makeDirectoriesFrom fuel path) := by
  have hmake (path : Path) : Changes (Rewrites targets) (Files.makeDirectory path) := by
    refine .change fun tree after h => ?_
    obtain ⟨place, -, h⟩ := bind_eq_ok h
    split at h
    · cases h
    · next hnone =>
      cases h
      exact rewrites_set (by simp [hnone]) (.inl hnone)
  have hfind (path : Path) : Changes (Rewrites targets) (Files.isDirectory path) := fun tree => refl_of _ tree
  induction fuel generalizing path with
  | zero => exact .pure _
  | succ fuel ih =>
    unfold Files.makeDirectoriesFrom
    repeat' first
      | exact .pure _
      | exact hmake _
      | exact hfind _
      | exact ih _
      | refine .bind ?_ fun _ => ?_
      | split

end FlightProcedure
