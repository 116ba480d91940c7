import FlightProcedure.Proofs.Procedure.Declaring
import Mathlib.Data.List.Induction

/-!
# A table keeps the first declaration of each key

A table is only used through calls that add a declaration or mark a watchdog, and a call may be refused.
A mark changes the entry with its key and no other (`entries_mark_watchdog`), so what is inserted first
stays, with the marks that are made later: `entry_after_all`.
-/

namespace FlightProcedure

open List DeclarationTable Declaration

inductive TableCall where
  | insert (declaration : Declaration)
  | markWatchdog (key : String)

namespace TableCall

def run? (table : DeclarationTable) : TableCall → Option DeclarationTable
  | .insert declaration => table.insert? declaration
  | .markWatchdog key => table.markWatchdog? key

def inserted? : TableCall → Option Declaration
  | .insert declaration => some declaration
  | .markWatchdog _ => none

def marked? : TableCall → Option String
  | .insert _ => none
  | .markWatchdog key => some key

end TableCall

def DeclarationTable.after (table : DeclarationTable) (call : TableCall) : DeclarationTable :=
  (call.run? table).getD table

def tableAfter (calls : List TableCall) : DeclarationTable := calls.foldl DeclarationTable.after {}

def insertedKeys (calls : List TableCall) : List String := (calls.filterMap TableCall.inserted?).map key

def markedKeys (calls : List TableCall) : List String := calls.filterMap TableCall.marked?

theorem table_after_concat (calls : List TableCall) (call : TableCall) :
    tableAfter (calls ++ [call]) = (tableAfter calls).after call := by
  rw [tableAfter, foldl_append]
  rfl

/-- A declaration after marks: a statement that runs a step is a watchdog if it was one or its key is marked. -/
def Declaration.withMarks (marks : List String) : Declaration → Declaration
  | .statement key (.initiateAndConfirmStep stepClass watchdog continuation) =>
    .statement key (.initiateAndConfirmStep stepClass (watchdog || decide (key ∈ marks)) continuation)
  | declaration => declaration

section

variable {declaration : Declaration} {marks : List String} {key : String}

theorem with_marks_nil (declaration : Declaration) : declaration.withMarks [] = declaration := by
  unfold withMarks
  split <;> simp

theorem with_marks_append (declaration : Declaration) (marks more : List String) :
    declaration.withMarks (marks ++ more) = (declaration.withMarks marks).withMarks more := by
  cases declaration with
  | step => rfl
  | statement key statement =>
    cases statement with
    | initiateAndConfirmStep => simp [withMarks, Bool.or_assoc]
    | _ => rfl

theorem with_marks_of_ne (h : declaration.key ≠ key) : declaration.withMarks [key] = declaration := by
  unfold withMarks
  split
  · next other _ _ _ =>
    have hother : other ≠ key := h
    simp [hother]
  · rfl

theorem with_marks_of_eq (h : declaration.key = key) :
    declaration.withMarks [key] = (watchdog? declaration).getD declaration := by
  subst h
  cases declaration with
  | step => rfl
  | statement key statement =>
    cases statement with
    | initiateAndConfirmStep => simp [withMarks, watchdog?, Declaration.key]
    | _ => rfl

end

namespace DeclarationTable

variable {table : DeclarationTable} {calls : List TableCall} {key : String} {entry : Declaration}

theorem get_of_mem (hnodup : table.keys.Nodup) (hmem : entry ∈ table.entries)
    (hkey : entry.key = key) : table.get? key = some entry := by
  have hsome : (table.get? key).isSome = true := find?_isSome.mpr ⟨entry, hmem, by simpa using hkey⟩
  obtain ⟨found, hfound⟩ := Option.isSome_iff_exists.mp hsome
  have hsame : found.key = key := by simpa using find?_some hfound
  rw [hfound, inj_on_of_nodup_map hnodup (mem_of_find?_eq_some hfound) hmem (hsame.trans hkey.symm)]

theorem entries_mark_watchdog (hnodup : table.keys.Nodup) (key : String) :
    (table.after (.markWatchdog key)).entries = table.entries.map (withMarks [key]) := by
  have hentry : ∀ entry ∈ table.entries, entry.withMarks [key] =
      if entry.key == key then ((table.get? key).bind watchdog?).getD entry else entry := by
    intro entry hmem
    split
    · next hkey =>
      have hkey := eq_of_beq hkey
      rw [get_of_mem hnodup hmem hkey, with_marks_of_eq hkey, Option.bind_some]
    · next hkey => exact with_marks_of_ne (by simpa using hkey)
  rw [map_congr_left hentry, after, TableCall.run?, markWatchdog?]
  cases (table.get? key).bind watchdog? with
  | none => simp
  | some marked => rfl

theorem get_is_some_iff : (table.get? key).isSome = true ↔ key ∈ table.keys := by
  simp [get?, keys, find?_isSome]

theorem entries_insert (declaration : Declaration) : (table.after (.insert declaration)).entries =
    if declaration.key ∈ table.keys then table.entries else table.entries ++ [declaration] := by
  rw [after, TableCall.run?, insert?]
  simp only [get_is_some_iff]
  split <;> rfl

theorem keys_after_mark (hnodup : table.keys.Nodup) (key : String) :
    (table.after (.markWatchdog key)).keys = table.keys := by
  rw [keys, entries_mark_watchdog hnodup, map_map]
  refine map_congr_left fun entry _ => ?_
  simp only [Function.comp, withMarks]
  split <;> rfl

/-- The table has every key once, in the order of first insertion. -/
theorem keys_table_after (calls : List TableCall) :
    (tableAfter calls).keys = (insertedKeys calls).eraseDups ∧ (tableAfter calls).keys.Nodup := by
  induction calls using reverseRecOn with
  | nil => exact ⟨rfl, nodup_nil⟩
  | append_singleton calls call ih =>
    obtain ⟨hkeys, hnodup⟩ := ih
    rw [table_after_concat]
    cases call with
    | insert declaration =>
      have hinserted : insertedKeys (calls ++ [.insert declaration]) = insertedKeys calls ++ [declaration.key] := by
        simp [insertedKeys, TableCall.inserted?]
      have hmem : declaration.key ∈ (tableAfter calls).keys ↔ declaration.key ∈ insertedKeys calls := by
        rw [hkeys, mem_eraseDups]
      rw [hinserted, eraseDups_append, ← hkeys, keys, entries_insert]
      split
      · next htaken => exact ⟨by simp [removeAll, hmem.mp htaken, keys], hnodup⟩
      · next hfresh =>
        refine ⟨by simp [removeAll, mt hmem.mpr hfresh, keys, eraseDups_cons], ?_⟩
        rw [map_append]
        refine nodup_append.mpr ⟨hnodup, nodup_singleton _, fun key hkey other hother heq => hfresh ?_⟩
        rw [map_singleton, mem_singleton] at hother
        exact hother ▸ heq ▸ hkey
    | markWatchdog key =>
      have hinserted : insertedKeys (calls ++ [.markWatchdog key]) = insertedKeys calls := by
        rw [insertedKeys, filterMap_append, filterMap_cons_none rfl, filterMap_nil, append_nil, insertedKeys]
      rw [keys_after_mark hnodup, hinserted]
      exact ⟨hkeys, hnodup⟩

theorem entry_after (hnodup : table.keys.Nodup) (hmem : entry ∈ table.entries)
    (call : TableCall) : entry.withMarks (markedKeys [call]) ∈ (table.after call).entries := by
  cases call with
  | insert declaration =>
    rw [entries_insert]
    have hsame : entry.withMarks (markedKeys [.insert declaration]) = entry := with_marks_nil entry
    rw [hsame]
    split
    · exact hmem
    · exact mem_append_left _ hmem
  | markWatchdog key =>
    rw [entries_mark_watchdog hnodup]
    exact mem_map_of_mem hmem

theorem entry_after_all {before : List TableCall} (hmem : entry ∈ (tableAfter before).entries)
    (later : List TableCall) : entry.withMarks (markedKeys later) ∈ (tableAfter (before ++ later)).entries := by
  induction later using reverseRecOn with
  | nil => simpa [markedKeys, with_marks_nil] using hmem
  | append_singleton later call ih =>
    have hentry := entry_after (keys_table_after _).2 ih call
    have hmarks : markedKeys (later ++ [call]) = markedKeys later ++ markedKeys [call] := filterMap_append
    rwa [hmarks, with_marks_append, ← append_assoc, table_after_concat]

theorem insert_eq_none (declaration : Declaration) :
    table.insert? declaration = none ↔ declaration.key ∈ table.keys := by
  rw [insert?, ← get_is_some_iff]
  split <;> simp_all

theorem mark_ne_none (hnodup : table.keys.Nodup) (key : String) :
    table.markWatchdog? key ≠ none ↔ ∃ stepClass watchdog continuation,
      statement key (.initiateAndConfirmStep stepClass watchdog continuation) ∈ table.entries := by
  constructor
  · intro hmark
    obtain ⟨result, hresult⟩ := Option.ne_none_iff_exists'.mp hmark
    obtain ⟨stepClass, watchdog, continuation, hmem, -⟩ := mark_watchdog_eq_some hresult
    exact ⟨stepClass, watchdog, continuation, hmem⟩
  · rintro ⟨stepClass, watchdog, continuation, hmem⟩
    have hget : table.get? key = some _ := get_of_mem hnodup hmem rfl
    simp [markWatchdog?, hget, watchdog?]

end DeclarationTable

/-- After any calls a table holds one declaration for each key, in the order of first insertion. It is the first
one with its key, except that a statement that runs a step is a watchdog if it was one or was marked later. An
insertion is refused if its key is taken, and a mark unless its key belongs to a statement that runs a step; a
call that is refused leaves the table. -/
theorem table_keeps_first_declarations (calls : List TableCall) (main : StepClass) :
    ((tableAfter calls).finish main).declarations.map key = (insertedKeys calls).eraseDups ∧
    (∀ before declaration later, calls = before ++ TableCall.insert declaration :: later →
      declaration.key ∉ insertedKeys before →
        declaration.withMarks (markedKeys later) ∈ ((tableAfter calls).finish main).declarations) ∧
    (∀ declaration, (tableAfter calls).insert? declaration = none ↔ declaration.key ∈ insertedKeys calls) ∧
    (∀ key, (tableAfter calls).markWatchdog? key ≠ none ↔ ∃ stepClass watchdog continuation,
      statement key (.initiateAndConfirmStep stepClass watchdog continuation) ∈ (tableAfter calls).entries) ∧
    ∀ call, call.run? (tableAfter calls) = none → tableAfter (calls ++ [call]) = tableAfter calls := by
  obtain ⟨hkeys, hnodup⟩ := keys_table_after calls
  refine ⟨hkeys, ?_, fun declaration => ?_, mark_ne_none hnodup, fun call hcall => ?_⟩
  · rintro before declaration later rfl hfresh
    have hinsert : declaration ∈ (tableAfter (before ++ [.insert declaration])).entries := by
      rw [← mem_eraseDups, ← (keys_table_after before).1] at hfresh
      rw [table_after_concat, entries_insert, if_neg hfresh]
      simp
    have hentry := entry_after_all hinsert later
    rwa [append_assoc, singleton_append] at hentry
  · rw [insert_eq_none, hkeys, mem_eraseDups]
  · rw [table_after_concat, DeclarationTable.after, hcall, Option.getD_none]

end FlightProcedure
