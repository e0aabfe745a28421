/-
  HuffTrace.Library

  The files that documents are read from: finitely many paths, each with its
  text or with the reason why it cannot be read.
-/

import HuffTrace.Path

namespace HuffTrace

/-- A finite collection of files. -/
structure Library where
  /-- What reading each normalised path gives; of several entries for one path the first
      counts. -/
  entries : List (Path × Except String String) := []
  /-- The message for a path, as it is written, that has no entry. -/
  absent : String → String := fun path => "no file at " ++ path

namespace Library

/-- The library of texts by path; of several texts for one path the last counts. -/
def ofTexts (files : List (String × String)) : Library :=
  { entries := (files.map fun (path, text) => ((Path.parse path).normalize, .ok text)).reverse }

/-- Reads a path as it is written. -/
def read (library : Library) (path : String) : Except String String :=
  match library.entries.lookup (Path.parse path).normalize with
  | some result => result
  | none => .error (library.absent path)

/-- Reads a normalised path. -/
def readPath (library : Library) (path : Path) : Except String String :=
  match library.entries.lookup path with
  | some result => result
  | none => .error (library.absent path.render)

/-- The number of entries whose paths are not in a chain. -/
def unused (library : Library) (chain : List Path) : Nat :=
  (library.entries.filter fun entry => entry.1 ∉ chain).length

/-- A path that is looked up successfully has an entry. -/
theorem exists_mem_of_lookup {α : Type} {key : Path} {value : α} {table : List (Path × α)}
    (h : table.lookup key = some value) : ∃ entry ∈ table, entry.1 = key := by
  induction table with
  | nil => simp at h
  | cons entry rest ih =>
    obtain ⟨path, item⟩ := entry
    by_cases hp : key = path
    · exact ⟨(path, item), by simp, hp.symm⟩
    · have hne : (key == path) = false := by simpa using hp
      rw [List.lookup_cons, hne] at h
      obtain ⟨found, hmem, hkey⟩ := ih h
      exact ⟨found, List.mem_cons_of_mem _ hmem, hkey⟩

/-- A readable path has an entry. -/
theorem exists_mem_of_readPath {library : Library} {path : Path} {text : String}
    (h : library.readPath path = .ok text) : ∃ entry ∈ library.entries, entry.1 = path := by
  unfold readPath at h
  split at h
  · next result hl => exact exists_mem_of_lookup hl
  · exact absurd h (by simp)

/-- Adding a readable path to a chain that lacks it leaves fewer entries unused. -/
theorem unused_cons_lt {library : Library} {chain : List Path} {path : Path} {text : String}
    (hread : library.readPath path = .ok text) (hnew : path ∉ chain) :
    library.unused (path :: chain) < library.unused chain := by
  obtain ⟨entry, hmem, rfl⟩ := exists_mem_of_readPath hread
  have hsub : library.entries.filter (fun e => e.1 ∉ entry.1 :: chain)
      = (library.entries.filter fun e => e.1 ∉ chain).filter fun e => e.1 ≠ entry.1 := by
    rw [List.filter_filter]
    congr 1
    funext e
    simp [not_or]
  unfold unused
  rw [hsub]
  refine List.length_filter_lt_length_iff_exists.2 ⟨entry, ?_, by simp⟩
  simpa using ⟨hmem, hnew⟩

end Library

end HuffTrace
