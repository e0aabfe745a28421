/-
  HuffTrace.Proofs.Document

  Documents as scopes.  All that a document takes from its text is what the
  text is scanned to, and of the document that is analysed itself only the
  includes are looked up (`sameAnswers_of_includes`).  Every macro found comes
  from a scanned program.
-/

import HuffTrace.Analysis
import HuffTrace.Proofs.Machine.Comments
import HuffTrace.Proofs.Machine.Scope

namespace HuffTrace.Document

/-! ## Scanned programs -/

/-- The programs of a document and of all documents below it are plain. -/
inductive Plain : Document → Prop where
  | intro {d : Document} (program : d.program.Plain) (includes : ∀ i ∈ d.includes, Plain i) :
      Plain d

theorem Plain.program {d : Document} (h : Plain d) : d.program.Plain := by
  cases h with
  | intro program _ => exact program

theorem Plain.includes {d : Document} (h : Plain d) : ∀ i ∈ d.includes, Plain i := by
  cases h with
  | intro _ includes => exact includes

theorem plain_build (library : Library) (chain : List Path) (path : Path) (text : String) :
    Plain (build library chain path text) := by
  induction hlen : library.unused chain using Nat.strongRecOn generalizing chain path text with
  | _ len ih =>
  refine .intro ?_ ?_
  · rw [build]
    exact Program.plain_ofSource text
  · intro i hi
    rw [build] at hi
    obtain ⟨outcome, houtcome, hi⟩ := List.mem_filterMap.1 hi
    obtain ⟨directive, -, rfl⟩ := List.mem_map.1 houtcome
    simp only at hi
    split at hi
    · cases hi
    · next hnew =>
      split at hi
      · cases hi
      · next text' hread =>
        cases hi
        exact ih _ (by rw [← hlen]; exact Library.unused_cons_lt hread hnew) _ _ _ rfl

/-! ## Looking up names -/

section Search

variable {α : Type} {find : Document → Option α} {found : α}

mutual

theorem exists_of_search {visited : List Path} :
    (d : Document) → Plain d → (search find visited d).1 = some found →
      ∃ d', Plain d' ∧ find d' = some found
  | ⟨path, text, program, includes, problems⟩, h, hfound => by
    rw [search] at hfound
    split at hfound
    · cases hfound
    · split at hfound
      · next x hx =>
        cases hfound
        exact ⟨_, h, hx⟩
      · exact exists_of_searchAll includes h.includes hfound

theorem exists_of_searchAll {visited : List Path} :
    (ds : List Document) → (∀ d ∈ ds, Plain d) → (searchAll find visited ds).1 = some found →
      ∃ d', Plain d' ∧ find d' = some found
  | [], _, hfound => by
    rw [searchAll] at hfound
    cases hfound
  | d :: rest, h, hfound => by
    rw [searchAll] at hfound
    split at hfound
    · next x visited' hx =>
      cases hfound
      exact exists_of_search d (h d (by simp)) (by rw [hx])
    · exact exists_of_searchAll rest (fun d hd => h d (by simp [hd])) hfound

end

end Search

/-- A macro found below a plain document comes with a plain program and a plain scope. -/
theorem sheltered_plain : Machine.Sheltered Plain := by
  intro scope name external hscope hfound
  obtain ⟨d, hd, hexternal⟩ := exists_of_searchAll scope.includes hscope.includes hfound
  unfold ownMacro? at hexternal
  split at hexternal
  · cases hexternal
    exact ⟨hd.program, hd⟩
  · cases hexternal

/-- Only the includes of a document are looked up. -/
theorem sameAnswers_of_includes {a b : Document} (h : b.includes = a.includes) :
    SameAnswers a b where
  macros name := by
    show findBelow b _ = findBelow a _
    rw [findBelow, findBelow, h]
  signatures kind name := by
    show findBelow b _ = findBelow a _
    rw [findBelow, findBelow, h]

/-! ## Other texts -/

/-- A text that is scanned alike makes the same document but for the text itself. -/
theorem ofText_of_scan (library : Library) (path : String) {a b : String}
    (h : Token.scan b = Token.scan a) :
    ofText library path b = { ofText library path a with text := b } := by
  have hsource : Program.ofSource b = Program.ofSource a := by
    rw [Program.ofSource, Program.ofSource, h]
  rw [ofText, ofText, build, build, hsource]

end HuffTrace.Document
