/-
  HuffTrace.Proofs.Document.Failures

  Where load errors come from.  The load errors of a document are the failed
  directives of all nodes of its include tree, none lost and none reported
  twice: at every level the errors of the included documents are recorded again,
  at the line of the directive that led to them, in line with those of the
  document itself (`perm_loadProblems`).
-/

import HuffTrace.Proofs.Document.Tree
import Mathlib.Data.List.Perm.Basic

namespace HuffTrace.Document

/-! ## Failed directives -/

/-- The reason why a directive leads to no document below those with the paths in `chain`. -/
def failure? (library : Library) (chain : List Path) (target : Path) : Option LoadError :=
  if target ∈ chain then some (.cycle target.render)
  else
    match library.readPath target with
    | .error message => some (.unreadable target.render message)
    | .ok _ => none

/-- The directives of a node that fail, with the reasons. -/
def Node.failures (library : Library) (n : Node) : List (Located LoadError) :=
  (directives n.document.path n.document.program).filterMap fun directive =>
    (failure? library n.chain directive.item).map (⟨directive.line, ·⟩)

/-- The directives of a node that lead to a document. -/
def Node.followed (library : Library) (n : Node) : List (Located Path) :=
  (directives n.document.path n.document.program).filter fun directive =>
    (failure? library n.chain directive.item).isNone

/-- The reasons of all directives that fail in a tree below other documents. -/
def failuresIn (library : Library) (above : List Document) (d : Document) : List LoadError :=
  (nodes above d).flatMap fun n => (n.failures library).map (·.item)

theorem failuresIn_eq (library : Library) (above : List Document) (d : Document) :
    failuresIn library above d
      = ((⟨d, above⟩ : Node).failures library).map (·.item)
        ++ d.includes.flatMap (failuresIn library (d :: above)) := by
  rw [failuresIn, nodes_eq, List.flatMap_cons, List.flatMap_assoc]
  rfl

/-- A directive either fails for its reason or leads to the document at its target. -/
theorem failure?_or_child (library : Library) (chain : List Path) (target : Path) :
    (∃ error, failure? library chain target = some error
      ∧ follow library chain target = .error error)
    ∨ ∃ d : Document, failure? library chain target = none
      ∧ follow library chain target = .ok d ∧ d.path = target := by
  unfold failure? follow
  split
  · exact .inl ⟨_, rfl, rfl⟩
  · cases library.readPath target with
    | error message => exact .inl ⟨_, rfl, rfl⟩
    | ok text => exact .inr ⟨_, rfl, rfl, path_build ..⟩

/-! ## One level -/

section Level

variable (library : Library) (chain : List Path)

/-- What directives lead to falls into the failures and the load errors of the documents that
    are included. -/
theorem perm_outcomeProblems (found : List (Located Path)) :
    (outcomeProblems (found.map fun x => ⟨x.line, follow library chain x.item⟩)).Perm
      (found.filterMap (fun x => (failure? library chain x.item).map (⟨x.line, ·⟩))
        ++ ((found.filter fun x => (failure? library chain x.item).isNone).zip
            (found.filterMap fun x => (follow library chain x.item).toOption)).flatMap
          fun graft => (loadErrors graft.2.problems).map (⟨graft.1.line, ·⟩)) := by
  unfold outcomeProblems
  induction found with
  | nil => exact .refl _
  | cons x found ih =>
    obtain ⟨error, hfailure, hfollow⟩ | ⟨d, hfailure, hfollow, -⟩ :=
      failure?_or_child library chain x.item
    · simpa [hfailure, hfollow, outcomeErrors, Except.toOption] using ih
    · simp only [hfailure, hfollow, List.map_cons, List.flatMap_cons, List.filterMap_cons,
        List.filter_cons, Option.map_none, Option.isNone_none, if_true, outcomeErrors,
        Except.toOption, List.zip_cons_cons]
      -- The errors from below stand behind the failures that come later.
      exact (ih.append_left _).trans (List.perm_append_comm_assoc ..)

theorem map_path_follow (found : List (Located Path)) :
    (found.filter fun x => (failure? library chain x.item).isNone).map (·.item)
      = (found.filterMap fun x => (follow library chain x.item).toOption).map path := by
  induction found with
  | nil => rfl
  | cons x found ih =>
    obtain ⟨error, hfailure, hfollow⟩ | ⟨d, hfailure, hfollow, hpath⟩ :=
      failure?_or_child library chain x.item
    · simpa [hfailure, hfollow, Except.toOption] using ih
    · simpa [hfailure, hfollow, Except.toOption, hpath] using ih

end Level

theorem includes_build (library : Library) (chain : List Path) (path : Path) (text : String) :
    (build library chain path text).includes
      = (directives path (Program.ofSource text).1).filterMap fun x =>
        (follow library chain x.item).toOption := by
  rw [build_eq, outcomes, List.filterMap_map]
  rfl

theorem Loaded.program {library : Library} {n : Node} (h : Loaded library n) :
    n.document.program = (Program.ofSource n.document.text).1 := by
  rw [h.built, text_build, program_build]

theorem Loaded.includes {library : Library} {n : Node} (h : Loaded library n) :
    n.document.includes
      = (directives n.document.path n.document.program).filterMap fun x =>
        (follow library n.chain x.item).toOption := by
  have hincludes := congrArg Document.includes h.built
  rwa [includes_build, ← h.program] at hincludes

/-- The documents that are included stand at the targets of the directives that are followed. -/
theorem Loaded.map_followed {library : Library} {n : Node} (h : Loaded library n) :
    (n.followed library).map (·.item) = n.document.includes.map path := by
  rw [h.includes, Node.followed, map_path_follow]

/-- The load errors of a document are its own failures and those of the included documents. -/
theorem Loaded.perm_loadProblems {library : Library} {n : Node} (h : Loaded library n) :
    n.document.loadProblems.Perm
      (n.failures library ++ ((n.followed library).zip n.document.includes).flatMap
        fun graft => (loadErrors graft.2.problems).map (⟨graft.1.line, ·⟩)) := by
  have hperm := perm_loadProblems_build library n.chain n.document.path n.document.text
  rw [← h.built, ← h.program] at hperm
  refine hperm.trans ((perm_outcomeProblems library n.chain _).trans (.of_eq ?_))
  rw [← h.includes]
  rfl

/-! ## The whole tree -/

theorem loadErrors_eq (d : Document) : loadErrors d.problems = d.loadProblems.map (·.item) := by
  rw [loadProblems, List.map_filterMap, loadErrors]
  refine List.filterMap_congr fun found _ => ?_
  unfold loadProblem?
  cases found.item <;> rfl

theorem flatMap_zip_snd {α β γ : Type} (f : β → List γ) {as : List α} {bs : List β}
    (h : bs.length ≤ as.length) : (as.zip bs).flatMap (fun p => f p.2) = bs.flatMap f := by
  rw [← List.flatMap_map, List.map_snd_zip h]

/-- The load errors of a document are the failures in its tree. -/
theorem Loaded.perm_loadErrors {library : Library} {n : Node} (h : Loaded library n) :
    (loadErrors n.document.problems).Perm (failuresIn library n.above n.document) := by
  obtain ⟨d, above⟩ := n
  induction d using induction_includes generalizing above with
  | step d ih =>
    -- Without their lines, the errors recorded at this level are the failures here and the
    -- errors of the included documents, which the induction is about.
    have hlevel := h.perm_loadProblems.map (·.item)
    have hlength := congrArg List.length h.map_followed
    rw [List.length_map, List.length_map] at hlength
    rw [← loadErrors_eq, List.map_append, List.map_flatMap] at hlevel
    simp only [List.map_map, Function.comp_def, List.map_id'] at hlevel
    rw [flatMap_zip_snd (fun i : Document => loadErrors i.problems) hlength.ge] at hlevel
    rw [failuresIn_eq]
    refine hlevel.trans (.append_left _ ?_)
    exact List.Perm.flatMap_left _ fun i hi => ih i hi (d :: above) (h.child hi)

/-! ## Roots -/

theorem IsRoot.exists_ofText {library : Library} {root : Document} (h : IsRoot library root) :
    ∃ path text, root = ofText library path text := by
  rcases h with h | ⟨path, hload⟩
  · exact h
  · unfold load at hload
    simp only at hload
    split at hload
    · next text _ =>
      cases hload
      exact ⟨path, text, rfl⟩
    · cases hload

/-- What is wrong with the text of a document stays as it was found. -/
theorem filter_problems_build (library : Library) (chain : List Path) (path : Path)
    (text : String) :
    (build library chain path text).problems.toList.filter
        (fun found => (loadProblem? found).isNone)
      = (Token.scan text).2.toList := by
  rw [build_eq, recordOutcomes, Diagnostics.filter_addAll]
  · refine List.filter_eq_self.2 fun found hfound => ?_
    rw [loadProblem?_of_mem_scan hfound]
    rfl
  · intro found hfound
    obtain ⟨outcome, -, hfound⟩ := List.mem_flatMap.1 hfound
    obtain ⟨error, -, rfl⟩ := List.mem_map.1 hfound
    rfl

theorem sorted_problems_build (library : Library) (chain : List Path) (path : Path)
    (text : String) : (build library chain path text).problems.Sorted := by
  rw [build_eq]
  exact (Diagnostics.sorted_empty.addAll _).addAll _

/-- The load errors of the root of an include tree are the failed directives of all its nodes,
    each as often as it fails.  A failure of the root itself is recorded at its own line, and
    one further below at the line of the directive of the root that led there.  Otherwise the
    problems of the root are those of its text, and all of them come in line order. -/
theorem perm_failures_of_isRoot {library : Library} {root : Document} (h : IsRoot library root) :
    (∀ n ∈ nodes [] root, List.Forall₂ (Writes n.document.path) n.document.inclusions
        (directives n.document.path n.document.program))
    ∧ (loadErrors root.problems).Perm (failuresIn library [] root)
    ∧ ((⟨root, []⟩ : Node).followed library).map (·.item) = root.includes.map path
    ∧ root.loadProblems.Perm
        ((⟨root, []⟩ : Node).failures library
          ++ (((⟨root, []⟩ : Node).followed library).zip root.includes).flatMap
            fun graft => (failuresIn library [root] graft.2).map (⟨graft.1.line, ·⟩))
    ∧ root.problems.toList.filter (fun found => (loadProblem? found).isNone)
        = (Token.scan root.text).2.toList
    ∧ root.problems.Sorted := by
  obtain ⟨path, text, rfl⟩ := h.exists_ofText
  have hroot := loaded_ofText library path text
  refine ⟨?_, hroot.perm_loadErrors, hroot.map_followed, ?_, ?_, sorted_problems_build ..⟩
  · intro n hn
    rw [inclusions, (loaded_of_mem_nodes hn).program]
    exact forall₂_directives _ _
  · refine hroot.perm_loadProblems.trans (.append_left _ (.flatMap_left _ fun graft hgraft => ?_))
    have hchild := hroot.child (List.of_mem_zip hgraft).2
    exact hchild.perm_loadErrors.map _
  · rw [ofText, filter_problems_build, text_build]

/-- Files that lead back to the root and to a file that is missing. -/
def torn : Library :=
  .ofTexts
    [("a.huff", "#include \"missing.huff\"\n#include \"main.huff\""),
      ("b.huff", "#include \"a.huff\"")]

/-- A root that includes one of them twice. -/
def tornRoot : Document :=
  ofText torn "main.huff" "#include \"b.huff\"\n@\n#include \"a.huff\""

theorem perm_failures_of_isRoot_torn :
    IsRoot torn tornRoot
      ∧ (loadErrors tornRoot.problems).Perm (failuresIn torn [] tornRoot)
      ∧ tornRoot.problems.toList
        = [⟨1, .load (.unreadable "missing.huff" "no file at missing.huff")⟩,
          ⟨1, .load (.cycle "main.huff")⟩,
          ⟨2, .unrecognized "@"⟩,
          ⟨3, .load (.unreadable "missing.huff" "no file at missing.huff")⟩,
          ⟨3, .load (.cycle "main.huff")⟩] := by
  have hroot : IsRoot torn tornRoot := .inl ⟨_, _, rfl⟩
  exact ⟨hroot, (perm_failures_of_isRoot hroot).2.1, by decide +kernel⟩

end HuffTrace.Document
