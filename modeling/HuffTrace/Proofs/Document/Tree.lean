/-
  HuffTrace.Proofs.Document.Tree

  Loading include trees.  Loading a document asks for further documents, and
  each of them takes up a path of the library that the way to it has not used,
  so the asking ends (`wellFounded_inner`).

  A `Node` of the tree is a document with the documents above it.  What was
  loaded there is determined by the paths of the chain up to the root, which are
  all different (`Loaded`); this passes from a node to those below it and so
  holds in the whole tree.  It decides what became of each include directive
  (`Settled`).
-/

import HuffTrace.Proofs.Diagnostics
import HuffTrace.Proofs.Document.Search
import HuffTrace.Proofs.Path
import HuffTrace.Proofs.Source.Inclusion
import HuffTrace.Proofs.Source.Located
import Mathlib.Data.List.Forall2

namespace HuffTrace.Document

/-! ## Directives -/

/-- The include directives of a document. -/
def inclusions (d : Document) : List Token :=
  d.program.tokens.toList.filter (·.kind = .inclusion)

/-- A directive of a document at a path, with its line and its target. -/
def Writes (path : Path) (t : Token) (directive : Located Path) : Prop :=
  directive.line = t.line
    ∧ ∃ written, t.includePath? = some written
      ∧ directive.item = (Path.parse written).within path.directory

theorem exists_writes_of_mem {path : Path} {program : Program} {directive : Located Path}
    (h : directive ∈ directives path program) : ∃ t ∈ program.tokens, Writes path t directive := by
  obtain ⟨token, htoken, hdirective⟩ := List.mem_filterMap.1 h
  split at hdirective
  · obtain ⟨written, hwritten, rfl⟩ := Option.map_eq_some_iff.1 hdirective
    exact ⟨token, Array.mem_toList_iff.1 htoken, rfl, written, hwritten, rfl⟩
  · cases hdirective

theorem Writes.normalize_item {path : Path} {t : Token} {directive : Located Path}
    (h : Writes path t directive) : directive.item.normalize = directive.item := by
  obtain ⟨-, written, -, hitem⟩ := h
  rw [hitem, Path.normalize_within]

theorem forall₂_filterMap {path : Path} {tokens : List Token}
    (h : ∀ t ∈ tokens, t.kind = .inclusion → ∃ written, t.includePath? = some written) :
    List.Forall₂ (Writes path) (tokens.filter (·.kind = .inclusion))
      (tokens.filterMap fun token =>
        if token.kind = .inclusion then
          token.includePath?.map fun target =>
            ⟨token.line, (Path.parse target).within path.directory⟩
        else none) := by
  induction tokens with
  | nil => exact .nil
  | cons t tokens ih =>
    have hrest := ih fun s hs => h s (List.mem_cons_of_mem t hs)
    by_cases hkind : t.kind = .inclusion
    · obtain ⟨written, hwritten⟩ := h t List.mem_cons_self hkind
      simp only [List.filter_cons, List.filterMap_cons, hkind, hwritten, decide_true, if_true,
        Option.map_some]
      exact .cons ⟨rfl, written, hwritten, rfl⟩ hrest
    · simpa [hkind] using hrest

/-- Every include directive of a source has a line and a target. -/
theorem forall₂_directives (path : Path) (source : String) :
    List.Forall₂ (Writes path)
      ((Program.ofSource source).1.tokens.toList.filter (·.kind = .inclusion))
      (directives path (Program.ofSource source).1) :=
  forall₂_filterMap fun _ ht hkind => Program.exists_includePath (Array.mem_def.2 ht) hkind

/-- What an include directive leads to below documents with the paths in `chain`. -/
def follow (library : Library) (chain : List Path) (target : Path) : Except LoadError Document :=
  if target ∈ chain then .error (.cycle target.render)
  else
    match library.readPath target with
    | .error message => .error (.unreadable target.render message)
    | .ok text => .ok (build library (target :: chain) target text)

/-- What the include directives of a program lead to, at their lines. -/
def outcomes (library : Library) (chain : List Path) (path : Path) (program : Program) :
    List (Located (Except LoadError Document)) :=
  (directives path program).map fun directive =>
    ⟨directive.line, follow library chain directive.item⟩

theorem build_eq (library : Library) (chain : List Path) (path : Path) (text : String) :
    build library chain path text
      = { path
          text
          program := (Program.ofSource text).1
          includes := (outcomes library chain path (Program.ofSource text).1).filterMap
            (·.item.toOption)
          problems := recordOutcomes (Program.ofSource text).2
            (outcomes library chain path (Program.ofSource text).1) } := by
  rw [build]
  -- Both sides are one document for what directives lead to.
  refine congrArg (fun lead : Located Path → Located (Except LoadError Document) =>
    ({ path
       text
       program := (Program.ofSource text).1
       includes := ((directives path (Program.ofSource text).1).map lead).filterMap
        (·.item.toOption)
       problems := recordOutcomes (Program.ofSource text).2
        ((directives path (Program.ofSource text).1).map lead) } : Document))
    (funext fun directive => ?_)
  refine congrArg (Located.mk directive.line) ?_
  unfold follow
  split
  · rfl
  · split <;> simp_all

theorem program_build (library : Library) (chain : List Path) (path : Path) (text : String) :
    (build library chain path text).program = (Program.ofSource text).1 := by
  rw [build]

theorem stored_build {library : Library} {path : Path} {text : String}
    (h : library.readPath path = .ok text) (chain : List Path) :
    Stored library (build library chain path text) where
  read := by rwa [path_build, text_build]
  program := by rw [text_build, program_build]

/-! ## The asking ends -/

/-- A document that is asked for: its path with its text, and the paths from it up to the root. -/
structure Request where
  chain : List Path
  path : Path
  text : String

/-- The document that is asked for. -/
def Request.document (library : Library) (r : Request) : Document :=
  build library r.chain r.path r.text

/-- What is asked for next, to answer a request. -/
def Request.inner (library : Library) (r : Request) : List Request :=
  (directives r.path (Program.ofSource r.text).1).filterMap fun directive =>
    if directive.item ∈ r.chain then none
    else
      (library.readPath directive.item).toOption.map fun text =>
        ⟨directive.item :: r.chain, directive.item, text⟩

theorem includes_document (library : Library) (r : Request) :
    (r.document library).includes = (r.inner library).map (Request.document library) := by
  rw [Request.document, build_eq, Request.inner, List.map_filterMap, outcomes, List.filterMap_map]
  refine List.filterMap_congr fun directive _ => ?_
  simp only [Function.comp_apply, follow]
  split
  · rfl
  · cases library.readPath directive.item <;> rfl

/-- Asking for documents does not go on forever. -/
theorem wellFounded_inner (library : Library) :
    WellFounded fun a b : Request => a ∈ b.inner library := by
  -- Each further request has one more entry of the library on its chain.
  refine Subrelation.wf ?_ (measure fun r : Request => library.unused r.chain).wf
  intro a b h
  obtain ⟨directive, -, hasked⟩ := List.mem_filterMap.1 h
  split at hasked
  · cases hasked
  · next hnew =>
    obtain ⟨text, htext, rfl⟩ := Option.map_eq_some_iff.1 hasked
    have hread : library.readPath directive.item = .ok text := by
      cases hresult : library.readPath directive.item with
      | error message =>
        rw [hresult] at htext
        cases htext
      | ok read =>
        rw [hresult] at htext
        cases htext
        rfl
    exact Library.unused_cons_lt hread hnew

/-! ## What becomes of directives -/

/-- What a directive comes to below documents with the paths in `chain`. -/
inductive Outcome (library : Library) (chain : List Path) (target : Path) :
    Except LoadError Document → Prop where
  | cycle (on : target ∈ chain) : Outcome library chain target (.error (.cycle target.render))
  | unreadable {message : String} (off : target ∉ chain)
      (read : library.readPath target = .error message) :
    Outcome library chain target (.error (.unreadable target.render message))
  | child {d : Document} (off : target ∉ chain) (path : d.path = target)
      (stored : Stored library d) : Outcome library chain target (.ok d)

theorem outcome_follow (library : Library) (chain : List Path) (target : Path) :
    Outcome library chain target (follow library chain target) := by
  unfold follow
  split
  · next on => exact .cycle on
  · next off =>
    split
    · next message read => exact .unreadable off read
    · next text read => exact .child off (path_build ..) (stored_build read _)

/-- The load error that is found at a line, if it is one. -/
def loadProblem? (found : Located Problem) : Option (Located LoadError) :=
  match found.item with
  | .load error => some ⟨found.line, error⟩
  | _ => none

/-- The load errors of a document, at their lines. -/
def loadProblems (d : Document) : List (Located LoadError) :=
  d.problems.toList.filterMap loadProblem?

/-- The text of a document gives rise to no load error. -/
theorem loadProblem?_of_mem_scan {source : String} {found : Located Problem}
    (h : found ∈ (Token.scan source).2.toList) : loadProblem? found = none := by
  rw [Span.toList_scan_snd] at h
  obtain ⟨stretch, -, rfl⟩ := List.mem_map.1 h
  rfl

/-- The load errors that outcomes lead to, at their lines. -/
def outcomeProblems (outcomes : List (Located (Except LoadError Document))) :
    List (Located LoadError) :=
  outcomes.flatMap fun outcome => (outcomeErrors outcome.item).map (⟨outcome.line, ·⟩)

/-- The load errors of a document are those that its directives lead to. -/
theorem perm_loadProblems_build (library : Library) (chain : List Path) (path : Path)
    (text : String) :
    (build library chain path text).loadProblems.Perm
      (outcomeProblems (outcomes library chain path (Program.ofSource text).1)) := by
  have hown : (Program.ofSource text).2.toList.filterMap loadProblem? = [] :=
    List.filterMap_eq_nil_iff.2 fun _ hfound => loadProblem?_of_mem_scan hfound
  have hled : ∀ outcome : Located (Except LoadError Document),
      ((outcomeErrors outcome.item).map fun error => ⟨outcome.line, .load error⟩).filterMap
        loadProblem? = (outcomeErrors outcome.item).map (⟨outcome.line, ·⟩) := by
    intro outcome
    rw [List.filterMap_map]
    exact congrFun List.filterMap_eq_map _
  rw [build_eq, loadProblems, recordOutcomes]
  refine ((Diagnostics.perm_addAll _ _).filterMap loadProblem?).trans ?_
  rw [List.filterMap_append, hown, List.nil_append, List.filterMap_flatMap]
  simp only [hled]
  exact .refl _

/-- Each include directive of a document has come to one thing: the included documents are
    those that directives led to, in order, and the load errors are theirs. -/
def Settled (library : Library) (chain : List Path) (d : Document) : Prop :=
  ∃ results : List (Located (Except LoadError Document)),
    List.Forall₂ (fun t result => ∃ directive, Writes d.path t directive
        ∧ result.line = directive.line ∧ Outcome library chain directive.item result.item)
      d.inclusions results
    ∧ d.includes = results.filterMap (·.item.toOption)
    ∧ d.loadProblems.Perm (outcomeProblems results)

theorem settled_build (library : Library) (chain : List Path) (path : Path) (text : String) :
    Settled library chain (build library chain path text) := by
  refine ⟨outcomes library chain path (Program.ofSource text).1, ?_, ?_,
    perm_loadProblems_build library chain path text⟩
  · rw [outcomes, List.forall₂_map_right_iff, path_build, inclusions, program_build]
    refine (forall₂_directives path text).imp fun t directive hwrites => ?_
    exact ⟨directive, hwrites, rfl, outcome_follow library chain directive.item⟩
  · rw [build_eq]

/-! ## Nodes -/

mutual

/-- Induction over include trees. -/
@[elab_as_elim]
theorem induction_includes {motive : Document → Prop}
    (step : ∀ d, (∀ i ∈ d.includes, motive i) → motive d) : (d : Document) → motive d
  | ⟨_, _, _, includes, _⟩ => step _ (induction_all step includes)

theorem induction_all {motive : Document → Prop}
    (step : ∀ d, (∀ i ∈ d.includes, motive i) → motive d) :
    (documents : List Document) → ∀ d ∈ documents, motive d
  | [], _, hd => nomatch hd
  | first :: rest, d, hd => by
    rcases List.mem_cons.1 hd with heq | hd
    · exact heq ▸ induction_includes step first
    · exact induction_all step rest d hd

end

/-- A document of an include tree, with the documents above it, the nearest first. -/
structure Node where
  document : Document
  above : List Document

/-- The paths from the document up to the root. -/
def Node.chain (n : Node) : List Path :=
  (n.document :: n.above).map path

mutual

/-- The nodes of a tree that stands below other documents, in preorder. -/
def nodes (above : List Document) : Document → List Node
  | ⟨path, text, program, includes, problems⟩ =>
    ⟨⟨path, text, program, includes, problems⟩, above⟩
      :: nodesAll (⟨path, text, program, includes, problems⟩ :: above) includes

/-- The nodes of several trees below the same documents. -/
def nodesAll (above : List Document) : List Document → List Node
  | [] => []
  | document :: rest => nodes above document ++ nodesAll above rest

end

theorem nodesAll_eq (above documents : List Document) :
    nodesAll above documents = documents.flatMap (nodes above) := by
  induction documents with
  | nil => rw [nodesAll, List.flatMap_nil]
  | cons d rest ih => rw [nodesAll, List.flatMap_cons, ih]

theorem nodes_eq (above : List Document) (d : Document) :
    nodes above d = ⟨d, above⟩ :: d.includes.flatMap (nodes (d :: above)) := by
  obtain ⟨path, text, program, includes, problems⟩ := d
  rw [nodes, nodesAll_eq]

theorem preorderAll_eq (documents : List Document) :
    preorderAll documents = documents.flatMap preorder := by
  induction documents with
  | nil => rw [preorderAll, List.flatMap_nil]
  | cons d rest ih => rw [preorderAll, List.flatMap_cons, ih]

/-- The nodes are the documents of the tree. -/
theorem map_document_nodes (above : List Document) (d : Document) :
    (nodes above d).map (·.document) = d.preorder := by
  induction d using induction_includes generalizing above with
  | step d ih =>
    rw [nodes_eq, preorder_eq, descendants, preorderAll_eq, List.map_cons, List.map_flatMap]
    exact congrArg (d :: ·) (List.flatMap_congr fun i hi => ih i hi (d :: above))

/-- What passes from each node to those of the documents that it includes holds in the whole
    tree, if it does at the root. -/
theorem forall_nodes {P : Node → Prop}
    (hstep : ∀ n, P n → ∀ i ∈ n.document.includes, P ⟨i, n.document :: n.above⟩)
    {above : List Document} {d : Document} (hroot : P ⟨d, above⟩) : ∀ n ∈ nodes above d, P n := by
  -- What stands above grows on the way down, so it is kept general.
  induction d using induction_includes generalizing above with
  | step d ih =>
    intro n hn
    rw [nodes_eq, List.mem_cons] at hn
    rcases hn with rfl | hn
    · exact hroot
    · obtain ⟨i, hi, hn⟩ := List.mem_flatMap.1 hn
      exact ih i hi (hstep _ hroot i hi) n hn

/-! ## What was loaded -/

/-- A node of a tree that was loaded from a library. -/
structure Loaded (library : Library) (n : Node) : Prop where
  built : n.document = build library n.chain n.document.path n.document.text
  distinct : n.chain.Nodup
  normal : ∀ path ∈ n.chain, path.normalize = path
  -- Every document above the node but the root took up an entry of the library.
  depth : n.above.length + library.unused n.chain ≤ library.entries.length

theorem loaded_ofText (library : Library) (path text : String) :
    Loaded library ⟨ofText library path text, []⟩ where
  built := by
    simp only [Node.chain, List.map_cons, List.map_nil, ofText, path_build, text_build]
  distinct := List.pairwise_singleton _ _
  normal := by simp [Node.chain, ofText, path_build]
  depth := by
    rw [List.length_nil, Nat.zero_add]
    exact List.length_filter_le _ _

/-- What a node says of its document passes to the documents that it includes. -/
theorem Loaded.child {library : Library} {n : Node} (h : Loaded library n) {i : Document}
    (hi : i ∈ n.document.includes) : Loaded library ⟨i, n.document :: n.above⟩ := by
  rw [h.built] at hi
  obtain ⟨directive, hdirective, hnew, text, hread, rfl⟩ := mem_includes_build.1 hi
  obtain ⟨_, _, hwrites⟩ := exists_writes_of_mem hdirective
  have hchain : (⟨build library (directive.item :: n.chain) directive.item text,
      n.document :: n.above⟩ : Node).chain = directive.item :: n.chain := by
    rw [Node.chain, List.map_cons, path_build, Node.chain]
  constructor
  · rw [hchain, path_build, text_build]
  · rw [hchain]
    exact List.nodup_cons.2 ⟨hnew, h.distinct⟩
  · rw [hchain]
    exact List.forall_mem_cons.2 ⟨hwrites.normalize_item, h.normal⟩
  · -- One more document stands above, for one entry less that is unused.
    have hless := Library.unused_cons_lt hread hnew
    have hdepth := h.depth
    rw [hchain, List.length_cons]
    omega

theorem loaded_of_mem_nodes {library : Library} {path text : String} {n : Node}
    (h : n ∈ nodes [] (ofText library path text)) : Loaded library n :=
  forall_nodes (fun _ hloaded _ hi => hloaded.child hi) (loaded_ofText library path text) n h

theorem Loaded.settled {library : Library} {n : Node} (h : Loaded library n) :
    Settled library n.chain n.document := by
  rw [h.built]
  exact settled_build library n.chain n.document.path n.document.text

/-- Loading an include tree ends, whatever the files include: the further documents that are
    asked for, which are the included ones, are a well-founded relation.  The paths from any
    document of the tree up to the root are normalised and all different, so the tree is no
    higher than there are files.  Each include directive of each document has come to one
    thing: a cycle if its target is on that chain, else the document at its target if that can
    be read, and the reason why not otherwise. -/
theorem loading_cuts_cycles (library : Library) (path text : String) :
    (WellFounded fun a b : Request => a ∈ b.inner library)
    ∧ (∀ r : Request,
        (r.document library).includes = (r.inner library).map (Request.document library))
    ∧ (nodes [] (ofText library path text)).map (·.document) = (ofText library path text).preorder
    ∧ ∀ n ∈ nodes [] (ofText library path text),
        n.above.length ≤ library.entries.length
        ∧ n.chain.Nodup ∧ (∀ path ∈ n.chain, path.normalize = path)
        ∧ Settled library n.chain n.document := by
  refine ⟨wellFounded_inner library, includes_document library, map_document_nodes [] _, ?_⟩
  intro n hn
  have hloaded := loaded_of_mem_nodes hn
  refine ⟨?_, hloaded.distinct, hloaded.normal, hloaded.settled⟩
  have hdepth := hloaded.depth
  omega

end HuffTrace.Document
