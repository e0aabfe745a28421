/-
  HuffTrace.Proofs.Document.Search

  Looking up names below a document.  The search enters each path once, though
  a path can stand in the include tree several times, with different documents
  below it: what a document includes is cut where it would close a cycle, and
  that depends on the way to it.

  Nothing is lost by this.  The paths of the documents that have been searched
  are closed under inclusion, up to the way to the document being searched
  (`Explored`), so that all documents below a path met again have been searched
  before.  The search therefore answers like a walk through the whole tree
  (`findBelow_eq`).
-/

import HuffTrace.Proofs.Document

namespace HuffTrace.Document

/-! ## The whole tree -/

mutual

/-- A document and those below it, each before the documents that it includes. -/
def preorder : Document → List Document
  | ⟨path, text, program, includes, problems⟩ =>
    ⟨path, text, program, includes, problems⟩ :: preorderAll includes

/-- The documents of several trees, one tree after the other. -/
def preorderAll : List Document → List Document
  | [] => []
  | document :: rest => preorder document ++ preorderAll rest

end

/-- The documents below a document. -/
def descendants (d : Document) : List Document :=
  preorderAll d.includes

theorem preorder_eq (d : Document) : d.preorder = d :: d.descendants := by
  obtain ⟨path, text, program, includes, problems⟩ := d
  rw [preorder]
  rfl

theorem mem_preorder_self (d : Document) : d ∈ d.preorder := by
  rw [preorder_eq]
  exact List.mem_cons_self

theorem mem_preorderAll {e : Document} {documents : List Document} :
    e ∈ preorderAll documents ↔ ∃ d ∈ documents, e ∈ d.preorder := by
  induction documents with
  | nil => simp [preorderAll]
  | cons d rest ih => simp [preorderAll, ih]

theorem search_eq {α : Type} (find : Document → Option α) (visited : List Path) (d : Document) :
    search find visited d
      = if d.path ∈ visited then (none, visited)
        else
          match find d with
          | some found => (some found, visited)
          | none => searchAll find (d.path :: visited) d.includes := by
  obtain ⟨path, text, program, includes, problems⟩ := d
  unfold search
  rfl

/-! ## How trees grow -/

/-- A document holds what the library has at its path. -/
structure Stored (library : Library) (d : Document) : Prop where
  read : library.readPath d.path = .ok d.text
  program : d.program = (Program.ofSource d.text).1

/-- Documents at one path have one program. -/
theorem Stored.program_eq {library : Library} {a b : Document} (ha : Stored library a)
    (hb : Stored library b) (h : a.path = b.path) : a.program = b.program := by
  have htext : a.text = b.text := by
    have hread := ha.read
    rw [h, hb.read] at hread
    exact (Except.ok.inj hread).symm
  rw [ha.program, hb.program, htext]

/-- The file at a path includes one that can be read. -/
def Leads (library : Library) (a b : Path) : Prop :=
  ∃ text, library.readPath a = .ok text
    ∧ (∃ directive ∈ directives a (Program.ofSource text).1, directive.item = b)
    ∧ ∃ text', library.readPath b = .ok text'

/-- A document and those below it stand in an include tree; `chain` holds the paths from the
    document up to the root. -/
inductive Grown (library : Library) : List Path → Document → Prop where
  | intro {chain : List Path} {d : Document} (stored : Stored library d)
      (covers : ∀ path,
        (∃ i ∈ d.includes, i.path = path) ↔ Leads library d.path path ∧ path ∉ chain)
      (includes : ∀ i ∈ d.includes, Grown library (i.path :: chain) i) : Grown library chain d

/-- What a document includes can stand at the end of a chain. -/
def Rooted (library : Library) (chain : List Path) (d : Document) : Prop :=
  ∀ i ∈ d.includes, i.path ∉ chain ∧ Grown library (i.path :: chain) i

theorem Grown.rooted {library : Library} {chain : List Path} {d : Document}
    (h : Grown library chain d) : Rooted library chain d := by
  cases h with
  | intro _ covers includes =>
    intro i hi
    exact ⟨((covers i.path).1 ⟨i, hi, rfl⟩).2, includes i hi⟩

theorem path_build (library : Library) (chain : List Path) (path : Path) (text : String) :
    (build library chain path text).path = path := by
  rw [build]

theorem text_build (library : Library) (chain : List Path) (path : Path) (text : String) :
    (build library chain path text).text = text := by
  rw [build]

/-- The documents that a built document includes: one for each directive whose target is not
    on the chain and can be read. -/
theorem mem_includes_build {library : Library} {chain : List Path} {path : Path} {text : String}
    {i : Document} :
    i ∈ (build library chain path text).includes
      ↔ ∃ directive ∈ directives path (Program.ofSource text).1, directive.item ∉ chain
        ∧ ∃ text', library.readPath directive.item = .ok text'
          ∧ i = build library (directive.item :: chain) directive.item text' := by
  rw [build]
  simp only [List.mem_filterMap, List.mem_map]
  constructor
  · rintro ⟨outcome, ⟨directive, hdirective, rfl⟩, hi⟩
    refine ⟨directive, hdirective, ?_⟩
    simp only at hi
    split at hi
    · cases hi
    · next hnew =>
      split at hi
      · cases hi
      · next text' hread =>
        cases hi
        exact ⟨hnew, text', hread, rfl⟩
  · rintro ⟨directive, hdirective, hnew, text', hread, rfl⟩
    refine ⟨_, ⟨directive, hdirective, rfl⟩, ?_⟩
    simp only [dif_neg hnew]
    split
    · next hread' =>
      rw [hread] at hread'
      cases hread'
    · next hread' =>
      rw [hread] at hread'
      cases hread'
      rfl

/-- Whatever a document includes has grown from the library. -/
theorem rooted_build (library : Library) (chain : List Path) (path : Path) (text : String) :
    Rooted library chain (build library chain path text) := by
  -- The chain takes up another entry of the library with each document that is entered.
  induction hlen : library.unused chain using Nat.strongRecOn generalizing chain path text with
  | _ len ih =>
  intro i hi
  obtain ⟨directive, -, hnew, text', hread, rfl⟩ := mem_includes_build.1 hi
  rw [path_build]
  have hrooted := ih _ (by rw [← hlen]; exact Library.unused_cons_lt hread hnew)
    (directive.item :: chain) directive.item text' rfl
  have hstored : Stored library
      (build library (directive.item :: chain) directive.item text') := by
    constructor
    · rw [path_build, text_build]
      exact hread
    · rw [text_build, build]
  refine ⟨hnew, .intro hstored ?_ fun j hj => (hrooted j hj).2⟩
  intro target
  rw [path_build]
  constructor
  · rintro ⟨j, hj, rfl⟩
    obtain ⟨inner, hinner, hfresh, text'', hread', rfl⟩ := mem_includes_build.1 hj
    rw [path_build]
    exact ⟨⟨text', hread, ⟨inner, hinner, rfl⟩, text'', hread'⟩, hfresh⟩
  · rintro ⟨⟨text₁, hread₁, ⟨inner, hinner, rfl⟩, text₂, hread₂⟩, hfresh⟩
    rw [hread] at hread₁
    cases hread₁
    exact ⟨_, mem_includes_build.2 ⟨inner, hinner, hfresh, text₂, hread₂, rfl⟩,
      path_build _ _ _ _⟩

/-- Every document of a tree stands at the end of some chain. -/
theorem Grown.exists_rooted {library : Library} {chain : List Path} {d e : Document}
    (h : Grown library chain d) (he : e ∈ d.preorder) : ∃ chain', Rooted library chain' e := by
  induction h with
  | intro stored covers includes ih =>
    rename_i chain d
    rw [preorder_eq] at he
    rcases List.mem_cons.1 he with rfl | he
    · exact ⟨chain, (Grown.intro stored covers includes).rooted⟩
    · obtain ⟨i, hi, he⟩ := mem_preorderAll.1 he
      exact ih i hi he

theorem Rooted.exists_rooted {library : Library} {chain : List Path} {d e : Document}
    (h : Rooted library chain d) (he : e ∈ d.preorder) : ∃ chain', Rooted library chain' e := by
  rw [preorder_eq] at he
  rcases List.mem_cons.1 he with rfl | he
  · exact ⟨chain, h⟩
  · obtain ⟨i, hi, he⟩ := mem_preorderAll.1 he
    exact (h i hi).2.exists_rooted he

/-! ## Searching each path once -/

section Search

variable {α : Type} {library : Library} {find : Document → Option α}

/-- The visited paths are closed under inclusion, except for those on the way to the document
    being searched, whose includes are still to come. -/
def Explored (library : Library) (chain visited : List Path) : Prop :=
  ∀ a ∈ visited, a ∉ chain → ∀ b, Leads library a b → b ∈ visited ∨ b ∈ chain

/-- At the visited paths there is nothing to be found. -/
def Barren (library : Library) (find : Document → Option α) (visited : List Path) : Prop :=
  ∀ d, Stored library d → d.path ∈ visited → find d = none

/-- The state of a search between documents. -/
structure Searched (library : Library) (find : Document → Option α) (chain visited : List Path) :
    Prop where
  explored : Explored library chain visited
  barren : Barren library find visited

/-- Below a path that has been visited there are only visited ones. -/
theorem Grown.visited {chain chain' visited : List Path} {d : Document}
    (h : Grown library chain' d) (hexplored : Explored library chain visited)
    (hchain : ∀ path ∈ chain, path ∈ chain') (hnew : d.path ∉ chain) (hd : d.path ∈ visited) :
    ∀ e ∈ d.preorder, Stored library e ∧ e.path ∈ visited := by
  induction h with
  | intro stored covers includes ih =>
    rename_i chain' d
    intro e he
    rw [preorder_eq] at he
    rcases List.mem_cons.1 he with rfl | he
    · exact ⟨stored, hd⟩
    · obtain ⟨i, hi, he⟩ := mem_preorderAll.1 he
      obtain ⟨hleads, hfresh⟩ := (covers i.path).1 ⟨i, hi, rfl⟩
      have hoff : i.path ∉ chain := fun hon => hfresh (hchain _ hon)
      have hi' : i.path ∈ visited :=
        (hexplored d.path hd hnew i.path hleads).resolve_right hoff
      exact ih i hi (fun path hpath => List.mem_cons_of_mem _ (hchain path hpath)) hoff hi' e he

/-- A search through trees answers like a walk through all of their documents; if there is
    nothing to be found, it leaves more paths visited, those of the roots among them. -/
structure Sought (library : Library) (find : Document → Option α) (chain visited : List Path)
    (documents : List Document) (result : Option α × List Path) : Prop where
  answer : result.1 = (preorderAll documents).findSome? find
  searched : result.1 = none → Searched library find chain result.2
    ∧ (∀ path ∈ visited, path ∈ result.2) ∧ ∀ d ∈ documents, d.path ∈ result.2

/-- Searching trees one after the other, given what searching each of them does. -/
theorem sought_searchAll {chain : List Path} {documents : List Document}
    (hsearch : ∀ d ∈ documents, ∀ visited, Searched library find chain visited →
      Sought library find chain visited [d] (search find visited d))
    {visited : List Path} (hvisited : Searched library find chain visited) :
    Sought library find chain visited documents (searchAll find visited documents) := by
  induction documents generalizing visited with
  | nil =>
    rw [searchAll]
    exact ⟨rfl, fun _ => ⟨hvisited, fun _ hpath => hpath, nofun⟩⟩
  | cons d rest ih =>
    have hd := hsearch d List.mem_cons_self visited hvisited
    have hone : preorderAll [d] = d.preorder := by simp [preorderAll]
    have hanswer := hd.answer
    rw [hone] at hanswer
    rw [searchAll]
    split
    · next found visited' hfound =>
      rw [hfound] at hanswer
      refine ⟨?_, fun hnone => absurd hnone (Option.some_ne_none found)⟩
      show some found = _
      rw [preorderAll, List.findSome?_append, ← hanswer]
      rfl
    · next visited' hnone =>
      rw [hnone] at hanswer
      obtain ⟨hsearched, hmore, hroot⟩ := hd.searched (by rw [hnone])
      rw [hnone] at hsearched hmore hroot
      have hrest := ih (fun e he => hsearch e (List.mem_cons_of_mem _ he)) hsearched
      constructor
      · rw [hrest.answer, preorderAll, List.findSome?_append, ← hanswer]
        rfl
      · intro hnone'
        obtain ⟨hsearched', hmore', hroots⟩ := hrest.searched hnone'
        refine ⟨hsearched', fun path hpath => hmore' path (hmore path hpath), ?_⟩
        intro e he
        rcases List.mem_cons.1 he with rfl | he
        · exact hmore' _ (hroot e List.mem_cons_self)
        · exact hroots e he

theorem preorderAll_singleton (d : Document) : preorderAll [d] = d :: d.descendants := by
  rw [preorderAll, preorderAll, List.append_nil, preorder_eq]

/-- A path met again: all that the search skips there has been searched before. -/
theorem Grown.sought_again {chain visited : List Path} {d : Document}
    (h : Grown library (d.path :: chain) d) (hnew : d.path ∉ chain)
    (hvisited : Searched library find chain visited) (hd : d.path ∈ visited) :
    Sought library find chain visited [d] (none, visited) := by
  have hskipped := h.visited hvisited.explored
    (fun path hpath => List.mem_cons_of_mem _ hpath) hnew hd
  constructor
  · rw [preorderAll_singleton, ← preorder_eq, eq_comm, List.findSome?_eq_none_iff]
    intro e he
    obtain ⟨hstored, hpath⟩ := hskipped e he
    exact hvisited.barren e hstored hpath
  · intro _
    refine ⟨hvisited, fun _ hpath => hpath, ?_⟩
    intro e he
    rw [List.mem_singleton.1 he]
    exact hd

/-- The document where the search ends. -/
theorem sought_found {chain visited visited' : List Path} {d : Document} {found : α}
    (hfound : find d = some found) :
    Sought library find chain visited [d] (some found, visited') := by
  refine ⟨?_, fun hnone => absurd hnone (Option.some_ne_none found)⟩
  rw [preorderAll_singleton, List.findSome?_cons, hfound]

/-- The paths visited when a document has been entered and all that it includes has been
    searched: the document leaves the chain, since each path it leads to has been visited or
    lies on the rest of the chain. -/
theorem Explored.leave {chain visited : List Path} {d : Document}
    (h : Explored library (d.path :: chain) visited) (hd : d.path ∈ visited)
    (covers : ∀ path, Leads library d.path path → path ∉ d.path :: chain →
      ∃ i ∈ d.includes, i.path = path)
    (hroots : ∀ i ∈ d.includes, i.path ∈ visited) : Explored library chain visited := by
  intro a ha hoff b hleads
  have hreached : b ∈ visited ∨ b ∈ d.path :: chain := by
    by_cases heq : a = d.path
    · subst heq
      by_cases hb : b ∈ d.path :: chain
      · exact .inr hb
      · obtain ⟨i, hi, rfl⟩ := covers b hleads hb
        exact .inl (hroots i hi)
    · have hoff' : a ∉ d.path :: chain := by
        rw [List.mem_cons, not_or]
        exact ⟨heq, hoff⟩
      exact h a ha hoff' b hleads
  rcases hreached with hb | hb
  · exact .inl hb
  · rcases List.mem_cons.1 hb with rfl | hb
    · exact .inl hd
    · exact .inr hb

variable (hfind : ∀ a b : Document, a.program = b.program → find a = none → find b = none)

include hfind

/-- A document with nothing to be found joins the chain and the visited paths. -/
theorem Searched.enter {chain visited : List Path} {d : Document}
    (h : Searched library find chain visited) (hstored : Stored library d)
    (hnone : find d = none) :
    Searched library find (d.path :: chain) (d.path :: visited) := by
  constructor
  · intro a ha hoff b hleads
    rw [List.mem_cons, not_or] at hoff
    have ha' : a ∈ visited := (List.mem_cons.1 ha).resolve_left hoff.1
    rcases h.explored a ha' hoff.2 b hleads with hb | hb
    · exact .inl (List.mem_cons_of_mem _ hb)
    · exact .inr (List.mem_cons_of_mem _ hb)
  · intro e he hpath
    rcases List.mem_cons.1 hpath with hpath | hpath
    · exact hfind d e (hstored.program_eq he hpath.symm) hnone
    · exact h.barren e he hpath

/-- Searching one tree. -/
theorem Grown.sought {chain' : List Path} {d : Document} (h : Grown library chain' d) :
    ∀ chain, chain' = d.path :: chain → d.path ∉ chain →
      ∀ visited, Searched library find chain visited →
        Sought library find chain visited [d] (search find visited d) := by
  induction h with
  | intro stored covers includes ih =>
    rename_i chain' d
    rintro chain rfl hnew visited hvisited
    rw [search_eq]
    split
    · next hd => exact (Grown.intro stored covers includes).sought_again hnew hvisited hd
    · split
      · next found hfound => exact sought_found hfound
      · next hnone =>
        have hbelow : Sought library find (d.path :: chain) (d.path :: visited) d.includes
            (searchAll find (d.path :: visited) d.includes) := by
          refine sought_searchAll ?_ (hvisited.enter hfind stored hnone)
          intro i hi
          exact ih i hi (d.path :: chain) rfl ((covers i.path).1 ⟨i, hi, rfl⟩).2
        constructor
        · rw [hbelow.answer, preorderAll_singleton, List.findSome?_cons, hnone]
          rfl
        · intro hnone'
          obtain ⟨hsearched, hmore, hroots⟩ := hbelow.searched hnone'
          have hd := hmore d.path List.mem_cons_self
          have hleft := hsearched.explored.leave hd
            (fun path hleads hoff => (covers path).2 ⟨hleads, hoff⟩) hroots
          refine ⟨⟨hleft, hsearched.barren⟩,
            fun path hpath => hmore path (List.mem_cons_of_mem _ hpath), ?_⟩
          intro e he
          rw [List.mem_singleton.1 he]
          exact hd

/-- The search below a document answers like a walk through all documents below it. -/
theorem Rooted.findBelow_eq {chain : List Path} {d : Document} (h : Rooted library chain d) :
    d.findBelow find = d.descendants.findSome? find := by
  have hstart : Searched library find chain [] := ⟨nofun, nofun⟩
  have hsought : Sought library find chain [] d.includes (searchAll find [] d.includes) := by
    refine sought_searchAll ?_ hstart
    intro i hi
    exact (h i hi).2.sought hfind chain rfl (h i hi).1
  exact hsought.answer

end Search

/-! ## Macros and signatures -/

/-- A document that is the root of an include tree, with its text given or read. -/
def IsRoot (library : Library) (root : Document) : Prop :=
  (∃ path text, root = ofText library path text) ∨ ∃ path, load library path = .ok root

theorem IsRoot.exists_rooted {library : Library} {root d : Document} (h : IsRoot library root)
    (hd : d ∈ root.preorder) : ∃ chain, Rooted library chain d := by
  suffices ∃ chain, Rooted library chain root by
    obtain ⟨chain, hrooted⟩ := this
    exact hrooted.exists_rooted hd
  rcases h with ⟨path, text, rfl⟩ | ⟨path, hload⟩
  · exact ⟨_, rooted_build library _ _ text⟩
  · unfold load at hload
    simp only at hload
    split at hload
    · cases hload
      exact ⟨_, rooted_build library _ _ _⟩
    · cases hload

theorem findMacro?_eq (d : Document) (name : String) :
    Scope.findMacro? d name = d.findBelow (ownMacro? name) := rfl

theorem ownMacro?_map (name : String) (d : Document) :
    (ownMacro? name d).map (fun found => (found.program, found.extent, found.scope))
      = (d.program.findMacro? name).map fun extent => (d.program, extent, d) := by
  unfold ownMacro?
  split
  · next extent located => simp only [located, Option.map_some]
  · next located => simp only [located, Option.map_none]

theorem isSome_ownMacro? (name : String) (d : Document) :
    (ownMacro? name d).isSome = (d.program.findMacro? name).isSome := by
  have hmap := congrArg Option.isSome (ownMacro?_map name d)
  rwa [Option.isSome_map, Option.isSome_map] at hmap

theorem ownMacro?_eq_none {name : String} {a b : Document} (h : a.program = b.program)
    (ha : ownMacro? name a = none) : ownMacro? name b = none := by
  rw [← Option.not_isSome_iff_eq_none, isSome_ownMacro?] at ha ⊢
  rwa [← h]

/-- Visiting each path once loses nothing: whatever document of an include tree is asked, the
    macro or signature it answers with is the first one in a walk through all documents below
    it, so that it answers exactly when one of them defines the name. -/
theorem lookup_eq_preorder {library : Library} {root : Document} (hroot : IsRoot library root)
    {d : Document} (hd : d ∈ root.preorder) :
    (∀ name,
      (Scope.findMacro? d name).map (fun found => (found.program, found.extent, found.scope))
        = d.descendants.findSome? fun e =>
          (e.program.findMacro? name).map fun extent => (e.program, extent, e))
    ∧ (∀ kind name, Scope.findSignature? d kind name
        = d.descendants.findSome? fun e => e.program.findSignature? kind name)
    ∧ (∀ name, (Scope.findMacro? d name).isSome
        ↔ ∃ e ∈ d.descendants, (e.program.findMacro? name).isSome)
    ∧ ∀ kind name, (Scope.findSignature? d kind name).isSome
        ↔ ∃ e ∈ d.descendants, (e.program.findSignature? kind name).isSome := by
  obtain ⟨chain, hrooted⟩ := hroot.exists_rooted hd
  have hmacros : ∀ name,
      Scope.findMacro? d name = d.descendants.findSome? (ownMacro? name) := fun name => by
    rw [findMacro?_eq]
    exact hrooted.findBelow_eq fun _ _ => ownMacro?_eq_none
  have hsignature : ∀ kind name, Scope.findSignature? d kind name
      = d.descendants.findSome? fun e => e.program.findSignature? kind name := by
    intro kind name
    refine hrooted.findBelow_eq ?_
    intro a b h ha
    rwa [← h]
  refine ⟨?_, hsignature, ?_, ?_⟩
  · intro name
    rw [hmacros, List.map_findSome?]
    congr 1
    funext e
    exact ownMacro?_map name e
  · intro name
    rw [hmacros, List.isSome_findSome?, List.any_eq_true]
    simp only [isSome_ownMacro?]
  · intro kind name
    rw [hsignature, List.isSome_findSome?, List.any_eq_true]

/-! ## Files that include one another -/

/-- Files of which each leads to each other one. -/
def tangled : Library :=
  .ofTexts
    [("a.huff", "#include \"b.huff\"\n#include \"c.huff\""),
      ("b.huff", "#include \"c.huff\"\n#include \"a.huff\""),
      ("c.huff", "#include \"a.huff\"\n#define macro M() = takes(0) returns(0) \x7b \x7d")]

/-- A document that includes two of them. -/
def tangledRoot : Document :=
  ofText tangled "main.huff" "#include \"b.huff\"\n#include \"a.huff\""

theorem lookup_eq_preorder_tangled :
    IsRoot tangled tangledRoot ∧ tangledRoot ∈ tangledRoot.preorder
      ∧ (Scope.findMacro? tangledRoot "M").isSome
      ∧ (Scope.findMacro? tangledRoot "M").map
          (fun found => (found.program, found.extent, found.scope))
        = tangledRoot.descendants.findSome? fun e =>
          (e.program.findMacro? "M").map fun extent => (e.program, extent, e) := by
  have hroot : IsRoot tangled tangledRoot := .inl ⟨_, _, rfl⟩
  have hself := mem_preorder_self tangledRoot
  obtain ⟨hmacros, -, hsome, -⟩ := lookup_eq_preorder hroot hself
  refine ⟨hroot, hself, (hsome "M").2 ?_, hmacros "M"⟩
  -- The file with the macro stands below the first one that the root includes.
  obtain ⟨b, hb, hbuilt⟩ : ∃ b ∈ tangledRoot.includes,
      b = build tangled [_, _] { segments := [.name "b.huff"] } _ :=
    ⟨_, mem_includes_build.2 ⟨⟨1, { segments := [.name "b.huff"] }⟩, by decide +kernel,
      by decide +kernel, _, rfl, rfl⟩, rfl⟩
  obtain ⟨c, hc, hprogram⟩ : ∃ c ∈ b.includes, (c.program.findMacro? "M").isSome := by
    rw [hbuilt]
    refine ⟨_, mem_includes_build.2 ⟨⟨1, { segments := [.name "c.huff"] }⟩, by decide +kernel,
      by decide +kernel, _, rfl, rfl⟩, ?_⟩
    rw [build]
    decide +kernel
  refine ⟨c, mem_preorderAll.2 ⟨b, hb, ?_⟩, hprogram⟩
  rw [preorder_eq]
  exact List.mem_cons_of_mem _ (mem_preorderAll.2 ⟨c, hc, mem_preorder_self c⟩)

end HuffTrace.Document
