/-
  HuffTrace.Proofs.Report.Json

  Reports in their JSON form.  A report whose lines fit in 32 bits is read back
  from its text in either layout, and what is read from any text at all has such
  lines; so writing a report that was read and reading it again changes neither
  the report nor its text (`json_round_trip`).
-/

import HuffTrace.Proofs.Json.Written
import HuffTrace.Report

namespace HuffTrace.Report

/-- All lines fit in 32 bits. -/
structure InRange (r : Report) : Prop where
  comments : ∀ c ∈ r.comments, c.line < UInt32.size
  diagnostics : ∀ d ∈ r.diagnostics, d.line < UInt32.size

/-! ## Lines with a text -/

section Entry

variable (name text : String) (line : Nat)

theorem built_entry : (Json.ofFields [("line", .ofNat line), (name, .ofString text)]).Built := by
  refine .object fun field hfield => ?_
  simp only [List.mem_cons, List.not_mem_nil, or_false] at hfield
  rcases hfield with rfl | rfl
  · exact .number line
  · exact .string text

theorem fields?_entry (h : "line" ≠ name) :
    (Json.ofFields [("line", .ofNat line), (name, .ofString text)]).fields? ["line", name]
      = some [.ofNat line, .ofString text] :=
  Json.fields?_ofFields [("line", .ofNat line), (name, .ofString text)] (by simpa using h)

end Entry

theorem commentOfJson?_toJson {c : Comment} (h : c.line < UInt32.size) :
    commentOfJson? (commentToJson c) = some c := by
  rw [commentOfJson?, commentToJson, fields?_entry _ _ _ (by decide)]
  simp only [Option.bind_eq_bind, Option.bind_some, lineOfJson?, Json.toNat?_ofNat h,
    Json.toString?_ofString, Option.pure_def]

theorem diagnosticOfJson?_toJson {d : Diagnostic} (h : d.line < UInt32.size) :
    diagnosticOfJson? (diagnosticToJson d) = some d := by
  rw [diagnosticOfJson?, diagnosticToJson, fields?_entry _ _ _ (by decide)]
  simp only [Option.bind_eq_bind, Option.bind_some, lineOfJson?, Json.toNat?_ofNat h,
    Json.toString?_ofString, Option.pure_def]

theorem line_lt_of_commentOfJson? {value : Json} {c : Comment} (h : commentOfJson? value = some c) :
    c.line < UInt32.size := by
  simp only [commentOfJson?, Option.bind_eq_bind, Option.bind_eq_some_iff] at h
  obtain ⟨fields, -, h⟩ := h
  split at h
  · simp only [Option.bind_eq_some_iff, Option.pure_def, Option.some.injEq] at h
    obtain ⟨line, hline, stack, -, rfl⟩ := h
    exact Json.lt_of_toNat? hline
  · cases h

theorem line_lt_of_diagnosticOfJson? {value : Json} {d : Diagnostic}
    (h : diagnosticOfJson? value = some d) : d.line < UInt32.size := by
  simp only [diagnosticOfJson?, Option.bind_eq_bind, Option.bind_eq_some_iff] at h
  obtain ⟨fields, -, h⟩ := h
  split at h
  · simp only [Option.bind_eq_some_iff, Option.pure_def, Option.some.injEq] at h
    obtain ⟨line, hline, message, -, rfl⟩ := h
    exact Json.lt_of_toNat? hline
  · cases h

/-! ## Reports -/

theorem built_toJson (r : Report) : r.toJson.Built := by
  refine .object fun field hfield => ?_
  simp only [List.mem_cons, List.not_mem_nil, or_false] at hfield
  rcases hfield with rfl | rfl | rfl | rfl
  · exact .string r.path
  · refine .array fun item hitem => ?_
    obtain ⟨c, -, rfl⟩ := List.mem_map.1 hitem
    exact built_entry "stack" c.stack c.line
  · refine .array fun item hitem => ?_
    obtain ⟨d, -, rfl⟩ := List.mem_map.1 hitem
    exact built_entry "message" d.message d.line
  · exact .bool r.halted

theorem ofJson?_toJson {r : Report} (h : r.InRange) : ofJson? r.toJson = some r := by
  have hcomments : (r.comments.map commentToJson).mapM commentOfJson? = some (r.comments.map id) :=
    Json.mapM_map_eq_some fun c hc => commentOfJson?_toJson (h.comments c hc)
  have hdiagnostics : (r.diagnostics.map diagnosticToJson).mapM diagnosticOfJson?
      = some (r.diagnostics.map id) :=
    Json.mapM_map_eq_some fun d hd => diagnosticOfJson?_toJson (h.diagnostics d hd)
  have hfields : r.toJson.fields? ["path", "comments", "diagnostics", "halted"]
      = some [.ofString r.path, .array (r.comments.map commentToJson),
          .array (r.diagnostics.map diagnosticToJson), .bool r.halted] :=
    Json.fields?_ofFields _ (show ["path", "comments", "diagnostics", "halted"].Nodup by decide)
  rw [ofJson?, hfields]
  simp only [Option.bind_eq_bind, Option.bind_some, Json.toString?_ofString, Json.toList?,
    hcomments, hdiagnostics, List.map_id, Json.toBool?, Option.pure_def]

theorem inRange_of_ofJson? {value : Json} {r : Report} (h : ofJson? value = some r) :
    r.InRange := by
  simp only [ofJson?, Option.bind_eq_bind, Option.bind_eq_some_iff] at h
  obtain ⟨fields, -, h⟩ := h
  split at h
  · simp only [Option.bind_eq_some_iff, Option.pure_def, Option.some.injEq] at h
    obtain ⟨path, -, commentItems, -, comments, hcomments, diagnosticItems, -, diagnostics,
      hdiagnostics, halted, -, rfl⟩ := h
    refine ⟨fun c hc => ?_, fun d hd => ?_⟩
    · obtain ⟨item, -, hitem⟩ := Json.exists_of_mem_mapM hcomments hc
      exact line_lt_of_commentOfJson? hitem
    · obtain ⟨item, -, hitem⟩ := Json.exists_of_mem_mapM hdiagnostics hd
      exact line_lt_of_diagnosticOfJson? hitem
  · cases h

/-! ## Texts -/

theorem parse?_render {r : Report} (h : r.InRange) (layout : Json.Layout) :
    parse? (r.render layout) = some r := by
  rw [parse?, render, Json.parse?_render r.built_toJson, Option.bind_some, ofJson?_toJson h]

theorem inRange_of_parse? {text : String} {r : Report} (h : parse? text = some r) :
    r.InRange := by
  obtain ⟨value, -, hvalue⟩ := Option.bind_eq_some_iff.1 h
  exact inRange_of_ofJson? hvalue

/-- A report is read back from its compact and from its indented text, whatever its path, stacks
    and messages, as long as its lines fit in 32 bits.  Reading a text, however it is laid out
    and whatever else it holds, and writing the report that it gives is done after one time:
    the indented text of the report gives that report and with it the same text again. -/
theorem json_round_trip :
    (∀ r : Report, r.InRange →
      parse? (r.render .compact) = some r ∧ parse? (r.render .pretty) = some r)
    ∧ ∀ text answer, (parse? text).map (render .pretty) = some answer →
      parse? answer = parse? text ∧ (parse? answer).map (render .pretty) = some answer := by
  refine ⟨fun r h => ⟨parse?_render h .compact, parse?_render h .pretty⟩, ?_⟩
  intro text answer hanswer
  obtain ⟨r, hread, rfl⟩ := Option.map_eq_some_iff.1 hanswer
  have hagain : parse? (r.render .pretty) = some r :=
    parse?_render (inRange_of_parse? hread) .pretty
  refine ⟨hagain.trans hread.symm, ?_⟩
  rw [hagain, Option.map_some]

/-- Every kind of escape in the texts and the largest line; and a text with a report in the array
    form, with an escape that is not needed and a field that is ignored. -/
theorem json_round_trip_awkward :
    let report : Report :=
      { path := "a\"\\/\x00\x7f"
        comments := [⟨0, "[😀, é]"⟩, ⟨4294967295, ""⟩]
        diagnostics := [⟨1, "\t\x1f\r\n\x08\x0c"⟩]
        halted := true }
    let text := "[\"\\u0070\",[],\n[\x7b\"of\":-1e5,\"line\":7,\"message\":\"m\"\x7d],false] "
    let answer := "\x7b\n  \"path\": \"p\",\n  \"comments\": [],\n  \"diagnostics\": [\n    \x7b\n"
      ++ "      \"line\": 7,\n      \"message\": \"m\"\n    \x7d\n  ],\n  \"halted\": false\n\x7d"
    report.InRange
      ∧ (parse? (report.render .compact) = some report
        ∧ parse? (report.render .pretty) = some report)
      ∧ (parse? text).map (render .pretty) = some answer
      ∧ parse? answer = parse? text ∧ (parse? answer).map (render .pretty) = some answer := by
  intro report text answer
  have hrange : report.InRange := ⟨by decide, by decide⟩
  have hanswer : (parse? text).map (render .pretty) = some answer := by decide +kernel
  exact ⟨hrange, json_round_trip.1 report hrange, hanswer, json_round_trip.2 text answer hanswer⟩

end HuffTrace.Report
