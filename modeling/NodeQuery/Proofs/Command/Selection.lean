import NodeQuery.Command.Run
import NodeQuery.Proofs.Json.Printing
import NodeQuery.Proofs.Query.HostLists
import NodeQuery.Proofs.Query.Selection

/-!
# Printed selections

The four formats describe one selection. What each of them prints is said here by the records and
the query's acceptance of each of them, without a set of rows; the format of a command line that
succeeds can be changed, and the command still succeeds on the same records. The printed array is
known from its text: that is read as the accepted records and as nothing else.
-/
namespace NodeQuery.Command

/-- What is printed for the records that a query accepts: a digit for every record on one line, the
indices or the host names of those that are accepted, each on its line, or an array of them. -/
def selectionText (e : Query.Expr) (records : List Json) : Format → String
  | .bits => String.ofList (records.map fun r => if e.accepts r then '1' else '0') ++ "\n"
  | .indices => lines ((e.acceptedIndices records).map toString)
  | .json => Json.render 0 (.array (records.filter fun r => e.accepts r)) ++ "\n"
  | .hosts => lines ((records.filter fun r => e.accepts r).filterMap Record.hostName?)

theorem renderSelection_select (e : Query.Expr) (records : List Json) (format : Format) :
    renderSelection format records.toArray (e.select records.toArray) =
      selectionText e records format := by
  have hrows : (e.select records.toArray).walk.filterMap (fun index => records.toArray[index]?) =
      records.filter e.accepts := by
    rw [e.walk_select, ← e.filterMap_acceptedIndices]
    simp
  cases format with
  | json => rw [renderSelection, hrows, selectionText]
  | hosts => rw [renderSelection, hrows, selectionText]
  | indices => rw [renderSelection, e.walk_select, selectionText]
  | bits =>
    rw [renderSelection, RowSet.bitText, e.toBits_select, selectionText, List.map_map]
    rfl

/-- The query and the records that a selection is made from. -/
structure Selects (around : Surroundings) (invocation : Invocation) (query : String)
    (file : Option String) (e : Query.Expr) (records : List Json) : Prop where
  compiles : compileQuery around invocation query = .ok e
  reads : ∃ text, readInput around file = .ok text ∧ readRecords text = some records

section Select
variable {around : Surroundings} {invocation : Invocation} {query : String} {file : Option String}
  {format : Format} {e : Query.Expr} {records : List Json}

theorem Selects.select_eq (h : Selects around invocation query file e records) (format : Format) :
    select around invocation query file format = .ok (selectionText e records format) := by
  obtain ⟨hcompile, text, htext, hrecords⟩ := h
  unfold select
  rw [hcompile, htext]
  simp only [bind, Except.bind, hrecords, renderSelection_select]
  rfl

/-- A command line has one query and one list of records. -/
theorem Selects.unique {f : Query.Expr} {others : List Json}
    (h : Selects around invocation query file e records)
    (h' : Selects around invocation query file f others) : f = e ∧ others = records := by
  obtain ⟨hcompile, text, htext, hrecords⟩ := h
  obtain ⟨hcompile', text', htext', hrecords'⟩ := h'
  cases hcompile.symm.trans hcompile'
  cases htext.symm.trans htext'
  cases hrecords.symm.trans hrecords'
  exact ⟨rfl, rfl⟩

theorem exists_selects {output : String}
    (h : select around invocation query file format = .ok output) :
    ∃ e records, Selects around invocation query file e records := by
  unfold select at h
  cases hcompile : compileQuery around invocation query with
  | error error => simp [hcompile, bind, Except.bind] at h
  | ok e =>
    cases htext : readInput around file with
    | error error => simp [hcompile, htext, bind, Except.bind] at h
    | ok text =>
      cases hrecords : readRecords text with
      | none => simp [hcompile, htext, hrecords, bind, Except.bind] at h
      | some records => exact ⟨e, records, hcompile, text, htext, hrecords⟩

theorem perform_select (haction : invocation.action = .select query file format) :
    perform around invocation =
      (Report.ofExcept (select around invocation query file format)).outcome := by
  rw [perform, haction]

/-- The text of the array is read as the accepted records, and as no other value. -/
theorem Selects.spells_json_iff (h : Selects around invocation query file e records)
    (value : Json) :
    Json.Spells (selectionText e records .json).toList value ↔
      value = .array (records.filter fun r => e.accepts r) := by
  obtain ⟨-, text, -, hrecords⟩ := h
  have hproper : (Json.array (records.filter fun r => e.accepts r)).IsProper :=
    .array fun record hrecord =>
      isProper_of_readRecords hrecords record (List.mem_of_mem_filter hrecord)
  have hblank : ∀ c ∈ ['\n'], Json.isBlank c = true := List.forall_mem_singleton.mpr rfl
  rw [selectionText, String.toList_append]
  exact Json.spells_render_append_iff hproper 0 hblank

theorem exists_ok_of_code_eq_zero {r : Except Error String}
    (h : (Report.ofExcept r).outcome.code = 0) : ∃ output, r = .ok output := by
  cases r with
  | error error => cases h
  | ok output => exact ⟨output, rfl⟩

/-- A selection that succeeds succeeds in every format, on the same query and records. What it lists
at once and what it walks through are the same indices, and none of them is past the records. The
text of the array spells the accepted records in their order and no other value. -/
theorem run_select_formats {arguments : List String}
    (hread : readInvocation arguments = .ok invocation)
    (haction : invocation.action = .select query file format)
    (hcode : (run around arguments).code = 0) :
    ∃ e records, Selects around invocation query file e records ∧
      (e.select records.toArray).walk = (e.select records.toArray).toList ∧
      (∀ index ∈ (e.select records.toArray).toList, index < records.length) ∧
      (∀ value, Json.Spells (selectionText e records .json).toList value ↔
        value = .array (records.filter fun r => e.accepts r)) ∧
      ∀ (other : Format) (others : List String),
        readInvocation others = .ok { invocation with action := .select query file other } →
        run around others = ⟨0, selectionText e records other, ""⟩ := by
  rw [run, hread] at hcode
  dsimp only at hcode
  rw [perform_select haction] at hcode
  obtain ⟨output, houtput⟩ := exists_ok_of_code_eq_zero hcode
  obtain ⟨e, records, hselects⟩ := exists_selects houtput
  refine ⟨e, records, hselects, RowSet.walk_eq_toList _, fun index hindex => ?_,
    hselects.spells_json_iff, fun other others hothers => ?_⟩
  · rw [e.toList_select] at hindex
    exact Query.Expr.lt_length_of_mem_acceptedIndices hindex
  · rw [run, hothers]
    dsimp only
    have hother : Selects around { invocation with action := .select query file other } query file
        e records := ⟨hselects.compiles, hselects.reads⟩
    rw [perform_select rfl, hother.select_eq]
    rfl

end Select

/-- A host pattern and three records, one of them without a name. -/
theorem run_select_formats_star :
    let around : Surroundings :=
      ⟨fun _ => none,
        some ("\x7b\"hostname\":\"n1\",\"cpus\":4\x7d\n" ++ "\x7b\x7d\n" ++
          "\x7b\"hostname\":\"n2\"\x7d"), none, ""⟩
    let array := "[\n  \x7b\n    \"cpus\": 4,\n    \"hostname\": \"n1\"\n  \x7d,\n" ++
      "  \x7b\n    \"hostname\": \"n2\"\n  \x7d\n]\n"
    (run around ["--no-catalog", "select", "n*"]).code = 0 ∧
      run around ["--no-catalog", "select", "n*", "-f", "bits"] = ⟨0, "101\n", ""⟩ ∧
      run around ["--no-catalog", "select", "n*", "-f", "indices"] = ⟨0, "0\n2\n", ""⟩ ∧
      run around ["--no-catalog", "select", "n*", "-f", "hosts"] = ⟨0, "n1\nn2\n", ""⟩ ∧
      run around ["--no-catalog", "select", "n*", "-f", "json"] = ⟨0, array, ""⟩ ∧
      ∀ value, Json.Spells array.toList value ↔
        value = .array [.object [("cpus", .integer 4), ("hostname", .string "n1")],
          .object [("hostname", .string "n2")]] := by
  intro around array
  let invocation : Invocation := ⟨.select "n*" none .json, none, true⟩
  let first : Json := .object [("cpus", .integer 4), ("hostname", .string "n1")]
  let last : Json := .object [("hostname", .string "n2")]
  have hsegments : Host.Segment.readAll 1 "n*".toList = .ok [.literal 'n', .star] :=
    Host.Segment.readAll_cons rfl (by decide) <| Host.Segment.readAll_cons rfl (by decide)
      (Host.Segment.readAll_nil (by decide))
  let pattern : Host.Pattern := ⟨"n*", .leading, _, hsegments⟩
  have hcompile : compileQuery around invocation "n*" = .ok (.node pattern) := by
    have hword : ∀ w ∈ ["n*"], Query.IsWord w :=
      List.forall_mem_singleton.mpr ⟨by decide, List.all_eq_true.mp (by decide), by decide⟩
    have hpattern : Host.CompileTo .leading ["n*"] [pattern] :=
      .cons (Host.Pattern.compile_of_readAll .leading hsegments) .nil
    exact congrArg (Except.mapError Error.query) (Query.compile_intercalate_or hword hpattern)
  have hselects : Selects around invocation "n*" none (.node pattern) [first, .object [], last] :=
    ⟨hcompile, _, rfl, by cbv⟩
  have hread : readInvocation ["--no-catalog", "select", "n*"] = .ok invocation := rfl
  have hcode : (run around ["--no-catalog", "select", "n*"]).code = 0 := by
    have haction : invocation.action = .select "n*" none .json := rfl
    simp only [run, hread, perform_select haction, hselects.select_eq]
    rfl
  obtain ⟨e, records, hfound, -, -, hspells, hformats⟩ := run_select_formats hread rfl hcode
  obtain ⟨rfl, rfl⟩ := hselects.unique hfound
  have haccepts : (Query.Expr.node pattern).accepts =
      fun r : Json => (Record.hostName? r).any pattern.accepts :=
    funext (Query.Expr.accepts_node pattern)
  have hindices : (Query.Expr.node pattern).acceptedIndices [first, .object [], last] =
      [0, 2] := by
    rw [Query.Expr.acceptedIndices, haccepts]
    rfl
  have haccepted : [first, .object [], last].filter (Query.Expr.node pattern).accepts =
      [first, last] := by
    rw [haccepts]
    rfl
  have harray : selectionText (.node pattern) [first, .object [], last] .json = array := by
    rw [selectionText, haccepted]
    rfl
  rw [harray, haccepted] at hspells
  refine ⟨hcode, ?_, ?_, ?_, ?_, hspells⟩
  · rw [hformats .bits _ rfl, selectionText, haccepts]
    rfl
  · rw [hformats .indices _ rfl, selectionText, hindices]
    rfl
  · rw [hformats .hosts _ rfl, selectionText, haccepted]
    rfl
  · rw [hformats .json _ rfl, harray]

end NodeQuery.Command
