import OpcodeTable.Initializer
import OpcodeTable.Proofs.Text.Words
import OpcodeTable.Proofs.Text.Sinks

/-!
# Writing runs, tables and name arrays

All writing of the library is put together from single writes in order, so it does to every sink
what a write of its whole text does.  A sink without a limit is left with that text.  One that
becomes full ends the writing there, and holds a prefix of the text that is as long as its capacity.
-/

namespace OpcodeTable

/-- The pieces of a run's line make up the line with its break. -/
theorem Run.join_linePieces (column : Nat) (run : Run String) :
    String.join (run.linePieces column) = run.line column ++ "\n" := by
  have hblanks (count : Nat) :
      String.join (List.replicate count " ") = String.ofList (List.replicate count ' ') := by
    induction count with
    | zero => rfl
    | succ count ih =>
        rw [List.replicate_succ, String.join_cons, ih, List.replicate_succ,
          ← List.singleton_append, String.ofList_append]
  simp only [linePieces, line, String.join_append, String.join_cons, String.join_nil, hblanks,
    String.append_assoc, String.append_empty]

open Sink (Writes)

theorem Run.writes_write (run : Run String) : Writes run.write run.invocation :=
  Sink.writes_writeAll run.pieces

theorem writes_writeRuns (runs : List (Run String)) (column : Nat) :
    Writes (writeRuns runs column) (Line.join (runs.map (Run.line column))) := by
  have hruns := Writes.forEach (fun run => Sink.writes_writeAll (Run.linePieces column run)) runs
  rw [Line.join, List.map_map]
  simp only [Run.join_linePieces] at hruns
  exact hruns

theorem writes_writeNameArray (table : Table) (config : Config) :
    Writes (writeNameArray table config) (NameArray.text config.arrayName table) :=
  Sink.writes_writeLines (NameArray.lines config.arrayName table)

/-- A declaration is written in many pieces, which together are the text of the initializer. -/
theorem writes_writeTable (table : Table) (config : Config) :
    Writes (writeTable table config) (Initializer.text table config) := by
  have hpreamble := Sink.writes_writeLines (Initializer.preamble config)
  have hruns := writes_writeRuns (compress table.handlers) config.commentColumn.toNat
  have htrailer := Sink.writes_writeLines Initializer.trailer
  have harray : Writes
      (fun sink => if config.includeNames then
        sink.writeLine "" >>= writeNameArray table config else pure sink)
      (Line.join (if config.includeNames then
        "" :: NameArray.lines config.arrayName table else [])) := by
    split
    · rw [Line.join_cons]
      exact (Sink.writes_writeLine "").andThen (writes_writeNameArray table config)
    · exact Writes.skip
  rw [Initializer.text, Initializer.lines, Line.join_append, Line.join_append, Line.join_append,
    String.append_assoc, String.append_assoc]
  exact hpreamble.andThen (hruns.andThen (htrailer.andThen harray))

theorem Run.write_unlimited (run : Run String) :
    run.write .unlimited = .ok ⟨run.invocation, none⟩ :=
  run.writes_write.unlimited

theorem writeRuns_unlimited (runs : List (Run String)) (column : Nat) :
    writeRuns runs column .unlimited = .ok ⟨Line.join (runs.map (Run.line column)), none⟩ :=
  (writes_writeRuns runs column).unlimited

theorem writeNameArray_unlimited (table : Table) (config : Config) :
    writeNameArray table config .unlimited =
      .ok ⟨NameArray.text config.arrayName table, none⟩ :=
  (writes_writeNameArray table config).unlimited

/-- Nothing refuses the declaration of a table where the sink is unlimited. -/
theorem writeTable_unlimited (table : Table) (config : Config) :
    writeTable table config .unlimited = .ok ⟨Initializer.text table config, none⟩ :=
  (writes_writeTable table config).unlimited

/-- Runs, tables, name arrays and invocations are written up to the first refusal.  Where a sink has
room for the whole text it holds that text, and otherwise the first characters of it, as many as the
sink takes. -/
theorem refused_writes_leave_prefix :
    (∀ (runs : List (Run String)) (column : Nat),
      Sink.LeavesPrefix (writeRuns runs column) ∧
        textOf (writeRuns runs column) = Line.join (runs.map (Run.line column))) ∧
    (∀ (table : Table) (config : Config),
      Sink.LeavesPrefix (writeTable table config) ∧
        textOf (writeTable table config) = Initializer.text table config) ∧
    (∀ (table : Table) (config : Config),
      Sink.LeavesPrefix (writeNameArray table config) ∧
        textOf (writeNameArray table config) = NameArray.text config.arrayName table) ∧
    ∀ run : Run String,
      Sink.LeavesPrefix run.write ∧ textOf run.write = run.invocation := by
  refine ⟨fun runs column => ?_, fun table config => ?_, fun table config => ?_, fun run => ?_⟩
  · have hwrites := writes_writeRuns runs column
    exact ⟨hwrites.leavesPrefix, hwrites.textOf_eq⟩
  · have hwrites := writes_writeTable table config
    exact ⟨hwrites.leavesPrefix, hwrites.textOf_eq⟩
  · have hwrites := writes_writeNameArray table config
    exact ⟨hwrites.leavesPrefix, hwrites.textOf_eq⟩
  · have hwrites := run.writes_write
    exact ⟨hwrites.leavesPrefix, hwrites.textOf_eq⟩

/-- Three entries are not a block of the preamble, and the second one of their listing is cut. -/
example : Run.write ⟨0, 3, .repeated "h"⟩ (.limited 14) =
    .error ⟨"ARM_FN(h), ARM", some 0⟩ := by
  cbv

end OpcodeTable
