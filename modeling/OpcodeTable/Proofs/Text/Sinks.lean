import Mathlib
import OpcodeTable.Text
import OpcodeTable.Text.Output

/-!
# Writing to sinks

Writing one text and then another is writing both as one, whatever room a sink has.  What is put
together from writes in order, each made only where the one before was not refused, therefore does
to every sink what a single write of its whole text does.  A sink that refuses it is left with the
part of the text that fits.
-/

namespace OpcodeTable.Sink

theorem write_of_le {piece : String} {room : Nat} (hfits : piece.length ≤ room)
    (written : String) :
    (Sink.mk written (some room)).write piece =
      .ok ⟨written ++ piece, some (room - piece.length)⟩ :=
  if_pos hfits

theorem write_of_lt {piece : String} {room : Nat} (hrefused : room < piece.length)
    (written : String) :
    (Sink.mk written (some room)).write piece =
      .error ⟨written ++ String.ofList (piece.toList.take room), some 0⟩ :=
  if_neg (Nat.not_le.2 hrefused)

theorem write_empty (sink : Sink) : sink.write "" = .ok sink := by
  obtain ⟨written, _ | room⟩ := sink <;> simp [write]

/-- A text is taken in two parts as it is taken at once, also where it does not fit. -/
theorem write_append (sink : Sink) (front back : String) :
    sink.write (front ++ back) = sink.write front >>= fun sink => sink.write back := by
  have hlength : (front ++ back).length = front.length + back.length := String.length_append _ _
  obtain ⟨written, _ | room⟩ := sink
  · simp [write, bind, Except.bind, String.append_assoc]
  · by_cases hfront : front.length ≤ room
    · rw [write_of_le hfront]
      show _ = (Sink.mk (written ++ front) (some (room - front.length))).write back
      by_cases hback : back.length ≤ room - front.length
      · rw [write_of_le hback, write_of_le (by omega), hlength, String.append_assoc,
          Nat.sub_add_eq]
      · have htake : (front ++ back).toList.take room =
            front.toList ++ back.toList.take (room - front.length) := by
          rw [String.toList_append, List.take_append, String.length_toList,
            List.take_of_length_le (by rwa [String.length_toList])]
        rw [write_of_lt (by omega), write_of_lt (by omega), htake, String.ofList_append,
          String.ofList_toList, String.append_assoc]
    · have htake : (front ++ back).toList.take room = front.toList.take room := by
        rw [String.toList_append,
          List.take_append_of_le_length (by rw [String.length_toList]; omega)]
      rw [write_of_lt (by omega), write_of_lt (by omega), htake]
      rfl

/-- An operation does to every sink what writing a text at once does. -/
def Writes (operation : Sink → Result) (text : String) : Prop :=
  ∀ sink, operation sink = sink.write text

namespace Writes

variable {first second operation : Sink → Result} {front back text : String}

theorem skip : Writes pure "" := fun sink => (write_empty sink).symm

/-- Operations that write texts write them behind one another, up to where one is refused. -/
theorem andThen (hfirst : Writes first front) (hsecond : Writes second back) :
    Writes (fun sink => first sink >>= second) (front ++ back) := by
  intro sink
  rw [write_append, ← hfirst sink]
  exact congrArg (first sink >>= ·) (funext hsecond)

/-- What is done for one item after the other writes the texts of the items in their order. -/
theorem forEach {α : Type} {step : Sink → α → Result} {textFor : α → String}
    (hstep : ∀ item, Writes (fun sink => step sink item) (textFor item)) (items : List α) :
    Writes (fun sink => items.foldlM step sink) (String.join (items.map textFor)) := by
  induction items with
  | nil => exact skip
  | cons item items ih =>
      rw [List.map_cons, String.join_cons]
      exact (hstep item).andThen ih

theorem unlimited (hwrites : Writes operation text) :
    operation Sink.unlimited = .ok ⟨text, none⟩ := by
  rw [hwrites]
  simp [write, Sink.unlimited]

theorem textOf_eq (hwrites : Writes operation text) : textOf operation = text := by
  rw [textOf, hwrites.unlimited]
  rfl

theorem limited_of_le (hwrites : Writes operation text) {capacity : Nat}
    (hfits : text.length ≤ capacity) :
    operation (limited capacity) = .ok ⟨text, some (capacity - text.length)⟩ := by
  rw [hwrites, limited, write_of_le hfits, String.empty_append]

theorem limited_of_lt (hwrites : Writes operation text) {capacity : Nat}
    (hrefused : capacity < text.length) :
    operation (limited capacity) =
      .error ⟨String.ofList (text.toList.take capacity), some 0⟩ := by
  rw [hwrites, limited, write_of_lt hrefused, String.empty_append]

end Writes

theorem writes_writeAll (pieces : List String) :
    Writes (fun sink => sink.writeAll pieces) (String.join pieces) := by
  have hpieces : Writes (fun sink => pieces.foldlM write sink) (String.join (pieces.map id)) :=
    .forEach (fun _ _ => rfl) pieces
  rwa [List.map_id] at hpieces

theorem writes_writeLine (line : String) :
    Writes (fun sink => sink.writeLine line) (line ++ "\n") := by
  have hpieces := writes_writeAll [line, "\n"]
  rwa [String.join_cons, String.join_cons, String.join_nil, String.append_empty] at hpieces

theorem writes_writeLines (lines : List String) :
    Writes (fun sink => sink.writeLines lines) (Line.join lines) :=
  .forEach writes_writeLine lines

/-- What an operation leaves in sinks of every capacity.  It succeeds exactly where its whole text
fits, which is then in the sink, and where it is refused the sink holds as much of the text as
fits. -/
structure LeavesPrefix (operation : Sink → Result) : Prop where
  unlimited : operation .unlimited = .ok ⟨textOf operation, none⟩
  fits {capacity : Nat} (hfits : (textOf operation).length ≤ capacity) :
    operation (limited capacity) =
      .ok ⟨textOf operation, some (capacity - (textOf operation).length)⟩
  refused {capacity : Nat} (hrefused : capacity < (textOf operation).length) :
    operation (limited capacity) =
      .error ⟨String.ofList ((textOf operation).toList.take capacity), some 0⟩

/-- The pieces in which a text is written do not show in what a sink is left with. -/
theorem Writes.leavesPrefix {operation : Sink → Result} {text : String}
    (hwrites : Writes operation text) : LeavesPrefix operation := by
  obtain rfl := hwrites.textOf_eq
  exact ⟨hwrites.unlimited, hwrites.limited_of_le, hwrites.limited_of_lt⟩

end OpcodeTable.Sink
