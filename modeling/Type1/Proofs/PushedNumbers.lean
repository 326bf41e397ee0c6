import Type1.Proofs.CounterGrammar
import Type1.Proofs.PendingMove

/-!
# Numbers that a run pushes

Numbers that are read one after the other come to lie on the operand stack in their order, as long
as there is room for them, and nothing else happens.

* `Cursor.Reads`: the instructions from one cursor to another.
* `Moment.Pushes`: what distinguishes a moment from an earlier one after which numbers were pushed.
* `Moment.step_number`, `Moment.step_number_full`: one number. `Moment.run_numbers`: any number of
  them that there is room for.
-/

namespace Type1

variable {s : Source} {setup : Setup}

/-- These instructions are read from one cursor to another, one after the other. -/
inductive Cursor.Reads : Cursor s → List Instruction → Cursor s → Prop where
  /-- No instruction is read. -/
  | nil (c : Cursor s) : Reads c [] c
  /-- An instruction is read, and then the others. -/
  | cons {c next last : Cursor s} {i : Instruction} {later : List Instruction}
      {calls : List Source.Call} (hread : c.readInstruction = .done i next calls)
      (h : Reads next later last) : Reads c (i :: later) last

theorem Decoder.recordCalls_append (d : Decoder) (calls calls' : List Source.Call) :
    d.recordCalls (calls ++ calls') = (d.recordCalls calls).recordCalls calls' :=
  List.foldl_append

theorem Decoder.recordCalls_setOperands (d : Decoder) (operands : Operands)
    (calls : List Source.Call) : { d with operands }.recordCalls calls =
      { d.recordCalls calls with operands } := by
  unfold recordCalls
  induction calls generalizing d with
  | nil => rfl
  | cons call calls ih => exact ih (d.record (.called call))

/-- The later moment `l` is at the same level, and its state is that of `m` with these values on top
of the operands, apart from calls of the source in the history. -/
structure Moment.Pushes (m l : Moment s) (values : List Number) : Prop where
  frames : l.frames = m.frames
  operands : l.decoder.operands.toList = m.decoder.operands.toList ++ values
  decoder : ∃ calls, l.decoder = { m.decoder.recordCalls calls with operands := l.decoder.operands }

namespace Moment

variable {m l k : Moment s} {values later : List Number} {v : Number} {next last : Cursor s}
  {calls : List Source.Call}

namespace Pushes

theorem refl (m : Moment s) : m.Pushes m [] where
  frames := rfl
  operands := (List.append_nil _).symm
  decoder := ⟨[], rfl⟩

theorem trans (h : m.Pushes l values) (h' : l.Pushes k later) : m.Pushes k (values ++ later) where
  frames := h'.frames.trans h.frames
  operands := by rw [h'.operands, h.operands, List.append_assoc]
  decoder := by
    obtain ⟨calls, hl⟩ := h.decoder
    obtain ⟨calls', hk⟩ := h'.decoder
    refine ⟨calls ++ calls', hk.trans ?_⟩
    rw [hl, Decoder.recordCalls_setOperands, Decoder.recordCalls_append]

/-- The glyph gets nothing. -/
theorem elements (h : m.Pushes l values) : l.decoder.elements = m.decoder.elements := by
  obtain ⟨calls, hl⟩ := h.decoder
  rw [hl]
  exact m.decoder.recordCalls_elements calls

theorem size (h : m.Pushes l values) :
    l.decoder.operands.size = m.decoder.operands.size + values.length := by
  unfold Operands.size
  rw [h.operands, List.length_append]

/-- The state is the earlier one with the values on top of its operands. -/
theorem agree (h : m.Pushes l values) {d : Decoder} (hm : m.decoder.Agree Event.isElement d)
    {operands : Operands} (htop : operands.toList = d.operands.toList ++ values) :
    l.decoder.Agree Event.isElement { d with operands } := by
  obtain ⟨calls, hdecoder⟩ := h.decoder
  have hoperands : l.decoder.operands = operands := by
    have hsame : m.decoder.operands = d.operands := congrArg (·.operands) hm.1
    exact Operands.ext (by rw [h.operands, htop, hsame])
  rw [hdecoder, hoperands]
  exact (hm.recordCalls (fun _ => rfl) calls).map (f := fun d => { d with operands })
    fun _ _ => rfl

end Pushes

/-- A number that there is room for is pushed. -/
theorem step_number (setup : Setup)
    (hread : m.cursor.readInstruction = .done (.number v) next calls)
    (hroom : m.decoder.operands.size < Operands.capacity) :
    ∃ l, Run.step s setup m = .running l ∧ l.cursor = next ∧ m.Pushes l [v] := by
  obtain ⟨history, hcalls⟩ := m.decoder.recordCalls_eq calls
  let operands : Operands := ⟨m.decoder.operands.toList ++ [v], by
    rw [List.length_append]
    exact hroom⟩
  have hpush : Decode.push v (m.decoder.recordCalls calls) =
      .ok () { m.decoder.recordCalls calls with operands } := by
    refine Decode.pushAll_run ?_
    rw [hcalls]
    exact dif_pos hroom
  exact ⟨_, Run.step_of_next hread (Decode.bind_run hpush), rfl, rfl, rfl, calls, rfl⟩

/-- A number that there is no room for is an error, and changes nothing. -/
theorem step_number_full (hread : m.cursor.readInstruction = .done (.number v) next calls)
    (hfull : m.decoder.operands.size = Operands.capacity) :
    Run.step s setup m =
      .ended (.error .stackOverflow ⟨next.state, m.decoder.recordCalls calls⟩) := by
  obtain ⟨history, hcalls⟩ := m.decoder.recordCalls_eq calls
  have hpush : Decode.push v (m.decoder.recordCalls calls) =
      .error .stackOverflow (m.decoder.recordCalls calls) := by
    refine Decode.pushAll_run_full ?_
    rw [hcalls]
    exact hfull ▸ Nat.lt_succ_self _
  have hx : Decode.execute setup (.number v) (m.decoder.recordCalls calls) =
      .error .stackOverflow (m.decoder.recordCalls calls) := Decode.bind_run_error hpush
  simp only [Run.step, Run.stepWith, hread, hx]

/-- Numbers that there is room for are pushed, one after the other. -/
theorem run_numbers (setup : Setup) (hreads : m.cursor.Reads (values.map .number) last)
    (hroom : m.decoder.operands.size + values.length ≤ Operands.capacity) :
    ∃ l, m.run setup values.length = .running l ∧ l.cursor = last ∧ m.Pushes l values := by
  induction values generalizing m with
  | nil =>
    cases hreads
    exact ⟨m, rfl, rfl, .refl m⟩
  | cons v values ih =>
    rw [List.length_cons] at hroom
    rw [List.map_cons] at hreads
    cases hreads with
    | cons hread hlater =>
      obtain ⟨l, hstep, hnext, hfirst⟩ := step_number setup hread (by omega)
      rw [← hnext] at hlater
      obtain ⟨k, hrun, hlast, hothers⟩ :=
        ih hlater (by rw [hfirst.size, List.length_singleton]; omega)
      refine ⟨k, ?_, hlast, hfirst.trans hothers⟩
      show Run.advance s setup values.length (Run.step s setup m) = _
      rw [hstep]
      exact hrun

end Moment

end Type1
