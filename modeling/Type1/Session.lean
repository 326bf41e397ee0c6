import Type1.Decoder.Execute

/-!
# Levels

A charstring is executed at levels: the glyph itself, and above it the subroutines it calls and the
parts of an accented character. Ten levels can lie above the glyph.

* `Session.decode`: one level from a cursor to its end. It comes to an end because each instruction
  takes the cursor further, and a subroutine that returns puts it back where it was.
* `Session.decodeAt`: one level from an offset; `Session.nested`: the same with a number of further
  levels left.

What an instruction does is left open here, and given as `execute`.
-/

namespace Type1

/-- What a level leaves behind: the source and the state of the decoding. -/
structure Session where
  /-- The state of the source. -/
  source : Source.State
  /-- The state of the decoding. -/
  decoder : Decoder

/-- The state in which the base character of an accented character begins. -/
def Decoder.beginBase (d : Decoder) : Decoder := { d with part := .base .zero }

/-- The state in which the accent begins, after its base. -/
def Decoder.beginAccent (shift : Point) (d : Decoder) : Decoder :=
  { d with part := .accent .zero shift false, point := .zero, moveDue := true, operands := .empty }

/-- The state after both parts of an accented character. -/
def Decoder.endParts (d : Decoder) : Decoder := { d with part := .glyph }

namespace Session

/-- How a level ends. -/
abbrev Outcome := EStateM.Result Error Session Flow

/-- The session with a change of the state of the decoding. -/
def mapDecoder (f : Decoder → Decoder) (session : Session) : Session :=
  { session with decoder := f session.decoder }

/-- Decodes the two parts of an accented character, each at a level above. -/
def compose (nested : Nat → Session → Outcome) (base accent : Nat) (shift : Point)
    (session : Session) : Outcome :=
  match nested base (session.mapDecoder .beginBase) with
  | .error error session => .error error session
  -- A base that returns is over as well as one that is finished.
  | .ok _ session =>
    match nested accent (session.mapDecoder (.beginAccent shift)) with
    | .error error session => .error error session
    | .ok _ session => .ok .finished (session.mapDecoder .endParts)

variable (s : Source) (execute : Instruction → Decode Control)

/-- Goes on from a cursor to the end of the level; `nested` decodes the level above, from an
offset. -/
def decode (nested : Nat → Session → Outcome) (c : Cursor s) (d : Decoder) : Outcome :=
  match _hread : c.readInstruction with
  | .failed error source calls => .error error ⟨source, d.recordCalls calls⟩
  | .done instruction next calls =>
    match execute instruction (d.recordCalls calls) with
    | .error error d => .error error ⟨next.state, d⟩
    | .ok .next d => decode nested next d
    | .ok (.leave flow) d => .ok flow ⟨next.state, d⟩
    | .ok (.call offset) d =>
      match nested offset ⟨next.state, d⟩ with
      | .error error session => .error error session
      | .ok .finished session => .ok .finished session
      | .ok .returned session =>
        -- The subroutine was read through the same source, so what was left of the chunk is gone.
        match _hopen : Cursor.openAt next.position session.source with
        | .failed error source calls => .error error ⟨source, session.decoder.recordCalls calls⟩
        | .done _ back calls => decode nested back (session.decoder.recordCalls calls)
    | .ok (.compose base accent shift) d => compose nested base accent shift ⟨next.state, d⟩
termination_by c.remaining
decreasing_by
  · exact Cursor.remaining_lt (Cursor.readInstruction_lt _hread)
  · refine Cursor.remaining_lt (Nat.lt_of_lt_of_eq (Cursor.readInstruction_lt _hread) ?_)
    exact (Cursor.openAt_position _hopen).symm

/-- Decodes a level from an offset of the source. -/
def decodeAt (nested : Nat → Session → Outcome) (offset : Nat) (session : Session) : Outcome :=
  match Cursor.openAt offset session.source with
  | .failed error source calls => .error error ⟨source, session.decoder.recordCalls calls⟩
  | .done _ c calls => decode s execute nested c (session.decoder.recordCalls calls)

variable {s execute} in
/-- A level ends where its bytes cannot be read. -/
theorem decode_of_failed {nested : Nat → Session → Outcome} {c : Cursor s} {d : Decoder}
    {error : Error} {source : Source.State} {calls : List Source.Call}
    (h : c.readInstruction = .failed error source calls) :
    decode s execute nested c d = .error error ⟨source, d.recordCalls calls⟩ := by
  rw [decode]
  split
  · next he =>
    rw [h] at he
    cases he
    rfl
  · next he => rw [h] at he; cases he

variable {s execute} in
/-- What follows an instruction. A subroutine that returns is followed by the same level, opened
anew behind the call. -/
theorem decode_of_done {nested : Nat → Session → Outcome} {c next : Cursor s} {d : Decoder}
    {i : Instruction} {calls : List Source.Call} (h : c.readInstruction = .done i next calls) :
    decode s execute nested c d =
      match execute i (d.recordCalls calls) with
      | .error error d => .error error ⟨next.state, d⟩
      | .ok .next d => decode s execute nested next d
      | .ok (.leave flow) d => .ok flow ⟨next.state, d⟩
      | .ok (.call offset) d =>
        match nested offset ⟨next.state, d⟩ with
        | .ok .returned session => decodeAt s execute nested next.position session
        | outcome => outcome
      | .ok (.compose base accent shift) d =>
        compose nested base accent shift ⟨next.state, d⟩ := by
  rw [decode]
  split
  · next he => rw [h] at he; cases he
  · next he =>
    rw [h] at he
    cases he
    cases execute i (d.recordCalls calls) with
    | error error d => rfl
    | ok control d =>
      cases control with
      | next | leave | compose => rfl
      | call offset =>
        dsimp only
        cases nested offset ⟨next.state, d⟩ with
        | error error session => rfl
        | ok flow session =>
          cases flow with
          | finished => rfl
          | returned =>
            dsimp only
            split <;> next he => rw [decodeAt, he]

/-- Decodes a level above another, if one is left. -/
def nested : Nat → Nat → Session → Outcome
  | 0, _, session => .error .subrDepth session
  | levels + 1, offset, session => decodeAt s execute (nested levels) offset session

end Session

/-- The number of levels that can lie above the glyph. -/
def maxDepth : Nat := 10

end Type1
