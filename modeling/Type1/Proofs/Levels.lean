import Type1.Proofs.Emission

/-!
# Levels from changed states

A change of the state that the instructions of one decoding make up for in another, and that what
happens between instructions does not look at, stays through all levels (`Between.levels`).

So a decoding for a receiver comes to what the plain one comes to, delivered, and `parse` reports
that (`parse_eq`).
-/

namespace Type1

variable {s : Source}

/-- The outcome with a change of the state that it leaves. -/
def Run.mapOutcome (f : Decoder → Decoder) : Session.Outcome → Session.Outcome
  | .ok flow session => .ok flow (session.mapDecoder f)
  | .error x session => .error x (session.mapDecoder f)

/-- A change that what happens between instructions does not look at. -/
structure Between (f : Decoder → Decoder) : Prop where
  called (call : Source.Call) (d : Decoder) :
    f (d.record (.called call)) = (f d).record (.called call)
  base (d : Decoder) : f d.beginBase = (f d).beginBase
  accent (shift : Point) (d : Decoder) : f (d.beginAccent shift) = (f d).beginAccent shift
  done (d : Decoder) : f d.endParts = (f d).endParts

/-- Parts begin and end with whatever a receiver was given. -/
theorem Receiver.between_deliver (r : Receiver) : Between r.deliver where
  called _ d := r.deliver_record d rfl
  base _ := rfl
  accent _ _ := rfl
  done _ := rfl

namespace Between

variable {f : Decoder → Decoder} (hf : Between f)
include hf

theorem calls (d : Decoder) (calls : List Source.Call) :
    f (d.recordCalls calls) = (f d).recordCalls calls := by
  unfold Decoder.recordCalls
  induction calls generalizing d with
  | nil => rfl
  | cons call calls ih =>
    rw [List.foldl_cons, ih, hf.called]
    rfl

/-- The parts of an accented character, if the levels above do the same after a change. -/
theorem compose {nested nested' : Nat → Session → Session.Outcome}
    (hn : ∀ offset session, nested' offset (session.mapDecoder f) =
      Run.mapOutcome f (nested offset session)) (base accent : Nat) (shift : Point)
    (session : Session) :
    Session.compose nested' base accent shift (session.mapDecoder f) =
      Run.mapOutcome f (Session.compose nested base accent shift session) := by
  have hbase : (session.mapDecoder f).mapDecoder .beginBase =
      (session.mapDecoder .beginBase).mapDecoder f :=
    congrArg (Session.mk session.source) (hf.base session.decoder).symm
  unfold Session.compose
  rw [hbase, hn]
  cases nested base (session.mapDecoder .beginBase) with
  | error x session => rfl
  | ok flow session =>
    have haccent : (session.mapDecoder f).mapDecoder (.beginAccent shift) =
        (session.mapDecoder (.beginAccent shift)).mapDecoder f :=
      congrArg (Session.mk session.source) (hf.accent shift session.decoder).symm
    dsimp only [Run.mapOutcome]
    rw [haccent, hn]
    cases nested accent (session.mapDecoder (.beginAccent shift)) with
    | error x session => rfl
    | ok flow session =>
      exact congrArg (fun d => EStateM.Result.ok Flow.finished (Session.mk session.source d))
        (hf.done session.decoder).symm

section Levels

variable {execute execute' : Instruction → Decode Control}
  {nested nested' : Nat → Session → Session.Outcome}

/-- A level from an offset, if one does so from each cursor there. -/
theorem decodeAt {offset : Nat}
    (hd : ∀ (c : Cursor s) (d : Decoder), c.position = offset →
      Session.decode s execute' nested' c (f d) =
        Run.mapOutcome f (Session.decode s execute nested c d)) (session : Session) :
    Session.decodeAt s execute' nested' offset (session.mapDecoder f) =
      Run.mapOutcome f (Session.decodeAt s execute nested offset session) := by
  unfold Session.decodeAt
  simp only [Session.mapDecoder, ← hf.calls]
  cases hopen : Cursor.openAt (s := s) offset session.source with
  | failed error source calls => rfl
  | done u c calls => exact hd c _ (Cursor.openAt_position hopen)

variable (hx : ∀ i d, execute' i (f d) = Decode.onState f (execute i d))
include hx

/-- One level, if its instructions and the levels above make up for a change. -/
theorem decode (hn : ∀ offset session, nested' offset (session.mapDecoder f) =
      Run.mapOutcome f (nested offset session)) (c : Cursor s) (d : Decoder) :
    Session.decode s execute' nested' c (f d) =
      Run.mapOutcome f (Session.decode s execute nested c d) := by
  induction hr : c.remaining using Nat.strongRecOn generalizing c d with
  | ind n ih =>
    cases hread : c.readInstruction with
    | failed error source calls =>
      rw [Session.decode_of_failed hread, Session.decode_of_failed hread, ← hf.calls]
      rfl
    | done i next calls =>
      have hlt := Cursor.remaining_lt (Cursor.readInstruction_lt hread)
      rw [Session.decode_of_done hread, Session.decode_of_done hread, ← hf.calls, hx]
      cases execute i (d.recordCalls calls) with
      | error error e => rfl
      | ok control e =>
        cases control with
        | next => exact ih _ (hr ▸ hlt) next e rfl
        | leave flow => rfl
        | compose base accent shift => exact hf.compose hn base accent shift ⟨next.state, e⟩
        | call offset =>
          have hcall : nested' offset ⟨next.state, f e⟩ =
              Run.mapOutcome f (nested offset ⟨next.state, e⟩) := hn offset ⟨next.state, e⟩
          dsimp only [Decode.onState]
          rw [hcall]
          cases nested offset ⟨next.state, e⟩ with
          | error x session => rfl
          | ok flow session =>
            cases flow with
            | finished => rfl
            | returned =>
              -- The level goes on as far as behind the call, so there is less before it.
              refine hf.decodeAt (fun back e hback => ih _ ?_ back e rfl) session
              rw [← hr, Cursor.remaining, hback]
              exact hlt

/-- The levels above. -/
theorem levels (levels offset : Nat) (session : Session) :
    Session.nested s execute' levels offset (session.mapDecoder f) =
      Run.mapOutcome f (Session.nested s execute levels offset session) := by
  induction levels generalizing offset session with
  | zero => rfl
  | succ levels ih => exact hf.decodeAt (fun c d _ => hf.decode hx ih c d) session

end Levels

end Between

/-- The report of a decoding that ends so, and the source after it. -/
def Run.conclude (settings : Settings) (takes : Capabilities) (offset : Nat) :
    Session.Outcome → Report × Source.State
  | .ok _ ⟨source, d⟩ =>
    (⟨d.history.toList.flatMap (Event.deliver settings takes), .ok (d.glyph settings)⟩, source)
  | .error error ⟨source, d⟩ =>
    (⟨d.history.toList.flatMap (Event.deliver settings takes) ++ [.failed offset error],
      .error error⟩, source)

/-- The result that a receiver is told has the width that it was given. -/
theorem Receiver.glyph_deliver (r : Receiver) (d : Decoder) :
    (⟨(r.deliver d).width, d.components⟩ : Glyph) = d.glyph r.settings := by
  unfold deliver Decoder.glyph mapWidth
  cases r.settings.activeMatrix? with
  | none => exact congrArg (Glyph.mk · d.components) Option.map_id_apply
  | some m => rfl

/-- What a receiver is told of a decoding that ends so. -/
theorem Receiver.report_deliver (r : Receiver) (offset : Nat) (o : Session.Outcome) :
    Session.report offset (Run.mapOutcome r.deliver o) =
      Run.conclude r.settings r.takes offset o := by
  cases o with
  | ok flow session =>
    exact congrArg (fun glyph => (Report.mk _ (Except.ok glyph), session.source))
      (r.glyph_deliver session.decoder)
  | error x session => rfl

/-- A receiver is given what the plain decoding produces, delivered, and told its result. -/
theorem parse_eq (s : Source) (font : Font) (settings : Settings) (takes : Capabilities)
    (offset : Nat) (st : Source.State) :
    parse s font settings takes offset st =
      Run.conclude settings takes offset
        (Session.decodeGlyph s (.of font settings takes) offset st) := by
  let r : Receiver := { font, settings, takes }
  have hlevels : Session.decodeAt s r.execute (Session.nested s r.execute maxDepth) offset
      ⟨st, .start font⟩ =
        Run.mapOutcome r.deliver (Session.decodeGlyph s (.of font settings takes) offset st) :=
    r.between_deliver.decodeAt
      (fun c d _ => r.between_deliver.decode r.execute_deliver
        (r.between_deliver.levels r.execute_deliver maxDepth) c d) ⟨st, .start font⟩
  exact (congrArg (Session.report offset) hlevels).trans (r.report_deliver offset _)

end Type1
