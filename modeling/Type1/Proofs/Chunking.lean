import Type1.Proofs.Direct
import Type1.Proofs.Levels

/-!
# Chunks make no difference

A source in memory gives the answer that its bytes give (`answer_parse`): neither the length of the
chunks nor what was read before can be told from the elements of a glyph and from the result. So
each of several charstrings from one source is answered as from a fresh one (`answer_memory`).
-/

namespace Type1

namespace Direct

variable {s : Source} {setup : Setup} {keep : Event → Bool}

/-- The outcomes are of the same kind, and leave states that agree. -/
inductive Matches (keep : Event → Bool) : Session.Outcome → Outcome → Prop where
  | ok {flow : Flow} {session : Session} {d : Decoder} :
      session.decoder.Agree keep d → Matches keep (.ok flow session) (.ok flow d)
  | error {x : Error} {session : Session} {d : Decoder} :
      session.decoder.Agree keep d → Matches keep (.error x session) (.error x d)

/-- Levels of a source that match levels of bytes. -/
def Simulates (keep : Event → Bool) (nested : Nat → Session → Session.Outcome)
    (nested' : Nat → Decoder → Outcome) : Prop :=
  ∀ offset session d, session.decoder.Agree keep d →
    Matches keep (nested offset session) (nested' offset d)

variable {nested : Nat → Session → Session.Outcome} {nested' : Nat → Decoder → Outcome}

theorem matches_compose (hn : Simulates keep nested nested') (base accent : Nat) (shift : Point)
    {session : Session} {e : Decoder} (h : session.decoder.Agree keep e) :
    Matches keep (Session.compose nested base accent shift session)
      (compose nested' base accent shift e) := by
  have hb := hn base (session.mapDecoder .beginBase) _
    (h.map (f := Decoder.beginBase) fun _ _ => rfl)
  unfold Session.compose compose
  revert hb
  generalize nested base (session.mapDecoder .beginBase) = o
  generalize nested' base e.beginBase = o'
  rintro (h | h)
  · next flow session e =>
    have ha := hn accent (session.mapDecoder (.beginAccent shift)) _
      (h.map (f := Decoder.beginAccent shift) fun _ _ => rfl)
    revert ha
    dsimp only
    generalize nested accent (session.mapDecoder (.beginAccent shift)) = o
    generalize nested' accent (e.beginAccent shift) = o'
    rintro (h | h)
    · exact .ok (h.map (f := Decoder.endParts) fun _ _ => rfl)
    · exact .error h
  · exact .error h

/-- A level that is opened at an offset of the data matches the level from there, if levels from
faithful cursors there do. -/
theorem matches_decodeAt_of (hs : s.Reliable) (hk : ∀ call, keep (.called call) = false)
    {offset : Nat} (hle : offset ≤ s.data.length)
    (hd : ∀ (c : Cursor s) d e, c.Faithful → c.position = offset → d.Agree keep e →
      Matches keep (Session.decode s (Decode.execute setup) nested c d)
        (decode s.data setup nested' offset e))
    {session : Session} {e : Decoder} (h : session.decoder.Agree keep e) :
    Matches keep (Session.decodeAt s (Decode.execute setup) nested offset session)
      (decode s.data setup nested' offset e) := by
  have ho := Cursor.openAt_gives hs hle session.source
  unfold Session.decodeAt
  split at ho
  · obtain ⟨c, calls, hopen, hp, hc⟩ := ho
    rw [hopen]
    exact hd c _ e hc hp (h.recordCalls hk calls)
  · next hend =>
    obtain ⟨st, calls, hopen⟩ := ho
    have hnil : s.data.drop offset = [] := List.drop_eq_nil_of_le (Nat.not_lt.1 hend)
    rw [hopen, decode_of_none (by rw [hnil]; rfl)]
    exact .error (h.recordCalls hk calls)

theorem matches_decode (hs : s.Reliable) (hk : ∀ call, keep (.called call) = false)
    (hn : Simulates keep nested nested') {c : Cursor s} (hc : c.Faithful) {d e : Decoder}
    (h : d.Agree keep e) :
    Matches keep (Session.decode s (Decode.execute setup) nested c d)
      (decode s.data setup nested' c.position e) := by
  induction hr : c.remaining using Nat.strongRecOn generalizing c d e with
  | ind r ih =>
    have hg := Cursor.readInstruction_gives hs hc
    cases hread : Instruction.first? (s.data.drop c.position) with
    | none =>
      rw [hread] at hg
      obtain ⟨st, calls, hfail⟩ := hg
      rw [decode_of_none hread, Session.decode_of_failed hfail]
      exact .error (h.recordCalls hk calls)
    | some x =>
      obtain ⟨i, n⟩ := x
      rw [hread] at hg
      obtain ⟨next, calls, hdone, hp, hnext⟩ := hg
      have hlt : next.remaining < r := hr ▸ Cursor.remaining_lt (Cursor.readInstruction_lt hdone)
      have hx := (h.recordCalls hk calls).run (Decode.blind_execute setup i)
      rw [decode_of_some hread, Session.decode_of_done hdone, effect]
      revert hx
      generalize Decode.execute setup i (d.recordCalls calls) = o
      generalize Decode.execute setup i e = o'
      rintro (h | h)
      · next control d e =>
        cases control with
        | next => exact hp ▸ ih _ hlt hnext h rfl
        | leave flow => exact .ok h
        | call offset =>
          have hx := hn offset ⟨next.state, d⟩ e h
          revert hx
          dsimp only
          generalize nested offset ⟨next.state, d⟩ = o
          generalize nested' offset e = o'
          rintro (h | h)
          · next flow session e =>
            cases flow with
            | finished => exact .ok h
            | returned =>
              -- The level goes on where it was, whatever the subroutine has read.
              refine hp ▸ matches_decodeAt_of hs hk next.position_le (fun c d e hc hp h => ?_) h
              refine hp ▸ ih _ ?_ hc h rfl
              unfold Cursor.remaining at hlt ⊢
              omega
          · exact .error h
        | compose base accent shift => exact matches_compose hn base accent shift h
      · exact .error h

variable (setup) in
theorem matches_decodeAt (hs : s.Reliable) (hk : ∀ call, keep (.called call) = false)
    (hn : Simulates keep nested nested') :
    Simulates keep (Session.decodeAt s (Decode.execute setup) nested)
      (decodeAt s.data setup nested') := by
  intro offset session e h
  unfold decodeAt
  split
  · next hle =>
    refine matches_decodeAt_of hs hk hle (fun c d e hc hp h => ?_) h
    exact hp ▸ matches_decode hs hk hn hc h
  · next hlt =>
    obtain ⟨st, calls, hopen⟩ := Cursor.openAt_past hs (Nat.not_le.1 hlt) session.source
    rw [Session.decodeAt, hopen]
    exact .error (h.recordCalls hk calls)

variable (setup) in
theorem matches_nested (hs : s.Reliable) (hk : ∀ call, keep (.called call) = false)
    (levels : Nat) :
    Simulates keep (Session.nested s (Decode.execute setup) levels)
      (Direct.nested s.data setup levels) := by
  induction levels with
  | zero => exact fun _ _ _ h => .error h
  | succ levels ih => exact matches_decodeAt setup hs hk ih

end Direct

/-! ## Reports -/

/-- A source in memory gives the answer that its bytes give. -/
theorem answer_parse {s : Source} (hs : s.Reliable) (font : Font) (settings : Settings)
    (takes : Capabilities) (offset : Nat) (st : Source.State) :
    (parse s font settings takes offset st).1.answer =
      (Direct.parse s.data font settings takes offset).answer := by
  have hm : Direct.Matches Event.isElement
      (Session.decodeGlyph s (.of font settings takes) offset st) _ :=
    Direct.matches_decodeAt (.of font settings takes) hs (fun _ => rfl)
      (Direct.matches_nested (.of font settings takes) hs (fun _ => rfl) maxDepth)
      offset ⟨st, .start font⟩ (.start font) (Decoder.Agree.refl _)
  revert hm
  rw [parse_eq, Direct.parse]
  generalize Session.decodeGlyph s _ offset st = o
  generalize Direct.decodeAt s.data _ _ offset (.start font) = o'
  rintro (h | h)
  · exact Direct.report_answer_of_agree offset offset (.ok h)
  · exact Direct.report_answer_of_agree offset offset (.error h)

/-- A charstring of a source that is to be decoded. -/
structure Request where
  /-- The font. -/
  font : Font
  /-- How the charstring is to be decoded. -/
  settings : Settings := {}
  /-- The elements that the receiver takes. -/
  takes : Capabilities := {}
  /-- Where the charstring begins. -/
  offset : Nat := 0

/-- Decodes charstrings of one source, one after the other. -/
def parseAll (s : Source) : List Request → Source.State → List Report
  | [], _ => []
  | r :: requests, st =>
    let (report, st) := parse s r.font r.settings r.takes r.offset st
    report :: parseAll s requests st

/-- Neither the chunks nor the place where the source stands make a difference to what a receiver
is given and to the result; so each of several charstrings is answered as from a fresh source. -/
theorem answer_memory (data : List UInt8) (chunk chunk' : Option Nat) (st st' : Source.State) :
    (∀ font settings takes offset,
      (parse (.memory data chunk) font settings takes offset st).1.answer =
        (parse (.memory data chunk') font settings takes offset st').1.answer) ∧
    ∀ requests : List Request,
      (parseAll (.memory data chunk) requests st).map Report.answer =
        requests.map fun r =>
          (parse (.memory data chunk') r.font r.settings r.takes r.offset {}).1.answer := by
  refine ⟨fun font settings takes offset => ?_, fun requests => ?_⟩
  · rw [answer_parse Source.reliable_memory, answer_parse Source.reliable_memory,
      Source.memory_data, Source.memory_data]
  · induction requests generalizing st with
    | nil => rfl
    | cons r requests ih =>
      rw [parseAll, List.map_cons, List.map_cons, ih, answer_parse Source.reliable_memory,
        answer_parse Source.reliable_memory, Source.memory_data, Source.memory_data]

end Type1
