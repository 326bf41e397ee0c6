import Mathlib.Data.List.Infix
import Type1.Proofs.Inlining

/-!
# Bytes that are not reached do not matter

More bytes behind the data make no difference to a decoding that does not run out of bytes. One that
does goes on from there if there are more: it has given what it gave without them.

* `Instruction.first?_append`: an instruction is read the same with more bytes behind it.
* `Direct.Outcome.Extends`: a level ends the same, or it ended for want of bytes and now adds to its
  history.
* `extends_decode`, `extends_nested`: more bytes make levels do so.
* `answer_extension`: what a charstring is answered with more bytes behind it.
-/

namespace Type1

/-- An instruction within the data is the same with more bytes behind them. -/
theorem Instruction.first?_append {data : List UInt8} {p n : Nat} {i : Instruction}
    (h : first? (data.drop p) = some (i, n)) (suffix : List UInt8) :
    first? ((data ++ suffix).drop p) = some (i, n) := by
  have hle := (first?_drop h).2
  have htext : data <+: (data ++ suffix).drop 0 := List.prefix_append data suffix
  rw [← Nat.zero_add p]
  exact (first?_of_text htext hle).2 h

/-- The error is that there are no bytes, or no such offset. -/
def Error.IsStream (x : Error) : Prop := x = .streamRead ∨ x = .streamSeek

namespace Direct

/-! ## Outcomes with more bytes -/

/-- The level ended for want of bytes. -/
def Outcome.Starved (o : Outcome) : Prop := ∃ x d, x.IsStream ∧ o = .error x d

/-- The second outcome is the first one; or that is a want of bytes, and the second one has added to
its history. -/
def Outcome.Extends (o o' : Outcome) : Prop :=
  o' = o ∨ o.Starved ∧ (Decode.final o).events <+: (Decode.final o').events

/-- The same for what comes of an instruction. -/
def Effect.Extends (x x' : Effect) : Prop :=
  x' = x ∨ ∃ o, x = .ends o ∧ o.Starved ∧ (Decode.final o).events <+: x'.final.events

/-- Levels that, with more bytes, do what other levels do or add to it. -/
def Extended (nested nested' : Nat → Decoder → Outcome) : Prop :=
  ∀ offset d, (nested offset d).Extends (nested' offset d)

theorem Outcome.Starved.error {x : Error} (hx : x.IsStream) (d : Decoder) :
    Outcome.Starved (.error x d) :=
  ⟨x, d, hx, rfl⟩

/-- A level that wants bytes gives up its caller. -/
theorem Outcome.Starved.ofCall {o : Outcome} (h : o.Starved) : Effect.ofCall o = .ends o := by
  obtain ⟨x, d, -, rfl⟩ := h
  rfl

variable {data suffix : List UInt8} {setup : Setup} {nested nested' : Nat → Decoder → Outcome}

/-! ## From instructions to levels -/

theorem extends_compose (hn : Extended nested nested') (hg : Grows nested') (base accent : Nat)
    (shift : Point) (d : Decoder) :
    (compose nested base accent shift d).Extends (compose nested' base accent shift d) := by
  rcases hn base d.beginBase with hbase | ⟨⟨x, e, hx, he⟩, hgrows⟩
  · unfold compose
    rw [hbase]
    cases nested base d.beginBase with
    | error x e => exact .inl rfl
    | ok flow e =>
      dsimp only
      rcases hn accent (e.beginAccent shift) with haccent | ⟨⟨x, c, hx, hc⟩, hgrows⟩
      · rw [haccent]
        exact .inl rfl
      · rw [hc] at hgrows ⊢
        refine .inr ⟨.error hx c, hgrows.trans ?_⟩
        cases nested' accent (e.beginAccent shift) <;> exact List.prefix_rfl
  · have hcompose : compose nested base accent shift d = .error x e := by
      rw [compose, he]
    rw [he] at hgrows
    rw [hcompose]
    refine .inr ⟨.error hx e, hgrows.trans ?_⟩
    -- What the base has given stays, whatever becomes of the accent.
    unfold compose
    cases nested' base d.beginBase with
    | error y c => exact List.prefix_rfl
    | ok flow c =>
      have haccent := hg accent (c.beginAccent shift)
      dsimp only
      cases hc : nested' accent (c.beginAccent shift) with
      | error y b => rwa [hc] at haccent
      | ok flow b => rwa [hc] at haccent

theorem extends_effect (setup : Setup) (hn : Extended nested nested') (hg : Grows nested')
    (i : Instruction) (d : Decoder) :
    (effect setup nested i d).Extends (effect setup nested' i d) := by
  unfold effect
  cases Decode.execute setup i d with
  | error x e => exact .inl rfl
  | ok control e =>
    cases control with
    | next | leave flow => exact .inl rfl
    | call offset =>
      dsimp only
      rcases hn offset e with h | ⟨hstarved, hgrows⟩
      · rw [h]
        exact .inl rfl
      · refine .inr ⟨_, hstarved.ofCall, hstarved, ?_⟩
        rwa [Effect.final_ofCall]
    | compose base accent shift =>
      dsimp only
      rcases extends_compose hn hg base accent shift e with h | ⟨hstarved, hgrows⟩
      · rw [h]
        exact .inl rfl
      · exact .inr ⟨_, rfl, hstarved, hgrows⟩

/-- More bytes extend a level, if they extend the levels above it. -/
theorem extends_decode (hn : Extended nested nested') (hg : Grows nested') :
    Extended (decode data setup nested) (decode (data ++ suffix) setup nested') := by
  intro p d
  induction hr : data.length - p using Nat.strongRecOn generalizing p d with
  | ind r ih =>
    cases hread : Instruction.first? (data.drop p) with
    | none =>
      rw [decode_of_none hread]
      exact .inr ⟨.error (.inl rfl) d, decode_grows hg p d⟩
    | some x =>
      have hlt := Instruction.first?_drop hread
      rw [decode_of_some hread, decode_of_some (Instruction.first?_append hread suffix)]
      rcases extends_effect setup hn hg x.1 d with he | ⟨o, he, hstarved, hgrows⟩
      · rw [he]
        cases effect setup nested x.1 d with
        | goesOn e => exact ih _ (by omega) (p + x.2) e rfl
        | ends o => exact .inl rfl
      · rw [he]
        refine .inr ⟨hstarved, hgrows.trans ?_⟩
        cases effect setup nested' x.1 d with
        | goesOn e => exact decode_grows hg (p + x.2) e
        | ends o => exact List.prefix_rfl

/-- An offset behind the data may lie within more bytes. -/
theorem extends_decodeAt (hn : Extended nested nested') (hg : Grows nested') :
    Extended (decodeAt data setup nested) (decodeAt (data ++ suffix) setup nested') := by
  intro offset d
  unfold decodeAt
  rw [List.length_append]
  by_cases hle : offset ≤ data.length
  · rw [if_pos hle, if_pos (by omega)]
    exact extends_decode hn hg offset d
  · rw [if_neg hle]
    refine .inr ⟨.error (.inr rfl) d, ?_⟩
    split
    · exact decode_grows hg offset d
    · exact List.prefix_rfl

theorem extends_nested (data suffix : List UInt8) (setup : Setup) (levels : Nat) :
    Extended (Direct.nested data setup levels) (Direct.nested (data ++ suffix) setup levels) := by
  induction levels with
  | zero => exact fun _ _ => .inl rfl
  | succ levels ih => exact extends_decodeAt ih (nested_grows levels)

/-! ## What is told of a charstring -/

variable {settings : Settings} {takes : Capabilities} {offset : Nat} {o o' : Outcome}

/-- The elements that a receiver is given are those of the history that is left. -/
theorem report_elements (settings : Settings) (takes : Capabilities) (offset : Nat) (o : Outcome) :
    (report settings takes offset o).elements =
      (Decode.final o).elements.flatMap (Element.deliver settings takes) := by
  have hanswer : (report settings takes offset o).answer = _ := report_answer o
  have helements := congrArg Prod.fst hanswer
  cases o <;> exact helements

/-- Who is told of a history is told of what comes before it. -/
theorem report_elements_earlier (h : (Decode.final o).events <+: (Decode.final o').events) :
    (report settings takes offset o).elements <+: (report settings takes offset o').elements := by
  have helements : (Decode.final o).elements <+: (Decode.final o').elements :=
    h.filterMap Event.element?
  rw [report_elements, report_elements]
  exact helements.flatMap _

/-- A level that wants bytes is told as a failure of the source. -/
theorem report_result_of_starved (settings : Settings) (takes : Capabilities) (offset : Nat)
    (h : o.Starved) :
    (report settings takes offset o).result = .error .streamRead ∨
      (report settings takes offset o).result = .error .streamSeek := by
  obtain ⟨x, d, rfl | rfl, rfl⟩ := h
  · exact .inl rfl
  · exact .inr rfl

/-- More bytes add to what a receiver is given, and that only after a failure of the source. -/
theorem parse_extension (data suffix : List UInt8) (font : Font) (settings : Settings)
    (takes : Capabilities) (offset : Nat) :
    let short := Direct.parse data font settings takes offset
    let long := Direct.parse (data ++ suffix) font settings takes offset
    short.elements <+: long.elements ∧
      (short.result ≠ .error .streamRead → short.result ≠ .error .streamSeek → long = short) := by
  intro short long
  have hnested := extends_nested data suffix (.of font settings takes) maxDepth
  rcases extends_decodeAt hnested (nested_grows maxDepth) offset (.start font) with
    hsame | ⟨hstarved, hgrows⟩
  · have hreport : long = short := congrArg (report settings takes offset) hsame
    exact ⟨hreport ▸ List.prefix_rfl, fun _ _ => hreport⟩
  · refine ⟨report_elements_earlier hgrows, fun hread hseek => ?_⟩
    rcases report_result_of_starved settings takes offset hstarved with h | h
    · exact absurd h hread
    · exact absurd h hseek

end Direct

/-- With more bytes behind the data, a receiver is given what it is given without them, and perhaps
more. Unless the decoding fails for want of bytes, it is given just the same, with the same
result. -/
theorem answer_extension (data suffix : List UInt8) (font : Font) (settings : Settings)
    (takes : Capabilities) (offset : Nat) (chunk chunk' : Option Nat) (st st' : Source.State) :
    let short := (parse (.memory data chunk) font settings takes offset st).1
    let long := (parse (.memory (data ++ suffix) chunk') font settings takes offset st').1
    short.elements <+: long.elements ∧
      (short.result ≠ .error .streamRead → short.result ≠ .error .streamSeek →
        long.elements = short.elements ∧ long.result = short.result) := by
  intro short long
  have hshort : short.answer = (Direct.parse data font settings takes offset).answer := by
    have := answer_parse Source.reliable_memory font settings takes offset st
      (s := .memory data chunk)
    rwa [Source.memory_data] at this
  have hlong : long.answer = (Direct.parse (data ++ suffix) font settings takes offset).answer := by
    have := answer_parse Source.reliable_memory font settings takes offset st'
      (s := .memory (data ++ suffix) chunk')
    rwa [Source.memory_data] at this
  obtain ⟨hshorter, hresult⟩ := Prod.mk.inj hshort
  obtain ⟨hlonger, hresult'⟩ := Prod.mk.inj hlong
  obtain ⟨hearlier, hsame⟩ := Direct.parse_extension data suffix font settings takes offset
  rw [hshorter, hlonger, hresult, hresult']
  refine ⟨hearlier, fun hread hseek => ?_⟩
  rw [hsame hread hseek]
  exact ⟨rfl, rfl⟩

end Type1
