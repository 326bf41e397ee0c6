import Mathlib.Data.List.Induction
import Type1.Proofs.NewHints
import Type1.Proofs.Receivers
import Type1.Proofs.Strokes

/-!
# Contours are opened

A contour is open after a move outside of a flex and after a segment, and closed at the beginning,
after `closepath`, and at the beginning of an accent. Whatever draws while it is closed is given
after a move to where it begins.

* `Run.isOpen`: whether a contour is open, from the steps of a run alone. The state says the same
  (`Run.moveDue_eq`).
* `Stroke.Gives`: what a receiver is given by an instruction that strokes so.
* `ContoursOpen`: in a history, the last move or `closepath` before each segment is a move.
* `contours_opened`: all that a receiver is given comes about so, step by step.
-/

namespace Type1

variable {s : Source} {setup : Setup}

/-! ## What the steps of a run do to contours -/

/-- What the next instruction does to contours, which is nothing if it fails. -/
def Moment.stroke (setup : Setup) (m : Moment s) : Stroke :=
  match m.cursor.readInstruction with
  | .failed _ _ _ => .still
  | .done i _ calls =>
    let d := m.decoder.recordCalls calls
    match Decode.execute setup i d with
    | .ok _ _ => i.stroke d
    | .error _ _ => .still

/-- Whether the next status begins an accent. -/
def Moment.beginsAccent (m : Moment s) : Status s → Bool
  | .running next => .accent ∈ next.frames && .accent ∉ m.frames
  | .ended _ => false

/-- What the step to the next status does to contours. The beginning of an accent closes one. -/
def Moment.strokeTo (setup : Setup) (m : Moment s) (next : Status s) : Stroke :=
  if m.beginsAccent next then .closes else m.stroke setup

namespace Run

/-- What a step of a run does to contours. -/
def stroke (setup : Setup) (run : Nat → Status s) (n : Nat) : Stroke :=
  match run n with
  | .running m => m.strokeTo setup (run (n + 1))
  | .ended _ => .still

/-- Whether a contour is open after a number of steps. -/
def isOpen (setup : Setup) (run : Nat → Status s) : Nat → Bool
  | 0 => false
  | n + 1 =>
    match stroke setup run n with
    | .moves | .draws => true
    | .closes => false
    | .still => isOpen setup run n

end Run

variable {m : Moment s} {i : Instruction} {d e : Decoder}

theorem Moment.stroke_of_ok {control : Control} (hi : m.Executes i d)
    (hx : Decode.execute setup i d = .ok control e) : m.stroke setup = i.stroke d := by
  obtain ⟨next, calls, hread, rfl⟩ := hi
  unfold stroke
  simp only [hread, hx]

theorem Moment.stroke_of_error {x : Error} (hi : m.Executes i d)
    (hx : Decode.execute setup i d = .error x e) : m.stroke setup = .still := by
  obtain ⟨next, calls, hread, rfl⟩ := hi
  unfold stroke
  simp only [hread, hx]

/-- What matters to contours is an instruction that succeeds. -/
theorem Moment.executes_of_stroke (h : m.stroke setup ≠ .still) :
    ∃ i d control e, m.Executes i d ∧ Decode.execute setup i d = .ok control e ∧
      i.stroke d = m.stroke setup := by
  cases hread : m.cursor.readInstruction with
  | failed error source calls =>
    refine absurd ?_ h
    unfold stroke
    simp only [hread]
  | done i next calls =>
    have hi : m.Executes i (m.decoder.recordCalls calls) := ⟨next, calls, hread, rfl⟩
    cases hx : Decode.execute setup i (m.decoder.recordCalls calls) with
    | error error e => exact absurd (stroke_of_error hi hx) h
    | ok control e => exact ⟨i, _, control, e, hi, hx, (stroke_of_ok hi hx).symm⟩

/-- A step that draws or moves is one of a run that goes on. -/
theorem Run.running_of_stroke {run : Nat → Status s} {n : Nat} {k : Stroke}
    (h : Run.stroke setup run n = k) (hstill : k ≠ .still) (hcloses : k ≠ .closes) :
    ∃ m, run n = .running m ∧ m.stroke setup = k := by
  unfold Run.stroke at h
  split at h
  · next m hm =>
    unfold Moment.strokeTo at h
    split at h
    · exact absurd h.symm hcloses
    · exact ⟨m, hm, h⟩
  · exact absurd h.symm hstill

theorem Decoder.recordCalls_moveDue (d : Decoder) (calls : List Source.Call) :
    (d.recordCalls calls).moveDue = d.moveDue :=
  Decoder.recordCalls_induction (P := fun e => e.moveDue = d.moveDue) rfl (fun _ _ h => h) calls

theorem Decoder.recordCalls_elements (d : Decoder) (calls : List Source.Call) :
    (d.recordCalls calls).elements = d.elements :=
  Decoder.recordCalls_induction (P := fun e => e.elements = d.elements) rfl
    (fun e _ h => ((e.elements_record _).trans (List.append_nil _)).trans h) calls

/-- Whether a contour is due after a stroke. -/
def Stroke.dueAfter (due : Bool) : Stroke → Bool
  | moves | draws => false
  | closes => true
  | still => due

/-- Whether a contour is due after an instruction. -/
theorem Decode.moveDue_execute {control : Control} (h : execute setup i d = .ok control e) :
    e.moveDue = (i.stroke d).dueAfter d.moveDue := by
  -- The state is the one with what is due in it.
  have hself : d.setDue d.moveDue = d := rfl
  cases hstroke : i.stroke d with
  | still =>
    have hx := execute_of_still setup hstroke d.moveDue
    rw [hself, h] at hx
    have he := congrArg Decoder.moveDue (EStateM.Result.ok.inj hx).2
    exact he
  | closes =>
    have hx := (execute_of_closes setup hstroke).2 d.moveDue
    rw [hself, h] at hx
    cases hx
    rfl
  | moves =>
    rcases execute_of_moves setup hstroke with ⟨y, c, hx⟩ | ⟨p, hx⟩
    · cases h.symm.trans (hx d.moveDue)
    · cases h.symm.trans (hx d.moveDue)
      rfl
  | draws =>
    rcases execute_of_draws setup hstroke with ⟨y, c, hx⟩ | ⟨x, c, hsegment, hx⟩
    · cases h.symm.trans (hx d.moveDue)
    · cases h.symm.trans (hx d.moveDue)
      unfold Decoder.drawn
      split <;> exact hsegment.moveDue

namespace Run

variable {offset : Nat} {st : Source.State} {n : Nat} {l : Moment s}

/-- An accent begins where a run goes on in the state in which one begins. -/
theorem beginsAccent_iff (hl : l.decoder.part.Fits l.frames) (hm : m.decoder.part.Fits m.frames) :
    l.beginsAccent (.running m) = true ↔ m.decoder.part.Fits [.accent] ∧
      ¬ l.decoder.part.Fits [.accent] := by
  rw [Part.fits_accent_iff, Part.fits_accent_iff, hl.accent_iff, hm.accent_iff]
  unfold Moment.beginsAccent
  rw [Bool.and_eq_true, decide_eq_true_iff, decide_eq_true_iff]

/-- Whether a contour is due after a step. -/
theorem moveDue_step (hfits : l.decoder.part.Fits l.frames) (h : step s setup l = .running m) :
    m.decoder.moveDue = (l.strokeTo setup (.running m)).dueAfter l.decoder.moveDue := by
  obtain ⟨⟨i, d, control, e, c, calls, hi, hx, hc, hd⟩, hfits'⟩ := step_passage hfits h
  obtain ⟨hpart, hdue⟩ : d.part = l.decoder.part ∧ d.moveDue = l.decoder.moveDue := by
    obtain ⟨next, calls, -, rfl⟩ := hi
    exact ⟨l.decoder.recordCalls_part calls, l.decoder.recordCalls_moveDue calls⟩
  have hbegins := beginsAccent_iff hfits hfits'
  rw [← hpart, hd, c.recordCalls_part] at hbegins
  rw [← hdue, hd, c.recordCalls_moveDue, Moment.strokeTo]
  have same (hnot : ¬ l.beginsAccent (.running m) = true) (hc : c.moveDue = e.moveDue) :
      c.moveDue = (if l.beginsAccent (.running m) = true then Stroke.closes else
        l.stroke setup).dueAfter d.moveDue := by
    rw [if_neg hnot, Moment.stroke_of_ok hi hx, hc, Decode.moveDue_execute hx]
  -- Only the beginning of an accent makes a contour due by itself. Otherwise it depends on the
  -- stroke of the instruction.
  cases hc with
  | same =>
    refine same (fun h => ?_) rfl
    obtain ⟨hfits, hnot⟩ := hbegins.1 h
    exact hnot (Decode.execute_fits hx ▸ hfits)
  | base hglyph =>
    refine same (fun h => ?_) rfl
    obtain ⟨⟨_, _, hfits⟩, -⟩ := hbegins.1 h
    cases hfits
  | accent bearing shift hbase =>
    have hnot : ¬ d.part.Fits [.accent] := by
      rw [← Decode.execute_fits hx, hbase]
      rintro ⟨_, _, hfits⟩
      cases hfits
    rw [if_pos (hbegins.2 ⟨rfl, hnot⟩)]
    rfl

/-- A contour is due at a moment of a run if none is open. -/
theorem moveDue_eq (h : after s setup offset st n = .running m) :
    m.decoder.moveDue = !isOpen setup (after s setup offset st) n := by
  induction n generalizing m with
  | zero =>
    obtain ⟨-, calls, hd⟩ := resume_passage h
    rw [hd, Decoder.recordCalls_moveDue]
    rfl
  | succ n ih =>
    obtain ⟨l, hl, hstep⟩ := running_of_succ h
    rw [moveDue_step (fits hl) hstep, ih hl, isOpen, stroke, hl, h]
    dsimp only
    cases l.strokeTo setup (.running m) <;> rfl

end Run

/-! ## What a receiver is given for a stroke -/

/-- A point as the matrix maps it, if there is one. -/
def Settings.placePoint (settings : Settings) (p : Point) : Point :=
  match settings.activeMatrix? with
  | some m => m.transform p
  | none => p

/-- What a receiver is given that takes all segments, if a stroke takes a state `d` to `e`. The end
of a segment is the current point after it. -/
inductive Stroke.Gives (settings : Settings) (isOpen : Bool) (d e : Decoder) :
    Stroke → List Element → Prop where
  /-- No segment is given. -/
  | still {added : List Element} (h : ∀ x ∈ added, x.isSegment = false) :
    Gives settings isOpen d e .still added
  /-- Closing a contour is not told. -/
  | closes {added : List Element} (h : ∀ x ∈ added, x.isSegment = false) :
    Gives settings isOpen d e .closes added
  /-- A contour is started. -/
  | moves : Gives settings isOpen d e .moves [.moveTo (settings.placePoint e.point)]
  /-- A segment continues a contour. -/
  | continues {x : Element} (hopen : isOpen = true) (hdrawn : x.isDrawn = true)
      (htarget : x.target? = some (settings.placePoint e.point)) :
    Gives settings isOpen d e .draws [x]
  /-- A segment starts a contour at the current point, with the accent placed. -/
  | starts {x : Element} (hclosed : isOpen = false) (hdrawn : x.isDrawn = true)
      (htarget : x.target? = some (settings.placePoint e.point)) :
    Gives settings isOpen d e .draws
      [.moveTo (settings.placePoint d.placeAccent.point), x]

/-- A receiver that takes all segments as such. -/
structure Capabilities.Outline (takes : Capabilities) : Prop where
  move : takes.move = true
  line : takes.line = true
  curve : takes.curve = true
  flex : takes.flex = true

/-- What a receiver was given so far. -/
def Decoder.given (settings : Settings) (takes : Capabilities) (d : Decoder) : List Element :=
  d.elements.flatMap (Element.deliver settings takes)

namespace Settings

variable (settings : Settings)

theorem place_moveTo (p : Point) :
    settings.place (.moveTo p) = .moveTo (settings.placePoint p) := by
  unfold place placePoint
  cases settings.activeMatrix? <;> rfl

theorem target?_place (x : Element) :
    (settings.place x).target? = x.target?.map settings.placePoint := by
  unfold place placePoint
  cases settings.activeMatrix? with
  | none => exact Option.map_id'.symm
  | some m => cases x <;> rfl

theorem isDrawn_place (x : Element) : (settings.place x).isDrawn = x.isDrawn := by
  unfold place
  cases settings.activeMatrix? with
  | none => rfl
  | some m => cases x <;> rfl

theorem isSegment_place (x : Element) : (settings.place x).isSegment = x.isSegment := by
  unfold place
  cases settings.activeMatrix? with
  | none => rfl
  | some m => cases x <;> rfl

end Settings

namespace Element

variable {settings : Settings} {takes : Capabilities} {x : Element}

theorem isSegment_of_isDrawn (h : x.isDrawn = true) : x.isSegment = true := by
  cases x <;> first | rfl | cases h

/-- A receiver that takes all segments is given each as it is mapped. -/
theorem deliver_segment (h : takes.Outline) (hx : x.isSegment = true) :
    x.deliver settings takes = [settings.place x] := by
  have haccept : x.accept takes settings.updateOperators = [x] := by
    cases x with
    | moveTo => exact if_pos h.move
    | lineTo => exact if_pos h.line
    | curveTo => exact if_pos h.curve
    | flex => exact if_pos h.flex
    | _ => cases hx
  rw [deliver_eq, haccept]
  rfl

/-- What is no segment is given as no segment. -/
theorem isSegment_of_mem_deliver (hx : x.isSegment = false) {y : Element}
    (hy : y ∈ x.deliver settings takes) : y.isSegment = false := by
  rw [deliver_eq] at hy
  obtain ⟨z, hz, rfl⟩ := List.mem_map.1 hy
  rw [settings.isSegment_place]
  have hone : z = x := by
    cases x with
    | width | stem | operator =>
      simp only [accept] at hz
      split at hz
      · exact List.mem_singleton.1 hz
      · cases hz
    | accented => exact List.mem_singleton.1 hz
    | _ => cases hx
  rw [hone, hx]

end Element

section Given

variable {settings : Settings} {takes : Capabilities}

theorem Decoder.given_of_elements (h : e.elements = d.elements) :
    e.given settings takes = d.given settings takes :=
  congrArg (List.flatMap (Element.deliver settings takes)) h

theorem Decoder.given_report (h : takes.Outline) {x : Element} (hx : x.isSegment = true) :
    (d.report x).given settings takes = d.given settings takes ++ [settings.place x] := by
  unfold given report
  rw [d.elements_record, List.flatMap_append]
  exact congrArg (_ ++ ·) ((List.flatMap_singleton ..).trans (Element.deliver_segment h hx))

/-- What a receiver is given for a segment. -/
theorem Decoder.given_drawn (h : takes.Outline) {c : Decoder} {x : Element} {due : Bool}
    {origin : Point} (hx : x.isDrawn = true) (hc : c.elements = d.elements) :
    (c.drawn due origin x).given settings takes = d.given settings takes ++
      (if due then [.moveTo (settings.placePoint origin)] else []) ++ [settings.place x] := by
  have hsegment := Element.isSegment_of_isDrawn hx
  cases due with
  | false =>
    rw [if_neg Bool.false_ne_true, List.append_nil, ← given_of_elements hc]
    exact given_report h hsegment
  | true =>
    have hmoved : { c with moved := true }.given settings takes = d.given settings takes :=
      given_of_elements hc
    rw [if_pos rfl, ← settings.place_moveTo, ← hmoved, ← given_report h rfl]
    exact given_report h hsegment

theorem Decoder.elements_begin (i : Instruction) (d : Decoder) :
    (i.begin d).elements = d.elements := by
  cases i with
  | operator op => exact (d.elements_record _).trans (List.append_nil _)
  | _ => rfl

variable (settings takes) in
/-- Where no segment is added, a receiver is given none. -/
theorem Decoder.given_of_segments (hgrows : d.events <+: e.events)
    (h : e.segments = d.segments) :
    ∃ added, e.given settings takes = d.given settings takes ++ added ∧
      ∀ x ∈ added, x.isSegment = false := by
  have hearlier : d.elements <+: e.elements := hgrows.filterMap Event.element?
  obtain ⟨later, helements⟩ := hearlier
  have hnone : later.filter Element.isSegment = [] := by
    rw [segments, segments, ← helements, List.filter_append] at h
    exact List.append_right_eq_self.1 h
  refine ⟨later.flatMap (Element.deliver settings takes), ?_, fun x hx => ?_⟩
  · rw [given, ← helements, List.flatMap_append]
    rfl
  · obtain ⟨y, hy, hx⟩ := List.mem_flatMap.1 hx
    refine Element.isSegment_of_mem_deliver ?_ hx
    exact Bool.eq_false_iff.2 (List.filter_eq_nil_iff.1 hnone y hy)

variable (setup settings) in
/-- What a receiver is given for an instruction. -/
theorem Moment.gives (h : takes.Outline) (hi : m.Executes i d) :
    ∃ added, (Decode.final (Decode.execute setup i d)).given settings takes =
        d.given settings takes ++ added ∧
      (m.stroke setup).Gives settings (!d.moveDue) d (Decode.final (Decode.execute setup i d))
        added := by
  have hgrows := (Decode.blind_execute setup i).grows d
  cases hx : Decode.execute setup i d with
  | error y e =>
    rw [hx] at hgrows
    obtain ⟨added, hadded, hnone⟩ :=
      Decoder.given_of_segments settings takes hgrows
        (Decode.segments_of_error hx)
    rw [Moment.stroke_of_error hi hx]
    exact ⟨added, hadded, .still hnone⟩
  | ok control e =>
    rw [hx] at hgrows
    rw [Moment.stroke_of_ok hi hx]
    have unsegmented (hstroke : i.stroke d = .still ∨ i.stroke d = .closes) :=
      Decoder.given_of_segments settings takes hgrows (Decode.segments_of_ok hx hstroke)
    -- What an instruction is for contours says what it gives, and also how it fails.
    cases hstroke : i.stroke d with
    | still =>
      obtain ⟨added, hadded, hnone⟩ := unsegmented (.inl hstroke)
      exact ⟨added, hadded, .still hnone⟩
    | closes =>
      obtain ⟨added, hadded, hnone⟩ := unsegmented (.inr hstroke)
      exact ⟨added, hadded, .closes hnone⟩
    | moves =>
      rcases Decode.execute_of_moves setup hstroke with ⟨y, c, hrun⟩ | ⟨p, hrun⟩
      · cases hx.symm.trans (hrun d.moveDue)
      · obtain ⟨-, rfl⟩ := EStateM.Result.ok.inj (hx.symm.trans (hrun d.moveDue))
        let placed := (i.begin d).placeAccent
        have hplaced : placed.elements = d.elements :=
          (i.begin d).placeAccent_elements.trans (d.elements_begin i)
        refine ⟨[.moveTo (settings.placePoint (placed.point + p).round)], ?_, .moves⟩
        rw [← settings.place_moveTo, ← Decoder.given_of_elements hplaced]
        exact Decoder.given_report h rfl
    | draws =>
      rcases Decode.execute_of_draws setup hstroke with ⟨y, c, hrun⟩ | ⟨x, c, hc, hrun⟩
      · cases hx.symm.trans (hrun d.moveDue)
      · obtain ⟨-, rfl⟩ := EStateM.Result.ok.inj (hx.symm.trans (hrun d.moveDue))
        have helements : c.elements = d.elements :=
          (congrArg (·.toList.filterMap Event.element?) hc.history).trans (d.elements_begin i)
        -- Starting a contour before the segment leaves the point that the segment leads to.
        have hpoint : (c.drawn d.moveDue d.placeAccent.point x).point = c.point := by
          unfold Decoder.drawn
          split <;> rfl
        have hdrawn := (settings.isDrawn_place x).trans hc.isDrawn
        have htarget : (settings.place x).target? = some (settings.placePoint
            (c.drawn d.moveDue d.placeAccent.point x).point) := by
          rw [settings.target?_place, hc.target, hpoint]
          rfl
        refine ⟨_, (Decoder.given_drawn h hc.isDrawn helements).trans (List.append_assoc ..), ?_⟩
        cases hdue : d.moveDue with
        | false => exact .continues rfl hdrawn (hdue ▸ htarget)
        | true => exact .starts rfl hdrawn (hdue ▸ htarget)

end Given

/-! ## What a run gives -/

namespace Run

variable {offset : Nat} {st : Source.State} {n : Nat} {settings : Settings}
  {takes : Capabilities}

/-- What a run that goes on keeps holds after a step if it holds after the instruction. -/
theorem Invariant.of_final {Q : Instruction → Decoder → Prop} {P : Decoder → Prop}
    (h : Invariant setup Q P P) (hi : m.Executes i d)
    (hd : P (Decode.final (Decode.execute setup i d))) : Meets P P (Run.step s setup m) := by
  obtain ⟨next, calls, hread, rfl⟩ := hi
  unfold Run.step Run.stepWith
  rw [hread]
  dsimp only
  cases hx : Decode.execute setup i (m.decoder.recordCalls calls) with
  | error error e =>
    rw [hx] at hd
    exact hd
  | ok control e =>
    rw [hx] at hd
    cases control with
    | next => exact hd
    | leave flow => exact h.leave hd
    | call offset => exact h.enter hd
    | compose base accent shift => exact h.enter (h.base hd)

/-- A run keeps what every instruction keeps, whether it fails or not. -/
theorem Invariant.of_execute {P : Decoder → Prop}
    (hexecute : ∀ i d, P d → P (Decode.final (Decode.execute setup i d)))
    (hcalled : ∀ d call, P d → P (d.record (.called call))) (hbase : ∀ d, P d → P d.beginBase)
    (haccent : ∀ d shift, P d → P (d.beginAccent shift)) (hdone : ∀ d, P d → P d.endParts) :
    Invariant setup (fun _ _ => True) P P where
  called call := hcalled _ call
  ok {i} _ _ _ _ h hx := by
    have he := hexecute i _ h
    rwa [hx] at he
  error {i} _ _ _ _ h hx := by
    have he := hexecute i _ h
    rwa [hx] at he
  fails := id
  base := hbase _
  accent shift := haccent _ shift
  done := hdone _

/-- Between instructions a glyph gets no elements. -/
theorem invariant_elements (setup : Setup) (elements : List Element) :
    Invariant setup (fun _ _ => False) (·.elements = elements) (·.elements = elements) where
  called {d} _ h := ((d.elements_record _).trans (List.append_nil _)).trans h
  ok := False.elim
  error := False.elim
  fails := id
  base := id
  accent _ := id
  done := id

/-- What a receiver was given so far. -/
def given (settings : Settings) (takes : Capabilities) : Status s → List Element
  | .running m => m.decoder.given settings takes
  | .ended o => (left o).given settings takes

theorem given_of_meets {elements : List Element} {x : Status s}
    (h : Meets (·.elements = elements) (·.elements = elements) x) :
    given settings takes x = elements.flatMap (Element.deliver settings takes) := by
  cases x with
  | running m => exact congrArg (List.flatMap _) h
  | ended o =>
    cases o with
    | ok flow session => exact congrArg (List.flatMap _) h
    | error x session => exact congrArg (List.flatMap _) h

theorem given_zero : given settings takes (after s setup offset st 0) = [] :=
  given_of_meets (x := resume s [] offset ⟨st, .start setup.font⟩)
    ((invariant_elements setup []).resume rfl)

/-- A step gives what its instruction adds. -/
theorem given_succ (hm : after s setup offset st n = .running m) (hi : m.Executes i d) :
    given settings takes (after s setup offset st (n + 1)) =
      (Decode.final (Decode.execute setup i d)).given settings takes := by
  rw [after_succ hm]
  exact given_of_meets ((invariant_elements setup _).of_final hi rfl)

/-- A step without an instruction gives nothing. -/
theorem given_of_unread (hm : after s setup offset st n = .running m)
    (hnone : ∀ i d, ¬ m.Executes i d) : given settings takes (after s setup offset st (n + 1)) =
      given settings takes (after s setup offset st n) := by
  rw [after_succ hm, hm]
  refine given_of_meets ?_
  exact (invariant_elements setup m.decoder.elements).step (fun i d hi => hnone i d hi) rfl

/-- At the end a receiver was given all elements that are reported. -/
theorem given_of_ended (settings : Settings) (takes : Capabilities) (offset : Nat)
    (o : Session.Outcome) :
    given settings takes (.ended o : Status s) =
      (conclude settings takes offset o).1.elements := by
  cases o with
  | ok flow session => exact (filterMap_element?_deliver settings takes _).symm
  | error x session =>
    refine .symm ((List.filterMap_append ..).trans ?_)
    rw [filterMap_element?_deliver]
    exact List.append_nil _

/-- From its end on, a run has given all elements. -/
theorem given_eventually (s : Source) (font : Font) (settings : Settings) (takes : Capabilities)
    (offset : Nat) (st : Source.State) :
    ∃ last, ∀ n, last ≤ n →
      given settings takes (after s (.of font settings takes) offset st n) =
        (parse s font settings takes offset st).1.elements := by
  obtain ⟨last, -, hlast⟩ := after_eq_ended (s := s) (.of font settings takes) offset st
  refine ⟨last, fun n hn => ?_⟩
  rw [after_of_ended hlast hn, parse_eq_conclude hlast]
  exact given_of_ended settings takes offset _

/-- What a step gives, by whether a contour is open. -/
theorem gives_step (htakes : takes.Outline) (hm : after s setup offset st n = .running m)
    (hi : m.Executes i d) :
    ∃ added, given settings takes (after s setup offset st (n + 1)) =
        given settings takes (after s setup offset st n) ++ added ∧
      (m.stroke setup).Gives settings (isOpen setup (after s setup offset st) n) d
        (Decode.final (Decode.execute setup i d)) added := by
  obtain ⟨added, hadded, hgives⟩ := Moment.gives setup settings htakes hi
  obtain ⟨next, calls, -, rfl⟩ := id hi
  have hnow : given settings takes (after s setup offset st n) =
      (m.decoder.recordCalls calls).given settings takes := by
    rw [hm]
    exact (Decoder.given_of_elements (m.decoder.recordCalls_elements calls)).symm
  have hopen : isOpen setup (after s setup offset st) n =
      !(m.decoder.recordCalls calls).moveDue := by
    rw [m.decoder.recordCalls_moveDue, moveDue_eq hm, Bool.not_not]
  refine ⟨added, ?_, hopen ▸ hgives⟩
  rw [hnow]
  exact (given_succ hm hi).trans hadded

end Run

/-! ## The order of the events -/

/-- What an event tells of contours that are started by a move or closed by `closepath`. -/
def Event.contour? : Event → Option Stroke
  | element (.moveTo _) => some .moves
  | began .closepath _ => some .closes
  | _ => none

/-- The last move or `closepath` is a move. -/
def Opened (events : List Event) : Prop :=
  (events.filterMap Event.contour?).getLast? = some .moves

/-- The last move or `closepath` before each line, curve or flex is a move. -/
def ContoursOpen (events : List Event) : Prop :=
  ∀ before x after, events = before ++ .element x :: after → x.isDrawn = true → Opened before

theorem contoursOpen_nil : ContoursOpen [] := by
  intro before x after h
  cases before <;> cases h

theorem opened_concat {events : List Event} {event : Event} :
    Opened (events ++ [event]) ↔
      event.contour? = some .moves ∨ (event.contour? = none ∧ Opened events) := by
  unfold Opened
  rw [List.filterMap_append]
  cases h : event.contour? with
  | none => simp [h]
  | some k => simp [h]

theorem contoursOpen_concat {events : List Event} {event : Event} (h : ContoursOpen events)
    (hevent : ∀ x, event = .element x → x.isDrawn = true → Opened events) :
    ContoursOpen (events ++ [event]) := by
  intro before x after hsplit hx
  rcases List.eq_nil_or_concat after with rfl | ⟨rest, y, rfl⟩
  · obtain ⟨rfl, hy⟩ := List.append_inj' hsplit rfl
    exact hevent x (List.singleton_inj.1 hy) hx
  · rw [List.concat_eq_append, ← List.cons_append, ← List.append_assoc] at hsplit
    obtain ⟨rfl, -⟩ := List.append_inj' hsplit rfl
    exact h before x rest rfl hx

/-- Events that are not drawn can follow. -/
theorem contoursOpen_append {events later : List Event} (h : ContoursOpen events)
    (hlater : ∀ event ∈ later, ∀ x, event = .element x → x.isDrawn = false) :
    ContoursOpen (events ++ later) := by
  induction later generalizing events with
  | nil => rwa [List.append_nil]
  | cons event later ih =>
    rw [← List.singleton_append, ← List.append_assoc]
    refine ih (contoursOpen_concat h fun x hx hdrawn => ?_) fun y hy =>
      hlater y (List.mem_cons_of_mem _ hy)
    rw [hlater event List.mem_cons_self x hx] at hdrawn
    cases hdrawn

/-- If no contour is due, one is open, and so was one wherever something was drawn. -/
structure Decoder.Contoured (d : Decoder) : Prop where
  opened : d.moveDue = false → Opened d.events
  drawn : ContoursOpen d.events

namespace Decoder.Contoured

theorem of_eq (h : d.Contoured) (hdue : e.moveDue = d.moveDue) (hevents : e.events = d.events) :
    e.Contoured := by
  refine ⟨fun he => ?_, ?_⟩ <;> rw [hevents]
  · exact h.opened (hdue.symm.trans he)
  · exact h.drawn

/-- An event that neither draws nor tells of contours. -/
theorem record (h : d.Contoured) {event : Event} (hcontour : event.contour? = none)
    (hdrawn : ∀ x, event = .element x → x.isDrawn = false) : (d.record event).Contoured := by
  refine ⟨fun hdue => ?_, ?_⟩ <;> rw [d.events_record]
  · exact opened_concat.2 (.inr ⟨hcontour, h.opened hdue⟩)
  · refine contoursOpen_concat h.drawn fun x hx hy => ?_
    rw [hdrawn x hx] at hy
    cases hy

theorem report (h : d.Contoured) {x : Element} (hx : x.isSegment = false) :
    (d.report x).Contoured := by
  have hdrawn : x.isDrawn = false := by cases x <;> first | rfl | cases hx
  refine h.record ?_ fun y hy => by cases hy; exact hdrawn
  cases x <;> first | rfl | cases hx

theorem placeAccent (h : d.Contoured) : d.placeAccent.Contoured := by
  obtain ⟨_, _, heq⟩ := d.placeAccent_eq
  rw [heq]
  exact h.of_eq rfl rfl

/-- A move opens a contour. -/
theorem openContour (h : d.Contoured) : d.openContour.Contoured := by
  refine ⟨fun _ => ?_, ?_⟩ <;> rw [Decoder.openContour, Decoder.report, Decoder.events_record]
  · exact opened_concat.2 (.inl rfl)
  · exact contoursOpen_concat h.drawn fun x hx hy => by cases hx; cases hy

theorem startContour (h : d.Contoured) :
    d.startContour.Contoured ∧ d.startContour.moveDue = false := by
  unfold Decoder.startContour
  dsimp only
  split
  · exact ⟨h.placeAccent.openContour, rfl⟩
  · next hdue => exact ⟨h.placeAccent, Bool.eq_false_iff.2 hdue⟩

/-- What is drawn comes after its contour is started. -/
theorem draw (h : d.Contoured) (x : Element) (hx : x.isDrawn = true) (p : Point) :
    (Decoder.report x { d.startContour with point := p }).Contoured := by
  obtain ⟨hstart, hdue⟩ := h.startContour
  have hopened : Opened d.startContour.events := hstart.opened hdue
  have hcontour : (Event.element x).contour? = none := by cases x <;> first | rfl | cases hx
  refine ⟨fun _ => ?_, ?_⟩ <;> rw [Decoder.report, Decoder.events_record]
  · exact opened_concat.2 (.inr ⟨hcontour, hopened⟩)
  · exact contoursOpen_concat hstart.drawn fun y hy _ => hopened

end Decoder.Contoured

theorem Change.contoured {a : Activity} (h : Change setup a d e) (hd : d.Contoured) :
    e.Contoured := by
  cases h with
  | closed => exact ⟨nofun, hd.drawn⟩
  | note n => exact hd.record rfl nofun
  | lookedUp code offset => exact hd.record rfl nofun
  | operator code operands => exact hd.report rfl
  | accented shift parts => exact hd.report rfl
  | width bearing width hpart hwidth =>
    exact (hd.of_eq (e := { d with bearing, width := some width }) rfl rfl).report rfl
  | counterStem vertical near far =>
    exact (hd.of_eq (e := { d with hintsDue := false, groupDue := false }) rfl rfl).report rfl
  | stem kind position extent hkind =>
    unfold Decoder.hintStem
    dsimp only
    split
    · exact (hd.of_eq (e := { d.renewHints with hintsDue := false, groupDue := false }) rfl
        rfl).report rfl
    · exact (hd.of_eq (e := { d with hintsDue := false, groupDue := false }) rfl rfl).report rfl
  | move delta =>
    exact (hd.placeAccent.of_eq (e := { d.placeAccent with
      point := (d.placeAccent.point + delta).round }) rfl rfl).openContour
  | set p => exact hd.placeAccent.of_eq rfl rfl
  | startFlex => exact hd.placeAccent.of_eq rfl rfl
  | line delta => exact hd.draw _ rfl _
  | curve p q r => exact hd.draw _ rfl _
  | flexTo depth left right => exact hd.draw _ rfl _
  | _ => exact hd.of_eq rfl rfl

/-- An instruction keeps contours open. -/
theorem Decode.contoured_execute (setup : Setup) (i : Instruction) (hd : d.Contoured) :
    (final (execute setup i d)).Contoured := by
  by_cases hclose : i.stroke d = .closes
  · obtain ⟨rfl, hx⟩ := execute_of_closes setup hclose
    have hx := hx d.moveDue
    rw [d.setDue_self] at hx
    rw [hx]
    refine ⟨nofun, ?_⟩
    show ContoursOpen (d.record _).events
    rw [d.events_record]
    exact contoursOpen_concat hd.drawn nofun
  · have hbegin : (i.begin d).Contoured := by
      cases i with
      | operator op =>
        refine hd.record ?_ nofun
        cases op with
        | closepath => exact absurd rfl hclose
        | _ => rfl
      | _ => exact hd
    exact (changes_execute setup i d).keeps (fun _ _ h => h.contoured) hbegin

theorem Run.invariant_contoured (setup : Setup) :
    Invariant setup (fun _ _ => True) Decoder.Contoured Decoder.Contoured :=
  .of_execute (fun i _ h => Decode.contoured_execute setup i h)
    (fun _ _ h => h.record rfl nofun) (fun _ h => h.of_eq rfl rfl)
    (fun _ _ h => ⟨nofun, h.drawn⟩) fun _ h => h.of_eq rfl rfl

section Deliver

variable {settings : Settings} {takes : Capabilities}

variable (settings) in
/-- A receiver that takes all segments is given one event for each that matters to contours, and
none that matters for another. -/
theorem Event.deliver_cases (h : takes.Outline) (event : Event) :
    (∃ event', event.deliver settings takes = [event'] ∧ event'.contour? = event.contour? ∧
      ∀ y, event' = .element y → y.isDrawn = true →
        ∃ x, event = .element x ∧ x.isDrawn = true) ∨
    (event.contour? = none ∧ ∀ y ∈ event.deliver settings takes,
      y.contour? = none ∧ ∀ x, y = .element x → x.isDrawn = false) := by
  have outside {x : Element} (hx : x.isSegment = false) :
      (Event.element x).contour? = none ∧
        ∀ y, Event.element x = .element y → y.isDrawn = false := by
    cases x with
    | width | stem | accented | operator => exact ⟨rfl, fun y hy => by cases hy; rfl⟩
    | _ => cases hx
  cases event with
  | element x =>
    cases hx : x.isSegment with
    | true =>
      refine .inl ⟨.element (settings.place x), ?_, ?_, fun y hy hdrawn => ⟨x, rfl, ?_⟩⟩
      · rw [deliver, Element.deliver_segment h hx]
        rfl
      · unfold Settings.place
        cases settings.activeMatrix? with
        | none => rfl
        | some m => cases x <;> rfl
      · cases hy
        rwa [settings.isDrawn_place] at hdrawn
    | false =>
      refine .inr ⟨(outside hx).1, fun y hy => ?_⟩
      obtain ⟨z, hz, rfl⟩ := List.mem_map.1 hy
      exact outside (Element.isSegment_of_mem_deliver hx hz)
  | _ => exact .inl ⟨_, rfl, rfl, fun y hy => by cases hy⟩

/-- A receiver sees contours started and closed as they are. -/
theorem filterMap_contour?_deliver (h : takes.Outline) (events : List Event) :
    (events.flatMap (Event.deliver settings takes)).filterMap Event.contour? =
      events.filterMap Event.contour? := by
  induction events with
  | nil => rfl
  | cons event events ih =>
    rw [List.flatMap_cons, List.filterMap_append, ih, List.filterMap_cons]
    rcases event.deliver_cases settings h with ⟨event', hdeliver, hsame, -⟩ | ⟨hnone, hall⟩
    · rw [hdeliver, List.filterMap_cons, hsame]
      cases event.contour? <;> rfl
    · rw [hnone, List.filterMap_eq_nil_iff.2 fun y hy => (hall y hy).1]
      rfl

variable (settings) in
theorem ContoursOpen.deliver (h : takes.Outline) {events : List Event}
    (hevents : ContoursOpen events) :
    ContoursOpen (events.flatMap (Event.deliver settings takes)) := by
  induction events using List.reverseRecOn with
  | nil => exact hevents
  | append_singleton events event ih =>
    have hbefore : ContoursOpen events := fun before x after hsplit =>
      hevents before x (after ++ [event]) (by rw [hsplit, List.append_assoc, List.cons_append])
    rw [List.flatMap_append, List.flatMap_singleton]
    rcases event.deliver_cases settings h with ⟨event', hdeliver, -, hdrawn⟩ | ⟨-, hall⟩
    · rw [hdeliver]
      refine contoursOpen_concat (ih hbefore) fun y hy hydrawn => ?_
      obtain ⟨x, rfl, hx⟩ := hdrawn y hy hydrawn
      rw [Opened, filterMap_contour?_deliver h]
      exact hevents events x [] rfl hx
    · exact contoursOpen_append (ih hbefore) fun y hy => (hall y hy).2

end Deliver

/-- The last move or `closepath` before all that is drawn is a move. -/
theorem contoursOpen_parse (s : Source) (font : Font) (settings : Settings) (takes : Capabilities)
    (offset : Nat) (st : Source.State) (htakes : takes.Outline) :
    ContoursOpen (parse s font settings takes offset st).1.events := by
  let setup := Setup.of font settings takes
  obtain ⟨last, -, hlast⟩ := Run.after_eq_ended (s := s) setup offset st
  have hleft : (Run.last s setup offset st).Contoured :=
    (Run.invariant_contoured setup).last ⟨nofun, contoursOpen_nil⟩ fun _ _ _ _ _ _ => trivial
  rw [Run.last_eq hlast] at hleft
  have hevents := hleft.drawn.deliver settings htakes
  rw [Run.parse_eq_conclude hlast]
  revert hevents
  cases Session.decodeGlyph s setup offset st with
  | ok flow session => exact id
  | error x session => exact fun hevents => contoursOpen_concat hevents nofun

/-- A receiver that takes all segments is given them step by step: a line, a curve or the end of a
flex that is executed while no contour is open is given after exactly one move, to the current point
with the accent placed, and one executed while a contour is open without any. An explicit move is
given alone, and nothing else gives a segment, moves within a flex included. All of these end at the
current point after the instruction, mapped by the matrix if there is one. So the last move or
`closepath` before each of them is a move. -/
theorem contours_opened (s : Source) (font : Font) (settings : Settings) (takes : Capabilities)
    (offset : Nat) (st : Source.State) (htakes : takes.Outline) :
    let setup := Setup.of font settings takes
    let run := Run.after s setup offset st
    let given (n : Nat) := Run.given settings takes (run n)
    let report := (parse s font settings takes offset st).1
    given 0 = [] ∧ (∃ last, ∀ n, last ≤ n → given n = report.elements) ∧
    (∀ n m, run n = .running m →
      m.decoder.moveDue = !Run.isOpen setup run n ∧
      (∀ i d, m.Executes i d →
        ∃ added, given (n + 1) = given n ++ added ∧
          (m.stroke setup).Gives settings (Run.isOpen setup run n) d
            (Decode.final (Decode.execute setup i d)) added) ∧
      ((∀ i d, ¬ m.Executes i d) → given (n + 1) = given n)) ∧
    ContoursOpen report.events := by
  intro setup run given report
  refine ⟨Run.given_zero, Run.given_eventually s font settings takes offset st, fun n m hm =>
    ⟨Run.moveDue_eq hm, fun i d hi => Run.gives_step htakes hm hi, fun hnone =>
      Run.given_of_unread hm hnone⟩, ?_⟩
  exact contoursOpen_parse s font settings takes offset st htakes

/-- The bytes of `0 500 hsbw 5 hlineto closepath 5 vlineto endchar`. -/
def Reopening.data : List UInt8 := [139, 248, 136, 13, 144, 6, 9, 144, 7, 14]

/-- The line after `closepath` is given after a move. -/
theorem contours_opened_reopening :
    let run := Run.after (.memory Reopening.data none) (.of {} {} {}) 0 {}
    ({} : Capabilities).Outline ∧ ∃ p x, x.isDrawn = true ∧
      Run.given {} {} (run 8) = Run.given {} {} (run 7) ++ [.moveTo p, x] := by
  intro run
  have htakes : ({} : Capabilities).Outline := ⟨rfl, rfl, rfl, rfl⟩
  have h := contours_opened (.memory Reopening.data none) {} {} {} 0 {} htakes
  have hclosed : Run.isOpen (.of {} {} {}) run 7 = false := by decide +kernel
  have hstroke : Run.stroke (.of {} {} {}) run 7 = .draws := by decide +kernel
  obtain ⟨m, hm, hdraws⟩ := Run.running_of_stroke hstroke nofun nofun
  have hmoves : m.stroke (.of {} {} {}) ≠ .still := by
    rw [hdraws]
    nofun
  obtain ⟨i, d, control, e, hi, -, -⟩ := m.executes_of_stroke hmoves
  obtain ⟨added, hadded, hgives⟩ := (h.2.2.1 7 m hm).2.1 i d hi
  rw [hdraws] at hgives
  cases hgives with
  | continues hopen => exact absurd hopen (Bool.eq_false_iff.1 hclosed)
  | starts _ hdrawn => exact ⟨htakes, _, _, hdrawn, hadded⟩

end Type1
