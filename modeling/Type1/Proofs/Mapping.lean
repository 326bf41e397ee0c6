import Type1.Proofs.Contours

/-!
# A matrix acts on what is given, and on nothing else

Coordinates are mapped where an element is given, and the width where it is kept. No state keeps any
other coordinate mapped, so the decodings with two matrices go through the same states, up to the
history and the width.

* `Element.mapCoordinates`: an element with its points, its edges and its width mapped.
* `Decoder.mapCoordinates`, `Report.mapCoordinates`: a state and a report with the elements of their
  history and their width mapped.
* `Settings.mapping`, `Settings.unmapped`: the settings with a matrix, and without one.
* `Receiver.deliver_mapping`, `Run.report_mapping`: what comes of a matrix in a state of a decoding,
  and in its report.
* `matrix_maps_output`: the decodings with all matrices are one up to the mapping, step by step.
-/

namespace Type1

/-! ## What is mapped -/

/-- The element with its points, its edges and its width mapped. What is no position stays as it
is: the depth of a flex, an accented character and an operator. -/
def Element.mapCoordinates (point : Point → Point) (edge : Bool → Number → Number)
    (advance : Number → Number) : Element → Element
  | width w => width (advance w)
  | moveTo p => moveTo (point p)
  | lineTo p => lineTo (point p)
  | curveTo c => curveTo ⟨point c.first, point c.second, point c.last⟩
  | stem kind near far => stem kind (edge kind.vertical near) (edge kind.vertical far)
  | flex depth left right =>
    flex depth ⟨point left.first, point left.second, point left.last⟩
      ⟨point right.first, point right.second, point right.last⟩
  | accented shift parts => accented shift parts
  | operator code operands => operator code operands

theorem Element.transform_eq (m : Matrix) (e : Element) :
    e.transform m = e.mapCoordinates m.transform
      (fun vertical edge => if vertical then edge * m.sx + m.tx else edge * m.sy + m.ty)
      (· * m.sx) := by
  cases e <;> rfl

/-- The event with a function applied to the element that it adds. -/
def Event.mapElement (f : Element → Element) : Event → Event
  | element e => element (f e)
  | event => event

theorem Event.filterMap_mapElement (f : Element → Element) (history : List Event) :
    (history.map (mapElement f)).filterMap element? =
      (history.filterMap element?).map f := by
  rw [List.filterMap_map, List.map_filterMap]
  congr 1
  funext event
  cases event <;> rfl

/-- The glyph with its width mapped. -/
def Glyph.mapWidth (f : Number → Number) (g : Glyph) : Glyph := { g with width := g.width.map f }

/-- The state with the elements of its history and its width mapped. -/
def Decoder.mapCoordinates (element : Element → Element) (advance : Number → Number)
    (d : Decoder) : Decoder :=
  { d with
    width := d.width.map advance
    history := d.history.map (Event.mapElement element) }

/-- The report with its elements and its width mapped. -/
def Report.mapCoordinates (element : Element → Element) (advance : Number → Number)
    (r : Report) : Report :=
  ⟨r.events.map (Event.mapElement element), r.result.map (Glyph.mapWidth advance)⟩

theorem Report.elements_mapCoordinates (element : Element → Element) (advance : Number → Number)
    (r : Report) : (r.mapCoordinates element advance).elements = r.elements.map element :=
  Event.filterMap_mapElement element r.events

/-! ## Settings with a matrix and without one -/

namespace Settings

variable (settings : Settings)

/-- The settings with a matrix. -/
def mapping (m : Matrix) : Settings := { settings with useMatrix := true, matrix := m }

/-- The settings without a matrix. -/
def unmapped : Settings := { settings with useMatrix := false }

@[simp] theorem activeMatrix?_unmapped : settings.unmapped.activeMatrix? = none := rfl

variable {settings} {m : Matrix}

theorem activeMatrix?_mapping (h : m.isIdentity = false) :
    (settings.mapping m).activeMatrix? = some m := by
  have hactive : (true && !m.isIdentity) = true := by rw [h]; rfl
  exact if_pos hactive

/-- Of the matrix, the decoding knows that there is one. -/
theorem setup_mapping (font : Font) (takes : Capabilities) (h : m.isIdentity = false) :
    Setup.of font (settings.mapping m) takes =
      { Setup.of font settings takes with mapped := true } := by
  unfold Setup.of
  rw [activeMatrix?_mapping h]
  rfl

end Settings

section Deliver

variable {settings : Settings} {takes : Capabilities} {m : Matrix}

theorem Element.deliver_mapping (h : m.isIdentity = false) (e : Element) :
    e.deliver (settings.mapping m) takes =
      (e.deliver settings.unmapped takes).map (transform m) := by
  unfold deliver
  rw [Settings.activeMatrix?_mapping h, Settings.activeMatrix?_unmapped]
  rfl

theorem Event.deliver_mapping (h : m.isIdentity = false) (event : Event) :
    event.deliver (settings.mapping m) takes =
      (event.deliver settings.unmapped takes).map (mapElement (Element.transform m)) := by
  cases event with
  | element e =>
    rw [deliver, deliver, Element.deliver_mapping h, List.map_map, List.map_map]
    rfl
  | _ => rfl

/-- The history of a decoding with a matrix is the one without, mapped. -/
theorem Event.flatMap_deliver_mapping (h : m.isIdentity = false) (history : List Event) :
    history.flatMap (deliver (settings.mapping m) takes) =
      (history.flatMap (deliver settings.unmapped takes)).map
        (mapElement (Element.transform m)) := by
  rw [List.map_flatMap]
  congr 1
  funext event
  exact event.deliver_mapping h

/-- A receiver has the same with a matrix as without one, mapped. -/
theorem Receiver.deliver_mapping (font : Font) (h : m.isIdentity = false) (d : Decoder) :
    Receiver.deliver ⟨font, settings.mapping m, takes⟩ d =
      (Receiver.deliver ⟨font, settings.unmapped, takes⟩ d).mapCoordinates (Element.transform m)
        (· * m.sx) := by
  have hwidth (d : Decoder) : d.width.map (mapWidth ⟨font, settings.mapping m, takes⟩) =
      (d.width.map (mapWidth ⟨font, settings.unmapped, takes⟩)).map (· * m.sx) := by
    rw [Option.map_map]
    congr 1
    funext w
    unfold mapWidth
    rw [Settings.activeMatrix?_mapping h]
    rfl
  unfold deliver Decoder.mapCoordinates
  rw [hwidth, Event.flatMap_deliver_mapping h]
  simp only [List.map_toArray]

end Deliver

/-! ## Runs -/

/-- A receiver was given the elements that the decoding leaves. -/
theorem Run.elements_report (offset : Nat) (o : Session.Outcome) :
    (Session.report offset o).1.elements = (left o).elements := by
  cases o with
  | ok flow session => rfl
  | error x session =>
    unfold Session.report Report.elements
    rw [List.filterMap_append]
    exact List.append_nil _

/-- What is told of a decoding with its states mapped. -/
theorem Run.report_mapping (element : Element → Element) (advance : Number → Number) (offset : Nat)
    (o : Session.Outcome) :
    Session.report offset (mapOutcome (Decoder.mapCoordinates element advance) o) =
      let told := Session.report offset o
      (told.1.mapCoordinates element advance, told.2) := by
  cases o with
  | ok flow session =>
    simp only [Session.report, mapOutcome, Session.mapDecoder, Decoder.mapCoordinates,
      Report.mapCoordinates, Array.toList_map, Except.map, Glyph.mapWidth]
  | error x session =>
    simp only [Session.report, mapOutcome, Session.mapDecoder, Decoder.mapCoordinates,
      Report.mapCoordinates, Array.toList_map, Except.map, List.map_append]
    rfl

/-- A charstring and a receiver have elements, a history, a result and a run of which this holds,
whatever the matrix, unless it is the identity. The receiver is given the elements mapped: points by
the transform of the matrix, the edges of vertical stems as horizontal positions and the others as
vertical ones, and the width by the horizontal scale. What is executed, remarked, read and looked up
between them is the history, and the result is the result with its width scaled. After each number
of steps the decoding has come to where the run has, in the state that the run has there, with the
elements that were given so far and the width mapped and all else as it is. The run ends, with the
elements. -/
theorem matrix_maps_output (s : Source) (font : Font) (settings : Settings) (takes : Capabilities)
    (offset : Nat) (st : Source.State) :
    ∃ (elements : List Element) (history : List Event) (result : Except Error Glyph)
      (source : Source.State) (run : Nat → Status s),
      (∃ last o, (∀ n, last ≤ n → run n = .ended o) ∧ (Run.left o).elements = elements) ∧
      ∀ m : Matrix, m.isIdentity = false →
        let mapped : Settings := { settings with useMatrix := true, matrix := m }
        let mapElement := Element.mapCoordinates m.transform
          (fun vertical edge => if vertical then edge * m.sx + m.tx else edge * m.sy + m.ty)
          (· * m.sx)
        let report := parse s font mapped takes offset st
        report.1.elements = elements.map mapElement ∧
        report.1.events = history.map (Event.mapElement mapElement) ∧
        report.1.result =
          result.map (fun glyph => { glyph with width := glyph.width.map (· * m.sx) }) ∧
        report.2 = source ∧
        ∀ n, Receiver.after s ⟨font, mapped, takes⟩ offset st n =
          (run n).map (Decoder.mapCoordinates mapElement (· * m.sx)) := by
  -- Of a matrix the decoder sees only that there is one, so that the moments of all of them are one
  -- run; what differs is how the receivers give its elements and its width.
  let setup : Setup := { Setup.of font settings takes with mapped := true }
  obtain ⟨k, -, hend⟩ := Run.after_eq_ended (s := s) setup offset st
  let unmapped : Receiver := ⟨font, settings.unmapped, takes⟩
  let run (n : Nat) := (Run.after s setup offset st n).map unmapped.deliver
  let o := Run.mapOutcome unmapped.deliver (Session.decodeGlyph s setup offset st)
  have hlast (n : Nat) (hn : k ≤ n) : run n = .ended o :=
    congrArg (Status.map unmapped.deliver) (Run.after_of_ended hend hn)
  let reference := Session.report offset o
  refine ⟨reference.1.elements, reference.1.events, reference.1.result, reference.2, run,
    ⟨k, o, hlast, (Run.elements_report offset o).symm⟩, fun m hm => ?_⟩
  intro mapped mapElement report
  let r : Receiver := ⟨font, mapped, takes⟩
  have hafter (n : Nat) : r.after s offset st n =
      (run n).map (.mapCoordinates mapElement (· * m.sx)) := by
    have hsetup : r.setup = setup := Settings.setup_mapping font takes hm
    have htransform : Element.transform m = mapElement := funext (Element.transform_eq m)
    rw [Receiver.after_eq, hsetup, Status.map_map, ← htransform]
    congr 1
    funext d
    exact Receiver.deliver_mapping font hm d
  -- The report is of the moment at which the run has ended.
  have hreport : report = (reference.1.mapCoordinates mapElement (· * m.sx), reference.2) := by
    have hr : r.after s offset st k =
        .ended (Run.mapOutcome (.mapCoordinates mapElement (· * m.sx)) o) := by
      rw [hafter, hlast k (Nat.le_refl k)]
      rfl
    rw [← Run.report_mapping]
    exact Receiver.parse_of_ended (r := r) hr
  rw [hreport]
  exact ⟨reference.1.elements_mapCoordinates mapElement _, rfl, rfl, rfl, hafter⟩

end Type1
