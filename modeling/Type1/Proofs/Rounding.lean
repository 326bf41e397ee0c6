import Type1.Proofs.Frames
import Type1.Proofs.Placement
import Type1.Proofs.RoundedNumbers

/-!
# Rounded points

The current point is rounded, and so are the ends of lines, curves and flexes, whatever fractions a
program has. Only drawing that places an accent can begin at a point that is not: it adds the shift
to the current point, and the sum is not rounded again.

* `Run.placesAt?`: the point at which a step places an accent by drawing.
* `Change.rounded`: a change keeps the current point rounded, unless it places an accent at a point
  that is not.
* `ends_rounded`: the segments that a receiver is given end at rounded points.
* `ends_not_rounded`: the first of the two curves that stand for a flex can end at a point that is
  not rounded, and a line of an accent with a fractional shift can begin at one.
-/

namespace Type1

/-- The number is 0 or comes of rounding. -/
def Number.IsRounded (v : Number) : Prop := v = 0 ∨ ∃ u : Number, v = u.round

/-- Both coordinates are rounded. -/
def Point.IsRounded (p : Point) : Prop := p.x.IsRounded ∧ p.y.IsRounded

theorem Point.isRounded_zero : Point.zero.IsRounded := ⟨.inl rfl, .inl rfl⟩

theorem Point.isRounded_round (p : Point) : p.round.IsRounded := ⟨.inr ⟨p.x, rfl⟩, .inr ⟨p.y, rfl⟩⟩

/-- What rounding leaves as it is is rounded. -/
theorem Point.isRounded_of_round_eq {p : Point} (h : p.round = p) : p.IsRounded :=
  h ▸ p.isRounded_round

theorem Number.not_isRounded_half : ¬ Number.IsRounded 0.5 := by
  rintro (h | ⟨u, hu⟩)
  · revert h
    decide
  · exact round_ne_half u hu.symm

/-- The point to which the element goes is rounded; that of a move if `H` holds. -/
def Element.EndsRounded (H : Prop) : Element → Prop
  | moveTo target => H → target.IsRounded
  | lineTo target => target.IsRounded
  | curveTo curve => curve.last.IsRounded
  | flex _ _ right => right.last.IsRounded
  | width _ | stem .. | accented .. | operator .. => True

/-- The current point is rounded if `H` holds, and the segments so far end at rounded points. -/
structure Decoder.Rounded (H : Prop) (d : Decoder) : Prop where
  point : H → d.point.IsRounded
  ends : ∀ x ∈ d.elements, x.EndsRounded H

variable {setup : Setup} {H : Prop} {d e : Decoder}

namespace Decoder

/-- Where the accent is placed depends on the current point and the part. -/
theorem placeAccent_point_congr (hpoint : e.point = d.point) (hpart : e.part = d.part) :
    e.placeAccent.point = d.placeAccent.point := by
  unfold placeAccent
  rw [hpart]
  split
  · exact congrArg (· + _) hpoint
  · exact hpoint

namespace Rounded

theorem of_eq (h : d.Rounded H) (hpoint : e.point = d.point) (helements : e.elements = d.elements) :
    e.Rounded H :=
  ⟨hpoint ▸ h.point, helements ▸ h.ends⟩

/-- An event is recorded, and the current point is rounded then. -/
theorem record (h : d.Rounded H) (event : Event) (hx : ∀ x ∈ event.element?, x.EndsRounded H) :
    (d.record event).Rounded H := by
  refine ⟨h.point, fun x hmem => ?_⟩
  rw [elements_record, List.mem_append, Option.mem_toList] at hmem
  exact hmem.elim (h.ends x) (hx x)

theorem report {x : Element} (h : d.Rounded H) (hx : x.EndsRounded H) : (d.report x).Rounded H :=
  h.record (.element x) fun _ hy => by cases hy; exact hx

/-- A contour is opened at the place of the accent. -/
theorem startContour (h : d.Rounded H) (hplaced : H → d.placeAccent.point.IsRounded) :
    d.startContour.Rounded H := by
  have hd : d.placeAccent.Rounded H := ⟨hplaced, d.placeAccent_elements ▸ h.ends⟩
  unfold Decoder.startContour
  dsimp only
  split
  · exact (hd.of_eq (e := { d.placeAccent with moveDue := false, moved := true }) rfl rfl).report
      (x := .moveTo d.placeAccent.point) hplaced
  · exact hd

/-- The current point becomes one that is rounded. -/
theorem setPoint (h : d.Rounded H) (p : Point) : { d with point := p.round }.Rounded H :=
  ⟨fun _ => p.isRounded_round, h.ends⟩

theorem placeAccent (h : d.Rounded H) (p : Point) :
    { d.placeAccent with point := p.round }.Rounded H :=
  ⟨fun _ => p.isRounded_round, d.placeAccent_elements.symm ▸ h.ends⟩

theorem addStem (h : d.Rounded H) (kind : StemKind) (near far : Number) :
    (d.addStem setup kind near far).Rounded H :=
  (h.of_eq (e := { d with hintsDue := false, groupDue := false }) rfl rfl).report trivial

theorem hintStem (h : d.Rounded H) (kind : StemKind) (position extent : Number) :
    (d.hintStem setup kind position extent).Rounded H := by
  unfold Decoder.hintStem
  dsimp only
  split
  · exact (h.of_eq (e := d.renewHints) rfl rfl).addStem _ _ _
  · exact h.addStem _ _ _

end Rounded

end Decoder

/-- A change keeps the current point rounded. One that draws does so if an accent is not to be
placed at a point that is not. -/
theorem Change.rounded {a : Activity} (h : Change setup a d e) (hd : d.Rounded H)
    (hplaced : a = .draws → H → d.placeAccent.point.IsRounded) :
    e.Rounded H ∧ (a = .draws → H → e.placeAccent.point.IsRounded) := by
  -- A change that leaves the point and the part alone, and one that draws from the placed point.
  have same (he : e.Rounded H) (hpoint : e.point = d.point) (hpart : e.part = d.part) :
      e.Rounded H ∧ (a = .draws → H → e.placeAccent.point.IsRounded) := by
    rw [Decoder.placeAccent_point_congr hpoint hpart]
    exact ⟨he, hplaced⟩
  have drawn (he : e.Rounded H) (hpart : e.part = d.placeAccent.part) :
      e.Rounded H ∧ (a = .draws → H → e.placeAccent.point.IsRounded) := by
    rw [Decoder.placeAccent_of_part hpart]
    exact ⟨he, fun _ => he.point⟩
  cases h with
  | note n => exact same (hd.record (.noted n) nofun) rfl rfl
  | lookedUp code offset => exact ⟨hd.record (.lookedUp code offset) nofun, nofun⟩
  | operator code operands => exact same (hd.report (x := .operator code operands) trivial) rfl rfl
  | accented shift parts => exact ⟨hd.report (x := .accented shift parts) trivial, nofun⟩
  | width bearing width hpart hwidth =>
    exact ⟨(hd.of_eq (e := { d with bearing, width := some width }) rfl rfl).report
      (x := .width width) trivial, nofun⟩
  | stem kind position extent hkind => exact ⟨hd.hintStem _ _ _, nofun⟩
  | counterStem vertical near far => exact ⟨hd.addStem _ _ _, nofun⟩
  | point bearing => exact ⟨hd.setPoint bearing, nofun⟩
  | set p => exact ⟨hd.placeAccent _, nofun⟩
  | move delta =>
    have hopened := (hd.placeAccent (d.placeAccent.point + delta)).report
      (x := .moveTo (d.placeAccent.point + delta).round) fun _ => Point.isRounded_round _
    exact ⟨hopened.of_eq rfl rfl, nofun⟩
  | line delta =>
    have hstart := hd.startContour (hplaced rfl)
    exact drawn ((hstart.setPoint _).report (Point.isRounded_round _)) d.startContour_part
  | curve p q r =>
    have hstart := hd.startContour (hplaced rfl)
    exact drawn ((hstart.setPoint _).report (Point.isRounded_round _)) d.startContour_part
  | flexTo depth left right =>
    have hstart := hd.startContour (hplaced rfl)
    exact drawn ((hstart.setPoint _).report (Point.isRounded_round _)) d.startContour_part
  | startFlex =>
    have hplace : d.placeAccent.Rounded H := ⟨hplaced rfl, d.placeAccent_elements ▸ hd.ends⟩
    exact drawn (hplace.of_eq rfl rfl) rfl
  | bearing bearing => exact ⟨hd.of_eq rfl rfl, nofun⟩
  | group => exact ⟨hd.of_eq rfl rfl, nofun⟩
  | renew => exact ⟨hd.of_eq rfl rfl, nofun⟩
  | components components hpart => exact ⟨hd.of_eq rfl rfl, nofun⟩
  | _ => exact same (hd.of_eq rfl rfl) rfl rfl

/-! ## Instructions and runs -/

namespace Decode

theorem changes_rounded {a : Activity} (h : Changes setup a d e) (hd : d.Rounded H)
    (hplaced : a = .draws → H → d.placeAccent.point.IsRounded) : e.Rounded H :=
  (h.keeps (P := fun e => e.Rounded H ∧ (a = .draws → H → e.placeAccent.point.IsRounded))
    (fun _ _ hc he => hc.rounded he.1 he.2) ⟨hd, hplaced⟩).1

theorem rounded_begin {i : Instruction} (hd : d.Rounded H) : (i.begin d).Rounded H := by
  cases i with
  | operator op => exact hd.record (.began op d.operands.toList) nofun
  | _ => exact hd

/-- An instruction that succeeds does not place an accent by drawing, or at a rounded point. -/
def PlacesRounded (setup : Setup) (i : Instruction) (d : Decoder) : Prop :=
  (∃ control e, execute setup i d = .ok control e) → i.activity d = .draws →
    ∀ bearing shift, d.part = .accent bearing shift false → (d.point + shift).IsRounded

/-- An instruction keeps the current point rounded, whatever comes of it. -/
theorem execute_rounded {i : Instruction} (hd : d.Rounded H)
    (hplaces : H → PlacesRounded setup i d) : (final (execute setup i d)).Rounded H := by
  have hbegin := rounded_begin (i := i) hd
  have hchanges := changes_execute setup i d
  by_cases ha : i.activity d = .draws
  · have hplacing : (i.activity d).places = true := by
      rw [ha]
      rfl
    rcases execute_places setup hplacing with
      ⟨control, e, he, -⟩ | ⟨x, e, he, hquiet⟩
    · refine changes_rounded hchanges hbegin fun _ hH => ?_
      have hpoint : (i.begin d).placeAccent.point = d.placeAccent.point := by
        cases i <;> exact Decoder.placeAccent_point_congr rfl rfl
      rw [hpoint]
      rcases d.placeAccent_cases with ⟨bearing, shift, hpart, h⟩ | ⟨-, h⟩ <;> rw [h]
      · exact hplaces hH ⟨control, e, he⟩ ha bearing shift hpart
      · exact hd.point hH
    · rw [he]
      exact changes_rounded hquiet hbegin nofun
  · exact changes_rounded hchanges hbegin fun h => absurd h ha

end Decode

namespace Run

variable {s : Source}

/-- The point at which a step places an accent by drawing, if it does. -/
def placesAt? (setup : Setup) : Status s → Option Point
  | .running m =>
    match m.cursor.readInstruction with
    | .done i _ calls =>
      let d := m.decoder.recordCalls calls
      match i.activity d, d.part, Decode.execute setup i d with
      | .draws, .accent _ shift false, .ok _ _ => some (d.point + shift)
      | _, _, _ => none
    | .failed _ _ _ => none
  | .ended _ => none

theorem placesAt?_eq {m : Moment s} {i : Instruction} {control : Control} {bearing shift : Point}
    (hi : m.Executes i d) (hx : Decode.execute setup i d = .ok control e)
    (ha : i.activity d = .draws) (hpart : d.part = .accent bearing shift false) :
    placesAt? setup (.running m) = some (d.point + shift) := by
  obtain ⟨next, calls, hread, rfl⟩ := hi
  unfold placesAt?
  simp only [hread, ha, hpart, hx]

theorem rounded_invariant (setup : Setup) (H : Prop) :
    Invariant setup (fun i d => H → Decode.PlacesRounded setup i d) (Decoder.Rounded H)
      (Decoder.Rounded H) where
  called call h := h.record (.called call) nofun
  ok hq h hx := by
    have := Decode.execute_rounded h hq
    rwa [hx] at this
  error hq h hx := by
    have := Decode.execute_rounded h hq
    rwa [hx] at this
  fails h := h
  base h := h.of_eq rfl rfl
  accent _ h := ⟨fun _ => Point.isRounded_zero, h.ends⟩
  done h := h.of_eq rfl rfl

end Run

theorem Element.deliver_of_unmapped {settings : Settings} (h : settings.activeMatrix? = none)
    (takes : Capabilities) :
    Element.deliver settings takes = Element.accept takes settings.updateOperators := by
  funext e
  rw [Element.deliver, h]

/-- Without a matrix, a receiver is given lines, curves and flexes that end at rounded points; if it
takes no flexes, it is given a flex as two curves of which the second one does. The current point is
rounded at each moment, and so are the starts of contours, if no accent is placed by drawing at a
point that is not. -/
theorem ends_rounded (s : Source) (font : Font) (settings : Settings) (takes : Capabilities)
    (offset : Nat) (st : Source.State) (hmatrix : settings.activeMatrix? = none) :
    let setup := Setup.of font settings takes
    let run := Run.after s setup offset st
    let last := Run.last s setup offset st
    (parse s font settings takes offset st).1.elements =
      last.elements.flatMap (Element.accept takes settings.updateOperators) ∧
    (∀ target, .lineTo target ∈ last.elements → target.IsRounded) ∧
    (∀ curve, .curveTo curve ∈ last.elements → curve.last.IsRounded) ∧
    (∀ depth left right, .flex depth left right ∈ last.elements → right.last.IsRounded) ∧
    ((∀ n, ∀ p ∈ Run.placesAt? setup (run n), p.IsRounded) →
      (∀ n m, run n = .running m → m.decoder.point.IsRounded) ∧ last.point.IsRounded ∧
      ∀ target, .moveTo target ∈ last.elements → target.IsRounded) := by
  intro setup run last
  have hinv := Run.rounded_invariant setup (∀ n, ∀ p ∈ Run.placesAt? setup (run n), p.IsRounded)
  have hq (n : Nat) (m : Moment s) (i : Instruction) (d : Decoder) (hm : run n = .running m)
      (hi : m.Executes i d) (hplaced : ∀ n, ∀ p ∈ Run.placesAt? setup (run n), p.IsRounded) :
      Decode.PlacesRounded setup i d := by
    rintro ⟨control, e, hx⟩ ha bearing shift hpart
    exact hplaced n _ (hm ▸ Run.placesAt?_eq hi hx ha hpart)
  -- The condition on placed accents is a parameter of the invariant: what holds in any case and
  -- what needs it are kept together.
  have hstart : Decoder.Rounded (∀ n, ∀ p ∈ Run.placesAt? setup (run n), p.IsRounded)
      (.start setup.font) := ⟨fun _ => Point.isRounded_zero, nofun⟩
  have hlast := hinv.last hstart hq
  refine ⟨?_, fun target => hlast.ends (.lineTo target), fun curve => hlast.ends (.curveTo curve),
    fun depth left right => hlast.ends (.flex depth left right), fun hplaced => ?_⟩
  · rw [Run.elements_parse, Element.deliver_of_unmapped hmatrix]
  · exact ⟨fun n m hm => (hinv.moment hstart hq hm).point hplaced, hlast.point hplaced,
      fun target hmem => hlast.ends (.moveTo target) hmem hplaced⟩

/-- An accented character, a base that starts a contour, and an accent that begins with a line. -/
def Rounding.data : List UInt8 :=
  Aacute.charstring ++ [139, 139, 13, 139, 139, 21, 14] ++ [139, 139, 13, 144, 6, 14]

/-- A line that begins at a whole shift begins at a rounded point. -/
theorem ends_rounded_line :
    let setup := Setup.of (Aacute.font 12 19) Aacute.settings {}
    let run := Run.after (.memory Rounding.data none) setup 0 {}
    let last := Run.last (.memory Rounding.data none) setup 0 {}
    Aacute.settings.activeMatrix? = none ∧
    (∀ n, ∀ p ∈ Run.placesAt? setup (run n), p.IsRounded) ∧
    Run.placesAt? setup (run 20) = some ⟨30, 40⟩ ∧
    ∀ target, .moveTo target ∈ last.elements → target.IsRounded := by
  intro setup run last
  have hplaced : ∀ n, ∀ p ∈ Run.placesAt? setup (run n), p.IsRounded := by
    have hrun : ∀ n < 22, ∀ p ∈ Run.placesAt? setup (run n), p.round = p := by decide +kernel
    exact Run.forall_after_of_check (P := fun x => ∀ p ∈ Run.placesAt? setup x, p.IsRounded)
      (by decide +kernel : Run.depth? (run 22) = none) (fun _ => nofun)
      fun n hn p hp => Point.isRounded_of_round_eq (hrun n hn p hp)
  have h :=
    ends_rounded (.memory Rounding.data none) (Aacute.font 12 19) Aacute.settings {} 0 {} rfl
  exact ⟨rfl, hplaced, by decide +kernel, (h.2.2.2.2 hplaced).2.2⟩

/-- A contour and a flex of which the third point has the coordinate 0.5, which a program has as the
quotient of 1 and 2. -/
def Rounding.flex : List UInt8 :=
  [139, 139, 13, 139, 139, 21, 139, 140, 12, 16] ++
  [139, 139, 21, 139, 141, 12, 16] ++
  [139, 144, 21, 139, 141, 12, 16] ++ [139, 144, 21, 139, 141, 12, 16] ++
  [140, 141, 12, 12, 139, 21, 139, 141, 12, 16] ++
  [144, 139, 21, 139, 141, 12, 16] ++ [144, 139, 21, 139, 141, 12, 16] ++
  [144, 139, 21, 139, 141, 12, 16] ++
  [189, 149, 139, 142, 139, 12, 16, 12, 17, 12, 17, 12, 33, 14]

/-- An accented character with an accent that is shifted by 0.5 and begins with a line. -/
def Rounding.shifted : List UInt8 :=
  [139, 248, 136, 13, 139, 140, 141, 12, 12, 139, 204, 247, 86, 12, 6] ++
  [139, 139, 13, 139, 139, 21, 14] ++ [139, 139, 13, 144, 6, 14]

/-- The first of the two curves that stand for a flex ends at a point of the flex, which is not
rounded. A line of an accent begins at its shift, which is not rounded. -/
theorem ends_not_rounded :
    (∃ curve, .curveTo curve ∈
        (parse (.memory Rounding.flex none) {} {} { flex := false } 0 {}).1.elements ∧
      ¬ curve.last.IsRounded) ∧
    ∃ target, .moveTo target ∈
        (parse (.memory Rounding.shifted none) (Aacute.font 15 22) Aacute.settings {} 0
          {}).1.elements ∧
      ¬ target.IsRounded := by
  refine ⟨⟨⟨⟨0, 5⟩, ⟨0, 10⟩, ⟨0.5, 10⟩⟩, by decide +kernel, ?_⟩, ⟨0.5, 0⟩, by decide +kernel, ?_⟩
  · exact fun h => Number.not_isRounded_half h.1
  · exact fun h => Number.not_isRounded_half h.1

end Type1
