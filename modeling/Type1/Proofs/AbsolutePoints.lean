import Type1.Proofs.ControlledElements

/-!
# Absolute positions in an accent

Once an accent is placed, the current point includes its shift. Most instructions leave it where it
is or move it by displacements. Three kinds state where it is to be, in the coordinates of the
accent: `setcurrentpoint` and the end of a flex, which add the shift, and a side bearing that is
given again, which does not.

* `Course`, `Instruction.course`: what becomes of the current point.
* `Decode.execute_point`: where it is after an instruction.
* `accent_points`: where it is in a placed accent, in each step of a run.
* `accent_bearing_unshifted`: a side bearing that takes the accent back to where it was before its
  shift.
-/

namespace Type1

/-! ## What becomes of the current point -/

/-- What becomes of the current point. Coordinates are those of the program. -/
inductive Course where
  /-- It stays. -/
  | stays
  /-- It moves along a displacement. -/
  | straight (delta : Point)
  /-- It moves to the end of a curve. -/
  | curved (delta₁ delta₂ delta₃ : Point)
  /-- It is stated. -/
  | stated (p : Point)
  /-- It moves to the end of a flex, which is stated. -/
  | flexed (p : Point)
  /-- It becomes the side bearing. -/
  | bearing (p : Point)

/-- Where the current point is afterwards, given what absolute coordinates stand for. A side bearing
is taken as it is. -/
def Course.target (setup : Setup) (absolute : Point → Point) (d : Decoder) : Course → Point
  | stays => d.point
  | straight delta => (d.point + delta).round
  | curved delta₁ delta₂ delta₃ =>
    (Curve.along (d.control setup) d.point delta₁ delta₂ delta₃).last
  | stated p => (absolute p).round
  | flexed p => (d.controlPoint setup (absolute p)).round
  | bearing p => p.round

/-- What an other subroutine does to the current point. -/
def OtherSubr.course (operands : Operands) : OtherSubr → Course
  | endFlex => (operands.split? 3).elim .stays fun (_, v) => .flexed ⟨v.second, v.third⟩
  | _ => .stays

/-- What an operator does to the current point. Within a flex a move only collects a point. -/
def Operator.course (d : Decoder) : Operator → Course
  | rmoveto =>
    if d.flex.active then .stays
    else d.operands.lowest 2 .stays fun v => .straight ⟨v.first, v.second⟩
  | hmoveto =>
    if d.flex.active then .stays else d.operands.lowest 1 .stays fun v => .straight ⟨v.first, 0⟩
  | vmoveto =>
    if d.flex.active then .stays else d.operands.lowest 1 .stays fun v => .straight ⟨0, v.first⟩
  | rlineto => d.operands.lowest 2 .stays fun v => .straight ⟨v.first, v.second⟩
  | hlineto => d.operands.lowest 1 .stays fun v => .straight ⟨v.first, 0⟩
  | vlineto => d.operands.lowest 1 .stays fun v => .straight ⟨0, v.first⟩
  | rrcurveto => d.operands.lowest 6 .stays fun v =>
    .curved ⟨v.first, v.second⟩ ⟨v.third, v.fourth⟩ ⟨v.fifth, v.sixth⟩
  | vhcurveto => d.operands.lowest 4 .stays fun v =>
    .curved ⟨0, v.first⟩ ⟨v.second, v.third⟩ ⟨v.fourth, 0⟩
  | hvcurveto => d.operands.lowest 4 .stays fun v =>
    .curved ⟨v.first, 0⟩ ⟨v.second, v.third⟩ ⟨0, v.fourth⟩
  | setcurrentpoint => d.operands.lowest 2 .stays fun v => .stated ⟨v.first, v.second⟩
  | hsbw => d.operands.lowest 2 .stays fun v => .bearing ⟨v.first, 0⟩
  | sbw => d.operands.lowest 4 .stays fun v => .bearing ⟨v.first, v.second⟩
  | callothersubr => d.operands.called?.elim .stays fun (subr, below, _) => subr.course below
  | _ => .stays

/-- What an instruction does to the current point. -/
def Instruction.course (d : Decoder) : Instruction → Course
  | operator op => op.course d
  | number _ | reserved _ => .stays

/-! ## Where the current point is -/

variable {setup : Setup} {d e : Decoder} {control : Control}

/-- A change that neither places an accent nor gives a side bearing leaves the current point. -/
theorem Change.point_eq {a : Activity} (h : Change setup a d e) (hplaces : a.places = false)
    (hmeasures : a ≠ .measures) : e.point = d.point := by
  cases h with
  | point | bearing | width => exact absurd rfl hmeasures
  | move | set | line | curve | startFlex | flexTo => cases hplaces
  | stem kind position extent =>
    obtain ⟨_, _, _, _, hstem⟩ := d.hintStem_eq setup kind position extent
    rw [hstem]
  | _ => rfl

theorem Changes.point_eq {a : Activity} (h : Changes setup a d e) (hplaces : a.places = false)
    (hmeasures : a ≠ .measures) : e.point = d.point :=
  h.keeps (P := fun e => e.point = d.point)
    (fun _ _ hc he => (hc.point_eq hplaces hmeasures).trans he) rfl

namespace Decode

theorem lowest_of_arguments {α : Type} {n : Nat} {v : Vector Number n} {c : Decoder}
    (h : arguments n d = .ok v c) (missing : α) (g : Vector Number n → α) :
    d.operands.lowest n missing g = g v := by
  rw [Operands.lowest, (arguments_eq_ok h).1]
  rfl

/-- An operator that draws leaves the current point where what it draws does. -/
theorem point_draw {n : Nat} {f : Vector Number n → Decoder → Decoder}
    {g : Vector Number n → Course} {absolute : Point → Point}
    (h : ∀ v, (f v d).point = (g v).target setup absolute d) (hx : draw n f d = .ok control e) :
    e.point = (d.operands.lowest n .stays g).target setup absolute d := by
  obtain ⟨v, _, hv, hx⟩ := bind_eq_ok hx
  obtain ⟨-, rfl⟩ := arguments_eq_ok hv
  cases hx
  rw [lowest_of_arguments hv]
  exact h v

theorem point_moveWith {n : Nat} {delta : Vector Number n → Point} {absolute : Point → Point}
    (hplaced : d.placeAccent = d) (hx : moveWith n delta d = .ok control e) :
    e.point = Course.target setup absolute d (if d.flex.active then .stays
      else d.operands.lowest n .stays fun v => .straight (delta v)) := by
  cases hactive : d.flex.active with
  | true =>
    have hchanges : Changes setup (if d.flex.active then .quiet else .moves) d
        (final (moveWith n delta d)) := changes_moveWith n delta d
    rw [hx, hactive] at hchanges
    exact hchanges.point_eq rfl nofun
  | false =>
    obtain ⟨v, _, hv, hx⟩ := bind_eq_ok hx
    obtain ⟨-, rfl⟩ := arguments_eq_ok hv
    rw [bind_run (move_run hactive)] at hx
    cases hx
    rw [if_neg Bool.false_ne_true, lowest_of_arguments hv]
    show (d.placeAccent.point + delta v).round = (d.point + delta v).round
    rw [hplaced]

/-- Side bearing and width leave the current point at the side bearing. -/
theorem point_metrics (setup : Setup) (bearing : Point) (advance : Number) (d : Decoder) :
    (final (metrics setup bearing advance d)).point = bearing.round := by
  rw [metrics, modify_bind_run, get_bind_run]
  cases d.part with
  | base b => rfl
  | accent b shift placed => rfl
  | glyph =>
    dsimp only
    rw [get_bind_run]
    cases d.width with
    | some w => rfl
    | none => cases setup.widthOnly <;> rfl

/-- Operands that are read, a stack that is cleared, and then side bearing and width. -/
theorem point_measure {n : Nat} {bearing : Vector Number n → Point}
    {advance : Vector Number n → Number} {absolute : Point → Point}
    (hx : (do
      let v ← arguments n
      clear
      metrics setup (bearing v) (advance v) : Decode Control) d = .ok control e) :
    e.point = Course.target setup absolute d
      (d.operands.lowest n .stays fun v => .bearing (bearing v)) := by
  obtain ⟨v, _, hv, hx⟩ := bind_eq_ok hx
  obtain ⟨-, rfl⟩ := arguments_eq_ok hv
  rw [lowest_of_arguments hv]
  have hpoint := point_metrics setup (bearing v) (advance v) { d with operands := .empty }
  rw [show metrics setup (bearing v) (advance v) { d with operands := .empty } =
    .ok control e from hx] at hpoint
  exact hpoint

/-- A flex that ends is under way with seven points, and has its depth and its last point. -/
theorem endFlex_eq_ok {n : Nat} {u : Unit} (hx : endFlex setup n d = .ok u e) :
    ∃ r p₁ p₂ p₃ p₄ p₅ q below v, n = 3 ∧ d.flex.active = true ∧
      d.flex.points = [r, p₁, p₂, p₃, p₄, p₅, q] ∧ d.operands.split? 3 = some (below, v) := by
  by_cases hcomplete : ∃ r p₁ p₂ p₃ p₄ p₅ q, n = 3 ∧ d.flex.active = true ∧
      d.flex.points = [r, p₁, p₂, p₃, p₄, p₅, q]
  · obtain ⟨r, p₁, p₂, p₃, p₄, p₅, q, rfl, hactive, hpoints⟩ := hcomplete
    cases hsplit : d.operands.split? 3 with
    | none => cases (Decoder.endFlex_short hactive hpoints setup hsplit).symm.trans hx
    | some p => exact ⟨r, p₁, p₂, p₃, p₄, p₅, q, p.1, p.2, rfl, hactive, hpoints, rfl⟩
  · have hrefused := endFlex_refused setup (d := d) (n := n)
      fun r p₁ p₂ p₃ p₄ p₅ q hn hactive hpoints =>
        hcomplete ⟨r, p₁, p₂, p₃, p₄, p₅, q, hn, hactive, hpoints⟩
    cases hrefused.symm.trans hx

/-- A flex ends where its end states. -/
theorem point_endFlex {n : Nat} {u : Unit} (hx : endFlex setup n d = .ok u e) :
    e.point = ((OtherSubr.endFlex).course d.operands).target setup d.absolute d := by
  obtain ⟨r, p₁, p₂, p₃, p₄, p₅, q, below, v, rfl, hactive, hpoints, hsplit⟩ := endFlex_eq_ok hx
  let drawing : Decoder :=
    { d with flex := { d.flex with active := false }, operands := below }
  let drawn := drawing.flexTo setup v.first ⟨p₁, p₂, p₃⟩
    ⟨p₄, p₅, d.absolute ⟨v.second, v.third⟩⟩
  have hpush := (Decoder.endFlex_run hactive hpoints setup hsplit).symm.trans hx
  have hchanges : Changes setup .quiet drawn (final (pushAll [v.second, v.third] drawn)) :=
    makes_pushAll _ _
  rw [hpush] at hchanges
  rw [OtherSubr.course, hsplit]
  refine (hchanges.point_eq rfl nofun).trans ?_
  show (drawing.startContour.controlPoint setup _).round = _
  rw [Decoder.startContour_controlPoint]
  rfl

theorem point_performOtherSubr {n : Nat} {subr : OtherSubr} {u : Unit}
    (hplaced : d.placeAccent = d) (hx : performOtherSubr setup n subr d = .ok u e) :
    e.point = (subr.course d.operands).target setup d.absolute d := by
  have hchanges : Changes setup subr.activity d (final (performOtherSubr setup n subr d)) :=
    makes_performOtherSubr n subr d
  rw [hx] at hchanges
  cases subr with
  | endFlex => exact point_endFlex hx
  | startFlex =>
    cases hx
    show d.placeAccent.point = d.point
    rw [hplaced]
  | _ => exact hchanges.point_eq rfl fun h => by cases h

/-- After an operator the current point is where it leads, unless there is an accent to be
placed. -/
theorem point_perform {op : Operator} (hplaced : d.placeAccent = d)
    (hx : perform setup op d = .ok control e) :
    e.point = (op.course d).target setup d.absolute d := by
  have hchanges : Changes setup (op.activity d) d (final (perform setup op d)) :=
    changes_perform op d
  rw [hx] at hchanges
  have hstart : d.startContour.point = d.point := by rw [d.startContour_point, hplaced]
  cases op with
  | rmoveto | hmoveto | vmoveto => exact point_moveWith hplaced hx
  | rlineto | hlineto | vlineto =>
    refine point_draw (fun v => ?_) hx
    rw [Decoder.lineBy, hstart]
    rfl
  | rrcurveto | vhcurveto | hvcurveto =>
    refine point_draw (fun v => ?_) hx
    rw [Decoder.curveBy, hstart, Decoder.startContour_controlPoint]
    rfl
  | setcurrentpoint =>
    refine point_draw (fun v => ?_) hx
    rw [Decoder.setPoint, hplaced]
    rfl
  | hsbw => exact point_measure hx
  | sbw => exact point_measure hx
  | callothersubr =>
    obtain ⟨u, _, hcall, hx⟩ := bind_eq_ok hx
    cases hx
    rw [Operator.course]
    cases hcalled : d.operands.called? with
    | none =>
      obtain ⟨x, c, below, herror, -⟩ := callOtherSubr_of_uncalled setup hcalled
      cases herror.symm.trans hcall
    | some call =>
      obtain ⟨subr, below, n⟩ := call
      rw [callOtherSubr_of_called (Operands.called?_eq_some_iff.1 hcalled)] at hcall
      have hbelow : { d with operands := below }.placeAccent = { d with operands := below } := by
        rw [d.placeAccent_setOperands, hplaced]
      exact point_performOtherSubr hbelow hcall
  -- No other operator has a change of the point among those that it makes.
  | _ => exact hchanges.point_eq rfl fun h => by cases h

/-- After an instruction the current point is where it leads, unless there is an accent to be
placed. -/
theorem execute_point {i : Instruction} (hplaced : d.placeAccent = d)
    (hx : execute setup i d = .ok control e) :
    e.point = (i.course d).target setup d.absolute d := by
  have hchanges := changes_execute setup i d
  rw [hx] at hchanges
  cases i with
  | number value => exact hchanges.point_eq rfl nofun
  | operator op =>
    let begun := d.record (.began op d.operands.toList)
    have hbegun : begun.placeAccent = begun := by rw [d.placeAccent_record, hplaced]
    have hcourse : op.course begun = op.course d := by cases op <;> rfl
    have hpoint := point_perform hbegun hx
    rw [hcourse] at hpoint
    show e.point = (op.course d).target setup d.absolute d
    rw [hpoint]
    cases op.course d <;> rfl
  | reserved byte => exact hchanges.point_eq rfl nofun

end Decode

/-- A placed accent is not placed again, and absolute coordinates are shifted. -/
theorem Decoder.absolute_of_placed {bearing shift : Point}
    (h : d.part = .accent bearing shift true) : d.placeAccent = d ∧ d.absolute = (· + shift) := by
  constructor
  · unfold placeAccent
    rw [h]
  · funext p
    rw [absolute, h]

/-- In a placed accent, whatever an instruction states to be the current point is shifted, except
for a side bearing. All other instructions leave the current point or move it from where it is. -/
theorem accent_points (s : Source) (font : Font) (settings : Settings) (takes : Capabilities)
    (offset : Nat) (st : Source.State) :
    let setup := Setup.of font settings takes
    let run := Run.after s setup offset st
    ∀ n m i d bearing shift control e, run n = .running m → m.Executes i d →
      m.decoder.part = .accent bearing shift true → Decode.execute setup i d = .ok control e →
      e.point = (i.course d).target setup (· + shift) d := by
  intro setup run n m i d bearing shift control e hm hi hpart hx
  have hd : d.part = .accent bearing shift true := by
    obtain ⟨history, rfl⟩ := hi.eq_history
    exact hpart
  obtain ⟨hplaced, habsolute⟩ := Decoder.absolute_of_placed hd
  rw [Decode.execute_point hplaced hx, habsolute]

namespace AbsolutePoints

/-- An accented character, an empty base, and an accent that starts a contour, has the operands 5
and 0 for an operator, and draws a line. -/
def data (op : List UInt8) : List UInt8 :=
  Aacute.charstring ++ [139, 139, 13, 14] ++ [139, 139, 13, 139, 139, 21, 144, 139] ++ op ++
    [140, 6, 14]

/-- The status after so many steps. -/
def run (op : List UInt8) : Nat → Status (.memory (data op) none) :=
  Run.after (.memory (data op) none) (.of (Aacute.font 12 16) Aacute.settings {}) 0 {}

/-- The operator is executed in the accent that is placed, and succeeds if the run goes on. -/
theorem executes (bytes : List UInt8) (op : Operator)
    (hstate : (run bytes 21).moment?.map
      (fun m => (m.instruction?, m.decoder.operands.toList, m.decoder.part)) =
        some (some (.operator op), [5, 0], .accent ⟨0, 0⟩ ⟨30, 40⟩ true))
    (hnext : (run bytes 22).moment?.isSome) :
    ∃ m d control e, run bytes 21 = .running m ∧ m.Executes (.operator op) d ∧
      m.decoder.part = .accent ⟨0, 0⟩ ⟨30, 40⟩ true ∧ d.operands = ⟨[5, 0], by decide⟩ ∧
      Decode.execute (.of (Aacute.font 12 16) Aacute.settings {}) (.operator op) d =
        .ok control e := by
  obtain ⟨m, hm, hstate⟩ := Option.map_eq_some_iff.1 hstate
  simp only [Prod.mk.injEq] at hstate
  obtain ⟨hinstruction, hoperands, hpart⟩ := hstate
  have hrunning := Status.eq_running_of_moment? hm
  obtain ⟨m', hm'⟩ := Option.isSome_iff_exists.1 hnext
  obtain ⟨l, hl, j, d, control, e, -, -, hj, hx, -⟩ :=
    Run.passage (Status.eq_running_of_moment? hm')
  obtain rfl := Status.running.inj (hrunning.symm.trans hl)
  obtain ⟨c, hi⟩ := Moment.executes_of_instruction? hinstruction
  obtain ⟨rfl, rfl⟩ := hi.unique hj
  refine ⟨m, c, control, e, hrunning, hi, hpart, ?_, hx⟩
  obtain ⟨history, rfl⟩ := hi.eq_history
  exact Operands.ext hoperands

end AbsolutePoints

open AbsolutePoints in
/-- A point that is stated is shifted. -/
theorem accent_points_stated :
    ∃ m d control e, run [12, 33] 21 = .running m ∧ m.Executes (.operator .setcurrentpoint) d ∧
      m.decoder.part = .accent ⟨0, 0⟩ ⟨30, 40⟩ true ∧
      Decode.execute (.of (Aacute.font 12 16) Aacute.settings {}) (.operator .setcurrentpoint) d =
        .ok control e ∧ e.point = ⟨35, 40⟩ := by
  obtain ⟨m, d, control, e, hm, hi, hpart, hoperands, hx⟩ :=
    executes [12, 33] .setcurrentpoint (by decide +kernel) (by decide +kernel)
  have hcourse : (Instruction.operator .setcurrentpoint).course d = .stated ⟨5, 0⟩ := by
    rw [Instruction.course, Operator.course, hoperands]
    rfl
  refine ⟨m, d, control, e, hm, hi, hpart, hx, ?_⟩
  rw [accent_points _ _ _ _ _ _ 21 m _ d _ _ control e hm hi hpart hx, hcourse]
  show (⟨5, 0⟩ + ⟨30, 40⟩ : Point).round = ⟨35, 40⟩
  decide +kernel

open AbsolutePoints in
/-- A side bearing that an accent gives after it was placed is not shifted, and neither is the line
that is drawn from there. -/
theorem accent_bearing_unshifted :
    ∃ m d control e, run [13] 21 = .running m ∧ m.Executes (.operator .hsbw) d ∧
      m.decoder.part = .accent ⟨0, 0⟩ ⟨30, 40⟩ true ∧
      (Instruction.operator .hsbw).course d = .bearing ⟨5, 0⟩ ∧
      Decode.execute (.of (Aacute.font 12 16) Aacute.settings {}) (.operator .hsbw) d =
        .ok control e ∧
      e.point ≠ (⟨5, 0⟩ + ⟨30, 40⟩ : Point).round ∧
      (parse (.memory (data [13]) none) (Aacute.font 12 16) Aacute.settings {} 0 {}).1.elements =
        [.width 500, .moveTo ⟨30, 40⟩, .lineTo ⟨6, 0⟩] := by
  obtain ⟨m, d, control, e, hm, hi, hpart, hoperands, hx⟩ :=
    executes [13] .hsbw (by decide +kernel) (by decide +kernel)
  have hcourse : (Instruction.operator .hsbw).course d = .bearing ⟨5, 0⟩ := by
    rw [Instruction.course, Operator.course, hoperands]
    rfl
  refine ⟨m, d, control, e, hm, hi, hpart, hcourse, hx, ?_, by decide +kernel⟩
  have hd : d.part = .accent ⟨0, 0⟩ ⟨30, 40⟩ true := by
    obtain ⟨history, rfl⟩ := hi.eq_history
    exact hpart
  rw [Decode.execute_point (Decoder.absolute_of_placed hd).1 hx, hcourse]
  show Point.round ⟨5, 0⟩ ≠ _
  decide +kernel

end Type1
