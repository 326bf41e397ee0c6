import Type1.Proofs.Placement

/-!
# Contours and what is due to them

A contour is due at the beginning and once the last one is closed. Few instructions look at that:
those that draw, which start the contour first.

* `Stroke`, `Instruction.stroke`: what an instruction does to contours.
* `Decoder.setDue`: the state with a contour due or not.
* `Decode.execute_of_still`: an instruction that leaves contours alone does the same whether one is
  due or not, and leaves it so.
* `Decode.execute_of_closes`, `Decode.execute_of_moves`: where a contour is closed or started, it no
  longer matters whether one was due.
* `Decode.execute_of_draws`: an instruction that draws fails before it does so, or it reports a
  segment, after a move to where that begins if a contour is due.
-/

namespace Type1

/-- What an instruction does to contours. -/
inductive Stroke where
  /-- It leaves them alone. -/
  | still
  /-- It starts one. -/
  | moves
  /-- It draws a line, a curve or a flex. -/
  | draws
  /-- It closes one. -/
  | closes
deriving DecidableEq, Repr

/-- What an other subroutine does to contours. -/
def OtherSubr.stroke : OtherSubr → Stroke
  | endFlex => .draws
  | startFlex | flexPoint | renewHints | counterHints _ | blend _ | storeWeights | calculate _ =>
    .still

/-- What an operator does to contours in a state. Within a flex a move only collects a point. -/
def Operator.stroke (op : Operator) (d : Decoder) : Stroke :=
  match op with
  | rmoveto | hmoveto | vmoveto => if d.flex.active then .still else .moves
  | rlineto | hlineto | vlineto | rrcurveto | vhcurveto | hvcurveto => .draws
  | closepath => .closes
  | callothersubr =>
    match OtherSubr.selected? d.operands.toList with
    | some subr => subr.stroke
    | none => .still
  | hstem | vstem | hstem3 | vstem3 | setcurrentpoint | dotsection | hsbw | sbw | seac | callsubr
  | returnToCaller | endchar | blend | pop | calculate _ | unknown _ => .still

/-- What an instruction does to contours in a state. -/
def Instruction.stroke (i : Instruction) (d : Decoder) : Stroke :=
  match i with
  | operator op => op.stroke d
  | number _ | reserved _ => .still

/-- The point that an element leads to, if it is a segment of a contour or starts one. -/
def Element.target? : Element → Option Point
  | moveTo p | lineTo p => some p
  | curveTo curve => some curve.last
  | flex _ _ right => some right.last
  | width _ | stem .. | accented .. | operator .. => none

/-- Whether an element is a line, a curve or a flex. -/
def Element.isDrawn : Element → Bool
  | lineTo _ | curveTo _ | flex .. => true
  | moveTo _ | width _ | stem .. | accented .. | operator .. => false

namespace Decoder

/-- The state with a contour due or not. -/
def setDue (due : Bool) (d : Decoder) : Decoder := { d with moveDue := due }

/-- The state after an element, and before it a move from its beginning if a contour is due. -/
def drawn (due : Bool) (origin : Point) (x : Element) (d : Decoder) : Decoder :=
  if due then { d with moved := true }.report (.moveTo origin) |>.report x else d.report x

/-- The state `c` is that in which a drawing that begins in `d` reports the segment `x`, apart from
whether a contour was due. -/
structure Segment (d : Decoder) (x : Element) (c : Decoder) : Prop where
  history : c.history = d.history
  moveDue : c.moveDue = false
  moved : c.moved = d.moved
  isDrawn : x.isDrawn = true
  target : x.target? = some c.point

variable {due : Bool}

/-! ## States with a contour due or not -/

theorem setDue_self (d : Decoder) : d.setDue d.moveDue = d := rfl

theorem setDue_of_eq {d : Decoder} (h : d.moveDue = due) : d.setDue due = d := by
  rw [← h, setDue_self]

theorem placeAccent_setDue (d : Decoder) :
    (d.setDue due).placeAccent = d.placeAccent.setDue due := by
  unfold placeAccent
  simp only [setDue]
  split <;> rfl

/-- A contour that is started is due no longer. -/
theorem moveBy_setDue (delta : Point) (d : Decoder) :
    (d.setDue due).moveBy delta = d.moveBy delta := by
  unfold moveBy
  rw [placeAccent_setDue]
  rfl

theorem hintStem_setDue (setup : Setup) (kind : StemKind) (position extent : Number)
    (d : Decoder) : (d.setDue due).hintStem setup kind position extent =
      (d.hintStem setup kind position extent).setDue due := by
  simp only [hintStem]
  rw [show (d.setDue due).moved = d.moved from rfl,
    show (d.setDue due).hintsRenewed = d.hintsRenewed from rfl]
  split <;> rfl

theorem hintStems_setDue (setup : Setup) (kind : StemKind) (v : Vector Number 6) (d : Decoder) :
    (d.setDue due).hintStems setup kind v = (d.hintStems setup kind v).setDue due := by
  simp only [hintStems, hintStem_setDue]

theorem setPoint_setDue (p : Point) (d : Decoder) :
    (d.setDue due).setPoint p = (d.setPoint p).setDue due := by
  unfold setPoint
  rw [placeAccent_setDue]
  rfl

theorem startFlex_setDue (d : Decoder) : (d.setDue due).startFlex = d.startFlex.setDue due := by
  unfold startFlex
  rw [placeAccent_setDue]
  rfl

/-! ## Drawing -/

/-- The only thing that depends on whether a contour is due is whether one is started. -/
theorem startContour_setDue (d : Decoder) : (d.setDue due).startContour =
    if due then d.placeAccent.openContour else d.placeAccent.setDue false := by
  unfold startContour
  rw [placeAccent_setDue]
  cases due <;> rfl

theorem placeAccent_history (d : Decoder) : d.placeAccent.history = d.history := by
  obtain ⟨_, _, h⟩ := d.placeAccent_eq
  rw [h]

theorem placeAccent_moved (d : Decoder) : d.placeAccent.moved = d.moved := by
  obtain ⟨_, _, h⟩ := d.placeAccent_eq
  rw [h]

/-- A segment with the state replaced where drawing leaves it alone. -/
theorem Segment.of_eq {d c c' : Decoder} {x : Element} (h : d.Segment x c)
    (hhistory : c'.history = c.history) (hmoveDue : c'.moveDue = c.moveDue)
    (hmoved : c'.moved = c.moved) (hpoint : c'.point = c.point) : d.Segment x c' where
  history := hhistory.trans h.history
  moveDue := hmoveDue.trans h.moveDue
  moved := hmoved.trans h.moved
  isDrawn := h.isDrawn
  target := h.target.trans (congrArg some hpoint.symm)

/-- A segment that ends at a point. -/
theorem segment_placeAccent (d : Decoder) {x : Element} {p : Point} (hdrawn : x.isDrawn = true)
    (htarget : x.target? = some p) :
    d.Segment x { d.placeAccent with point := p, moveDue := false } :=
  ⟨d.placeAccent_history, rfl, d.placeAccent_moved, hdrawn, htarget⟩

theorem lineBy_setDue (delta : Point) (d : Decoder) : ∃ x c, d.Segment x c ∧
    ∀ due, (d.setDue due).lineBy delta = c.drawn due d.placeAccent.point x := by
  refine ⟨_, _, d.segment_placeAccent (x := .lineTo (d.placeAccent.point + delta).round) rfl rfl,
    fun due => ?_⟩
  rw [lineBy, startContour_setDue]
  cases due <;> rfl

theorem curveBy_setDue (setup : Setup) (p q r : Point) (d : Decoder) : ∃ x c, d.Segment x c ∧
    ∀ due, (d.setDue due).curveBy setup p q r = c.drawn due d.placeAccent.point x := by
  let first := d.placeAccent.controlPoint setup (d.placeAccent.point + p)
  let second := d.placeAccent.controlPoint setup (first + q)
  refine ⟨_, _, d.segment_placeAccent (x := .curveTo ⟨first, second, (second + r).round⟩) rfl rfl,
    fun due => ?_⟩
  rw [curveBy, startContour_setDue]
  cases due <;> rfl

theorem flexTo_setDue (setup : Setup) (depth : Number) (left right : Curve) (d : Decoder) :
    ∃ x c, d.Segment x c ∧ c.operands = d.operands ∧
      ∀ due, (d.setDue due).flexTo setup depth left right =
        c.drawn due d.placeAccent.point x := by
  let control := d.placeAccent.controlPoint setup
  refine ⟨_, _, d.segment_placeAccent (x := .flex depth
      ⟨control left.first, control left.second, control left.last⟩
      ⟨control right.first, control right.second, (control right.last).round⟩) rfl rfl,
    d.placeAccent_operands, fun due => ?_⟩
  rw [flexTo, startContour_setDue]
  cases due <;> rfl

theorem drawn_setOperands (origin : Point) (x : Element) (operands : Operands) (d : Decoder) :
    { d.drawn due origin x with operands } = { d with operands }.drawn due origin x := by
  cases due <;> rfl

theorem drawn_operands (origin : Point) (x : Element) (d : Decoder) :
    (d.drawn due origin x).operands = d.operands := by
  cases due <;> rfl

end Decoder

namespace Decode

variable {α β : Type} {due : Bool}

/-! ## The operand stack and the calculations -/

/-- What calculates does not look at what is due. -/
theorem congruence_setDue (due : Bool) : Congruence fun d e => e = d.setDue due where
  workspace := by rintro d _ rfl; rfl
  setOperands := by rintro d _ rfl _; rfl
  note := by rintro d _ rfl _; rfl

theorem storing_setDue (due : Bool) : Storing fun d e => e = d.setDue due where
  setStorage := by rintro d _ rfl _; rfl
  setSeed := by rintro d _ rfl _; rfl
  blended := by rintro d _ rfl; rfl

theorem counting_setDue (setup : Setup) (due : Bool) :
    Counting setup fun d e => e = d.setDue due where
  counters := by rintro d _ rfl; rfl
  setCounters := by rintro d _ rfl _; rfl
  openGroup := by rintro d _ rfl; rfl
  stemOrigin := by rintro d _ rfl; rfl
  counterStem := by rintro d _ rfl _ _ _; rfl

theorem commutes_setDue_pushAll (values : List Number) :
    Commutes (.setDue due) (pushAll values) :=
  (relates_pushAll (congruence_setDue due) values).commutes

theorem commutes_setDue_take (n : Nat) : Commutes (.setDue due) (take n) :=
  (relates_take (congruence_setDue due) n).commutes

theorem commutes_setDue_arguments (n : Nat) : Commutes (.setDue due) (arguments n) :=
  (relates_arguments (congruence_setDue due) n).commutes

theorem commutes_setDue_clear : Commutes (.setDue due) clear :=
  (relates_clear (congruence_setDue due)).commutes

theorem commutes_setDue_refuse (n : Note) (e : Error) :
    Commutes (.setDue due) (refuse n e : Decode α) :=
  (relates_refuse (congruence_setDue due) n e).commutes

/-! ## Hints, side bearings and accented characters -/

theorem commutes_setDue_metrics (setup : Setup) (bearing : Point) (advance : Number) :
    Commutes (.setDue due) (metrics setup bearing advance) := by
  have quiet {g : Decoder → Decoder} (hg : ∀ d, g (d.setDue due) = (g d).setDue due) :
      Commutes (.setDue due) (do modify g; return Control.next) :=
    (commutes_modify hg).bind fun _ => commutes_pure _
  refine .bind (commutes_modify (g := ({ · with point := bearing.round })) fun _ => rfl) fun _ =>
    commutes_get_bind (fun d => ?_) fun _ => rfl
  dsimp only
  split
  · exact quiet fun _ => rfl
  · exact quiet fun _ => rfl
  · refine commutes_get_bind (fun d => ?_) fun _ => rfl
    split
    · exact quiet fun _ => rfl
    · refine commutes_get_bind (fun d => .bind (commutes_modify fun _ => rfl) fun _ => ?_)
        fun _ => rfl
      split <;> exact commutes_pure _

theorem commutes_setDue_lookUp (glyphs : UInt8 → Option Nat) (code : UInt8) :
    Commutes (.setDue due) (lookUp glyphs code) :=
  .bind (commutes_modify fun _ => rfl) fun _ => commutes_orFail _ _

theorem commutes_setDue_accented (setup : Setup) (v : Vector Number 5) :
    Commutes (.setDue due) (accented setup v) := by
  refine (commutes_orFail _ _).bind fun base => (commutes_orFail _ _).bind fun accent =>
    commutes_get_bind (fun d => ?_) fun _ => rfl
  dsimp only
  split
  · refine .bind (commutes_modify fun _ => rfl) fun _ => ?_
    split
    · exact .bind (commutes_modify fun _ => rfl) fun _ => commutes_pure _
    · exact (commutes_orFail _ _).bind fun glyphs => (commutes_setDue_lookUp glyphs base).bind
        fun _ => (commutes_setDue_lookUp glyphs accent).bind fun _ => commutes_pure _
  · exact commutes_setDue_refuse _ _

/-! ## Other subroutines -/

variable (setup : Setup)

theorem commutes_setDue_performOtherSubr (n : Nat) {subr : OtherSubr} (h : subr.stroke = .still) :
    Commutes (.setDue due) (performOtherSubr setup n subr) := by
  have hcong := congruence_setDue due
  have hs := storing_setDue due
  cases subr with
  | endFlex => cases h
  | startFlex => exact commutes_modify Decoder.startFlex_setDue
  | flexPoint => exact commutes_pure ()
  | renewHints => exact commutes_modify fun _ => rfl
  | counterHints complete =>
    exact (relates_counterHints hcong (counting_setDue setup due) n complete).commutes
  | blend k => exact (relates_blend hcong hs setup k).commutes
  | storeWeights => exact (relates_storeWeights hcong hs setup).commutes
  | calculate op => exact (relates_calculate hcong fun _ => hs).commutes

/-- The other subroutine that a call performs, and the number of its arguments. The operands that
select it are taken off. -/
def selectOtherSubr : Decode (Nat × OtherSubr) := do
  let v ← take 2
  let n ← toIndex v.first
  require n
  let selector ← orFail .invalidOtherSubr v.second.truncate?
  match OtherSubr.ofSelector? selector with
  | some subr =>
    require (subr.arity n)
    return (n, subr)
  | none => refuse (.unknownOtherSubr selector) .invalidOtherSubr

/-- A call selects the other subroutine and performs it. -/
theorem callOtherSubr_eq : callOtherSubr setup =
    selectOtherSubr >>= fun (n, subr) => performOtherSubr setup n subr := by
  unfold callOtherSubr selectOtherSubr
  simp only [bind_assoc]
  congr; funext v; congr; funext n; congr; funext _; congr; funext selector
  cases OtherSubr.ofSelector? selector with
  | none => rfl
  | some subr => simp only [bind_assoc, pure_bind]

theorem commutes_setDue_selectOtherSubr : Commutes (.setDue due) selectOtherSubr := by
  have hcong := congruence_setDue due
  refine (commutes_setDue_take 2).bind fun _ => (commutes_orFail _ _).bind fun n =>
    (relates_require hcong n).commutes.bind fun _ => (commutes_orFail _ _).bind fun selector => ?_
  split
  · exact (relates_require hcong _).commutes.bind fun _ => commutes_pure _
  · exact commutes_setDue_refuse _ _

/-- What a call finds on the operand stack that selects an other subroutine. -/
theorem selectOtherSubr_eq_ok {n : Nat} {subr : OtherSubr} {d e : Decoder}
    (h : selectOtherSubr d = .ok (n, subr) e) :
    ∃ operands v selector, d.operands.split? 2 = some (operands, v) ∧ v.first.toIndex? = some n ∧
      n ≤ operands.size ∧ v.second.truncate? = some selector ∧
      OtherSubr.ofSelector? selector = some subr ∧ e = { d with operands } := by
  obtain ⟨v, _, htake, h⟩ := bind_eq_ok h
  obtain ⟨operands, hsplit, rfl⟩ := take_cases htake
  obtain ⟨n', _, hn, h⟩ := bind_eq_ok h
  obtain ⟨hcount, rfl⟩ := orFail_eq_ok hn
  obtain ⟨_, _, hrequire, h⟩ := bind_eq_ok h
  obtain ⟨rfl, hle⟩ := require_eq_ok hrequire
  obtain ⟨selector, _, hselector, h⟩ := bind_eq_ok h
  obtain ⟨htruncate, rfl⟩ := orFail_eq_ok hselector
  cases hsubr : OtherSubr.ofSelector? selector with
  | none =>
    rw [hsubr] at h
    cases h
  | some selected =>
    rw [hsubr] at h
    obtain ⟨_, _, hrequire, h⟩ := bind_eq_ok h
    obtain ⟨rfl, -⟩ := require_eq_ok hrequire
    cases h
    exact ⟨operands, v, selector, hsplit, hcount, hle, htruncate, hsubr, rfl⟩

/-- A call performs the other subroutine that the operands select. -/
theorem selected_of_select {n : Nat} {subr : OtherSubr} {d e : Decoder}
    (h : selectOtherSubr d = .ok (n, subr) e) :
    OtherSubr.selected? d.operands.toList = some subr ∧ ∃ operands, e = { d with operands } := by
  obtain ⟨operands, v, selector, hsplit, -, -, htruncate, hsubr, rfl⟩ := selectOtherSubr_eq_ok h
  rw [OtherSubr.selected?, Operands.getLast?_of_split? hsplit, Option.bind_some, htruncate,
    Option.bind_some]
  exact ⟨hsubr, operands, rfl⟩

/-! ## Drawing -/

/-- The computation fails, whether a contour is due or not. -/
def Fails (x : Decode α) (d : Decoder) : Prop :=
  ∃ y, ∃ e : Decoder, ∀ due, x (d.setDue due) = .error y (e.setDue due)

/-- The computation reports a segment that begins in a state. -/
def Reports (x : Decode α) (v : α) (d : Decoder) : Prop :=
  ∃ y c, d.Segment y c ∧ ∀ due, x (d.setDue due) = .ok v (c.drawn due d.placeAccent.point y)

/-- A computation that commutes and fails does so in any case. -/
theorem Fails.of_commutes {x : Decode α} {d e : Decoder} {y : Error}
    (hx : ∀ due, Commutes (.setDue due) x) (h : x d = .error y e) : Fails x d :=
  ⟨y, e, fun due => by rw [hx due d, h]; rfl⟩

theorem Fails.bind {x : Decode α} {k : α → Decode β} {d : Decoder} (h : Fails x d) :
    Fails (x >>= k) d := by
  obtain ⟨y, e, h⟩ := h
  exact ⟨y, e, fun due => bind_run_error (h due)⟩

/-- What follows a computation that only looks at the operands. -/
theorem fails_or_reports_bind {x : Decode α} {k : α → Decode β} {v : β} {d : Decoder}
    (hx : ∀ due, Commutes (.setDue due) x)
    (hk : ∀ w e, x d = .ok w e → e.history = d.history ∧ e.moved = d.moved ∧
      e.placeAccent.point = d.placeAccent.point ∧ (Fails (k w) e ∨ Reports (k w) v e)) :
    Fails (x >>= k) d ∨ Reports (x >>= k) v d := by
  rcases bind_cases x k d with ⟨y, e, h, -⟩ | ⟨w, e, h, -⟩
  · exact .inl (Fails.of_commutes hx h).bind
  · obtain ⟨hhistory, hmoved, hpoint, hk⟩ := hk w e h
    have hrun (due : Bool) : (x >>= k) (d.setDue due) = k w (e.setDue due) := by
      refine bind_run ?_
      rw [hx due d, h]
      rfl
    rcases hk with ⟨y, c, hc⟩ | ⟨y, c, hsegment, hc⟩
    · exact .inl ⟨y, c, fun due => (hrun due).trans (hc due)⟩
    · refine .inr ⟨y, c, ?_, fun due => hpoint ▸ (hrun due).trans (hc due)⟩
      exact ⟨hsegment.history.trans hhistory, hsegment.moveDue, hsegment.moved.trans hmoved,
        hsegment.isDrawn, hsegment.target⟩

/-- What follows from the state, if it does not depend on whether a contour is due. -/
theorem fails_or_reports_get {k : Decoder → Decode β} {v : β} {d : Decoder}
    (hsame : ∀ due, k (d.setDue due) = k d) (hk : Fails (k d) d ∨ Reports (k d) v d) :
    Fails (get >>= k) d ∨ Reports (get >>= k) v d := by
  have hrun (due : Bool) : (get >>= k) (d.setDue due) = k d (d.setDue due) := by
    rw [get_bind_run, hsame]
  rcases hk with ⟨y, e, h⟩ | ⟨y, c, hsegment, h⟩
  · exact .inl ⟨y, e, fun due => (hrun due).trans (h due)⟩
  · exact .inr ⟨y, c, hsegment, fun due => (hrun due).trans (h due)⟩

theorem fails_or_reports_draw {n : Nat} {f : Vector Number n → Decoder → Decoder} {d : Decoder}
    (hf : ∀ v, ∃ x c, d.Segment x c ∧
      ∀ due, f v (d.setDue due) = c.drawn due d.placeAccent.point x) :
    Fails (draw n f) d ∨ Reports (draw n f) .next d := by
  refine fails_or_reports_bind (fun _ => commutes_setDue_arguments n) fun v e h => ?_
  obtain ⟨-, rfl⟩ := arguments_eq_ok h
  obtain ⟨x, c, hsegment, hc⟩ := hf v
  refine ⟨rfl, rfl, rfl, .inr ⟨x, { c with operands := .empty }, hsegment.of_eq rfl rfl rfl rfl,
    fun due => ?_⟩⟩
  rw [modify_bind_run, hc]
  exact congrArg (EStateM.Result.ok Control.next) (Decoder.drawn_setOperands _ x .empty c)

/-- The end of a flex. The point goes back on the stack, where there is room for it. -/
theorem fails_or_reports_endFlex (n : Nat) (d : Decoder) :
    Fails (endFlex setup n) d ∨ Reports (endFlex setup n) () d := by
  unfold endFlex
  refine fails_or_reports_get (fun _ => rfl) ?_
  dsimp only
  split
  · refine fails_or_reports_bind (fun _ => commutes_modify fun _ => rfl) fun _ e h => ?_
    cases h
    refine ⟨rfl, rfl, by rw [d.placeAccent_setFlex], ?_⟩
    refine fails_or_reports_bind (fun _ => commutes_setDue_take 3) fun v e h => ?_
    obtain ⟨operands, hsplit, rfl⟩ := take_cases h
    refine ⟨rfl, rfl, by rw [Decoder.placeAccent_setOperands], ?_⟩
    refine fails_or_reports_get (fun _ => rfl) (.inr ?_)
    obtain ⟨rest, hrest⟩ := Operands.append?_of_split? hsplit [v.second, v.third] (Nat.le_succ 2)
    obtain ⟨x, c, hsegment, hoperands, hc⟩ := Decoder.flexTo_setDue setup _ _ _ _
    refine ⟨x, { c with operands := rest }, hsegment.of_eq rfl rfl rfl rfl, fun due => ?_⟩
    rw [modify_bind_run, hc, pushAll_run, Decoder.drawn_setOperands]
    rw [Decoder.drawn_operands, hoperands, hrest]
  · exact .inl (.of_commutes (fun _ => commutes_setDue_refuse _ _) rfl)

/-! ## Instructions -/

/-- A computation that commutes with a change in a state, followed by one that does so in the state
after it. -/
theorem onState_bind {f : Decoder → Decoder} {x : Decode α} {k : α → Decode β} {d : Decoder}
    (hx : x (f d) = onState f (x d)) (hk : ∀ a e, x d = .ok a e → k a (f e) = onState f (k a e)) :
    (x >>= k) (f d) = onState f ((x >>= k) d) := by
  rcases bind_cases x k d with ⟨y, e, h, hbind⟩ | ⟨a, e, h, hbind⟩
  · rw [h] at hx
    rw [hbind, bind_run_error hx]
    rfl
  · rw [h] at hx
    rw [hbind, bind_run hx]
    exact hk a e h

theorem commutes_setDue_draw {n : Nat} {f : Vector Number n → Decoder → Decoder}
    (hf : ∀ v d, f v (d.setDue due) = (f v d).setDue due) : Commutes (.setDue due) (draw n f) :=
  (commutes_setDue_arguments n).bind fun v => .bind (commutes_modify (hf v)) fun _ =>
    commutes_setDue_clear.bind fun _ => commutes_pure _

/-- A move only collects a point within a flex. -/
theorem moveWith_of_active {n : Nat} {delta : Vector Number n → Point} {d : Decoder}
    (h : d.flex.active = true) :
    moveWith n delta (d.setDue due) = onState (.setDue due) (moveWith n delta d) := by
  refine onState_bind (commutes_setDue_arguments n d) fun v e harguments => ?_
  obtain ⟨-, rfl⟩ := arguments_eq_ok harguments
  refine onState_bind ?_ fun _ e _ => (commutes_setDue_clear.bind fun _ => commutes_pure _) e
  have hdue : (d.setDue due).flex.active = true := h
  rw [move, get_bind_run, get_bind_run, if_pos h, if_pos hdue]
  show (if d.flex.points.length < Flex.capacity then _ else _ : Decode Unit) _ = _
  split <;> rfl

theorem commutes_setDue_measured {n : Nat} (setup : Setup) (bearing : Vector Number n → Point)
    (advance : Vector Number n → Number) : Commutes (.setDue due) (do
      let v ← arguments n
      clear
      metrics setup (bearing v) (advance v)) :=
  (commutes_setDue_arguments n).bind fun _ => commutes_setDue_clear.bind fun _ =>
    commutes_setDue_metrics setup _ _

/-- An operator that leaves contours alone does the same whether one is due or not. -/
theorem perform_of_still {op : Operator} {d : Decoder} (h : op.stroke d = .still) (due : Bool) :
    perform setup op (d.setDue due) = onState (.setDue due) (perform setup op d) := by
  -- A move that leaves contours alone is one of a flex.
  have moved {n : Nat} {delta : Vector Number n → Point}
      (h : (if d.flex.active then Stroke.still else .moves) = .still) :
      moveWith n delta (d.setDue due) = onState (.setDue due) (moveWith n delta d) := by
    refine moveWith_of_active ?_
    cases hactive : d.flex.active with
    | true => rfl
    | false =>
      rw [hactive] at h
      cases h
  cases op with
  | hstem | vstem => exact commutes_setDue_draw (fun v d => d.hintStem_setDue setup _ _ _) d
  | hstem3 | vstem3 => exact commutes_setDue_draw (fun v d => d.hintStems_setDue setup _ v) d
  | setcurrentpoint => exact commutes_setDue_draw (fun v d => d.setPoint_setDue _) d
  | dotsection =>
    exact commutes_setDue_draw (f := fun _ => .report (.operator dotsectionCode []))
      (fun _ _ => rfl) d
  | rmoveto | hmoveto | vmoveto => exact moved h
  | hsbw | sbw => exact commutes_setDue_measured setup _ _ d
  | seac =>
    exact ((commutes_setDue_arguments 5).bind fun v => commutes_setDue_clear.bind fun _ =>
      commutes_setDue_accented setup v) d
  | callothersubr =>
    -- Whether a call draws depends on the selector, which does not depend on what is due.
    have hcall : callOtherSubr setup (d.setDue due) =
        onState (.setDue due) (callOtherSubr setup d) := by
      rw [callOtherSubr_eq]
      refine onState_bind (commutes_setDue_selectOtherSubr d) fun (n, subr) e hselect => ?_
      refine commutes_setDue_performOtherSubr setup n ?_ e
      have hstroke : (match OtherSubr.selected? d.operands.toList with
        | some subr => subr.stroke
        | none => .still) = .still := h
      rwa [(selected_of_select hselect).1] at hstroke
    exact onState_bind hcall fun _ _ _ => rfl
  | callsubr | returnToCaller | endchar | blend | pop | calculate | unknown =>
    refine (Relates.commutes ?_) d
    exact relates_silent (congruence_setDue due) rfl nofun (fun _ => storing_setDue due) nofun
  | _ => cases h

theorem execute_of_still {i : Instruction} {d : Decoder} (h : i.stroke d = .still) (due : Bool) :
    execute setup i (d.setDue due) = onState (.setDue due) (execute setup i d) := by
  cases i with
  | number value => exact ((commutes_setDue_pushAll _).bind fun _ => commutes_pure _) d
  | reserved byte => exact commutes_setDue_refuse _ _ d
  | operator op => exact perform_of_still setup (d := d.record (.began op d.operands.toList)) h due

/-- A move outside of a flex fails for lack of operands, or it starts a contour. -/
theorem moveWith_of_inactive {n : Nat} {delta : Vector Number n → Point} {d : Decoder}
    (h : d.flex.active = false) : Fails (moveWith n delta) d ∨
      ∃ p, ∀ due, moveWith n delta (d.setDue due) =
        .ok .next { d.moveBy p with operands := .empty } := by
  cases harguments : arguments n d with
  | error y e =>
    exact .inl (Fails.of_commutes (fun _ => commutes_setDue_arguments n) harguments).bind
  | ok v e =>
    obtain ⟨hbottom, rfl⟩ := arguments_eq_ok harguments
    refine .inr ⟨delta v, fun due => ?_⟩
    have hdue : arguments n (d.setDue due) = .ok v (d.setDue due) := arguments_run hbottom
    have hmove : move (delta v) (d.setDue due) = .ok () (d.moveBy (delta v)) := by
      have hmoveBy : (d.setDue due).moveBy (delta v) = d.moveBy (delta v) := d.moveBy_setDue _
      rw [← hmoveBy]
      exact move_run h
    rw [moveWith, bind_run hdue, bind_run hmove]
    rfl

theorem fails_or_reports_callOtherSubr {d : Decoder}
    (h : OtherSubr.selected? d.operands.toList = some .endFlex) :
    Fails (callOtherSubr setup) d ∨ Reports (callOtherSubr setup) () d := by
  rw [callOtherSubr_eq]
  refine fails_or_reports_bind (fun _ => commutes_setDue_selectOtherSubr)
    fun (n, subr) e hselect => ?_
  obtain ⟨hselected, operands, rfl⟩ := selected_of_select hselect
  obtain rfl := Option.some.inj (hselected.symm.trans h)
  exact ⟨rfl, rfl, by rw [d.placeAccent_setOperands], fails_or_reports_endFlex setup n _⟩

/-- What a call that is not still selects. -/
theorem selected_of_stroke {d : Decoder} {k : Stroke} (h : Operator.callothersubr.stroke d = k)
    (hk : k ≠ .still) : OtherSubr.selected? d.operands.toList = some .endFlex ∧ k = .draws := by
  unfold Operator.stroke at h
  dsimp only at h
  split at h
  · next subr hsubr =>
    cases subr with
    | endFlex => exact ⟨hsubr, h.symm⟩
    | _ => exact absurd h.symm hk
  · exact absurd h.symm hk

/-- What a move does, by whether a flex is active. -/
theorem active_of_stroke {d : Decoder} {k : Stroke}
    (h : (if d.flex.active then Stroke.still else .moves) = k) (hk : k ≠ .still) :
    d.flex.active = false ∧ k = .moves := by
  split at h
  · exact absurd h.symm hk
  · next hactive => exact ⟨Bool.eq_false_iff.2 hactive, h.symm⟩

variable {i : Instruction} {d : Decoder}

/-- A contour is closed by `closepath`, which never fails. -/
theorem execute_of_closes (h : i.stroke d = .closes) :
    i = .operator .closepath ∧ ∀ due, execute setup i (d.setDue due) =
      .ok .next { i.begin d with operands := .empty, moveDue := true } := by
  cases i with
  | operator op =>
    cases op with
    | closepath => exact ⟨rfl, fun _ => rfl⟩
    | rmoveto | hmoveto | vmoveto => cases (active_of_stroke h nofun).2
    | callothersubr => cases (selected_of_stroke h nofun).2
    | _ => cases h
  | _ => cases h

/-- A move that starts a contour fails for lack of operands, or it does so. -/
theorem execute_of_moves (h : i.stroke d = .moves) : Fails (execute setup i) d ∨
    ∃ p, ∀ due, execute setup i (d.setDue due) =
      .ok .next { (i.begin d).moveBy p with operands := .empty } := by
  cases i with
  | operator op =>
    suffices Fails (perform setup op) (d.record (.began op d.operands.toList)) ∨
        ∃ p, ∀ due, perform setup op ((d.record (.began op d.operands.toList)).setDue due) =
          .ok .next { (d.record (.began op d.operands.toList)).moveBy p with
            operands := .empty } from this
    cases op with
    | rmoveto | hmoveto | vmoveto =>
      exact moveWith_of_inactive (d := d.record _) (active_of_stroke h nofun).1
    | callothersubr => cases (selected_of_stroke h nofun).2
    | _ => cases h
  | _ => cases h

/-- A line, a curve, or the end of a flex fails before it draws, or it reports a segment. -/
theorem execute_of_draws (h : i.stroke d = .draws) : Fails (execute setup i) d ∨
    ∃ x c, (i.begin d).Segment x c ∧ ∀ due, execute setup i (d.setDue due) =
      .ok .next (c.drawn due d.placeAccent.point x) := by
  cases i with
  | operator op =>
    have hpoint : (d.record (.began op d.operands.toList)).placeAccent.point =
        d.placeAccent.point := by
      rw [d.placeAccent_record]
      rfl
    suffices Fails (perform setup op) (d.record (.began op d.operands.toList)) ∨
        Reports (perform setup op) .next (d.record (.began op d.operands.toList)) by
      rw [← hpoint]
      exact this
    cases op with
    | rlineto | hlineto | vlineto => exact fails_or_reports_draw fun _ => Decoder.lineBy_setDue _ _
    | rrcurveto | vhcurveto | hvcurveto =>
      exact fails_or_reports_draw fun _ => Decoder.curveBy_setDue setup _ _ _ _
    | rmoveto | hmoveto | vmoveto => cases (active_of_stroke h nofun).2
    | callothersubr =>
      rcases fails_or_reports_callOtherSubr setup
          (d := d.record (.began .callothersubr d.operands.toList))
          (selected_of_stroke h nofun).1 with hfails | ⟨x, c, hsegment, hc⟩
      · exact .inl hfails.bind
      · exact .inr ⟨x, c, hsegment, fun due => bind_run (hc due)⟩
    | _ => cases h
  | _ => cases h

/-! ## Segments -/

variable {setup}

theorem segments_begin (i : Instruction) (d : Decoder) : (i.begin d).segments = d.segments := by
  cases i with
  | operator op => exact d.segments_record (.began op d.operands.toList) nofun
  | _ => rfl

theorem segments_placeAccent (d : Decoder) : d.placeAccent.segments = d.segments :=
  congrArg (List.filter Element.isSegment) d.placeAccent_elements

/-- An instruction that fails has reported no segment. -/
theorem segments_of_error {x : Error} {e : Decoder} (h : execute setup i d = .error x e) :
    e.segments = d.segments := by
  have hchanges := changes_execute setup i d
  rw [h] at hchanges
  cases ha : (i.activity d).places with
  | false => exact (unplaced_of_changes hchanges ha).segments
  | true =>
    rcases execute_places setup ha with ⟨_, _, hok, -⟩ | ⟨y, c, herror, hquiet⟩
    · cases h.symm.trans hok
    · cases h.symm.trans herror
      exact (unplaced_of_changes hquiet rfl).segments

/-- An instruction that leaves contours alone reports no segment, and closing one is not reported
either. -/
theorem segments_of_ok {control : Control} {e : Decoder} (h : execute setup i d = .ok control e)
    (hstroke : i.stroke d = .still ∨ i.stroke d = .closes) : e.segments = d.segments := by
  have hchanges := changes_execute setup i d
  rw [h] at hchanges
  cases ha : (i.activity d).places with
  | false => exact (unplaced_of_changes hchanges ha).segments
  | true =>
    -- What places an accent without drawing sets the current point or starts a flex.
    rw [← segments_begin i d]
    cases i with
    | operator op =>
      cases op with
      | setcurrentpoint =>
        obtain ⟨_, _, hbegan, h⟩ := bind_eq_ok h
        cases hbegan
        obtain ⟨v, _, harguments, h⟩ := bind_eq_ok h
        obtain ⟨-, rfl⟩ := arguments_eq_ok harguments
        cases h
        exact segments_placeAccent _
      | callothersubr =>
        obtain ⟨_, _, hbegan, h⟩ := bind_eq_ok h
        cases hbegan
        obtain ⟨_, c, hcall, h⟩ := bind_eq_ok h
        cases h
        rw [callOtherSubr_eq] at hcall
        obtain ⟨⟨n, subr⟩, _, hselect, hperform⟩ := bind_eq_ok hcall
        obtain ⟨hselected, operands, rfl⟩ := selected_of_select hselect
        have hselected : OtherSubr.selected? d.operands.toList = some subr := hselected
        simp only [Instruction.activity, Operator.activity, hselected] at ha
        simp only [Instruction.stroke, Operator.stroke, hselected] at hstroke
        cases subr with
        | startFlex =>
          cases hperform
          exact segments_placeAccent _
        | endFlex => rcases hstroke with h | h <;> cases h
        | _ => cases ha
      | rmoveto | hmoveto | vmoveto =>
        simp only [Instruction.activity, Operator.activity] at ha
        simp only [Instruction.stroke, Operator.stroke] at hstroke
        split at ha
        · cases ha
        · next hactive =>
          rw [if_neg hactive] at hstroke
          rcases hstroke with h | h <;> cases h
      | rlineto | hlineto | vlineto | rrcurveto | vhcurveto | hvcurveto =>
        rcases hstroke with h | h <;> cases h
      | _ => cases ha
    | _ => cases ha

end Decode

end Type1
