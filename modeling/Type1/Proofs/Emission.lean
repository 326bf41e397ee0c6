import Type1.Proofs.History

/-!
# A decoding for a receiver is the plain one, delivered

A receiver is asked and coordinates are mapped wherever an element comes about, yet none of this is
ever looked at again. So the decoding for a receiver does in each state what the plain decoding
does, and the receiver is given what `Element.deliver` makes of the elements.

* `Receiver.deliver_record`, `Receiver.deliver_report`: the history, event by event.
* `Receiver.lineBy_deliver` and the like: the segments and the stems.
* `Receiver.relates_move` and the like: the computations that draw or hint, from related states.
* `Receiver.execute_deliver`: all instructions.
-/

namespace Type1.Receiver

variable (r : Receiver)

section States

variable (d : Decoder)

/-! ## The history -/

/-- What is no element is the same for all receivers. -/
theorem deliver_record {event : Event} (h : event.element? = none) :
    r.deliver (d.record event) = (r.deliver d).record event := by
  cases event with
  | element e => cases h
  | _ => simp [deliver, Decoder.record, Event.deliver, List.flatMap_append]

theorem foldl_report (elements : List Element) :
    elements.foldl (fun d e => d.report e) d =
      { d with history := d.history ++ (elements.map Event.element).toArray } := by
  induction elements generalizing d with
  | nil => simp
  | cons e elements ih =>
    rw [List.foldl_cons, ih]
    simp [Decoder.report, Decoder.record]

/-- An element is given as it is delivered. -/
theorem deliver_report (e : Element) :
    r.deliver (d.report e) =
      (e.deliver r.settings r.takes).foldl (fun d e => d.report e) (r.deliver d) := by
  rw [foldl_report]
  simp [deliver, Decoder.report, Decoder.record, Event.deliver, List.flatMap_append]

/-! ## Width and deprecated operators -/

/-- The width that is kept is the one that is given. -/
theorem emitWidth_deliver (w : Number) (bearing : Point) :
    r.emitWidth (r.mapWidth w) { r.deliver d with bearing, width := some (r.mapWidth w) } =
      r.deliver (({ d with bearing, width := some w } : Decoder).report (.width w)) := by
  rw [deliver_report]
  unfold emitWidth mapWidth Element.deliver Element.accept
  cases hwidth : r.takes.width <;> cases hm : r.settings.activeMatrix? <;>
    simp [deliver, mapWidth, hm, Element.transform]

theorem emitDotsection_deliver :
    r.emitDotsection (r.deliver d) = r.deliver (d.report (.operator dotsectionCode [])) := by
  rw [deliver_report]
  unfold emitDotsection Element.deliver Element.accept
  rw [Bool.and_comm]
  cases r.takes.operator && !r.settings.updateOperators <;>
    cases r.settings.activeMatrix? <;> rfl

/-! ## Contours -/

theorem emitMove_deliver (p : Point) :
    r.emitMove p (r.deliver d) = r.deliver (d.report (.moveTo p)) := by
  rw [deliver_report]
  unfold emitMove mapPoint Element.deliver Element.accept
  cases r.takes.move <;> cases r.settings.activeMatrix? <;> rfl

theorem emitCurve_deliver (c : Curve) :
    r.emitCurve c (r.deliver d) = r.deliver (d.report (.curveTo c)) := by
  rw [deliver_report]
  unfold emitCurve mapCurve mapPoint Element.deliver Element.accept
  cases r.takes.curve <;> cases r.settings.activeMatrix? <;> rfl

theorem placeAccent_deliver : (r.deliver d).placeAccent = r.deliver d.placeAccent := by
  unfold Decoder.placeAccent
  simp only [deliver]
  split <;> rfl

theorem openContour_deliver : r.openContour (r.deliver d) = r.deliver d.openContour :=
  r.emitMove_deliver { d with moveDue := false, moved := true } d.point

theorem startContour_deliver : r.startContour (r.deliver d) = r.deliver d.startContour := by
  simp only [startContour, Decoder.startContour, placeAccent_deliver]
  rw [apply_ite r.deliver, ← openContour_deliver]
  rfl

theorem moveBy_deliver (delta : Point) :
    r.moveBy delta (r.deliver d) = r.deliver (d.moveBy delta) := by
  unfold moveBy Decoder.moveBy
  rw [placeAccent_deliver]
  exact r.openContour_deliver
    { d.placeAccent with point := (d.placeAccent.point + delta).round }

theorem lineBy_deliver (delta : Point) :
    r.lineBy delta (r.deliver d) = r.deliver (d.lineBy delta) := by
  unfold lineBy Decoder.lineBy
  rw [startContour_deliver]
  generalize d.startContour = c
  dsimp only
  rw [deliver_report]
  unfold mapPoint Element.deliver Element.accept
  cases r.takes.line <;> cases r.settings.activeMatrix? <;> rfl

theorem curveBy_deliver (p q t : Point) :
    r.curveBy p q t (r.deliver d) = r.deliver (d.curveBy r.setup p q t) := by
  unfold curveBy Decoder.curveBy
  rw [startContour_deliver]
  generalize d.startContour = c
  exact r.emitCurve_deliver { c with
    point := (c.controlPoint r.setup (c.controlPoint r.setup (c.point + p) + q) + t).round } _

/-- A flex that is not taken as such is given as two curves. -/
theorem flexTo_deliver (depth : Number) (left right : Curve) :
    r.flexTo depth left right (r.deliver d) =
      r.deliver (d.flexTo r.setup depth left right) := by
  unfold flexTo Decoder.flexTo
  rw [startContour_deliver]
  generalize d.startContour = c
  dsimp only
  rw [deliver_report]
  unfold emitCurve mapCurve mapPoint Element.deliver Element.accept
  cases r.takes.flex <;> cases r.takes.curve <;> cases r.settings.activeMatrix? <;> rfl

/-! ## Stems -/

theorem addStem_deliver (kind : StemKind) (near far : Number) :
    r.addStem kind near far (r.deliver d) = r.deliver (d.addStem r.setup kind near far) := by
  unfold addStem Decoder.addStem
  dsimp only
  rw [deliver_report]
  unfold mapEdge Element.deliver Element.accept
  cases r.takes.stem <;> cases r.settings.activeMatrix? <;> rfl

theorem hintStem_deliver (kind : StemKind) (position extent : Number) :
    r.hintStem kind position extent (r.deliver d) =
      r.deliver (d.hintStem r.setup kind position extent) := by
  simp only [hintStem, Decoder.hintStem]
  have hd : (if (r.deliver d).moved && !(r.deliver d).hintsRenewed then (r.deliver d).renewHints
      else r.deliver d) = r.deliver (if d.moved && !d.hintsRenewed then d.renewHints else d) := by
    rw [apply_ite r.deliver]
    rfl
  rw [hd]
  exact r.addStem_deliver _ kind _ _

theorem hintStems_deliver (kind : StemKind) (v : Vector Number 6) :
    r.hintStems kind v (r.deliver d) = r.deliver (d.hintStems r.setup kind v) := by
  simp only [hintStems, Decoder.hintStems, hintStem_deliver]

end States

/-! ## Computations -/

open Decode

/-- The second state is the first one as the receiver has it. -/
abbrev Delivers (d e : Decoder) : Prop := e = r.deliver d

/-- What gives a receiver nothing looks at nothing that depends on it. -/
theorem congruence_delivers : Congruence r.Delivers where
  workspace := by rintro d _ rfl; rfl
  setOperands := by rintro d _ rfl _; rfl
  note := by rintro d _ rfl _; exact (r.deliver_record d rfl).symm

theorem storing_delivers : Storing r.Delivers where
  setStorage := by rintro d _ rfl _; rfl
  setSeed := by rintro d _ rfl _; rfl
  blended := by rintro d _ rfl; rfl

/-- A change of the state that the receiver's decoding makes as well. -/
theorem relates_change {f g : Decoder → Decoder} (h : ∀ d, g (r.deliver d) = r.deliver (f d)) :
    Relates r.Delivers r.Delivers (modify f) (modify g) :=
  relates_modify fun d _ hd => by rw [hd]; exact h d

theorem relates_drawing {n : Nat} {f g : Vector Number n → Decoder → Decoder}
    (h : ∀ v d, g v (r.deliver d) = r.deliver (f v d)) :
    Relates r.Delivers r.Delivers (draw n f) (draw n g) :=
  relates_draw r.congruence_delivers fun v d _ hd => by rw [hd]; exact h v d

theorem relates_move (delta : Point) :
    Relates r.Delivers r.Delivers (Decode.move delta) (r.move delta) := by
  refine relates_get_bind ?_
  rintro d _ rfl
  refine relates_ite (relates_ite (r.relates_change fun _ => rfl) (relates_throw _)) ?_
  exact r.relates_change fun d => r.moveBy_deliver d delta

theorem relates_moveWith (n : Nat) (delta : Vector Number n → Point) :
    Relates r.Delivers r.Delivers (Decode.moveWith n delta) (r.moveWith n delta) :=
  (relates_arguments r.congruence_delivers n).bind fun v => (r.relates_move (delta v)).bind fun _ =>
    (relates_clear r.congruence_delivers).bind fun _ => relates_pure _

theorem endFlex_refused {d : Decoder} {n : Nat}
    (h : ∀ f p₁ p₂ p₃ p₄ p₅ q, n = 3 → d.flex.active = true →
      d.flex.points = [f, p₁, p₂, p₃, p₄, p₅, q] → False) :
    r.endFlex n d = refuse (.malformedFlex n d.flex.coordinates) .badFlex d := by
  rw [endFlex, get_bind_run]
  refine congrFun ?_ d
  dsimp only
  split
  · next hactive hpoints => exact (h _ _ _ _ _ _ _ rfl hactive hpoints).elim
  · rfl

theorem relates_endFlex (n : Nat) :
    Relates r.Delivers r.Delivers (Decode.endFlex r.setup n) (r.endFlex n) := by
  have hcong := r.congruence_delivers
  rintro d _ rfl
  -- Delivery leaves the flex as it is, so both see seven points or neither does.
  by_cases hseven : ∃ f p₁ p₂ p₃ p₄ p₅ q, n = 3 ∧ d.flex.active = true ∧
      d.flex.points = [f, p₁, p₂, p₃, p₄, p₅, q]
  · obtain ⟨f, p₁, p₂, p₃, p₄, p₅, q, rfl, hactive, hpoints⟩ := hseven
    refine Related.get_bind ?_
    simp only [deliver, hactive, hpoints]
    refine (?_ : Relates r.Delivers r.Delivers _ _) d (r.deliver d) rfl
    refine .bind (r.relates_change fun _ => rfl) fun _ => (relates_take hcong 3).bind fun v =>
      relates_get_bind ?_
    rintro d _ rfl
    exact .bind (r.relates_change fun d => r.flexTo_deliver d _ _ _) fun _ =>
      relates_pushAll hcong _
  · have hother : ∀ f p₁ p₂ p₃ p₄ p₅ q, n = 3 → d.flex.active = true →
        d.flex.points = [f, p₁, p₂, p₃, p₄, p₅, q] → False :=
      fun _ _ _ _ _ _ _ hn hactive hpoints => hseven ⟨_, _, _, _, _, _, _, hn, hactive, hpoints⟩
    rw [Decode.endFlex_refused r.setup hother, r.endFlex_refused (d := r.deliver d) hother]
    exact relates_refuse hcong _ _ d (r.deliver d) rfl

theorem relates_counterStems (vertical : Bool) (edge : Number) (values : List Number) :
    Relates r.Delivers r.Delivers (Decode.counterStems r.setup vertical edge values)
      (r.counterStems vertical edge values) := by
  fun_induction Decode.counterStems r.setup vertical edge values with
  | case1 vertical edge gap width rest near far last next =>
    refine .bind (r.relates_change fun d => r.addStem_deliver d _ _ _) fun _ => ?_
    refine relates_ite ?_ next
    cases rest with
    | nil => exact relates_pure _
    | cons value rest =>
      refine .bind (r.relates_change fun _ => rfl) fun _ => relates_get_bind ?_
      rintro d _ rfl
      exact last d
  | case2 values vertical edge hshort =>
    -- Fewer than two values are left, which the receiver's reading refuses as well.
    have hrefused : r.counterStems vertical edge values =
        refuse .cutOffGroup .badCounterControl := by
      unfold counterStems
      split
      · exact absurd rfl (hshort _ _ _)
      · rfl
    rw [hrefused]
    exact relates_refuse r.congruence_delivers _ _

theorem relates_counterHints (n : Nat) (complete : Bool) :
    Relates r.Delivers r.Delivers (Decode.counterHints r.setup n complete)
      (r.counterHints n complete) := by
  refine relates_get_bind ?_
  rintro d _ rfl
  refine (relates_take r.congruence_delivers n).bind fun v => ?_
  refine relates_ite (relates_throw _) ?_
  refine .bind (r.relates_change fun _ => rfl) fun _ => relates_ite ?_ (relates_pure _)
  refine .bind (r.relates_change fun _ => rfl) fun _ => ?_
  dsimp only [deliver]
  cases (d.counters ++ v.toList).reverse with
  | nil => exact relates_pure _
  | cons value values =>
    refine .bind (r.relates_change fun _ => rfl) fun _ => relates_get_bind ?_
    rintro d _ rfl
    exact r.relates_counterStems _ _ _

theorem relates_performOtherSubr (n : Nat) (subr : OtherSubr) :
    Relates r.Delivers r.Delivers (Decode.performOtherSubr r.setup n subr)
      (r.performOtherSubr n subr) := by
  cases subr with
  | endFlex => exact r.relates_endFlex n
  | startFlex =>
    refine r.relates_change fun d => ?_
    unfold Decoder.startFlex
    rw [placeAccent_deliver]
    rfl
  | flexPoint => exact relates_pure ()
  | renewHints => exact r.relates_change fun _ => rfl
  | counterHints complete => exact r.relates_counterHints n complete
  | blend k => exact relates_blend r.congruence_delivers r.storing_delivers r.setup k
  | storeWeights => exact relates_storeWeights r.congruence_delivers r.storing_delivers r.setup
  | calculate op => exact relates_calculate r.congruence_delivers fun _ => r.storing_delivers

theorem relates_callOtherSubr :
    Relates r.Delivers r.Delivers (Decode.callOtherSubr r.setup) r.callOtherSubr := by
  have hcong := r.congruence_delivers
  refine (relates_take hcong 2).bind fun v => (relates_orFail _ _).bind fun n =>
    (relates_require hcong n).bind fun _ => (relates_orFail _ _).bind fun selector => ?_
  cases OtherSubr.ofSelector? selector with
  | some subr =>
    exact (relates_require hcong _).bind fun _ => r.relates_performOtherSubr n subr
  | none => exact relates_refuse hcong _ _

/-- The width is kept as it is given, and it is given only once. -/
theorem relates_metrics (bearing : Point) (advance : Number) :
    Relates r.Delivers r.Delivers (Decode.metrics r.setup bearing advance)
      (r.metrics bearing advance) := by
  refine .bind (r.relates_change fun _ => rfl) fun _ => relates_get_bind ?_
  rintro d _ rfl
  dsimp only [deliver]
  cases d.part with
  | base before => exact .bind (r.relates_change fun _ => rfl) fun _ => relates_pure _
  | accent before shift placed =>
    exact .bind (r.relates_change fun _ => rfl) fun _ => relates_pure _
  | glyph =>
    refine relates_get_bind ?_
    rintro d _ rfl
    -- A mapped width is there exactly if the width is.
    rw [show (r.deliver d).width.isSome = d.width.isSome from Option.isSome_map ..]
    refine relates_ite ?_ (relates_get_bind ?_)
    · exact .bind (r.relates_change fun d => (r.deliver_record d rfl).symm) fun _ =>
        relates_pure _
    · rintro d _ rfl
      refine .bind (r.relates_change fun d => r.emitWidth_deliver d _ _) fun _ => ?_
      exact relates_ite (relates_pure _) (relates_pure _)

theorem relates_lookUp (glyphs : UInt8 → Option Nat) (code : UInt8) :
    Relates r.Delivers r.Delivers (lookUp glyphs code) (lookUp glyphs code) :=
  .bind (r.relates_change fun d => (r.deliver_record d rfl).symm) fun _ => relates_orFail _ _

/-- An accented character is left to a receiver as such or composed of its parts. -/
theorem relates_accented (v : Vector Number 5) :
    Relates r.Delivers r.Delivers (Decode.accented r.setup v) (r.accented v) := by
  refine (relates_orFail _ _).bind fun base => (relates_orFail _ _).bind fun accent =>
    relates_get_bind ?_
  rintro d _ rfl
  -- Parts, and whether accented characters are kept, are as in the plain decoding.
  dsimp only [deliver]
  cases d.part with
  | base bearing => exact relates_refuse r.congruence_delivers _ _
  | accent bearing shift placed => exact relates_refuse r.congruence_delivers _ _
  | glyph =>
    refine .bind (r.relates_change fun _ => rfl) fun _ => ?_
    rw [show r.setup.keepsAccented = (!r.settings.updateOperators && r.takes.accented) from
      Bool.and_comm ..]
    refine relates_ite ?_ ?_
    · refine .bind (r.relates_change fun d => ?_) fun _ => relates_pure _
      rw [deliver_report]
      unfold Element.deliver Element.accept
      cases r.settings.activeMatrix? <;> rfl
    · exact (relates_orFail _ _).bind fun glyphs => (r.relates_lookUp glyphs base).bind fun _ =>
        (r.relates_lookUp glyphs accent).bind fun _ => relates_pure _

/-! ## Operators and instructions -/

theorem relates_perform (op : Operator) :
    Relates r.Delivers r.Delivers (Decode.perform r.setup op) (r.perform op) := by
  have hcong := r.congruence_delivers
  have measured (n : Nat) (p : Vector Number n → Point) (w : Vector Number n → Number) :
      Relates r.Delivers r.Delivers
        (do let v ← arguments n; clear; Decode.metrics r.setup (p v) (w v))
        (do let v ← arguments n; clear; r.metrics (p v) (w v)) :=
    (relates_arguments hcong n).bind fun _ => (relates_clear hcong).bind fun _ =>
      r.relates_metrics _ _
  cases op with
  | hstem | vstem => exact r.relates_drawing fun _ d => r.hintStem_deliver d _ _ _
  | hstem3 | vstem3 => exact r.relates_drawing fun v d => r.hintStems_deliver d _ v
  | rmoveto | hmoveto | vmoveto => exact r.relates_moveWith _ _
  | rlineto | hlineto | vlineto => exact r.relates_drawing fun _ d => r.lineBy_deliver d _
  | rrcurveto | vhcurveto | hvcurveto =>
    exact r.relates_drawing fun _ d => r.curveBy_deliver d _ _ _
  | dotsection => exact r.relates_drawing fun _ d => r.emitDotsection_deliver d
  | setcurrentpoint =>
    refine r.relates_drawing fun v d => ?_
    unfold Decoder.setPoint
    rw [placeAccent_deliver]
    rfl
  | hsbw => exact measured 2 _ _
  | sbw => exact measured 4 _ _
  | seac =>
    exact (relates_arguments hcong 5).bind fun v => (relates_clear hcong).bind fun _ =>
      r.relates_accented v
  | callothersubr => exact r.relates_callOtherSubr.bind fun _ => relates_pure _
  | closepath => exact r.relates_drawing fun _ _ => rfl
  | _ => exact relates_silent hcong rfl nofun (fun _ => r.storing_delivers) nofun

theorem relates_execute (i : Instruction) :
    Relates r.Delivers r.Delivers (Decode.execute r.setup i) (r.execute i) := by
  have hcong := r.congruence_delivers
  cases i with
  | number value => exact (relates_push hcong value).bind fun _ => relates_pure _
  | operator op =>
    exact .bind (r.relates_change fun d => (r.deliver_record d rfl).symm) fun _ =>
      r.relates_perform op
  | reserved byte => exact relates_refuse hcong _ _

/-- In the state that the receiver has, an instruction does for the receiver what it does in the
plain decoding, delivered. -/
theorem execute_deliver (i : Instruction) (d : Decoder) :
    r.execute i (r.deliver d) = onState r.deliver (Decode.execute r.setup i d) :=
  (r.relates_execute i).eq_onState d

end Type1.Receiver
