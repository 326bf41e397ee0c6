import Type1.Proofs.FlexProtocol

/-!
# Curves, flexes and stems

The elements with control points or edges, and what they are computed from. Such coordinates may be
rounded on the way, so the function that is applied to them is a parameter here.

* `Element.controlled?`: the curve, the flex or the stem that an element is.
* `Curve.along`, `Element.stemAt`, `Element.counterStems`: each from what an instruction gives.
* `Instruction.controlled`: the curves, flexes and stems of an instruction.
* `Decode.controlled_execute`: an instruction gives these, with `Decoder.control` applied, and
  nothing else of the kind.
-/

namespace Type1

/-! ## Curves, flexes and stems -/

/-- The curve, the flex or the stem that an element is, without the depth of a flex and what is told
about a stem. -/
def Element.controlled? : Element → Option Element
  | curveTo curve => some (curveTo curve)
  | flex _ left right => some (flex 0 left right)
  | stem _ near far => some (stem {} near far)
  | width _ | moveTo _ | lineTo _ | accented .. | operator .. => none

/-- The curves, flexes and stems in the history. -/
def Decoder.controlled (d : Decoder) : List Element := d.elements.filterMap Element.controlled?

/-- A curve along three displacements from a point. Each point is computed from the one before it
with the function applied. -/
def Curve.along (f : Number → Number) (p delta₁ delta₂ delta₃ : Point) : Curve :=
  let first := (p + delta₁).map f
  let second := (first + delta₂).map f
  ⟨first, second, (second + delta₃).round⟩

/-- A stem at a position relative to an origin. -/
def Element.stemAt (f : Number → Number) (origin position extent : Number) : Element :=
  let near := position + origin
  stem {} (f near) (f (near + extent))

/-- The stems of counter hints, given by the distance from the edge before and the width each. A
negative width ends a group, and the next one is across the other axis and starts from the origin
again. -/
def Element.counterStems (f : Number → Number) (origin : Point) (vertical : Bool) (edge : Number) :
    List Number → List Element
  | gap :: extent :: rest =>
    let near := edge + gap
    let far := near + extent.abs
    stem {} (f near) (f far) ::
      if extent < 0 then counterStems f origin (!vertical) (origin.across !vertical) rest
      else counterStems f origin vertical far rest
  | _ => []

/-- What the lowest `n` operands stand for, with another value if there are fewer. -/
def Operands.lowest {α : Type} (operands : Operands) (n : Nat) (missing : α)
    (g : Vector Number n → α) : α :=
  (operands.bottom? n).elim missing g

section Controlled

variable (f : Number → Number) (d : Decoder)

/-- What an other subroutine draws or hints with `n` arguments. -/
def OtherSubr.controlled (n : Nat) : OtherSubr → List Element
  | endFlex =>
    match n, d.flex.active, d.flex.points with
    | 3, true, [_, p₁, p₂, p₃, p₄, p₅, _] =>
      (d.operands.split? 3).elim [] fun (_, v) =>
        [.flex 0 ⟨p₁.map f, p₂.map f, p₃.map f⟩
          ⟨p₄.map f, p₅.map f, ((d.absolute ⟨v.second, v.third⟩).map f).round⟩]
    | _, _, _ => []
  | counterHints true =>
    (d.operands.split? n).elim [] fun (_, (v : Vector Number n)) =>
      let values := d.counters ++ v.toList
      if counterCapacity < values.length then []
      else Element.counterStems f d.stemOrigin false d.stemOrigin.y values.reverse
  | _ => []

/-- What an operator draws or hints. -/
def Operator.controlled : Operator → List Element
  | hstem => d.operands.lowest 2 [] fun v => [.stemAt f d.stemOrigin.y v.first v.second]
  | vstem => d.operands.lowest 2 [] fun v => [.stemAt f d.stemOrigin.x v.first v.second]
  | hstem3 => d.operands.lowest 6 [] fun v =>
    let stem := Element.stemAt f d.stemOrigin.y
    [stem v.first v.second, stem v.third v.fourth, stem v.fifth v.sixth]
  | vstem3 => d.operands.lowest 6 [] fun v =>
    let stem := Element.stemAt f d.stemOrigin.x
    [stem v.first v.second, stem v.third v.fourth, stem v.fifth v.sixth]
  | rrcurveto => d.operands.lowest 6 [] fun v => [.curveTo (.along f d.placeAccent.point
    ⟨v.first, v.second⟩ ⟨v.third, v.fourth⟩ ⟨v.fifth, v.sixth⟩)]
  | vhcurveto => d.operands.lowest 4 [] fun v => [.curveTo (.along f d.placeAccent.point
    ⟨0, v.first⟩ ⟨v.second, v.third⟩ ⟨v.fourth, 0⟩)]
  | hvcurveto => d.operands.lowest 4 [] fun v => [.curveTo (.along f d.placeAccent.point
    ⟨v.first, 0⟩ ⟨v.second, v.third⟩ ⟨0, v.fourth⟩)]
  | callothersubr =>
    d.operands.called?.elim [] fun (subr, below, n) =>
      subr.controlled f { d with operands := below } n
  | _ => []

/-- What an instruction draws or hints. -/
def Instruction.controlled : Instruction → List Element
  | operator op => op.controlled f d
  | number _ | reserved _ => []

end Controlled

/-! ## What an instruction gives -/

variable {setup : Setup} {d e : Decoder}

namespace Decoder

theorem controlled_of_elements (h : e.elements = d.elements) : e.controlled = d.controlled :=
  congrArg (List.filterMap Element.controlled?) h

theorem controlled_record {event : Event} (h : event.element? = none) :
    (d.record event).controlled = d.controlled := by
  refine controlled_of_elements ((d.elements_record event).trans ?_)
  rw [h]
  exact List.append_nil _

theorem controlled_report (d : Decoder) (x : Element) :
    (d.report x).controlled = d.controlled ++ x.controlled?.toList := by
  rw [controlled, report, d.elements_record, List.filterMap_append]
  show _ ++ [x].filterMap Element.controlled? = _
  cases h : x.controlled? <;> simp only [List.filterMap_cons, h] <;> rfl

theorem startContour_point (d : Decoder) : d.startContour.point = d.placeAccent.point := by
  obtain ⟨_, _, _, hstart⟩ := d.startContour_eq
  rw [hstart]

theorem startContour_controlled (d : Decoder) : d.startContour.controlled = d.controlled := by
  have hplaced : d.placeAccent.controlled = d.controlled :=
    controlled_of_elements d.placeAccent_elements
  unfold startContour
  dsimp only
  split
  · exact (controlled_report _ _).trans ((List.append_nil _).trans hplaced)
  · exact hplaced

/-- A curve or a flex that is reported once its contour is started. -/
theorem controlled_draw (d : Decoder) (x : Element) (p : Point) :
    (report x { d.startContour with point := p }).controlled =
      d.controlled ++ x.controlled?.toList :=
  (controlled_report _ x).trans (congrArg (· ++ _) d.startContour_controlled)

theorem controlled_curveBy (p q r : Point) :
    (d.curveBy setup p q r).controlled =
      d.controlled ++ [.curveTo (.along (d.control setup) d.placeAccent.point p q r)] := by
  rw [curveBy, controlled_draw, startContour_controlPoint, d.startContour_point]
  rfl

theorem controlled_flexTo (depth : Number) (left right : Curve) :
    let control := Point.map (d.control setup)
    (d.flexTo setup depth left right).controlled = d.controlled ++
      [.flex 0 ⟨control left.first, control left.second, control left.last⟩
        ⟨control right.first, control right.second, (control right.last).round⟩] := by
  intro control
  rw [flexTo, controlled_draw, startContour_controlPoint]
  rfl

theorem controlled_addStem (kind : StemKind) (near far : Number) :
    (d.addStem setup kind near far).controlled =
      d.controlled ++ [.stem {} (d.control setup near) (d.control setup far)] :=
  controlled_report _ _

theorem controlled_hintStem (kind : StemKind) (position extent : Number) :
    (d.hintStem setup kind position extent).controlled = d.controlled ++
      [.stemAt (d.control setup) (d.stemOrigin.across kind.vertical) position extent] := by
  unfold hintStem
  dsimp only
  split <;> exact controlled_addStem ..

/-- A stem leaves what the next one is computed from as it is. -/
theorem hintStem_congr (kind : StemKind) (position extent : Number) :
    (d.hintStem setup kind position extent).control setup = d.control setup ∧
      (d.hintStem setup kind position extent).stemOrigin = d.stemOrigin := by
  obtain ⟨_, _, _, _, h⟩ := d.hintStem_eq setup kind position extent
  rw [h]
  exact ⟨rfl, rfl⟩

theorem controlled_hintStems (kind : StemKind) (v : Vector Number 6) :
    let stem := Element.stemAt (d.control setup) (d.stemOrigin.across kind.vertical)
    (d.hintStems setup kind v).controlled = d.controlled ++
      [stem v.first v.second, stem v.third v.fourth, stem v.fifth v.sixth] := by
  intro stem
  rw [hintStems]
  simp only [controlled_hintStem, (hintStem_congr _ _ _).1, (hintStem_congr _ _ _).2,
    List.append_assoc]
  rfl

end Decoder

/-- Only changes that draw or hint give curves, flexes or stems. -/
theorem Change.controlled {a : Activity} (h : Change setup a d e) (hdraws : a ≠ .draws)
    (hhints : a ≠ .hints) : e.controlled = d.controlled := by
  cases h with
  | note | lookedUp => exact Decoder.controlled_record rfl
  | operator | accented | width => exact (Decoder.controlled_report _ _).trans (List.append_nil _)
  | move delta =>
    exact (Decoder.controlled_report _ _).trans ((List.append_nil _).trans
      (Decoder.controlled_of_elements d.placeAccent_elements))
  | set p => exact Decoder.controlled_of_elements d.placeAccent_elements
  | line | curve | startFlex | flexTo => exact absurd rfl hdraws
  | stem | counterStem | group => exact absurd rfl hhints
  | _ => rfl

theorem Changes.controlled {a : Activity} (h : Changes setup a d e) (hdraws : a ≠ .draws)
    (hhints : a ≠ .hints) : e.controlled = d.controlled :=
  h.keeps (P := fun e => e.controlled = d.controlled)
    (fun _ _ hc he => (hc.controlled hdraws hhints).trans he) rfl

namespace Decode

theorem controlled_draw {n : Nat} {f : Vector Number n → Decoder → Decoder}
    {g : Vector Number n → List Element} (h : ∀ v, (f v d).controlled = d.controlled ++ g v) :
    (final (draw n f d)).controlled = d.controlled ++ d.operands.lowest n [] g := by
  unfold Operands.lowest
  cases hv : d.operands.bottom? n with
  | none =>
    have hx := arguments_run_short (Operands.bottom?_eq_none_iff.1 hv)
    rw [draw, bind_run_error hx]
    exact (List.append_nil _).symm
  | some v =>
    rw [draw, bind_run (arguments_run hv)]
    exact h v

theorem controlled_drawLine {n : Nat} {delta : Vector Number n → Point} :
    (final (draw n (fun v => .lineBy (delta v)) d)).controlled = d.controlled ++ [] := by
  have hline (v : Vector Number n) : (d.lineBy (delta v)).controlled = d.controlled ++ [] :=
    Decoder.controlled_draw d _ _
  rw [controlled_draw (g := fun _ => []) hline, Operands.lowest]
  cases d.operands.bottom? n <;> rfl

theorem controlled_pushAll (values : List Number) (d : Decoder) :
    (final (pushAll values d)).controlled = d.controlled := by
  have hchanges : Changes { font := {} } .quiet d (final (pushAll values d)) :=
    makes_pushAll values d
  exact hchanges.controlled nofun nofun

theorem controlled_endFlex (n : Nat) (d : Decoder) :
    (final (endFlex setup n d)).controlled =
      d.controlled ++ OtherSubr.controlled (d.control setup) d n .endFlex := by
  unfold OtherSubr.controlled
  dsimp only
  split
  · next hactive hpoints =>
    cases hsplit : d.operands.split? 3 with
    | none =>
      rw [Decoder.endFlex_short hactive hpoints setup hsplit]
      exact (List.append_nil _).symm
    | some p =>
      rw [Decoder.endFlex_run hactive hpoints setup hsplit, controlled_pushAll,
        Decoder.controlled_flexTo]
      rfl
  · next hmalformed =>
    rw [endFlex_refused setup hmalformed]
    exact (Decoder.controlled_record rfl).trans (List.append_nil _).symm

/-- Counter hints are reported as far as they can be read. -/
theorem controlled_counterStems (vertical : Bool) (edge : Number) (values : List Number)
    (d : Decoder) :
    (final (counterStems setup vertical edge values d)).controlled = d.controlled ++
      Element.counterStems (d.control setup) d.stemOrigin vertical edge values := by
  fun_induction counterStems setup vertical edge values generalizing d with
  | case1 vertical edge gap extent rest near far last next =>
    let e := d.addStem setup { vertical, counter := true } near far
    have he : e.controlled =
        d.controlled ++ [.stem {} (d.control setup near) (d.control setup far)] :=
      Decoder.controlled_addStem ..
    rw [modify_bind_run, Element.counterStems, ← List.singleton_append, ← List.append_assoc, ← he]
    split
    · cases rest with
      | nil => exact (List.append_nil _).symm
      | cons v rest =>
        exact last { e with groupDue := true } { e with groupDue := true }
    · exact next e
  | case2 vertical edge values hshort =>
    rw [Element.counterStems.eq_2 _ _ _ _ _ hshort, List.append_nil]
    exact Decoder.controlled_record rfl

theorem controlled_counterHints (n : Nat) (complete : Bool) (d : Decoder) :
    (final (counterHints setup n complete d)).controlled =
      d.controlled ++ OtherSubr.controlled (d.control setup) d n (.counterHints complete) := by
  unfold OtherSubr.controlled
  rw [counterHints, get_bind_run]
  cases hsplit : d.operands.split? n with
  | none =>
    have hx := take_run_short (Operands.split?_eq_none_iff.1 hsplit)
    rw [bind_run_error hx]
    cases complete <;> exact (List.append_nil _).symm
  | some p =>
    obtain ⟨below, v⟩ := p
    rw [bind_run (take_run hsplit)]
    dsimp only [Option.elim_some]
    by_cases hmany : counterCapacity < (d.counters ++ v.toList).length
    · rw [if_pos hmany, if_pos hmany]
      cases complete <;> exact (List.append_nil _).symm
    · rw [if_neg hmany, if_neg hmany, modify_bind_run]
      cases complete with
      | false => exact (List.append_nil _).symm
      | true =>
        rw [if_pos rfl, modify_bind_run]
        cases (d.counters ++ v.toList).reverse with
        | nil => exact (List.append_nil _).symm
        | cons w values =>
          exact controlled_counterStems false d.stemOrigin.y (w :: values)
            { d with operands := below, counters := [], groupDue := true }

theorem controlled_performOtherSubr (n : Nat) (subr : OtherSubr) (d : Decoder) :
    (final (performOtherSubr setup n subr d)).controlled =
      d.controlled ++ subr.controlled (d.control setup) d n := by
  have hchanges : Changes setup subr.activity d (final (performOtherSubr setup n subr d)) :=
    makes_performOtherSubr n subr d
  cases subr with
  | endFlex => exact controlled_endFlex n d
  | counterHints complete => exact controlled_counterHints n complete d
  | startFlex =>
    exact (Decoder.controlled_of_elements d.placeAccent_elements).trans (List.append_nil _).symm
  | _ => exact (hchanges.controlled nofun nofun).trans (List.append_nil _).symm

theorem controlled_callOtherSubr (d : Decoder) :
    (final (callOtherSubr setup d)).controlled =
      d.controlled ++ Operator.callothersubr.controlled (d.control setup) d := by
  rw [Operator.controlled]
  cases hcalled : d.operands.called? with
  | some call =>
    obtain ⟨subr, below, n⟩ := call
    rw [callOtherSubr_of_called (Operands.called?_eq_some_iff.1 hcalled)]
    exact controlled_performOtherSubr n subr _
  | none =>
    refine .trans ?_ (List.append_nil _).symm
    obtain ⟨x, e, below, hx, he⟩ := callOtherSubr_of_uncalled setup hcalled
    rw [hx]
    rcases he with rfl | ⟨n, rfl⟩
    · rfl
    · exact Decoder.controlled_record rfl

/-- Whatever comes of an operator, it gives the curves, flexes and stems that it draws and hints. -/
theorem controlled_perform (op : Operator) (d : Decoder) :
    (final (perform setup op d)).controlled =
      d.controlled ++ op.controlled (d.control setup) d := by
  have hchanges : Changes setup (op.activity d) d (final (perform setup op d)) :=
    changes_perform op d
  cases op with
  | hstem | vstem => exact controlled_draw fun v => Decoder.controlled_hintStem ..
  | hstem3 | vstem3 => exact controlled_draw fun v => Decoder.controlled_hintStems ..
  | rrcurveto | vhcurveto | hvcurveto =>
    exact controlled_draw fun v => Decoder.controlled_curveBy ..
  | rlineto | hlineto | vlineto => exact controlled_drawLine
  | rmoveto | hmoveto | vmoveto =>
    refine (hchanges.controlled ?_ ?_).trans (List.append_nil _).symm <;>
      unfold Operator.activity <;> dsimp only <;> split <;> nofun
  | callothersubr =>
    exact (congrArg Decoder.controlled final_bind_pure).trans (controlled_callOtherSubr d)
  | _ => exact (hchanges.controlled nofun nofun).trans (List.append_nil _).symm

/-- What an operator draws or hints does not depend on the history. -/
theorem controlled_record (op : Operator) (f : Number → Number) (event : Event)
    (d : Decoder) : op.controlled f (d.record event) = op.controlled f d := by
  have hpoint : (d.record event).placeAccent.point = d.placeAccent.point := by
    rw [d.placeAccent_record]
    rfl
  cases op with
  | rrcurveto | vhcurveto | hvcurveto =>
    unfold Operator.controlled
    rw [hpoint]
    rfl
  | _ => rfl

/-- An instruction gives the curves, flexes and stems that it draws and hints, even if it fails, and
nothing else of the kind. -/
theorem controlled_execute (setup : Setup) (i : Instruction) (d : Decoder) :
    (final (execute setup i d)).controlled = d.controlled ++ i.controlled (d.control setup) d := by
  cases i with
  | number value =>
    have hchanges := changes_execute setup (.number value) d
    exact (hchanges.controlled nofun nofun).trans (List.append_nil _).symm
  | operator op =>
    have hbegun : (d.record (.began op d.operands.toList)).controlled = d.controlled :=
      Decoder.controlled_record rfl
    rw [execute_operator, controlled_perform, hbegun, controlled_record]
    rfl
  | reserved byte => exact (Decoder.controlled_record rfl).trans (List.append_nil _).symm

end Decode

end Type1
