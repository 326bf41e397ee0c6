import Type1.Proofs.Composition

/-!
# Counter groups are complete

The mark that the next stem starts a counter group is due only while counter hints are reported.
Between instructions it is not, neither on the way to an accented character nor after its base
(`Composition.groupDue_before`, `Composition.groupDue_after`).
-/

namespace Type1

/-- States that are the same, in which no counter group is due. -/
def Settled (d e : Decoder) : Prop := d = e ∧ d.groupDue = false

namespace Decode

variable (setup : Setup)

theorem kept_settled : Kept setup fun d => d.groupDue = false where
  setOperands h _ := h
  closed h := h
  note h _ := h
  report h _ _ := h
  setPoint h _ := h
  opened h := h
  placeAccent h := by
    unfold Decoder.placeAccent
    split <;> exact h
  renewHints h := h
  hintStem _ _ _ _ := rfl
  setFlex h _ := h

theorem storing_settled : Storing Settled where
  setStorage := by rintro d _ ⟨rfl, h⟩ _; exact ⟨rfl, h⟩
  setSeed := by rintro d _ ⟨rfl, h⟩ _; exact ⟨rfl, h⟩
  blended := by rintro d _ ⟨rfl, h⟩; exact ⟨rfl, h⟩

/-- What succeeds and leaves no counter group due. -/
theorem Relates.of_settles {x : Decode Unit}
    (h : ∀ d e, d.groupDue = false → x d = .ok () e → e.groupDue = false) :
    Relates Settled Unrelated x x := by
  rintro d _ ⟨rfl, hd⟩
  cases hx : x d with
  | ok a e => exact .ok ⟨rfl, h d e hd hx⟩
  | error y e => exact .error trivial

variable {setup}

/-- Counter hints that are not cut off end with a stem. -/
theorem groupDue_of_counterStems (vertical : Bool) (edge : Number) (values : List Number) :
    ∀ d e, counterStems setup vertical edge values d = .ok () e → e.groupDue = false := by
  fun_induction counterStems setup vertical edge values with
  | case1 vertical edge gap width rest near far last next =>
    intro d e h
    obtain ⟨_, c, hstem, h₁⟩ := bind_eq_ok h
    split at h₁
    · split at h₁
      · cases hstem
        cases h₁
        rfl
      · obtain ⟨_, c₁, _, h₂⟩ := bind_eq_ok h₁
        obtain ⟨c₂, c₃, _, h₃⟩ := bind_eq_ok h₂
        exact last c₂ c₃ e h₃
    · exact next c e h₁
  | case2 =>
    intro d e h
    cases h

theorem relates_counterHints_settled (n : Nat) (complete : Bool) :
    Relates Settled Unrelated (counterHints setup n complete) (counterHints setup n complete) := by
  have hcong := (kept_settled setup).drawing.toCongruence
  refine relates_get_bind fun d e hde => ?_
  obtain rfl := hde.1
  refine ((relates_take hcong n).mono fun _ _ _ => trivial).bind fun v => ?_
  dsimp only
  split
  · exact fun _ _ _ => .error trivial
  · refine .bind (relates_modify fun d e hde => ⟨by rw [hde.1], hde.2⟩) fun _ =>
      relates_ite ?_ (relates_pure _)
    refine .bind (relates_modify fun d e hde => ⟨by rw [hde.1], hde.2⟩) fun _ => ?_
    split
    · exact relates_pure _
    · refine .of_settles fun d e _ h => ?_
      obtain ⟨_, c, _, h₁⟩ := bind_eq_ok h
      obtain ⟨c₁, c₂, _, h₂⟩ := bind_eq_ok h₁
      exact groupDue_of_counterStems _ _ _ c₂ e h₂

/-- A call of an other subroutine that succeeds leaves no counter group due. -/
theorem related_callOtherSubr_settled {d e : Decoder} (hde : Settled d e) :
    Related Settled Unrelated (callOtherSubr setup d) (callOtherSubr setup e) := by
  have hdraw := (kept_settled setup).drawing
  refine related_callOtherSubr hdraw.toCongruence (fun _ _ _ => trivial) hde fun n subr _ => ?_
  cases subr with
  | counterHints complete => exact relates_counterHints_settled n complete
  | _ =>
    refine .mono (relates_performOtherSubr hdraw n ?_ fun _ => storing_settled)
      fun _ _ _ => trivial
    nofun

/-- Changes that leave the mark alone. -/
theorem relates_modify_settled {f : Decoder → Decoder}
    (hf : ∀ d, (f d).groupDue = d.groupDue) : Relates Settled Unrelated (modify f) (modify f) :=
  relates_modify fun d _ hde => ⟨congrArg f hde.1, (hf d).trans hde.2⟩

theorem relates_metrics_settled (bearing : Point) (advance : Number) :
    Relates Settled Unrelated (metrics setup bearing advance) (metrics setup bearing advance) := by
  refine (relates_modify_settled fun _ => by rfl).bind fun _ => relates_get_bind fun d e hde => ?_
  obtain rfl := hde.1
  dsimp only
  split
  · exact (relates_modify_settled fun _ => by rfl).bind fun _ => relates_pure _
  · exact (relates_modify_settled fun _ => by rfl).bind fun _ => relates_pure _
  · refine relates_get_bind fun d e hde => ?_
    obtain rfl := hde.1
    split
    · exact (relates_modify_settled fun _ => by rfl).bind fun _ => relates_pure _
    · refine relates_get_bind fun d e hde => ?_
      obtain rfl := hde.1
      refine (relates_modify_settled fun _ => by rfl).bind fun _ => ?_
      split
      · exact relates_pure _
      · exact relates_pure _

theorem relates_accented_settled (v : Vector Number 5) :
    Relates Settled Unrelated (accented setup v) (accented setup v) := by
  have orFail {α : Type} (x : Error) (o : Option α) :
      Relates Settled Unrelated (orFail x o) (orFail x o) :=
    (relates_orFail x o).mono fun _ _ _ => trivial
  have lookUp (glyphs : UInt8 → Option Nat) (code : UInt8) :
      Relates Settled Unrelated (lookUp glyphs code) (lookUp glyphs code) :=
    (relates_modify_settled fun _ => by rfl).bind fun _ => orFail _ _
  refine (orFail _ _).bind fun base => (orFail _ _).bind fun accent =>
    relates_get_bind fun d e hde => ?_
  obtain rfl := hde.1
  dsimp only
  split
  · refine (relates_modify_settled fun _ => by rfl).bind fun _ => ?_
    split
    · exact (relates_modify_settled fun _ => by rfl).bind fun _ => relates_pure _
    · exact (orFail _ _).bind fun glyphs => (lookUp _ _).bind fun _ =>
        (lookUp _ _).bind fun _ => relates_pure _
  · exact fun _ _ _ => .error trivial

theorem related_execute_settled (i : Instruction) {d e : Decoder} (hde : Settled d e) :
    Related Settled Unrelated (execute setup i d) (execute setup i e) := by
  have hdraw := (kept_settled setup).drawing
  cases i with
  | number value =>
    exact ((relates_push hdraw.toCongruence value).bind fun _ => relates_pure _).mono
      (fun _ _ _ => trivial) d e hde
  | reserved byte => exact .error trivial
  | operator op =>
    have hbegan : Settled (d.record (.began op d.operands.toList))
        (e.record (.began op e.operands.toList)) := ⟨by rw [hde.1], hde.2⟩
    exact related_perform hdraw (fun _ _ _ => trivial) (fun _ => storing_settled)
      (fun _ => relates_metrics_settled) (fun _ => relates_accented_settled)
      (fun _ => related_callOtherSubr_settled hbegan) hbegan

end Decode

theorem lockstep_settled (setup : Setup) :
    Direct.Lockstep (fun _ => True) Settled Unrelated setup setup where
  before _ _ := trivial
  fails _ := trivial
  step h _ := Decode.related_execute_settled _ h
  parts _ _ _ := {
    base := by rintro d _ ⟨rfl, h⟩; exact ⟨rfl, h⟩
    accent := by rintro d _ ⟨rfl, h⟩ _; exact ⟨rfl, h⟩
    done := by rintro d _ ⟨rfl, h⟩; exact ⟨rfl, h⟩ }

namespace Composition

variable {data : List UInt8} {setup : Setup} {c : Composition}

theorem Reached.groupDue {levels p : Nat} {d : Decoder} (h : c.Reached data setup levels p d)
    (hd : d.groupDue = false) : c.before.groupDue = false := by
  induction h with
  | @here levels p n i d _ hx _ =>
    have hr : Decode.Related Settled Unrelated (Decode.execute setup i d) _ :=
      Decode.related_execute_settled i ⟨rfl, hd⟩
    rw [hx] at hr
    cases hr with
    | ok h => exact h.2
  | @next levels p n i d e _ he _ ih =>
    have hr := (lockstep_settled setup).effect (Direct.nested_grows levels)
      ((lockstep_settled setup).nested data levels) i (d := d) (e := d) ⟨rfl, hd⟩ trivial
    rw [he] at hr
    cases hr with
    | goesOn h => exact ih h.2
  | @call levels p n offset i d e _ hx _ _ ih =>
    have hr : Decode.Related Settled Unrelated (Decode.execute setup i d) _ :=
      Decode.related_execute_settled i ⟨rfl, hd⟩
    rw [hx] at hr
    cases hr with
    | ok h => exact ih h.2

/-- No counter group is due where an accented character is composed. -/
theorem groupDue_before {offset : Nat} (h : c.Of data setup offset) : c.before.groupDue = false :=
  h.2.groupDue rfl

/-- No counter group is due after the base of an accented character. -/
theorem groupDue_after {offset : Nat} {after : Decoder} {flow : Flow} (h : c.Of data setup offset)
    (hbase : c.baseOutcome data setup = .ok flow after) : after.groupDue = false := by
  have hr : Decode.Related Settled Unrelated (c.baseOutcome data setup)
      (c.baseOutcome data setup) :=
    (lockstep_settled setup).nested data c.levels c.base _ _ ⟨rfl, groupDue_before h⟩ trivial
  rw [hbase] at hr
  cases hr with
  | ok h => exact h.2

end Composition

end Type1
