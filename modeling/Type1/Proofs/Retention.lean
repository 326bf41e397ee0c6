import Type1.Proofs.Telling

/-!
# What is never taken back

Once a contour was started, a new set of hints was asked for or values were blended, that is known
from then on. The codes of the parts stay known as well, and the glyph keeps the width and the side
bearing that it got first.

* `Decoder.Retains`: whatever is known in a state is known in a later one.
* `Change.retains`: a change takes nothing back; so neither does an instruction
  (`Decode.execute_retains`) nor a run (`Run.retains_after`).
-/

namespace Type1

variable {s : Source} {setup : Setup} {d e c : Decoder}

/-- What of a state is never taken back. -/
def Decoder.retained (d : Decoder) :
    Bool × Bool × Bool × Option Components × Option Number × Point :=
  (d.moved, d.hintsRenewed, d.blended, d.components, d.width, d.bearing)

/-- What is known in a state is known in a later one. -/
structure Decoder.Retains (d e : Decoder) : Prop where
  moved : d.moved = true → e.moved = true
  hintsRenewed : d.hintsRenewed = true → e.hintsRenewed = true
  blended : d.blended = true → e.blended = true
  components : d.components.isSome = true → e.components.isSome = true
  width : ∀ width, d.width = some width → e.width = some width ∧ e.bearing = d.bearing

namespace Decoder.Retains

theorem of_eq (h : e.retained = d.retained) : d.Retains e := by
  simp only [retained, Prod.mk.injEq] at h
  obtain ⟨hmoved, hrenewed, hblended, hcomponents, hwidth, hbearing⟩ := h
  exact ⟨hmoved.trans, hrenewed.trans, hblended.trans, fun hd => hcomponents ▸ hd,
    fun _ hd => ⟨hwidth.trans hd, hbearing⟩⟩

theorem refl (d : Decoder) : d.Retains d := of_eq rfl

theorem trans (h : d.Retains e) (h' : e.Retains c) : d.Retains c where
  moved hd := h'.moved (h.moved hd)
  hintsRenewed hd := h'.hintsRenewed (h.hintsRenewed hd)
  blended hd := h'.blended (h.blended hd)
  components hd := h'.components (h.components hd)
  width width hd := by
    obtain ⟨he, hbearing⟩ := h.width width hd
    obtain ⟨hc, hbearing'⟩ := h'.width width he
    exact ⟨hc, hbearing'.trans hbearing⟩

variable (d)

theorem record (event : Event) : d.Retains (d.record event) := of_eq rfl

theorem placeAccent : d.Retains d.placeAccent := by
  obtain ⟨_, _, h⟩ := d.placeAccent_eq
  rw [h]
  exact of_eq rfl

theorem openContour : d.Retains d.openContour :=
  ⟨fun _ => rfl, id, id, id, fun _ h => ⟨h, rfl⟩⟩

theorem startContour : d.Retains d.startContour := by
  unfold Decoder.startContour
  dsimp only
  split
  · exact (placeAccent d).trans (openContour _)
  · exact placeAccent d

theorem renewHints : d.Retains d.renewHints := ⟨id, fun _ => rfl, id, id, fun _ h => ⟨h, rfl⟩⟩

theorem addStem (kind : StemKind) (near far : Number) :
    d.Retains (d.addStem setup kind near far) := of_eq rfl

theorem hintStem (kind : StemKind) (position extent : Number) :
    d.Retains (d.hintStem setup kind position extent) := by
  unfold Decoder.hintStem
  dsimp only
  split
  · exact (renewHints d).trans (addStem _ _ _ _)
  · exact addStem d _ _ _

theorem begin (i : Instruction) : d.Retains (i.begin d) := by
  cases i with
  | operator op => exact record d _
  | _ => exact refl d

theorem recordCalls (calls : List Source.Call) : d.Retains (d.recordCalls calls) :=
  recordCalls_induction (P := (d.Retains ·)) (refl d) (fun e _ h => h.trans (record e _)) calls

end Decoder.Retains

/-- A change takes nothing back. -/
theorem Change.retains {a : Activity} (h : Change setup a d e) : d.Retains e := by
  cases h with
  | blended => exact ⟨id, id, fun _ => rfl, id, fun _ h => ⟨h, rfl⟩⟩
  | width bearing width hpart hwidth =>
    refine ⟨id, id, id, id, fun _ h => ?_⟩
    rw [hwidth] at h
    cases h
  | components components hpart => exact ⟨id, id, id, fun _ => rfl, fun _ h => ⟨h, rfl⟩⟩
  | renew => exact .renewHints d
  | stem kind position extent hkind => exact .hintStem d kind position extent
  | move delta =>
    exact (Decoder.Retains.placeAccent d).trans ⟨fun _ => rfl, id, id, id, fun _ h => ⟨h, rfl⟩⟩
  | set p => exact (Decoder.Retains.placeAccent d).trans (.of_eq rfl)
  | startFlex => exact (Decoder.Retains.placeAccent d).trans (.of_eq rfl)
  | line delta => exact (Decoder.Retains.startContour d).trans (.of_eq rfl)
  | curve p q r => exact (Decoder.Retains.startContour d).trans (.of_eq rfl)
  | flexTo depth left right =>
    exact (Decoder.Retains.startContour d).trans (.of_eq rfl)
  | _ => exact .of_eq rfl

/-- Whatever comes of an instruction, nothing is taken back. -/
theorem Decode.execute_retains (setup : Setup) (i : Instruction) (d : Decoder) :
    d.Retains (final (execute setup i d)) :=
  (changes_execute setup i d).keeps (P := (d.Retains ·)) (fun _ _ hc h => h.trans hc.retains)
    (.begin d i)

namespace Run

theorem invariant_retains (setup : Setup) (d : Decoder) :
    Invariant setup (fun _ _ => True) (d.Retains ·) (d.Retains ·) :=
  .of_execute (fun i e h => h.trans (Decode.execute_retains setup i e))
    (fun e _ h => h.trans (.record e _))
    (fun _ h => h.trans (.of_eq rfl))
    (fun _ _ h => h.trans (.of_eq rfl))
    fun _ h => h.trans (.of_eq rfl)

theorem retains_advance (x : Status s) (n : Nat) :
    x.session.decoder.Retains (advance s setup n x).session.decoder :=
  meets_iff.1 <| (invariant_retains setup _).advance (meets_iff.2 (.refl _))
    (fun _ _ _ _ _ _ => trivial) n

theorem retains_step (setup : Setup) (m : Moment s) :
    m.decoder.Retains (step s setup m).session.decoder :=
  retains_advance (.running m) 1

variable {offset : Nat} {st : Source.State} {i j : Nat}

/-- What is known to a run at some time is known to it from then on. -/
theorem retains_after (hij : i ≤ j) :
    (after s setup offset st i).session.decoder.Retains
      (after s setup offset st j).session.decoder := by
  obtain ⟨k, rfl⟩ := Nat.exists_eq_add_of_le hij
  unfold after
  rw [advance_add]
  exact retains_advance _ k

end Run

end Type1
