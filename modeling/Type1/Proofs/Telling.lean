import Type1.Proofs.Contours
import Type1.Proofs.WidthOnly

/-!
# What instructions tell

An instruction adds events to the history, and hardly ever a width. None of them is a call of the
source, as only reading calls it.

* `Decoder.Tells`: events were added, and none of them is a call or a width.
* `Change.tells`: so it is with a change, unless it is the one that gives the glyph its width.
* `Decode.execute_calls`: no instruction calls the source.
* `Run.invariant_events`, `Run.advance_grows`: what a run has told, it has told from then on.
-/

namespace Type1

/-- The call of the source that the event is. -/
def Event.call? : Event → Option Source.Call
  | called call => some call
  | _ => none

/-- The width that the element is. -/
def Element.width? : Element → Option Number
  | width advance => some advance
  | _ => none

/-- The width that the event gives the glyph. -/
def Event.width? : Event → Option Number
  | element e => e.width?
  | _ => none

variable {setup : Setup} {d e c : Decoder}

/-- Events were added that are neither calls of the source nor widths, and the width is the same. -/
structure Decoder.Tells (d e : Decoder) : Prop where
  events : ∃ added, e.events = d.events ++ added ∧
    ∀ event ∈ added, event.call? = none ∧ event.width? = none
  width : e.width = d.width

namespace Decoder.Tells

theorem refl (d : Decoder) : d.Tells d := ⟨⟨[], by simp⟩, rfl⟩

theorem of_eq (h : d.Tells e) (hevents : c.events = e.events) (hwidth : c.width = e.width) :
    d.Tells c := by
  obtain ⟨added, hadded, hplain⟩ := h.events
  exact ⟨⟨added, hevents.trans hadded, hplain⟩, hwidth.trans h.width⟩

theorem record (h : d.Tells e) {event : Event} (hcall : event.call? = none)
    (hwidth : event.width? = none) : d.Tells (e.record event) := by
  obtain ⟨added, hadded, hplain⟩ := h.events
  refine ⟨⟨added ++ [event], ?_, fun x hx => ?_⟩, h.width⟩
  · rw [e.events_record, hadded, List.append_assoc]
  · rcases List.mem_append.1 hx with hx | hx
    · exact hplain x hx
    · obtain rfl := List.mem_singleton.1 hx
      exact ⟨hcall, hwidth⟩

theorem report (h : d.Tells e) {x : Element} (hx : (Event.element x).width? = none) :
    d.Tells (e.report x) :=
  h.record rfl hx

theorem openContour (h : d.Tells e) : d.Tells e.openContour :=
  (h.of_eq (c := { e with moveDue := false, moved := true }) rfl rfl).report
    (x := .moveTo e.point) rfl

theorem addStem (h : d.Tells e) (kind : StemKind) (near far : Number) :
    d.Tells (e.addStem setup kind near far) :=
  (h.of_eq (c := { e with hintsDue := false, groupDue := false }) rfl rfl).report rfl

variable (d)

theorem placeAccent : d.Tells d.placeAccent := by
  obtain ⟨_, _, h⟩ := d.placeAccent_eq
  rw [h]
  exact (refl d).of_eq rfl rfl

theorem startContour : d.Tells d.startContour := by
  unfold Decoder.startContour
  dsimp only
  split
  · exact (placeAccent d).openContour
  · exact placeAccent d

/-- A segment begins where the contour stands. -/
theorem draw {x : Element} (hx : (Event.element x).width? = none) (p : Point) :
    d.Tells (Decoder.report x { d.startContour with point := p }) :=
  ((startContour d).of_eq (c := { d.startContour with point := p }) rfl rfl).report hx

theorem hintStem (kind : StemKind) (position extent : Number) :
    d.Tells (d.hintStem setup kind position extent) := by
  unfold Decoder.hintStem
  dsimp only
  split
  · exact ((refl d).of_eq (c := d.renewHints) rfl rfl).addStem _ _ _
  · exact (refl d).addStem _ _ _

/-- An operator enters the history. -/
theorem begin (i : Instruction) : d.Tells (i.begin d) := by
  cases i with
  | operator op => exact (refl d).record rfl rfl
  | _ => exact refl d

variable {d}

/-- What comes of the events is the same, if nothing comes of the others. -/
theorem filterMap_eq {β : Type} (h : d.Tells e) {f : Event → Option β}
    (hf : ∀ event, event.call? = none → event.width? = none → f event = none) :
    e.events.filterMap f = d.events.filterMap f := by
  obtain ⟨added, hadded, hplain⟩ := h.events
  have hnone : added.filterMap f = [] := List.filterMap_eq_nil_iff.2 fun event hmem =>
    hf event (hplain event hmem).1 (hplain event hmem).2
  rw [hadded, List.filterMap_append, hnone, List.append_nil]

end Decoder.Tells

/-- The glyph itself gets its width, which it did not have. -/
def Decoder.Widens (d e : Decoder) : Prop :=
  ∃ width, d.width = none ∧ e.width = some width ∧ e.events = d.events ++ [.element (.width width)]

/-- A change tells neither a call nor a width, unless the glyph gets its width. -/
theorem Change.tells {a : Activity} (h : Change setup a d e) : d.Tells e ∨ d.Widens e := by
  cases h with
  | width bearing width hpart hwidth =>
    exact .inr ⟨width, hwidth, rfl, Decoder.events_record (.element (.width width)) _⟩
  | note n => exact .inl ((Decoder.Tells.refl d).record rfl rfl)
  | lookedUp code offset => exact .inl ((Decoder.Tells.refl d).record rfl rfl)
  | operator code operands => exact .inl ((Decoder.Tells.refl d).report rfl)
  | accented shift parts => exact .inl ((Decoder.Tells.refl d).report rfl)
  | stem kind position extent hkind => exact .inl (.hintStem d _ _ _)
  | counterStem vertical near far => exact .inl ((Decoder.Tells.refl d).addStem _ _ _)
  | move delta =>
    have hplaced : d.Tells { d.placeAccent with point := (d.placeAccent.point + delta).round } :=
      (Decoder.Tells.placeAccent d).of_eq rfl rfl
    exact .inl hplaced.openContour
  | set p => exact .inl ((Decoder.Tells.placeAccent d).of_eq rfl rfl)
  | startFlex => exact .inl ((Decoder.Tells.placeAccent d).of_eq rfl rfl)
  | line delta => exact .inl (.draw d rfl _)
  | curve p q r => exact .inl (.draw d rfl _)
  | flexTo depth left right => exact .inl (.draw d rfl _)
  | _ => exact .inl ((Decoder.Tells.refl d).of_eq rfl rfl)

/-- The calls of the source so far. -/
def Decoder.calls (d : Decoder) : List Source.Call := d.events.filterMap Event.call?

/-- No instruction calls the source. -/
theorem Decode.execute_calls (setup : Setup) (i : Instruction) (d : Decoder) :
    (final (execute setup i d)).calls = d.calls := by
  refine (changes_execute setup i d).keeps (P := fun e => e.calls = d.calls)
    (fun c e hc hd => ?_) ((Decoder.Tells.begin d i).filterMap_eq fun _ h _ => h)
  rcases hc.tells with h | ⟨width, -, -, h⟩
  · exact (h.filterMap_eq fun _ h _ => h).trans hd
  · rw [← hd, Decoder.calls, h, List.filterMap_append]
    exact List.append_nil _

variable {s : Source}

/-- What a run has at a moment or leaves. -/
def Status.session : Status s → Session
  | .running m => ⟨m.cursor.state, m.decoder⟩
  | .ended (.ok _ session) => session
  | .ended (.error _ session) => session

namespace Run

theorem session_ended (o : Session.Outcome) :
    (Status.ended o : Status s).session.decoder = left o := by
  cases o <;> rfl

theorem meets_iff {P : Decoder → Prop} {x : Status s} : Meets P P x ↔ P x.session.decoder := by
  cases x with
  | running m => rfl
  | ended o => cases o <;> rfl

/-- What a run has told, it has told from then on. -/
theorem invariant_events (setup : Setup) (events : List Event) :
    Invariant setup (fun _ _ => True) (events <+: ·.events) (events <+: ·.events) :=
  .of_execute (fun i d h => h.trans ((Decode.blind_execute setup i).grows d))
    (fun d call h => h.trans (d.events_record (.called call) ▸ List.prefix_append ..))
    (fun _ h => h) (fun _ _ h => h) fun _ h => h

theorem advance_grows (x : Status s) (n : Nat) :
    x.session.decoder.events <+: (advance s setup n x).session.decoder.events :=
  meets_iff.1 <| (invariant_events setup _).advance (meets_iff.2 List.prefix_rfl)
    (fun _ _ _ _ _ _ => trivial) n

end Run

end Type1
