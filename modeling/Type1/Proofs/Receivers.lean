import Type1.Proofs.Run

/-!
# What a receiver takes only filters what it is given

A receiver that takes everything is given all elements, mapped by the matrix. What another receiver
is given can be told from these alone (`Element.deliver_all`). No state of a decoding depends on
what was taken on the way to it, its history apart, except that accented characters are left to the
receiver or not: the decodings for two receivers to which these are left, or for two to which they
are not, go through the same states, step by step (`parse_filtered`).

* `Receiver.after`: the run of a charstring for a receiver, which is the plain run, delivered
  (`Receiver.after_eq`), and leaves what `parse` reports (`Receiver.parse_of_ended`).
* `Decoder.accept`: a state as it is for a receiver that takes less.
-/

namespace Type1

variable {s : Source}

/-! ## Runs for a receiver -/

theorem Status.map_map (f g : Decoder → Decoder) (x : Status s) :
    (x.map f).map g = x.map fun d => g (f d) := by
  cases x with
  | running m => rfl
  | ended o => cases o <;> rfl

namespace Receiver

variable (s) in
/-- An instruction is read, and executed for the receiver. -/
def step (r : Receiver) (m : Moment s) : Status s := Run.stepWith s r.execute m

variable (s) in
/-- The run of the charstring at an offset for a receiver, after a number of steps. -/
def after (r : Receiver) (offset : Nat) (st : Source.State) (n : Nat) : Status s :=
  Run.advanceWith s (r.step s) n (Run.resume s [] offset ⟨st, .start r.font⟩)

variable {r : Receiver} {offset : Nat} {st : Source.State}

/-- A step for a receiver is a plain step, delivered. -/
theorem step_deliver (m : Moment s) :
    r.step s { m with decoder := r.deliver m.decoder } = (Run.step s r.setup m).map r.deliver :=
  r.between_deliver.stepWith fun i _ _ _ => r.execute_deliver i _

/-- A run for a receiver is the plain run, delivered. -/
theorem after_eq (n : Nat) :
    r.after s offset st n = (Run.after s r.setup offset st n).map r.deliver := by
  have hstart : Run.resume s [] offset ⟨st, .start r.font⟩ =
      (Run.resume s [] offset ⟨st, .start r.font⟩).map r.deliver :=
    r.between_deliver.resume [] offset ⟨st, .start r.font⟩
  rw [after, hstart]
  exact Between.advanceWith step_deliver n _

/-- A run for a receiver that is over leaves what is reported. -/
theorem parse_of_ended {n : Nat} {o : Session.Outcome} (h : r.after s offset st n = .ended o) :
    parse s r.font r.settings r.takes offset st = Session.report offset o := by
  rw [after_eq] at h
  cases hx : Run.after s r.setup offset st n with
  | running m =>
    rw [hx] at h
    cases h
  | ended o' =>
    rw [hx] at h
    obtain rfl := Status.ended.inj h
    exact (Run.parse_eq_conclude hx).trans (r.report_deliver offset o').symm

end Receiver

/-! ## What is accepted -/

/-- A receiver that takes everything, accented characters only if they are left to it. -/
def Capabilities.all (accented : Bool) : Capabilities := { accented }

/-- The settings with deprecated operators kept. -/
def Settings.plain (settings : Settings) : Settings := { settings with updateOperators := false }

/-- An element as the matrix maps it, if there is one. -/
def Settings.place (settings : Settings) (e : Element) : Element :=
  match settings.activeMatrix? with
  | some m => e.transform m
  | none => e

namespace Element

variable (takes : Capabilities) (updateOperators : Bool)

theorem deliver_eq (settings : Settings) (takes : Capabilities) (e : Element) :
    e.deliver settings takes = (e.accept takes settings.updateOperators).map settings.place := by
  have hplace : settings.place = match settings.activeMatrix? with
      | some m => transform m
      | none => id := by
    unfold Settings.place
    cases settings.activeMatrix? <;> rfl
  rw [hplace, deliver]
  cases settings.activeMatrix? with
  | none => exact (List.map_id _).symm
  | some m => rfl

theorem accept_all (accented : Bool) (e : Element) : e.accept (.all accented) false = [e] := by
  cases e <;> rfl

/-- It makes no difference whether an element is mapped before or after it is accepted. -/
theorem accept_place (settings : Settings) (e : Element) :
    (settings.place e).accept takes updateOperators =
      (e.accept takes updateOperators).map settings.place := by
  unfold Settings.place
  cases settings.activeMatrix? with
  | none => exact (List.map_id _).symm
  | some m =>
    cases e with
    | accented shift parts => rfl
    | _ => simp only [transform, accept, apply_ite (List.map _), List.map_cons, List.map_nil]

/-- What a receiver is given is what it accepts of what one is given that takes everything. -/
theorem deliver_all (settings : Settings) (accented : Bool) (e : Element) :
    e.deliver settings takes =
      (e.deliver settings.plain (.all accented)).flatMap
        (accept takes settings.updateOperators) := by
  have hplace : settings.plain.place = settings.place := rfl
  have hall : e.accept (.all accented) settings.plain.updateOperators = [e] := accept_all accented e
  rw [deliver_eq, deliver_eq, hplace, hall, List.map_singleton, List.flatMap_singleton,
    accept_place]

end Element

/-- What a receiver accepts of the history of one that takes everything. -/
def Event.accept (takes : Capabilities) (updateOperators : Bool) : Event → List Event
  | element e => (e.accept takes updateOperators).map element
  | event => [event]

theorem Event.deliver_all (settings : Settings) (takes : Capabilities) (accented : Bool)
    (event : Event) :
    event.deliver settings takes =
      (event.deliver settings.plain (.all accented)).flatMap
        (accept takes settings.updateOperators) := by
  cases event with
  | element e =>
    simp only [deliver, e.deliver_all takes settings accented, List.map_flatMap, List.flatMap_map,
      accept]
  | _ => rfl

/-- The elements of an accepted history are the accepted elements. -/
theorem filterMap_element?_accept (takes : Capabilities) (updateOperators : Bool)
    (history : List Event) :
    (history.flatMap (Event.accept takes updateOperators)).filterMap Event.element? =
      (history.filterMap Event.element?).flatMap (Element.accept takes updateOperators) := by
  induction history with
  | nil => rfl
  | cons event history ih =>
    rw [List.flatMap_cons, List.filterMap_append, ih]
    cases event with
    | element e =>
      simp only [Event.accept, List.filterMap_map, List.filterMap_cons, Event.element?,
        List.flatMap_cons]
      congr 1
      exact List.filterMap_some
    | _ => rfl

/-- The decoding depends on what a receiver takes only in that accented characters are left to it
or not. -/
theorem Setup.of_eq_of_all (font : Font) (settings : Settings) (takes : Capabilities) :
    Setup.of font settings takes =
      .of font settings.plain (.all (takes.accented && !settings.updateOperators)) := by
  unfold Setup.of Capabilities.all
  rw [show settings.plain.updateOperators = false from rfl, Bool.not_false, Bool.and_true]
  rfl

/-- A state as it is for a receiver that takes less: with what that accepts in the history. -/
def Decoder.accept (takes : Capabilities) (updateOperators : Bool) (d : Decoder) : Decoder :=
  { d with
    history := (d.history.toList.flatMap (Event.accept takes updateOperators)).toArray }

/-- The receiver that takes everything, where deprecated operators are kept. -/
def Receiver.reference (r : Receiver) (accented : Bool) : Receiver where
  font := r.font
  settings := r.settings.plain
  takes := .all accented

theorem Receiver.deliver_reference (r : Receiver) (accented : Bool) (d : Decoder) :
    r.deliver d =
      ((r.reference accented).deliver d).accept r.takes r.settings.updateOperators := by
  have hhistory : d.history.toList.flatMap (Event.deliver r.settings r.takes) =
      (d.history.toList.flatMap (Event.deliver r.settings.plain (.all accented))).flatMap
        (Event.accept r.takes r.settings.updateOperators) := by
    rw [List.flatMap_assoc]
    congr 1
    funext event
    exact event.deliver_all r.settings r.takes accented
  unfold deliver
  rw [hhistory]
  rfl

/-- What is told of a decoding for a receiver that takes less. -/
theorem Run.report_accept (takes : Capabilities) (updateOperators : Bool) (offset : Nat)
    (o : Session.Outcome) :
    Session.report offset (mapOutcome (Decoder.accept takes updateOperators) o) =
      let told := Session.report offset o
      (⟨told.1.events.flatMap (Event.accept takes updateOperators), told.1.result⟩, told.2) := by
  cases o with
  | ok flow session => rfl
  | error x session =>
    dsimp only [Session.report]
    rw [List.flatMap_append]
    rfl

/-- A receiver is given what it accepts of the elements that one is given that takes everything,
accented characters only if they are left to the receiver, where deprecated operators are kept. The
result is the same, and so is the source afterwards. After each number of steps the state is the
same as well, but for the history, which has what is accepted of the other one. -/
theorem parse_filtered (s : Source) (font : Font) (settings : Settings) (takes : Capabilities)
    (offset : Nat) (st : Source.State) :
    let all := Capabilities.all (takes.accented && !settings.updateOperators)
    let run := parse s font settings takes offset st
    let reference := parse s font settings.plain all offset st
    run.1.elements =
      reference.1.elements.flatMap (Element.accept takes settings.updateOperators) ∧
    run.1.events = reference.1.events.flatMap (Event.accept takes settings.updateOperators) ∧
    run.1.result = reference.1.result ∧ run.2 = reference.2 ∧
    ∀ n, Receiver.after s ⟨font, settings, takes⟩ offset st n =
      (Receiver.after s ⟨font, settings.plain, all⟩ offset st n).map
        (Decoder.accept takes settings.updateOperators) := by
  intro all run reference
  let r : Receiver := ⟨font, settings, takes⟩
  let full := r.reference (takes.accented && !settings.updateOperators)
  -- Both receivers have the same plain decoding, of which one accepts less than the other: what it
  -- accepts can be taken from what the other one is given.
  have hafter (n : Nat) : r.after s offset st n =
      (full.after s offset st n).map (.accept takes settings.updateOperators) := by
    have hsetup : r.setup = full.setup := Setup.of_eq_of_all font settings takes
    rw [Receiver.after_eq, Receiver.after_eq, Status.map_map, hsetup]
    congr 1
    funext d
    exact r.deliver_reference _ d
  -- The decoding ends, so that the reports are those of the two runs at a common moment.
  obtain ⟨n, o, hn⟩ : ∃ n o, full.after s offset st n = .ended o := by
    obtain ⟨n, -, hn⟩ := Run.after_eq_ended (s := s) full.setup offset st
    exact ⟨n, _, by rw [Receiver.after_eq, hn]; rfl⟩
  have hrun : run = (⟨reference.1.events.flatMap (Event.accept takes settings.updateOperators),
      reference.1.result⟩, reference.2) := by
    have hr : r.after s offset st n =
        .ended (Run.mapOutcome (.accept takes settings.updateOperators) o) := by
      rw [hafter, hn]
      rfl
    have hreference : reference = Session.report offset o := Receiver.parse_of_ended (r := full) hn
    rw [hreference, ← Run.report_accept]
    exact Receiver.parse_of_ended (r := r) hr
  rw [hrun]
  exact ⟨filterMap_element?_accept takes _ _, rfl, rfl, rfl, hafter⟩

end Type1
