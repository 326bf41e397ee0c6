import Type1.Proofs.Congruence

/-!
# The history is write-only

An operator adds events to the history and never looks at it, so two decodings that differ in their
histories alone do the same.

`d.prepend h`: the state `d` with the events `h` before its own.

`Decode.Blind x`: with events `h` before the history, `x` does what it does without them, and the
events stay where they are. All computations of the operators are blind (`blind_execute`).

`d.Agree keep e`: `d` and `e` differ in their histories alone, and these have the same events among
those that `keep` picks. An instruction takes states that agree to states that agree, with the same
answer (`Agree.execute`).
-/

namespace Type1

/-! ## Changes of the state -/

/-- A change of what drawing leaves aside: the operands, the points of a flex, the counter hints,
and events before the history. -/
structure Aside where
  /-- What becomes of the operands. -/
  operands : Operands → Operands := id
  /-- What becomes of the points of the flex. -/
  points : List Point → List Point := id
  /-- What becomes of the counter hints. -/
  counters : List Number → List Number := id
  /-- The events before the history. -/
  events : Array Event := #[]

/-- The state with what drawing leaves aside changed. -/
def Decoder.adjust (a : Aside) (d : Decoder) : Decoder :=
  { d with
    operands := a.operands d.operands
    flex := { d.flex with points := a.points d.flex.points }
    counters := a.counters d.counters
    history := a.events ++ d.history }

/-- The state with events before its history. -/
def Decoder.prepend (h : Array Event) : Decoder → Decoder := .adjust { events := h }

namespace Decoder

variable (a : Aside) (d : Decoder)

theorem record_adjust (e : Event) : (d.adjust a).record e = (d.record e).adjust a := by
  simp [adjust, record]

theorem report_adjust (e : Element) : (d.adjust a).report e = (d.report e).adjust a :=
  d.record_adjust a _

theorem placeAccent_adjust : (d.adjust a).placeAccent = d.placeAccent.adjust a := by
  unfold placeAccent
  simp only [adjust]
  split <;> rfl

theorem openContour_adjust : (d.adjust a).openContour = d.openContour.adjust a :=
  report_adjust a { d with moveDue := false, moved := true } _

theorem startContour_adjust : (d.adjust a).startContour = d.startContour.adjust a := by
  simp only [startContour, placeAccent_adjust]
  rw [apply_ite (adjust a), ← openContour_adjust]
  rfl

theorem moveBy_adjust (delta : Point) :
    (d.adjust a).moveBy delta = (d.moveBy delta).adjust a := by
  unfold moveBy
  rw [placeAccent_adjust]
  exact openContour_adjust a
    { d.placeAccent with point := (d.placeAccent.point + delta).round }

theorem lineBy_adjust (delta : Point) :
    (d.adjust a).lineBy delta = (d.lineBy delta).adjust a := by
  unfold lineBy
  rw [startContour_adjust]
  exact report_adjust a { d.startContour with point := (d.startContour.point + delta).round } _

theorem curveBy_adjust (setup : Setup) (p q r : Point) :
    (d.adjust a).curveBy setup p q r = (d.curveBy setup p q r).adjust a := by
  unfold curveBy
  rw [startContour_adjust]
  generalize d.startContour = c
  exact report_adjust a { c with
    point := (c.controlPoint setup (c.controlPoint setup (c.point + p) + q) + r).round } _

theorem flexTo_adjust (setup : Setup) (depth : Number) (left right : Curve) :
    (d.adjust a).flexTo setup depth left right = (d.flexTo setup depth left right).adjust a := by
  unfold flexTo
  rw [startContour_adjust]
  generalize d.startContour = c
  exact report_adjust a { c with point := (c.controlPoint setup right.last).round } _

theorem setPoint_adjust (p : Point) : (d.adjust a).setPoint p = (d.setPoint p).adjust a := by
  unfold setPoint
  rw [placeAccent_adjust]
  rfl

theorem addStem_adjust (setup : Setup) (kind : StemKind) (near far : Number) :
    (d.adjust a).addStem setup kind near far = (d.addStem setup kind near far).adjust a :=
  report_adjust a { d with hintsDue := false, groupDue := false } _

theorem hintStem_adjust (setup : Setup) (kind : StemKind) (position extent : Number) :
    (d.adjust a).hintStem setup kind position extent =
      (d.hintStem setup kind position extent).adjust a := by
  simp only [hintStem]
  have hd : (if (d.adjust a).moved && !(d.adjust a).hintsRenewed then (d.adjust a).renewHints
      else d.adjust a) = (if d.moved && !d.hintsRenewed then d.renewHints else d).adjust a := by
    rw [apply_ite (adjust a)]
    rfl
  rw [hd]
  exact addStem_adjust a _ setup kind _ _

theorem hintStems_adjust (setup : Setup) (kind : StemKind) (v : Vector Number 6) :
    (d.adjust a).hintStems setup kind v = (d.hintStems setup kind v).adjust a := by
  simp only [hintStems, hintStem_adjust]

end Decoder

/-! ## Computations -/

namespace Decode

variable {α β : Type}

/-- The outcome with a change of the state that it leaves. -/
def onState (f : Decoder → Decoder) :
    EStateM.Result Error Decoder α → EStateM.Result Error Decoder α
  | .ok a d => .ok a (f d)
  | .error e d => .error e (f d)

/-- The computation does the same after a change of the state, and the change stays. -/
def Commutes (f : Decoder → Decoder) (x : Decode α) : Prop := ∀ d, x (f d) = onState f (x d)

/-- The computation adds to the history and does not look at it. -/
def Blind (x : Decode α) : Prop := ∀ h, Commutes (Decoder.prepend h) x

section Commutes

variable {f : Decoder → Decoder}

theorem commutes_pure (a : α) : Commutes f (pure a) := fun _ => rfl

theorem commutes_throw (e : Error) : Commutes f (throw e : Decode α) := fun _ => rfl

theorem Commutes.bind {x : Decode α} {k : α → Decode β} (hx : Commutes f x)
    (hk : ∀ a, Commutes f (k a)) : Commutes f (x >>= k) := by
  intro d
  show EStateM.bind x k (f d) = onState f (EStateM.bind x k d)
  unfold EStateM.bind
  rw [hx d]
  cases x d with
  | ok a d => exact hk a d
  | error e d => rfl

/-- A computation that goes on from the state, if what it takes from the state is not changed. -/
theorem commutes_get_bind {k : Decoder → Decode β} (hk : ∀ d, Commutes f (k d))
    (heq : ∀ d, k (f d) = k d) : Commutes f (get >>= k) := by
  intro d
  show k (f d) (f d) = onState f (k d d)
  rw [heq]
  exact hk d d

theorem commutes_modify {g : Decoder → Decoder} (hg : ∀ d, g (f d) = f (g d)) :
    Commutes f (modify g) := by
  intro d
  show EStateM.Result.ok () (g (f d)) = _
  rw [hg]
  rfl

theorem commutes_orFail (e : Error) (o : Option α) : Commutes f (orFail e o) := by
  cases o with
  | none => exact commutes_throw e
  | some a => exact commutes_pure a

end Commutes

section Adjust

variable (a : Aside)

theorem commutes_note (n : Note) : Commutes (.adjust a) (note n) :=
  commutes_modify fun d => d.record_adjust a _

theorem commutes_refuse (n : Note) (e : Error) : Commutes (.adjust a) (refuse n e : Decode α) :=
  (commutes_note a n).bind fun _ => commutes_throw e

/-- Side bearing and width leave aside what drawing does. -/
theorem commutes_metrics (setup : Setup) (bearing : Point) (advance : Number) :
    Commutes (.adjust a) (metrics setup bearing advance) := by
  have quiet {g : Decoder → Decoder} (hg : ∀ d, g (d.adjust a) = (g d).adjust a) :
      Commutes (.adjust a) (do modify g; return Control.next) :=
    (commutes_modify hg).bind fun _ => commutes_pure _
  refine .bind (commutes_modify (g := ({ · with point := bearing.round })) fun _ => rfl) fun _ =>
    commutes_get_bind (fun d => ?_) fun _ => rfl
  dsimp only
  split
  · exact quiet fun _ => rfl
  · exact quiet fun _ => rfl
  · refine commutes_get_bind (fun d => ?_) fun _ => rfl
    split
    · exact (commutes_note a _).bind fun _ => commutes_pure _
    · refine commutes_get_bind (fun d => ?_) fun _ => rfl
      refine .bind (commutes_modify fun d =>
        Decoder.report_adjust a { d with bearing, width := some _ } _) fun _ => ?_
      split
      · exact commutes_pure _
      · exact commutes_pure _

theorem commutes_lookUp (glyphs : UInt8 → Option Nat) (code : UInt8) :
    Commutes (.adjust a) (lookUp glyphs code) :=
  (commutes_modify fun d => d.record_adjust a _).bind fun _ => commutes_orFail _ _

/-- An accented character leaves aside what drawing does. -/
theorem commutes_accented (setup : Setup) (v : Vector Number 5) :
    Commutes (.adjust a) (accented setup v) := by
  refine (commutes_orFail _ _).bind fun base => (commutes_orFail _ _).bind fun accent =>
    commutes_get_bind (fun d => ?_) fun _ => rfl
  dsimp only
  split
  · refine .bind (commutes_modify (g := ({ · with components := some ⟨base, accent⟩ }))
      fun _ => rfl) fun _ => ?_
    split
    · exact (commutes_modify fun d => d.report_adjust a _).bind fun _ => commutes_pure _
    · exact (commutes_orFail _ _).bind fun glyphs => (commutes_lookUp a glyphs base).bind fun _ =>
        (commutes_lookUp a glyphs accent).bind fun _ => commutes_pure _
  · exact commutes_refuse a _ _

end Adjust

theorem Commutes.relates {f : Decoder → Decoder} {x : Decode α} (hx : Commutes f x) :
    Relates (fun d e => e = f d) (fun d e => e = f d) x x := by
  rintro d _ rfl
  rw [hx d]
  cases x d with
  | ok a d => exact .ok rfl
  | error e d => exact .error rfl

/-- Two computations of which the second does, after a change of the state, what the first does. -/
theorem Relates.eq_onState {f : Decoder → Decoder} {x y : Decode α}
    (h : Relates (fun d e => e = f d) (fun d e => e = f d) x y) (d : Decoder) :
    y (f d) = onState f (x d) := by
  have hd := h d (f d) rfl
  revert hd
  cases x d with
  | ok a d =>
    generalize y _ = r
    rintro (rfl | _)
    rfl
  | error e d =>
    generalize y _ = r
    rintro (_ | rfl)
    rfl

theorem Relates.commutes {f : Decoder → Decoder} {x : Decode α}
    (h : Relates (fun d e => e = f d) (fun d e => e = f d) x x) : Commutes f x := h.eq_onState

/-! ## Operators and instructions -/

section Drawing

variable (a : Aside)

/-- Nothing that draws or hints depends on what is left aside, apart from the operands and the
points of a flex. -/
theorem drawing_adjust (hoperands : a.operands = id) (hpoints : a.points = id) (setup : Setup) :
    Drawing setup fun d e => e = d.adjust a where
  workspace := by rintro d _ rfl; simp only [Decoder.workspace, Decoder.adjust, hoperands, id]
  setOperands := by rintro d _ rfl _; simp only [Decoder.adjust, hoperands, id]
  closed := by rintro d _ rfl; rfl
  note := by rintro d _ rfl _; exact d.record_adjust _ _
  report := by rintro d _ rfl _ _; exact d.report_adjust _ _
  point := by rintro d _ rfl; rfl
  setPoint := by rintro d _ rfl _; rfl
  moveDue := by rintro d _ rfl; rfl
  opened := by rintro d _ rfl; rfl
  placeAccent := by rintro d _ rfl; exact d.placeAccent_adjust _
  absolute := by rintro d _ rfl _; rfl
  renewHints := by rintro d _ rfl; rfl
  hintStem := by rintro d _ rfl _ _ _; exact d.hintStem_adjust _ setup _ _ _
  active := by rintro d _ rfl; rfl
  flex := by rintro d _ rfl _; simp only [Decoder.adjust, hpoints, id]
  setFlex := by rintro d _ rfl _; simp only [Decoder.adjust, hpoints, id]
  malformed := by
    rintro d _ rfl _
    have hflex : (d.adjust a).flex = d.flex := by simp only [Decoder.adjust, hpoints, id]
    rw [hflex]
    exact d.record_adjust _ _

theorem storing_adjust : Storing fun d e => e = d.adjust a where
  setStorage := by rintro d _ rfl _; rfl
  setSeed := by rintro d _ rfl _; rfl
  blended := by rintro d _ rfl; rfl

end Drawing

section Prepend

variable (h : Array Event)

/-- Nothing that draws or hints depends on the events before. -/
theorem drawing_prepend (setup : Setup) : Drawing setup fun d e => e = d.prepend h :=
  drawing_adjust { events := h } rfl rfl setup

theorem storing_prepend : Storing fun d e => e = d.prepend h := storing_adjust { events := h }

theorem counting_prepend (setup : Setup) : Counting setup fun d e => e = d.prepend h where
  counters := by rintro d _ rfl; rfl
  setCounters := by rintro d _ rfl _; rfl
  openGroup := by rintro d _ rfl; rfl
  stemOrigin := by rintro d _ rfl; rfl
  counterStem := by rintro d _ rfl _ _ _; exact d.addStem_adjust _ setup _ _ _

end Prepend

/-- No operator looks at the history. -/
theorem blind_perform (setup : Setup) (op : Operator) : Blind (perform setup op) := by
  intro h
  have hd := drawing_prepend h setup
  refine Relates.commutes fun d e hde => related_perform hd (fun _ _ he => he)
    (fun _ => storing_prepend h) (fun _ _ _ => (commutes_metrics _ setup _ _).relates)
    (fun _ v => (commutes_accented _ setup v).relates) (fun _ => ?_) hde
  exact related_callOtherSubr hd.toCongruence (fun _ _ he => he) hde fun n _ _ =>
    relates_performOtherSubr hd n (fun _ _ => counting_prepend h setup) fun _ => storing_prepend h

/-- No instruction looks at the history. -/
theorem blind_execute (setup : Setup) (i : Instruction) : Blind (execute setup i) := by
  intro h
  have hc := (drawing_prepend h setup).toCongruence
  cases i with
  | number value =>
    exact ((relates_push hc value).bind fun _ => relates_pure _).commutes
  | operator op =>
    exact (commutes_modify fun d => d.record_adjust { events := h }
      (.began op d.operands.toList)).bind fun _ => blind_perform setup op h
  | reserved byte => exact commutes_refuse { events := h } _ _

end Decode

/-! ## States that differ in their histories -/

theorem Decoder.eq_prepend (d : Decoder) :
    d = Decoder.prepend d.history { d with history := #[] } := by
  simp [Decoder.prepend, Decoder.adjust]

/-- The states differ in their histories alone, of which the kept events are the same. -/
def Decoder.Agree (keep : Event → Bool) (d e : Decoder) : Prop :=
  { d with history := #[] } = { e with history := #[] } ∧
    d.history.toList.filter keep = e.history.toList.filter keep

/-- The outcomes are of the same kind, with the same answer, and leave states that agree. -/
abbrev Decode.AgreeTo {α : Type} (keep : Event → Bool) :
    EStateM.Result Error Decoder α → EStateM.Result Error Decoder α → Prop :=
  Related (Decoder.Agree keep) (Decoder.Agree keep)

namespace Decoder.Agree

variable {keep : Event → Bool} {d e c : Decoder}

theorem refl (d : Decoder) : d.Agree keep d := ⟨rfl, rfl⟩

theorem symm (h : d.Agree keep e) : e.Agree keep d := ⟨h.1.symm, h.2.symm⟩

theorem trans (h : d.Agree keep e) (h' : e.Agree keep c) : d.Agree keep c :=
  ⟨h.1.trans h'.1, h.2.trans h'.2⟩

/-- Histories before states that are equal otherwise. -/
theorem prepend {h h' : Array Event} (hh : h.toList.filter keep = h'.toList.filter keep)
    (d : Decoder) : (d.prepend h).Agree keep (d.prepend h') := by
  refine ⟨rfl, ?_⟩
  simp only [Decoder.prepend, Decoder.adjust, Array.toList_append, List.filter_append, hh]

/-- A change that leaves the history alone and does not look at it keeps the agreement. -/
theorem map (h : d.Agree keep e) {f : Decoder → Decoder}
    (hf : ∀ h d, f (d.prepend h) = (f d).prepend h) : (f d).Agree keep (f e) := by
  rw [d.eq_prepend, e.eq_prepend, hf, hf, h.1]
  exact prepend h.2 _

/-- What no one keeps can be recorded. -/
theorem record (h : d.Agree keep e) {x : Event} (hx : keep x = false) :
    (d.record x).Agree keep e := by
  refine ⟨h.1, ?_⟩
  simp [Decoder.record, List.filter_append, hx, h.2]

theorem recordCalls (h : d.Agree keep e) (hc : ∀ call, keep (.called call) = false)
    (calls : List Source.Call) : (d.recordCalls calls).Agree keep e := by
  unfold Decoder.recordCalls
  induction calls generalizing d with
  | nil => exact h
  | cons call calls ih => exact ih (h.record (hc call))

/-- A blind computation takes states that agree to states that agree. -/
theorem run (h : d.Agree keep e) {α : Type} {x : Decode α} (hx : x.Blind) :
    Decode.AgreeTo keep (x d) (x e) := by
  rw [d.eq_prepend, e.eq_prepend, hx, hx, h.1]
  cases x { e with history := #[] } with
  | ok a c => exact .ok (prepend h.2 c)
  | error x c => exact .error (prepend h.2 c)

end Decoder.Agree

/-! ## What a receiver is given -/

/-- Whether the event is an element of the glyph. -/
def Event.isElement (e : Event) : Bool := e.element?.isSome

/-- The elements in the history, before a receiver takes its share of them. -/
def Decoder.elements (d : Decoder) : List Element := d.history.toList.filterMap Event.element?

/-- An element comes after those before. -/
theorem Decoder.elements_record (event : Event) (d : Decoder) :
    (d.record event).elements = d.elements ++ event.element?.toList := by
  unfold elements record
  rw [Array.toList_push, List.filterMap_append]
  cases h : event.element? <;> simp [h]

/-- What is made of the kept events alone is the same. -/
theorem Decoder.Agree.filterMap {α : Type} {keep : Event → Bool} {d e : Decoder}
    (h : d.Agree keep e) {f : Event → Option α} (hf : ∀ x, keep x = false → f x = none) :
    d.history.toList.filterMap f = e.history.toList.filterMap f := by
  have kept (l : List Event) : l.filterMap f = (l.filter keep).filterMap f := by
    rw [List.filterMap_filter]
    congr 1
    funext x
    split
    · rfl
    · next hx => exact hf x (Bool.eq_false_iff.2 hx)
  rw [kept, h.2, ← kept]

theorem Decoder.Agree.elements {d e : Decoder} (h : d.Agree Event.isElement e) :
    d.elements = e.elements :=
  h.filterMap fun _ hx => Option.isNone_iff_eq_none.1 (Option.isSome_eq_false_iff.1 hx)

theorem Decoder.Agree.glyph {keep : Event → Bool} {d e : Decoder} (h : d.Agree keep e)
    (settings : Settings) : d.glyph settings = e.glyph settings := by
  have hg := congrArg (Decoder.glyph settings) h.1
  exact hg

/-- What a receiver is given, and the result. -/
def Report.answer (r : Report) : List Element × Except Error Glyph := (r.elements, r.result)

/-- What a receiver is given depends on the elements in the history alone. -/
theorem filterMap_element?_deliver (settings : Settings) (takes : Capabilities)
    (history : List Event) :
    (history.flatMap (Event.deliver settings takes)).filterMap Event.element? =
      (history.filterMap Event.element?).flatMap (Element.deliver settings takes) := by
  induction history with
  | nil => rfl
  | cons event history ih =>
    rw [List.flatMap_cons, List.filterMap_append, ih]
    cases event with
    | element e =>
      have : (List.map Event.element (e.deliver settings takes)).filterMap Event.element? =
          e.deliver settings takes := by
        rw [List.filterMap_map]
        exact List.filterMap_some
      simp only [Event.deliver, this, List.filterMap_cons, Event.element?, List.flatMap_cons]
    | _ => rfl

end Type1
