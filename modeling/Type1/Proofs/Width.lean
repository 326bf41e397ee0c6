import Type1.Proofs.Retention
import Type1.Proofs.Standalone

/-!
# One width per glyph

A glyph gets its width once, from the first operator that gives side bearing and width outside of
the parts of an accented character. Later ones change neither the width nor the side bearing.

* `Report.widths`: the widths that a receiver is given. They are those of the state that a run
  leaves (`Run.widths_parse`), which has as many as it knows (`Run.invariant_widths`).
* `Run.metrics?`: the side bearing and the width that a step of a run gives the glyph itself.
  Without one, a run has no width (`Run.width_unmeasured`); once there was one, the run keeps what
  it gave (`Run.width_measured`).
* `one_width`: the width of a glyph, as it is reported and as it is found out.
-/

namespace Type1

/-- The widths that a receiver was given, in order. -/
def Report.widths (r : Report) : List Number := r.events.filterMap Event.width?

/-- A width as the matrix scales it, if there is one. -/
def Settings.scale (settings : Settings) (width : Number) : Number :=
  match settings.activeMatrix? with
  | some m => width * m.sx
  | none => width

/-- The widths that the state has told. -/
def Decoder.widths (d : Decoder) : List Number := d.events.filterMap Event.width?

variable {s : Source} {setup : Setup} {d e : Decoder}

/-! ## What is told -/

theorem Decoder.Tells.widths (h : d.Tells e) (hd : d.widths = d.width.toList) :
    e.widths = e.width.toList := by
  rw [h.width, ← hd]
  exact h.filterMap_eq fun _ _ h => h

/-- A change tells the width that it gives. -/
theorem Change.widths {a : Activity} (h : Change setup a d e) (hd : d.widths = d.width.toList) :
    e.widths = e.width.toList := by
  rcases h.tells with h | ⟨width, hnone, hsome, hevents⟩
  · exact h.widths hd
  · rw [hnone] at hd
    rw [Decoder.widths, hevents, List.filterMap_append, ← Decoder.widths, hd, hsome]
    rfl

theorem Decode.execute_widths (setup : Setup) (i : Instruction) (hd : d.widths = d.width.toList) :
    (final (execute setup i d)).widths = (final (execute setup i d)).width.toList :=
  (changes_execute setup i d).keeps (P := fun e => e.widths = e.width.toList)
    (fun _ _ hc he => hc.widths he) ((Decoder.Tells.begin d i).widths hd)

namespace Run

/-- A run has told the width that it knows, and no other. -/
theorem invariant_widths (setup : Setup) :
    Invariant setup (fun _ _ => True) (fun d => d.widths = d.width.toList)
      (fun d => d.widths = d.width.toList) :=
  .of_execute (fun i _ h => Decode.execute_widths setup i h)
    (fun d call h => by
      rw [Decoder.widths, d.events_record, List.filterMap_append, ← Decoder.widths, h]
      exact List.append_nil _)
    (fun _ h => h) (fun _ _ h => h) fun _ h => h

theorem widths_last (s : Source) (setup : Setup) (offset : Nat) (st : Source.State) :
    (last s setup offset st).widths = (last s setup offset st).width.toList :=
  (invariant_widths setup).last rfl fun _ _ _ _ _ _ => trivial

end Run

/-! ## What is reported -/

section Reported

variable (settings : Settings) (takes : Capabilities)

theorem Settings.width?_place (x : Element) :
    (settings.place x).width? = x.width?.map settings.scale := by
  unfold place scale
  cases settings.activeMatrix? <;> cases x <;> rfl

theorem Element.width?_accept (updateOperators : Bool) (x : Element) :
    (x.accept takes updateOperators).filterMap width? =
      if takes.width then x.width?.toList else [] := by
  have hnone (b : Bool) (h : x.width? = none) :
      (if b then [x] else []).filterMap width? = if takes.width then x.width?.toList else [] := by
    cases b <;> cases takes.width <;> simp [h]
  cases x with
  | width advance => cases h : takes.width <;> simp [accept, width?, h]
  | flex depth left right =>
    rw [accept]
    cases takes.flex <;> cases takes.curve <;> cases takes.width <;> rfl
  | accented shift parts => exact hnone true rfl
  | _ => exact hnone _ rfl

theorem Event.width?_deliver (event : Event) :
    (event.deliver settings takes).filterMap width? =
      if takes.width then (event.width?.map settings.scale).toList else [] := by
  cases event with
  | element x =>
    have hplace : (width? ∘ element) ∘ settings.place =
        fun x => (Element.width? x).map settings.scale :=
      funext settings.width?_place
    have h := congrArg (List.map settings.scale)
      (x.width?_accept takes settings.updateOperators)
    rw [List.map_filterMap] at h
    rw [deliver, x.deliver_eq, List.filterMap_map, List.filterMap_map, hplace, h]
    cases takes.width <;> cases hx : x.width? <;> simp [width?, hx]
  | _ => cases takes.width <;> rfl

theorem widths_deliver (events : List Event) :
    (events.flatMap (Event.deliver settings takes)).filterMap Event.width? =
      if takes.width then (events.filterMap Event.width?).map settings.scale else [] := by
  induction events with
  | nil => cases takes.width <;> rfl
  | cons event events ih =>
    rw [List.flatMap_cons, List.filterMap_append, ih, event.width?_deliver]
    cases takes.width <;> cases h : event.width? <;> simp [h]

theorem Decoder.glyph_width (d : Decoder) :
    (d.glyph settings).width = d.width.map settings.scale := by
  unfold glyph Settings.scale
  cases settings.activeMatrix? with
  | none => exact Option.map_id'.symm
  | some m => rfl

namespace Run

theorem widths_conclude (offset : Nat) (o : Session.Outcome) :
    (conclude settings takes offset o).1.widths =
      if takes.width then (left o).widths.map settings.scale else [] := by
  cases o with
  | ok flow session => exact widths_deliver settings takes _
  | error x session =>
    refine (List.filterMap_append ..).trans ?_
    rw [widths_deliver]
    exact List.append_nil _

end Run

end Reported

/-! ## The first side bearing and width -/

/-- Apart from callers, no level waits. -/
theorem Part.fits_glyph_iff {part : Part} {frames : List Frame} (h : part.Fits frames) :
    frames.all Frame.isCaller = true ↔ part = .glyph := by
  have hall : frames.all Frame.isCaller = true ↔ frames.filter (!·.isCaller) = [] := by
    simp [List.filter_eq_nil_iff]
  rw [hall]
  cases part with
  | glyph => exact ⟨fun _ => rfl, fun _ => h⟩
  | base bearing =>
    obtain ⟨accent, shift, h⟩ := h
    rw [h]
    exact ⟨nofun, nofun⟩
  | accent bearing shift placed =>
    rw [show frames.filter (!·.isCaller) = [.accent] from h]
    exact ⟨nofun, nofun⟩

namespace Run

/-- The side bearing and the width that a step gives the glyph itself, if it does: outside of the
parts of an accented character, it executes an operator for them that finds its operands. -/
def metrics? (setup : Setup) : Status s → Option (Point × Number)
  | .running m =>
    match m.cursor.readInstruction with
    | .done (.operator op) _ calls =>
      let d := m.decoder.recordCalls calls
      if m.frames.all Frame.isCaller then
        (op.metrics? d.operands).map fun given => (given.1, d.measure setup given.2)
      else none
    | _ => none
  | .ended _ => none

theorem metrics?_eq {m : Moment s} {op : Operator} (hi : m.Executes (.operator op) d) :
    metrics? setup (.running m) =
      if m.frames.all Frame.isCaller then
        (op.metrics? d.operands).map fun given => (given.1, d.measure setup given.2)
      else none := by
  obtain ⟨next, calls, hread, rfl⟩ := hi
  unfold metrics?
  simp only [hread]

variable {offset : Nat} {st : Source.State} {n : Nat}

/-- A step that gives no side bearing and width leaves the width as it is. -/
theorem execute_unmeasured {m : Moment s} {i : Instruction}
    (hm : after s setup offset st n = .running m) (h : metrics? setup (.running m) = none)
    (hi : m.Executes i d) : (Decode.final (Decode.execute setup i d)).width = d.width := by
  by_cases hmeasures : i.activity d = .measures ∧ d.part = .glyph ∧ d.width = none
  · obtain ⟨ha, hpart, hwidth⟩ := hmeasures
    have hop : ∃ op : Operator, op.isMetrics ∧ i = .operator op := by
      rcases Decode.eq_of_measures ha with rfl | rfl <;> exact ⟨_, rfl, rfl⟩
    obtain ⟨op, hop, rfl⟩ := hop
    have hcallers : m.frames.all Frame.isCaller = true := by
      obtain ⟨next, calls, -, rfl⟩ := hi
      rw [m.decoder.recordCalls_part] at hpart
      exact (Part.fits_glyph_iff (fits hm)).2 hpart
    rw [metrics?_eq hi, if_pos hcallers, Option.map_eq_none_iff] at h
    rw [Decode.execute_metrics_glyph hop hpart hwidth, h]
    rfl
  · refine Decode.execute_width setup fun ha => ?_
    by_contra hne
    rw [not_or, not_not, not_not] at hne
    exact hmeasures ⟨ha, hne⟩

/-- Without side bearing and width of the glyph itself, a run has no width. -/
theorem width_unmeasured
    (h : ∀ k < n, metrics? setup (after s setup offset st k) = none) :
    (after s setup offset st n).session.decoder.width = none := by
  -- The invariant is that there is no width. That a step keeps it is what is known of the steps
  -- before the last.
  have hinv : Invariant setup
      (fun i d => (Decode.final (Decode.execute setup i d)).width = d.width)
      (·.width = none) (·.width = none) :=
    { called := fun _ => id
      ok := fun hq hd hx => by
        rw [hx] at hq
        exact hq.trans hd
      error := fun hq hd hx => by
        rw [hx] at hq
        exact hq.trans hd
      fails := id
      base := id
      accent := fun _ => id
      done := id }
  induction n with
  | zero => exact meets_iff.1 (hinv.resume rfl)
  | succ n ih =>
    have hn := ih fun k hk => h k (Nat.lt_succ_of_lt hk)
    have hlast := h n (Nat.lt_succ_self n)
    cases hm : after s setup offset st n with
    | ended o =>
      rw [after_of_ended hm (Nat.le_succ n), ← hm]
      exact hn
    | running m =>
      rw [hm] at hn hlast
      rw [after_succ hm]
      exact meets_iff.1 (hinv.step (fun i d hi => execute_unmeasured hm hlast hi) hn)

/-- A step that gives side bearing and width of the glyph itself executes an operator for them. -/
theorem executes_of_metrics? {x : Status s} {bearing : Point} {width : Number}
    (h : metrics? setup x = some (bearing, width)) :
    ∃ m op d advance, x = .running m ∧ m.Executes (.operator op) d ∧
      m.frames.all Frame.isCaller = true ∧ op.metrics? d.operands = some (bearing, advance) ∧
      width = d.measure setup advance := by
  unfold metrics? at h
  split at h
  · next m =>
    split at h
    · next op next calls hread =>
      dsimp only at h
      split at h
      · next hcallers =>
        obtain ⟨⟨b, advance⟩, hgiven, heq⟩ := Option.map_eq_some_iff.1 h
        cases heq
        exact ⟨m, op, _, advance, rfl, ⟨next, calls, hread, rfl⟩, hcallers, hgiven, rfl⟩
      · cases h
    · cases h
  · cases h

/-- A run keeps the first side bearing and width of the glyph itself. -/
theorem width_measured {j : Nat} {bearing : Point} {width : Number}
    (hfirst : ∀ k < n, metrics? setup (after s setup offset st k) = none)
    (h : metrics? setup (after s setup offset st n) = some (bearing, width)) (hj : n < j) :
    (after s setup offset st j).session.decoder.width = some width ∧
      (after s setup offset st j).session.decoder.bearing = bearing := by
  obtain ⟨m, op, d, advance, hm, hi, hcallers, hgiven, rfl⟩ := executes_of_metrics? h
  have hunmeasured := width_unmeasured hfirst
  have hpart := (Part.fits_glyph_iff (fits hm)).1 hcallers
  rw [hm] at hunmeasured
  have hd : d.part = .glyph ∧ d.width = none := by
    obtain ⟨next, calls, -, rfl⟩ := id hi
    rw [m.decoder.recordCalls_part, m.decoder.recordCalls_width]
    exact ⟨hpart, hunmeasured⟩
  have hop : op.isMetrics := by
    cases op <;> first | rfl | cases hgiven
  -- The step gives side bearing and width, and whatever comes after it keeps them.
  have hx : Decode.execute setup (.operator op) d = _ :=
    Decode.execute_metrics_glyph hop hd.1 hd.2
  rw [hgiven] at hx
  have hstep : (d.measured setup op bearing advance).Retains
      (after s setup offset st (n + 1)).session.decoder := by
    rw [after_succ hm]
    refine meets_iff.1 ((invariant_retains setup _).of_final hi ?_)
    rw [hx]
    exact .refl _
  obtain ⟨hw, hb⟩ := (hstep.trans (retains_after hj)).width _ rfl
  exact ⟨hw, hb⟩

end Run

/-- A receiver is given one width at most, and a decoding that succeeds finds out the width that a
receiver is given, if it takes any. Until side bearing and width are given outside of the parts of
an accented character, there is none. From then on the run has those, whatever comes after them, and
stems outside of the parts are relative to that side bearing. -/
theorem one_width (s : Source) (font : Font) (settings : Settings) (takes : Capabilities)
    (offset : Nat) (st : Source.State) :
    let setup := Setup.of font settings takes
    let run := Run.after s setup offset st
    let report := (parse s font settings takes offset st).1
    report.widths.length ≤ 1 ∧
    (takes.width = true → ∀ glyph, report.result = .ok glyph →
      report.widths = glyph.width.toList) ∧
    (∀ n bearing width, (∀ k < n, Run.metrics? setup (run k) = none) →
      Run.metrics? setup (run n) = some (bearing, width) →
      (∀ j m, n < j → run j = .running m →
        m.decoder.width = some width ∧ m.decoder.bearing = bearing ∧
        (m.frames.all Frame.isCaller = true → m.decoder.stemOrigin = bearing)) ∧
      (takes.width = true → report.widths = [settings.scale width]) ∧
      ∀ glyph, report.result = .ok glyph → glyph.width = some (settings.scale width)) ∧
    ((∀ n, Run.metrics? setup (run n) = none) →
      report.widths = [] ∧ ∀ glyph, report.result = .ok glyph → glyph.width = none) := by
  intro setup run report
  obtain ⟨last, -, hlast⟩ := Run.after_eq_ended (s := s) setup offset st
  generalize Session.decodeGlyph s setup offset st = o at hlast
  have hreport : report = (Run.conclude settings takes offset o).1 :=
    congrArg Prod.fst (Run.parse_eq_conclude hlast)
  -- A receiver is told the width that the run leaves, so all parts are about that one.
  have hwidths : report.widths =
      if takes.width then ((Run.left o).width.map settings.scale).toList else [] := by
    have htold := Run.widths_last s setup offset st
    rw [Run.last_eq hlast] at htold
    rw [hreport, Run.widths_conclude, htold]
    cases (Run.left o).width <;> rfl
  have hglyph (glyph : Glyph) (h : report.result = .ok glyph) :
      glyph.width = (Run.left o).width.map settings.scale := by
    rw [hreport] at h
    rw [Run.glyph_conclude h, Decoder.glyph_width]
  refine ⟨?_, fun htakes glyph h => ?_, fun n bearing width hfirst hn => ?_, fun hnone => ?_⟩
  · rw [hwidths]
    cases takes.width <;> cases (Run.left o).width <;> simp
  · rw [hwidths, if_pos htakes, hglyph glyph h]
  · have hkept (j : Nat) (hj : n < j) := Run.width_measured hfirst hn hj
    have hend : (Run.left o).width = some width := by
      -- The run stays at its end, which is therefore behind the step too.
      have hj := hkept (n + 1 + last) (by omega)
      rw [Run.after_of_ended hlast (Nat.le_add_left _ _), Run.session_ended] at hj
      exact hj.1
    refine ⟨fun j m hj hm => ?_, fun htakes => ?_, fun glyph h => ?_⟩
    · have hm : Run.after s setup offset st j = .running m := hm
      obtain ⟨hw, hb⟩ := hkept j hj
      rw [hm] at hw hb
      refine ⟨hw, hb, fun hcallers => ?_⟩
      have hpart := (Part.fits_glyph_iff (Run.fits hm)).1 hcallers
      rw [Decoder.stemOrigin, hpart]
      exact hb
    · rw [hwidths, if_pos htakes, hend]
      rfl
    · rw [hglyph glyph h, hend]
      rfl
  · have hend : (Run.left o).width = none := by
      have hunmeasured := Run.width_unmeasured (n := last) fun k _ => hnone k
      rw [hlast, Run.session_ended] at hunmeasured
      exact hunmeasured
    refine ⟨?_, fun glyph h => ?_⟩
    · rw [hwidths, hend]
      cases takes.width <;> rfl
    · rw [hglyph glyph h, hend]
      rfl

/-- The width that comes first is that of the glyph. -/
example :
    (parse (.memory [139, 239, 13, 139, 189, 13, 14] none) {} {} {} 0 {}).1.result =
      .ok ⟨some 100, none⟩ := by
  decide +kernel

end Type1
