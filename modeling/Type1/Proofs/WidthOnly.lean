import Mathlib.Data.Nat.Find
import Type1.Proofs.Composition
import Type1.Proofs.Moments

/-!
# Decoding the width only

A decoding that stops as soon as the width is known does the same as one that goes on, up to the
first side bearing and width of the glyph itself. It ends there, at whatever level that is.

* `Decode.execute_ending`, `Decode.execute_ending_measures`: what an instruction does in both.
* `Run.measured?`: the state after a step that takes side bearing and width of the glyph itself.
* `Run.after_ending`: both runs are the same up to the first such step.
* `width_only`: what the two decodings report.
-/

namespace Type1

/-- The setup in which a decoding stops with the width, or does not. -/
def Setup.ending (setup : Setup) (widthOnly : Bool) : Setup := { setup with widthOnly }

variable {s : Source} {setup : Setup} {d e : Decoder}

namespace Decode

/-! ## Instructions -/

/-- The first side bearing and width of the glyph itself. -/
theorem metrics_run (setup : Setup) (bearing : Point) (advance : Number) (hpart : d.part = .glyph)
    (hwidth : d.width = none) :
    ∃ width e, e.part = .glyph ∧ e.width = some width ∧ e.elements = d.elements ++ [.width width] ∧
      ∀ widthOnly, metrics (setup.ending widthOnly) bearing advance d =
        .ok (if widthOnly then .leave .finished else .next) e := by
  let width := d.control setup (if advance.abs > 32000 then advance / 65536 else advance)
  let e : Decoder := { d with point := bearing.round, bearing, width := some width }
  refine ⟨width, e.report (.width width), hpart, rfl, e.elements_record _, fun widthOnly => ?_⟩
  cases d
  cases hpart
  cases hwidth
  cases widthOnly <;> rfl

/-- Any other side bearing and width. -/
theorem metrics_ending (widthOnly : Bool) (bearing : Point) (advance : Number)
    (h : d.part ≠ .glyph ∨ d.width ≠ none) :
    metrics (setup.ending widthOnly) bearing advance d = metrics setup bearing advance d := by
  cases hpart : d.part with
  | base | accent =>
    rw [metrics, metrics, modify_bind_run, modify_bind_run, get_bind_run, get_bind_run]
    simp only [hpart]
  | glyph =>
    obtain ⟨width, hwidth⟩ := Option.ne_none_iff_exists'.1 (h.resolve_left fun h => h hpart)
    cases d
    cases hpart
    cases hwidth
    rfl

/-- Side bearing and width are taken from the operands, if these are there. -/
theorem execute_of_measures {i : Instruction} (h : i.activity d = .measures) :
    (∃ bearing advance c, c.part = d.part ∧ c.width = d.width ∧ c.elements = d.elements ∧
      ∀ setup, execute setup i d = metrics setup bearing advance c) ∨
    ∃ x e, ∀ setup, execute setup i d = .error x e := by
  obtain ⟨op, n, bearing, advance, rfl, hperform⟩ : ∃ op n, ∃ bearing : Vector Number n → Point,
      ∃ advance : Vector Number n → Number, i = .operator op ∧ ∀ setup, perform setup op = (do
        let v ← arguments n
        clear
        metrics setup (bearing v) (advance v)) := by
    rcases eq_of_measures h with rfl | rfl
    · exact ⟨_, 2, fun v => ⟨v.first, 0⟩, fun v => v.second, rfl, fun _ => rfl⟩
    · exact ⟨_, 4, fun v => ⟨v.first, v.second⟩, fun v => v.third, rfl, fun _ => rfl⟩
  have hexecute (setup : Setup) : execute setup (.operator op) d =
      perform setup op (d.record (.began op d.operands.toList)) := rfl
  generalize hbegun : d.record (.began op d.operands.toList) = c at hexecute
  cases hargs : arguments n c with
  | error x e => exact .inr ⟨x, e, fun setup => by rw [hexecute, hperform, bind_run_error hargs]⟩
  | ok v e =>
    obtain ⟨-, rfl⟩ := arguments_eq_ok hargs
    refine .inl ⟨bearing v, advance v, { c with operands := .empty }, ?_, ?_, ?_, fun setup => ?_⟩
    · rw [← hbegun]
      rfl
    · rw [← hbegun]
      rfl
    · rw [← hbegun]
      exact (d.elements_record _).trans (List.append_nil _)
    · rw [hexecute, hperform, bind_run hargs]
      rfl

/-- An instruction does the same whether the decoding is to stop with the width or not, unless it
takes the first side bearing and width of the glyph itself. -/
theorem execute_ending (setup : Setup) (widthOnly : Bool) {i : Instruction}
    (h : i.activity d = .measures → d.part ≠ .glyph ∨ d.width ≠ none) :
    execute (setup.ending widthOnly) i d = execute setup i d := by
  by_cases ha : i.activity d = .measures
  · rcases execute_of_measures ha with ⟨bearing, advance, c, hpart, hwidth, -, hx⟩ | ⟨x, e, hx⟩
    · rw [← hpart, ← hwidth] at h
      rw [hx, hx, metrics_ending widthOnly bearing advance (h ha)]
    · rw [hx, hx]
  · cases i with
    | operator op =>
      have hperform : perform (setup.ending widthOnly) op = perform setup op := by
        by_cases hseac : op = .seac
        · rw [hseac]
          rfl
        · refine perform_congr setup setup.font.lookup widthOnly hseac ?_ ?_
          · rintro rfl
            exact ha rfl
          · rintro rfl
            exact ha rfl
      rw [execute, execute, hperform]
    | _ => rfl

/-- The first side bearing and width of the glyph itself ends a decoding that is to stop with it. -/
theorem execute_ending_measures (setup : Setup) {i : Instruction} (h : i.activity d = .measures)
    (hpart : d.part = .glyph) (hwidth : d.width = none) :
    (∃ width e, e.part = .glyph ∧ e.width = some width ∧ e.elements = d.elements ++ [.width width] ∧
      ∀ widthOnly, execute (setup.ending widthOnly) i d =
        .ok (if widthOnly then .leave .finished else .next) e) ∨
    ∃ x e, ∀ widthOnly, execute (setup.ending widthOnly) i d = .error x e := by
  rcases execute_of_measures h with ⟨bearing, advance, c, hp, hw, helements, hx⟩ | ⟨x, e, hx⟩
  · obtain ⟨width, e, he, hwidth, hadd, hrun⟩ :=
      metrics_run setup bearing advance (hp.trans hpart) (hw.trans hwidth)
    exact .inl ⟨width, e, he, hwidth, helements ▸ hadd, fun widthOnly => (hx _).trans (hrun _)⟩
  · exact .inr ⟨x, e, fun _ => hx _⟩

end Decode

/-! ## The width of a state -/

theorem Decoder.recordCalls_width (d : Decoder) (calls : List Source.Call) :
    (d.recordCalls calls).width = d.width :=
  Decoder.recordCalls_induction (P := fun e => e.width = d.width) rfl (fun _ _ h => h) calls

theorem Decoder.placeAccent_width (d : Decoder) : d.placeAccent.width = d.width := by
  obtain ⟨_, _, h⟩ := d.placeAccent_eq
  rw [h]

theorem Decoder.startContour_width (d : Decoder) : d.startContour.width = d.width := by
  obtain ⟨_, _, _, h⟩ := d.startContour_eq
  rw [h, d.placeAccent_width]

theorem Decoder.hintStem_width (setup : Setup) (kind : StemKind) (position extent : Number)
    (d : Decoder) : (d.hintStem setup kind position extent).width = d.width := by
  obtain ⟨_, _, _, _, h⟩ := d.hintStem_eq setup kind position extent
  rw [h]

/-- Only the first side bearing and width of the glyph itself change the width. -/
theorem Change.width_eq {a : Activity} (h : Change setup a d e) :
    e.width = d.width ∨ (a = .measures ∧ d.part = .glyph ∧ d.width = none) := by
  cases h with
  | width bearing width hpart hwidth => exact .inr ⟨rfl, hpart, hwidth⟩
  | move delta => exact .inl d.placeAccent_width
  | set p => exact .inl d.placeAccent_width
  | startFlex => exact .inl d.placeAccent_width
  | line delta => exact .inl d.startContour_width
  | curve p q r => exact .inl d.startContour_width
  | flexTo depth left right => exact .inl d.startContour_width
  | stem kind position extent hkind => exact .inl (d.hintStem_width setup kind _ _)
  | _ => exact .inl rfl

/-- A width that there is stays. -/
theorem Decode.execute_width (setup : Setup) {i : Instruction}
    (h : i.activity d = .measures → d.part ≠ .glyph ∨ d.width ≠ none) :
    (final (execute setup i d)).width = d.width := by
  have hbegin : (i.begin d).width = d.width ∧ (i.begin d).part.Fits = d.part.Fits := by
    cases i <;> exact ⟨rfl, rfl⟩
  refine ((changes_execute setup i d).keeps
    (P := fun e => e.width = d.width ∧ e.part.Fits = d.part.Fits) (fun c e hc hd => ?_) hbegin).1
  refine ⟨?_, hc.fits.trans hd.2⟩
  rcases hc.width_eq with heq | ⟨ha, hpart, hwidth⟩
  · exact heq.trans hd.1
  · have hglyph : d.part.Fits [] := by
      rw [← hd.2, hpart]
      rfl
    rcases h ha with hne | hne
    · exact absurd (Part.fits_nil_iff.1 hglyph) hne
    · exact absurd (hd.1.symm.trans hwidth) hne

namespace Run

variable {offset : Nat} {st : Source.State}

/-! ## The first side bearing and width -/

/-- The state after a step that takes side bearing and width of the glyph itself, if it does. -/
def measured? (setup : Setup) : Status s → Option Decoder
  | .running m =>
    match m.cursor.readInstruction with
    | .done i _ calls =>
      let d := m.decoder.recordCalls calls
      match i.activity d, d.part, Decode.execute setup i d with
      | .measures, .glyph, .ok _ e => some e
      | _, _, _ => none
    | .failed _ _ _ => none
  | .ended _ => none

theorem measured?_eq {m : Moment s} {i : Instruction} {control : Control} (hi : m.Executes i d)
    (ha : i.activity d = .measures) (hpart : d.part = .glyph)
    (hx : Decode.execute setup i d = .ok control e) : measured? setup (.running m) = some e := by
  obtain ⟨next, calls, hread, rfl⟩ := hi
  unfold measured?
  simp only [hread, ha, hpart, hx]

theorem executes_of_measured? {x : Status s} (h : measured? setup x = some e) :
    ∃ m i d control next calls, x = .running m ∧
      m.cursor.readInstruction = .done i next calls ∧ d = m.decoder.recordCalls calls ∧
      i.activity d = .measures ∧ d.part = .glyph ∧
      Decode.execute setup i d = .ok control e := by
  unfold measured? at h
  split at h
  · next m =>
    split at h
    · next i next calls hread =>
      dsimp only at h
      split at h
      · next control c ha hpart hx =>
        cases h
        exact ⟨m, i, _, control, next, calls, rfl, hread, rfl, ha, hpart, hx⟩
      · cases h
    · cases h
  · cases h

/-- There is no width before side bearing and width of the glyph itself are taken. -/
theorem width_eq_none {n : Nat} {m : Moment s}
    (h : ∀ k < n, measured? setup (after s setup offset st k) = none)
    (hm : after s setup offset st n = .running m) : m.decoder.width = none := by
  induction n generalizing m with
  | zero =>
    obtain ⟨-, calls, hd⟩ := resume_passage hm
    rw [hd, Decoder.recordCalls_width]
    rfl
  | succ n ih =>
    obtain ⟨l, hl, i, d, control, e, c, calls, hi, hx, hc, hd⟩ := passage hm
    have hlast := h n (Nat.lt_succ_self n)
    have he := Decode.execute_width setup (i := i) (d := d) fun ha => .inl fun hpart => by
      rw [hl, measured?_eq hi ha hpart hx] at hlast
      cases hlast
    have hlwidth : d.width = none := by
      obtain ⟨next, calls, -, rfl⟩ := hi
      rw [l.decoder.recordCalls_width]
      exact ih (fun k hk => h k (Nat.lt_succ_of_lt hk)) hl
    rw [hx] at he
    rw [hd, c.recordCalls_width]
    cases hc <;> exact he.trans hlwidth

/-- A step does the same whether the decoding is to stop with the width or not, unless it takes the
first side bearing and width of the glyph itself. -/
theorem step_ending {m : Moment s} (hwidth : m.decoder.width = none)
    (h : measured? (setup.ending false) (.running m) = none) :
    step s (setup.ending true) m = step s (setup.ending false) m := by
  unfold step stepWith
  cases hread : m.cursor.readInstruction with
  | failed error source calls => rfl
  | done i next calls =>
    have hi : m.Executes i (m.decoder.recordCalls calls) := ⟨next, calls, hread, rfl⟩
    have hd : (m.decoder.recordCalls calls).width = none := by
      rw [m.decoder.recordCalls_width, hwidth]
    dsimp only
    generalize m.decoder.recordCalls calls = d at hi hd ⊢
    have hx : Decode.execute (setup.ending true) i d = Decode.execute (setup.ending false) i d := by
      by_cases ha : i.activity d = .measures ∧ d.part = .glyph
      · rcases Decode.execute_ending_measures setup ha.1 ha.2 hd with
          ⟨width, e, -, -, -, hx⟩ | ⟨x, e, hx⟩
        · rw [measured?_eq hi ha.1 ha.2 (hx false)] at h
          cases h
        · rw [hx, hx]
      · refine Decode.execute_ending (setup.ending false) true fun hm => ?_
        exact .inl fun hpart => ha ⟨hm, hpart⟩
    rw [hx]

/-- Both runs are the same up to the first side bearing and width of the glyph itself. -/
theorem after_ending (setup : Setup) {n : Nat}
    (h : ∀ k < n,
      measured? (setup.ending false) (after s (setup.ending false) offset st k) = none) :
    after s (setup.ending true) offset st n = after s (setup.ending false) offset st n := by
  induction n with
  | zero => rfl
  | succ n ih =>
    have hn := ih fun k hk => h k (Nat.lt_succ_of_lt hk)
    cases hm : after s (setup.ending false) offset st n with
    | running m =>
      have hlast := h n (Nat.lt_succ_self n)
      rw [hm] at hn hlast
      rw [after_succ hn, after_succ hm]
      exact step_ending (width_eq_none (fun k hk => h k (Nat.lt_succ_of_lt hk)) hm) hlast
    | ended o =>
      rw [hm] at hn
      unfold after at hn hm ⊢
      rw [advance_add, hn, advance_ended, advance_add, hm, advance_ended]

/-- What a run that is not to stop has, once there is a width: more events, and the same width. -/
theorem invariant_width (setup : Setup) (width : Number) (events : List Event) :
    Invariant setup (fun _ _ => True)
      (fun d => d.width = some width ∧ events <+: d.events)
      (fun d => d.width = some width ∧ events <+: d.events) := by
  have executed {i : Instruction} {d : Decoder} {o : EStateM.Result Error Decoder Control}
      (h : d.width = some width ∧ events <+: d.events) (hx : Decode.execute setup i d = o) :
      (Decode.final o).width = some width ∧ events <+: (Decode.final o).events := by
    have hne : d.width ≠ none := by
      rw [h.1]
      nofun
    have hd := Decode.execute_width setup (i := i) fun _ => .inr hne
    have hgrows := (Decode.blind_execute setup i).grows d
    rw [hx] at hd hgrows
    exact ⟨hd.trans h.1, h.2.trans hgrows⟩
  exact {
    called := fun {d} call h =>
      ⟨h.1, h.2.trans ⟨[.called call], (d.events_record (.called call)).symm⟩⟩
    ok := fun _ => executed
    error := fun _ => executed
    fails := id
    base := id
    accent := fun _ => id
    done := id }

/-- Where the first side bearing and width of the glyph itself are taken, a decoding ends that is to
stop with them, and one that is not goes on from the same state. -/
theorem after_measured (setup : Setup) {n : Nat}
    (h : ∀ k < n, measured? (setup.ending false) (after s (setup.ending false) offset st k) = none)
    (he : measured? (setup.ending false) (after s (setup.ending false) offset st n) = some e) :
    ∃ width before source m, e.width = some width ∧ e.elements = before ++ [.width width] ∧
      after s (setup.ending true) offset st (n + 1) = .ended (.ok .finished ⟨source, e⟩) ∧
      after s (setup.ending false) offset st (n + 1) = .running m ∧ m.decoder = e := by
  obtain ⟨m, i, d, control, next, calls, hm, hread, hd, ha, hpart, hx⟩ := executes_of_measured? he
  have hwidth : d.width = none := by
    rw [hd]
    exact Decoder.recordCalls_induction (P := fun e => e.width = none) (width_eq_none h hm)
      (fun _ _ h => h) calls
  rcases Decode.execute_ending_measures setup ha hpart hwidth with
    ⟨width, e', hglyph, hw, helements, hrun⟩ | ⟨x, e', hrun⟩
  · obtain ⟨-, rfl⟩ := EStateM.Result.ok.inj ((hrun false).symm.trans hx)
    have hcallers : m.frames.filter (!·.isCaller) = [] := by
      have hfits := fits hm
      rwa [← m.decoder.recordCalls_part calls, ← hd, hpart] at hfits
    refine ⟨width, d.elements, next.state, ⟨m.frames, next, e'⟩, hw, helements, ?_, ?_, rfl⟩
    · rw [after_succ ((after_ending setup h).trans hm), step, stepWith, hread]
      dsimp only
      rw [← hd, hrun true]
      exact leave_callers hcallers
    · rw [after_succ hm, step, stepWith, hread]
      dsimp only
      rw [← hd, hrun false]
      rfl
  · cases (hrun false).symm.trans hx

end Run

/-! ## What the decodings report -/

/-- Reports do not depend on whether the decoding was to stop with the width. -/
theorem Run.conclude_widthOnly (settings : Settings) (takes : Capabilities) (offset : Nat)
    (widthOnly : Bool) (o : Session.Outcome) :
    conclude { settings with widthOnly } takes offset o = conclude settings takes offset o := by
  cases o <;> rfl

/-- A report tells at least the events of the state that is left. -/
theorem Run.events_conclude (settings : Settings) (takes : Capabilities) (offset : Nat)
    (o : Session.Outcome) :
    (left o).events.flatMap (Event.deliver settings takes) <+:
      (conclude settings takes offset o).1.events := by
  cases o with
  | ok flow session => exact List.prefix_rfl
  | error x session => exact List.prefix_append _ _

theorem Run.glyph_conclude {settings : Settings} {takes : Capabilities} {offset : Nat}
    {o : Session.Outcome} {glyph : Glyph}
    (h : (conclude settings takes offset o).1.result = .ok glyph) :
    glyph = (left o).glyph settings := by
  cases o with
  | ok flow session => exact (Except.ok.inj h).symm
  | error x session => cases h

/-- The width that is found out is the width of the state. -/
theorem Decoder.glyph_width_congr {d e : Decoder} (h : d.width = e.width) (settings : Settings) :
    (d.glyph settings).width = (e.glyph settings).width := by
  unfold glyph
  dsimp only
  rw [h]

/-- A decoding that is to stop with the width reports the beginning of what one reports that is not.
If that succeeds, so does the former, with the same width. It ends with the first side bearing and
width of the glyph itself, and succeeds whatever comes after them in the charstring; if there are
none, the two decodings are the same. -/
theorem width_only (s : Source) (font : Font) (settings : Settings) (takes : Capabilities)
    (offset : Nat) (st : Source.State) :
    let brief := parse s font { settings with widthOnly := true } takes offset st
    let full := parse s font { settings with widthOnly := false } takes offset st
    let setup := Setup.of font { settings with widthOnly := false } takes
    let run := Run.after s setup offset st
    brief.1.events <+: full.1.events ∧ brief.1.elements <+: full.1.elements ∧
    (∀ glyph, full.1.result = .ok glyph →
      ∃ glyph', brief.1.result = .ok glyph' ∧ glyph'.width = glyph.width) ∧
    (∀ n e, (∀ k < n, Run.measured? setup (run k) = none) →
      Run.measured? setup (run n) = some e →
      ∃ width before, e.width = some width ∧ e.elements = before ++ [.width width] ∧
        brief.1.result = .ok (e.glyph settings) ∧
        brief.1.elements = e.elements.flatMap (Element.deliver settings takes)) ∧
    ((∀ n, Run.measured? setup (run n) = none) → brief = full) := by
  intro brief full setup run
  have hparse (widthOnly : Bool) {n : Nat} {o : Session.Outcome}
      (h : Run.after s ((Setup.of font settings takes).ending widthOnly) offset st n = .ended o) :
      parse s font { settings with widthOnly } takes offset st =
        Run.conclude settings takes offset o := by
    have hsetup : Setup.of font { settings with widthOnly } takes =
      (Setup.of font settings takes).ending widthOnly := rfl
    rw [← hsetup] at h
    exact (Run.parse_eq_conclude h).trans
      (Run.conclude_widthOnly settings takes offset widthOnly o)
  obtain ⟨last, -, hlast⟩ := Run.after_eq_ended (s := s) setup offset st
  generalize Session.decodeGlyph s setup offset st = o at hlast
  have hfull : full = Run.conclude settings takes offset o := hparse false hlast
  -- Without side bearing and width of its own, the run of the one setup is that of the other.
  have hsame (h : ∀ n, Run.measured? setup (run n) = none) : brief = full :=
    (hparse true ((Run.after_ending (Setup.of font settings takes) fun k _ => h k).trans
      hlast)).trans hfull.symm
  have hfirst {n : Nat} {e : Decoder} (hbefore : ∀ k < n, Run.measured? setup (run k) = none)
      (he : Run.measured? setup (run n) = some e) :
      ∃ width before source, e.width = some width ∧ e.elements = before ++ [.width width] ∧
        brief = Run.conclude settings takes offset (.ok .finished ⟨source, e⟩) ∧
        (Run.left o).width = some width ∧ e.events <+: (Run.left o).events := by
    obtain ⟨width, before, source, m, hwidth, helements, hend, hm, rfl⟩ :=
      Run.after_measured (Setup.of font settings takes) hbefore he
    -- From the step that gives the width on, the run for all of the glyph keeps it.
    have hlater := (Run.invariant_width setup width m.decoder.events).last_of_moment hm
      ⟨hwidth, List.prefix_rfl⟩ fun _ _ _ _ _ _ => trivial
    rw [Run.last_eq hlast] at hlater
    exact ⟨width, before, source, hwidth, helements, hparse true hend, hlater⟩
  have hbegins : brief.1.events <+: full.1.events ∧ ∀ glyph, full.1.result = .ok glyph →
      ∃ glyph', brief.1.result = .ok glyph' ∧ glyph'.width = glyph.width := by
    -- There is a first such step or none at all.
    by_cases h : ∀ n, Run.measured? setup (run n) = none
    · rw [hsame h]
      exact ⟨List.prefix_rfl, fun glyph hglyph => ⟨glyph, hglyph, rfl⟩⟩
    · have hex : ∃ n, Run.measured? setup (run n) ≠ none := not_forall.1 h
      obtain ⟨e, he⟩ := Option.ne_none_iff_exists'.1 (Nat.find_spec hex)
      obtain ⟨width, before, source, hwidth, -, hbrief, hlast, hevents⟩ :=
        hfirst (fun k hk => not_not.1 (Nat.find_min hex hk)) he
      rw [hbrief, hfull]
      refine ⟨.trans ?_ (Run.events_conclude settings takes offset o), fun glyph hglyph =>
        ⟨_, rfl, ?_⟩⟩
      · obtain ⟨later, hlater⟩ := hevents
        rw [← hlater, List.flatMap_append]
        exact List.prefix_append _ _
      rw [Run.glyph_conclude hglyph]
      exact Decoder.glyph_width_congr (hwidth.trans hlast.symm) settings
  refine ⟨hbegins.1, hbegins.1.filterMap _, hbegins.2, fun n e hbefore he => ?_, hsame⟩
  obtain ⟨width, before, source, hwidth, helements, hbrief, -⟩ := hfirst hbefore he
  refine ⟨width, before, hwidth, helements, ?_, ?_⟩
  · rw [hbrief]
    rfl
  · rw [hbrief]
    exact filterMap_element?_deliver settings takes _

end Type1
