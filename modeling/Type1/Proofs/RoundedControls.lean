import Type1.Proofs.ControlledElements
import Type1.Proofs.StoredValues

/-!
# Rounded control points and edges

The control points of curves and the edges of stems are fractional, until values are blended. From
then on, and always if a matrix acts on the glyph, all of them are rounded, each one computed from
those before it that are rounded already.

* `Element.Snapped`: all coordinates of a curve, a flex or a stem are results of rounding.
* `Run.BlendedBefore`: values were blended before a step of a run. The state says the same
  (`Run.blended_iff`).
* `Run.computed`: the curves, flexes and stems of the steps of a run, with nothing rounded on the
  way.
* `rounded_after_blend`: from when on all is rounded, and that nothing is before.
-/

namespace Type1

/-! ## Results of rounding -/

/-- The number is a result of rounding. -/
def Number.Snapped (v : Number) : Prop := ∃ u : Number, v = u.round

/-- Both coordinates are results of rounding. -/
def Point.Snapped (p : Point) : Prop := p.x.Snapped ∧ p.y.Snapped

/-- Both control points and the end point are results of rounding. -/
def Curve.Snapped (c : Curve) : Prop := c.first.Snapped ∧ c.second.Snapped ∧ c.last.Snapped

/-- All coordinates of a curve, a flex or a stem are results of rounding. -/
def Element.Snapped : Element → Prop
  | curveTo curve => curve.Snapped
  | flex _ left right => left.Snapped ∧ right.Snapped
  | stem _ near far => near.Snapped ∧ far.Snapped
  | width _ | moveTo _ | lineTo _ | accented .. | operator .. => True

theorem Point.snapped_round (p : Point) : p.round.Snapped := ⟨⟨p.x, rfl⟩, ⟨p.y, rfl⟩⟩

theorem Curve.snapped_along (p q r s : Point) : (along Number.round p q r s).Snapped :=
  ⟨Point.snapped_round _, Point.snapped_round _, Point.snapped_round _⟩

namespace Element

theorem snapped_stemAt (origin position extent : Number) :
    (stemAt Number.round origin position extent).Snapped :=
  ⟨⟨_, rfl⟩, ⟨_, rfl⟩⟩

theorem snapped_counterStems (origin : Point) (vertical : Bool) (edge : Number)
    (values : List Number) :
    ∀ x ∈ counterStems Number.round origin vertical edge values, x.Snapped := by
  fun_induction counterStems Number.round origin vertical edge values with
  | case1 vertical edge gap extent rest near far last next =>
    refine List.forall_mem_cons.2 ⟨⟨⟨near, rfl⟩, ⟨far, rfl⟩⟩, ?_⟩
    split
    · exact last
    · exact next
  | case2 => exact nofun

/-- What is no curve, flex or stem has no coordinates that count. -/
theorem snapped_of_controlled {elements : List Element}
    (h : ∀ y ∈ elements.filterMap controlled?, y.Snapped) : ∀ x ∈ elements, x.Snapped := by
  intro x hx
  have hcontrolled (y : Element) (hy : x.controlled? = some y) : y.Snapped :=
    h y (List.mem_filterMap.2 ⟨x, hx, hy⟩)
  cases x with
  | curveTo curve => exact hcontrolled _ rfl
  | flex depth left right => exact hcontrolled (.flex 0 left right) rfl
  | stem kind near far => exact hcontrolled (.stem {} near far) rfl
  | _ => trivial

/-- A flex that is given as two curves gives their coordinates. -/
theorem snapped_accept {x : Element} (h : x.Snapped) (takes : Capabilities)
    (updateOperators : Bool) : ∀ y ∈ x.accept takes updateOperators, y.Snapped := by
  have one (b : Bool) (y : Element) (hy : y ∈ if b then [x] else []) : y.Snapped := by
    split at hy
    · exact List.mem_singleton.1 hy ▸ h
    · cases hy
  intro y hy
  cases x with
  | flex depth left right =>
    unfold accept at hy
    dsimp only at hy
    split at hy
    · exact List.mem_singleton.1 hy ▸ h
    · split at hy
      · rcases List.mem_cons.1 hy with rfl | hy
        · exact h.1
        · exact List.mem_singleton.1 hy ▸ h.2
      · cases hy
  | accented => exact List.mem_singleton.1 hy ▸ h
  | _ => exact one _ y hy

end Element

theorem Operands.forall_lowest {operands : Operands} {n : Nat} {g : Vector Number n → List Element}
    {P : Element → Prop} (h : ∀ v, ∀ x ∈ g v, P x) : ∀ x ∈ operands.lowest n [] g, P x := by
  unfold lowest
  cases operands.bottom? n with
  | none => exact nofun
  | some v => exact h v

theorem OtherSubr.snapped_controlled (d : Decoder) (n : Nat) (subr : OtherSubr) :
    ∀ x ∈ subr.controlled Number.round d n, x.Snapped := by
  have hnone : ∀ x ∈ ([] : List Element), x.Snapped := nofun
  cases subr with
  | endFlex =>
    unfold controlled
    dsimp only
    split
    · cases d.operands.split? 3 with
      | none => exact hnone
      | some p =>
        refine List.forall_mem_singleton.2 ⟨⟨?_, ?_, ?_⟩, ⟨?_, ?_, ?_⟩⟩ <;>
          exact Point.snapped_round _
    · exact hnone
  | counterHints complete =>
    cases complete with
    | false => exact hnone
    | true =>
      unfold controlled
      dsimp only
      cases d.operands.split? n with
      | none => exact hnone
      | some p =>
        dsimp only [Option.elim_some]
        split
        · exact hnone
        · exact Element.snapped_counterStems _ _ _ _
  | _ => exact hnone

/-- With rounding, all that an instruction draws or hints is rounded. -/
theorem Instruction.snapped_controlled (i : Instruction) (d : Decoder) :
    ∀ x ∈ i.controlled Number.round d, x.Snapped := by
  have hnone : ∀ x ∈ ([] : List Element), x.Snapped := nofun
  cases i with
  | number | reserved => exact hnone
  | operator op =>
    cases op with
    | hstem | vstem =>
      exact Operands.forall_lowest fun v =>
        List.forall_mem_singleton.2 (Element.snapped_stemAt _ _ _)
    | hstem3 | vstem3 =>
      refine Operands.forall_lowest fun v => ?_
      simp only [List.forall_mem_cons, Element.snapped_stemAt, true_and]
      exact hnone
    | rrcurveto | vhcurveto | hvcurveto =>
      exact Operands.forall_lowest fun v =>
        List.forall_mem_singleton.2 (Curve.snapped_along _ _ _ _)
    | callothersubr =>
      unfold controlled Operator.controlled
      dsimp only
      cases d.operands.called? with
      | none => exact hnone
      | some call => exact OtherSubr.snapped_controlled _ _ _
    | _ => exact hnone

/-! ## Blending -/

variable {s : Source} {setup : Setup} {d e : Decoder}

/-- Values stay blended. -/
theorem Change.blended_of_blended {a : Activity} (h : Change setup a d e) (hd : d.blended = true) :
    e.blended = true := by
  obtain ⟨_, _, hplaced⟩ := d.placeAccent_eq
  obtain ⟨_, _, _, hstarted⟩ := d.startContour_eq
  cases h with
  | blended => rfl
  | move | set | startFlex =>
    show d.placeAccent.blended = true
    rw [hplaced]
    exact hd
  | line | curve | flexTo =>
    show d.startContour.blended = true
    rw [hstarted, hplaced]
    exact hd
  | stem kind position extent =>
    obtain ⟨_, _, _, _, hstem⟩ := d.hintStem_eq setup kind position extent
    rw [hstem]
    exact hd
  | _ => exact hd

namespace Decode

variable {i : Instruction} {control : Control}

theorem blended_begin (i : Instruction) (d : Decoder) : (i.begin d).blended = d.blended :=
  congrArg Prod.snd (memory_begin i d)

/-- Values stay blended, whatever comes of an instruction. -/
theorem blended_execute (setup : Setup) (i : Instruction) (h : d.blended = true) :
    (final (execute setup i d)).blended = true :=
  (changes_execute setup i d).keeps (P := fun e => e.blended = true)
    (fun _ _ hc => hc.blended_of_blended)
    ((blended_begin i d).trans h)

/-- Values are blended after an instruction that blends, and else if they were before. -/
theorem blended_execute_iff (h : execute setup i d = .ok control e) :
    e.blended = true ↔
      d.blended = true ∨ ∃ below n, i.request? d.operands = some (below, .blend n) := by
  -- Only a request to blend can change the mark; the others are shown to leave it.
  have same (hsame : e.blended = d.blended)
      (hne : ∀ below n, i.request? d.operands ≠ some (below, .blend n)) : e.blended = true ↔
        d.blended = true ∨ ∃ below n, i.request? d.operands = some (below, .blend n) := by
    rw [hsame]
    exact ⟨.inl, fun h => h.resolve_right fun ⟨below, n, hblend⟩ => hne below n hblend⟩
  cases hrequest : i.request? d.operands with
  | none =>
    have hmemory := memory_of_request_none setup hrequest
    rw [h] at hmemory
    rw [← hrequest]
    exact same (congrArg Prod.snd hmemory) (by rw [hrequest]; exact nofun)
  | some p =>
    obtain ⟨below, request⟩ := p
    rw [← hrequest]
    cases request with
    | get index =>
      refine same ?_ (by rw [hrequest]; exact nofun)
      rcases execute_get setup hrequest with ⟨k, x, operands, -, -, -, hx⟩ | ⟨-, c, hx, -⟩
      · cases h.symm.trans hx
        exact blended_begin i d
      · cases h.symm.trans hx
    | write w =>
      refine same ?_ (by rw [hrequest]; exact nofun)
      rcases execute_write setup hrequest with ⟨t, -, -, hx⟩ | ⟨-, c, hx, -⟩
      · cases h.symm.trans hx
        exact blended_begin i d
      · cases h.symm.trans hx
    | blend n =>
      refine ⟨fun _ => .inr ⟨below, n, hrequest⟩, fun _ => ?_⟩
      obtain ⟨subr, rest, hsubr, k, hexecute⟩ := execute_request hrequest setup
      obtain ⟨rfl, rfl⟩ := eq_blend_of_request hsubr
      rw [hexecute] at h
      rcases blend_cases setup n { i.begin d with operands := rest } with
        ⟨-, hx⟩ | ⟨-, -, ⟨-, hx⟩ | ⟨-, operands, hx⟩⟩
      · cases (bind_run_error hx).symm.trans h
      · cases (bind_run_error hx).symm.trans h
      · cases (bind_run hx).symm.trans h
        rfl

end Decode

namespace Run

variable {offset : Nat} {st : Source.State} {n : Nat} {m : Moment s} {i : Instruction}

/-- A step of a run blends values, by the operator or by an other subroutine. -/
def BlendsAt (setup : Setup) (run : Nat → Status s) (k : Nat) : Prop :=
  ∃ m i d below n control e, run k = .running m ∧ m.Executes i d ∧
    i.request? d.operands = some (below, .blend n) ∧ Decode.execute setup i d = .ok control e

/-- Values were blended before a step of a run. -/
def BlendedBefore (setup : Setup) (run : Nat → Status s) (n : Nat) : Prop :=
  ∃ k < n, BlendsAt setup run k

theorem blendedBefore_succ {run : Nat → Status s} :
    BlendedBefore setup run (n + 1) ↔ BlendedBefore setup run n ∨ BlendsAt setup run n := by
  constructor
  · rintro ⟨k, hk, h⟩
    rcases Nat.lt_succ_iff_lt_or_eq.1 hk with hlt | rfl
    · exact .inl ⟨k, hlt, h⟩
    · exact .inr h
  · rintro (⟨k, hk, h⟩ | h)
    · exact ⟨k, Nat.lt_succ_of_lt hk, h⟩
    · exact ⟨n, Nat.lt_succ_self n, h⟩

/-- A step blends if its instruction asks for it and succeeds. -/
theorem blendsAt_iff {run : Nat → Status s} {control : Control} (hm : run n = .running m)
    (hi : m.Executes i d) (hx : Decode.execute setup i d = .ok control e) :
    BlendsAt setup run n ↔ ∃ below k, i.request? d.operands = some (below, .blend k) := by
  constructor
  · rintro ⟨m', i', d', below, k, -, -, hm', hi', h, -⟩
    obtain rfl := Status.running.inj (hm.symm.trans hm')
    obtain ⟨rfl, rfl⟩ := hi.unique hi'
    exact ⟨below, k, h⟩
  · rintro ⟨below, k, h⟩
    exact ⟨m, i, d, below, k, control, e, hm, hi, h, hx⟩

theorem blended_recordCalls (d : Decoder) (calls : List Source.Call) :
    (d.recordCalls calls).blended = d.blended := by
  obtain ⟨_, h⟩ := d.recordCalls_eq calls
  rw [h]

/-- Values are blended at a moment if a step before has blended some. -/
theorem blended_iff (h : after s setup offset st n = .running m) :
    m.decoder.blended = true ↔ BlendedBefore setup (after s setup offset st) n := by
  induction n generalizing m with
  | zero =>
    obtain ⟨-, calls, hm⟩ := resume_passage h
    rw [hm, blended_recordCalls]
    exact ⟨nofun, fun ⟨_, hk, _⟩ => absurd hk (Nat.not_lt_zero _)⟩
  | succ n ih =>
    obtain ⟨l, hl, i, d, control, e, c, calls, hi, hx, hc, hm⟩ := passage h
    have hd : d.blended = l.decoder.blended := by
      obtain ⟨history, rfl⟩ := hi.eq_history
      rfl
    have hkept : c.blended = e.blended := by cases hc <;> rfl
    rw [hm, blended_recordCalls, hkept, Decode.blended_execute_iff hx, hd, ih hl,
      blendedBefore_succ, blendsAt_iff hl hi hx]

/-! ## What steps report -/

/-- The elements that are reported so far. -/
def reported : Status s → List Element
  | .running m => m.decoder.elements
  | .ended o => (left o).elements

theorem reported_of_meets {elements : List Element} {x : Status s}
    (h : Meets (·.elements = elements) (·.elements = elements) x) : reported x = elements := by
  cases x with
  | running m => exact h
  | ended o => cases o <;> exact h

theorem reported_zero (s : Source) (setup : Setup) (offset : Nat) (st : Source.State) :
    reported (after s setup offset st 0) = [] :=
  reported_of_meets (x := resume s [] offset ⟨st, .start setup.font⟩)
    ((invariant_elements setup []).resume rfl)

/-- A step reports what its instruction reports. -/
theorem reported_succ (hm : after s setup offset st n = .running m) (hi : m.Executes i d) :
    reported (after s setup offset st (n + 1)) =
      (Decode.final (Decode.execute setup i d)).elements := by
  rw [after_succ hm]
  exact reported_of_meets ((invariant_elements setup _).of_final hi rfl)

/-- A step without an instruction reports nothing. -/
theorem reported_of_unread (hm : after s setup offset st n = .running m)
    (hnone : ∀ i d, ¬ m.Executes i d) : reported (after s setup offset st (n + 1)) =
      reported (after s setup offset st n) := by
  rw [after_succ hm, hm]
  refine reported_of_meets ?_
  exact (invariant_elements setup m.decoder.elements).step (fun i d hi => hnone i d hi) rfl

/-- All is reported in the end. -/
theorem reported_of_ended {o : Session.Outcome} (h : after s setup offset st n = .ended o) :
    reported (after s setup offset st n) = (last s setup offset st).elements := by
  rw [last_eq h, h]
  rfl

theorem reported_eventually (s : Source) (setup : Setup) (offset : Nat) (st : Source.State) :
    ∃ k, ∀ n, k ≤ n →
      reported (after s setup offset st n) = (last s setup offset st).elements := by
  obtain ⟨k, -, hk⟩ := after_eq_ended (s := s) setup offset st
  exact ⟨k, fun n hn => reported_of_ended (after_of_ended hk hn)⟩

end Run

/-! ## From when on all is rounded -/

/-- Coordinates are rounded if a matrix acts or values were blended. -/
theorem Decoder.control_eq_round (h : (setup.mapped || d.blended) = true) :
    d.control setup = Number.round := by
  funext v
  exact if_pos h

/-- Otherwise they are left as they are. -/
theorem Decoder.control_eq_id (h : (setup.mapped || d.blended) = false) : d.control setup = id := by
  funext v
  exact if_neg (Bool.eq_false_iff.1 h)

/-- What an instruction reports, of which the curves, flexes and stems are known. -/
theorem Decode.execute_reports (setup : Setup) (i : Instruction) (d : Decoder) :
    ∃ added, (final (execute setup i d)).elements = d.elements ++ added ∧
      added.filterMap Element.controlled? = i.controlled (d.control setup) d := by
  obtain ⟨added, hadded⟩ : d.elements <+: (final (execute setup i d)).elements :=
    ((blind_execute setup i).grows d).filterMap Event.element?
  have hcontrolled := controlled_execute setup i d
  rw [Decoder.controlled, ← hadded, List.filterMap_append] at hcontrolled
  exact ⟨added, hadded.symm, List.append_cancel_left hcontrolled⟩

/-- Coordinates are rounded now, and those of all elements after the first ones are. -/
structure Decoder.SnappedAfter (setup : Setup) (first : List Element) (d : Decoder) : Prop where
  rounds : (setup.mapped || d.blended) = true
  later : ∃ later, d.elements = first ++ later ∧ ∀ x ∈ later, x.Snapped

namespace Decoder.SnappedAfter

variable {first : List Element}

theorem of_eq (h : d.SnappedAfter setup first) (hblended : e.blended = d.blended)
    (helements : e.elements = d.elements) : e.SnappedAfter setup first := by
  refine ⟨?_, ?_⟩
  · rw [hblended]
    exact h.rounds
  · rw [helements]
    exact h.later

theorem execute (h : d.SnappedAfter setup first) (i : Instruction) :
    (Decode.final (Decode.execute setup i d)).SnappedAfter setup first := by
  obtain ⟨later, hlater, hsnapped⟩ := h.later
  obtain ⟨added, hadded, hcontrolled⟩ := Decode.execute_reports setup i d
  rw [control_eq_round h.rounds] at hcontrolled
  refine ⟨?_, later ++ added, ?_, ?_⟩
  · rcases Bool.or_eq_true_iff.1 h.rounds with hmapped | hblended
    · rw [hmapped, Bool.true_or]
    · rw [Decode.blended_execute setup i hblended, Bool.or_true]
  · rw [hadded, hlater, List.append_assoc]
  · refine List.forall_mem_append.2 ⟨hsnapped, Element.snapped_of_controlled ?_⟩
    rw [hcontrolled]
    exact i.snapped_controlled d

end Decoder.SnappedAfter

namespace Run

variable {offset : Nat} {st : Source.State} {n : Nat} {m : Moment s} {i : Instruction}

theorem snapped_invariant (setup : Setup) (first : List Element) :
    Invariant setup (fun _ _ => True) (Decoder.SnappedAfter setup first)
      (Decoder.SnappedAfter setup first) :=
  .of_execute (fun i _ h => h.execute i)
    (fun d call h => h.of_eq rfl ((d.elements_record (.called call)).trans (List.append_nil _)))
    (fun _ h => h.of_eq rfl rfl) (fun _ _ h => h.of_eq rfl rfl) (fun _ h => h.of_eq rfl rfl)

/-- From a step on at which coordinates are rounded, all are. -/
theorem snapped_after
    (h : setup.mapped = true ∨ BlendedBefore setup (after s setup offset st) n) :
    ∃ later, (last s setup offset st).elements = reported (after s setup offset st n) ++ later ∧
      ∀ x ∈ later, x.Snapped := by
  cases hm : after s setup offset st n with
  | ended o =>
    rw [← hm, reported_of_ended hm]
    exact ⟨[], (List.append_nil _).symm, nofun⟩
  | running m =>
    have hrounds : (setup.mapped || m.decoder.blended) = true :=
      Bool.or_eq_true_iff.2 (h.imp_right (blended_iff hm).2)
    have hnow : m.decoder.SnappedAfter setup m.decoder.elements :=
      ⟨hrounds, [], (List.append_nil _).symm, nofun⟩
    exact ((snapped_invariant setup _).last_of_moment hm hnow fun _ _ _ _ _ _ => trivial).later

end Run

/-! ## What steps compute -/

/-- The curves, flexes and stems that the next instruction gives, with nothing rounded on the
way. -/
def Moment.computed (m : Moment s) : List Element :=
  match m.cursor.readInstruction with
  | .done i _ calls => i.controlled id (m.decoder.recordCalls calls)
  | .failed .. => []

namespace Run

variable {offset : Nat} {st : Source.State} {n : Nat} {m : Moment s}

/-- The curves, flexes and stems that so many steps of a run give, with nothing rounded on the
way. -/
def computed (run : Nat → Status s) : Nat → List Element
  | 0 => []
  | n + 1 =>
    computed run n ++
      match run n with
      | .running m => m.computed
      | .ended _ => []

/-- A step at which nothing is rounded reports what it computes. -/
theorem controlled_step (hm : after s setup offset st n = .running m)
    (hrounds : (setup.mapped || m.decoder.blended) = false) :
    (reported (after s setup offset st (n + 1))).filterMap Element.controlled? =
      (reported (after s setup offset st n)).filterMap Element.controlled? ++ m.computed := by
  unfold Moment.computed
  cases hread : m.cursor.readInstruction with
  | failed error source calls =>
    have hnone (i : Instruction) (d : Decoder) : ¬ m.Executes i d := by
      rintro ⟨next, calls', hread', -⟩
      cases hread.symm.trans hread'
    rw [reported_of_unread hm hnone, List.append_nil]
  | done i next calls =>
    have hi : m.Executes i (m.decoder.recordCalls calls) := ⟨next, calls, hread, rfl⟩
    obtain ⟨added, hadded, hcontrolled⟩ :=
      Decode.execute_reports setup i (m.decoder.recordCalls calls)
    rw [Decoder.control_eq_id (by rw [blended_recordCalls]; exact hrounds)] at hcontrolled
    rw [reported_succ hm hi, hadded, List.filterMap_append, hcontrolled,
      m.decoder.recordCalls_elements, hm]
    rfl

/-- As long as nothing is rounded, the curves, flexes and stems that are reported are those that
the steps compute. -/
theorem controlled_eq_computed (hmapped : setup.mapped = false)
    (h : ¬ BlendedBefore setup (after s setup offset st) n) :
    (reported (after s setup offset st (n + 1))).filterMap Element.controlled? =
      computed (after s setup offset st) (n + 1) := by
  -- A step reports what it computes after what is computed before.
  have extend {n : Nat} (h : ¬ BlendedBefore setup (after s setup offset st) n)
      (hnow : (reported (after s setup offset st n)).filterMap Element.controlled? =
        computed (after s setup offset st) n) :
      (reported (after s setup offset st (n + 1))).filterMap Element.controlled? =
        computed (after s setup offset st) (n + 1) := by
    rw [computed, ← hnow]
    cases hm : after s setup offset st n with
    | running m =>
      have hblended : m.decoder.blended = false :=
        Bool.eq_false_iff.2 fun hb => h ((blended_iff hm).1 hb)
      rw [controlled_step hm (by rw [hmapped, hblended]; rfl), hm]
    | ended o =>
      rw [after_of_ended hm (Nat.le_succ n), List.append_nil]
  induction n with
  | zero =>
    refine extend h ?_
    rw [reported_zero]
    rfl
  | succ n ih => exact extend h (ih fun hn => h (blendedBefore_succ.2 (.inl hn)))

theorem reported_le_last (s : Source) (setup : Setup) (offset : Nat) (st : Source.State) (n : Nat) :
    reported (after s setup offset st n) <+: (last s setup offset st).elements := by
  cases hm : after s setup offset st n with
  | ended o =>
    have hall := reported_of_ended hm
    exact hm ▸ hall ▸ List.prefix_rfl
  | running m =>
    have hgrows : Invariant setup (fun _ _ => True) (m.decoder.elements <+: ·.elements)
        (m.decoder.elements <+: ·.elements) :=
      .of_execute
        (fun i d h => h.trans (((Decode.blind_execute setup i).grows d).filterMap _))
        (fun d call h => by
          rwa [show (d.record (.called call)).elements = d.elements from
            (d.elements_record (.called call)).trans (List.append_nil _)])
        (fun _ h => h) (fun _ _ h => h) (fun _ h => h)
    exact hgrows.last_of_moment hm List.prefix_rfl fun _ _ _ _ _ _ => trivial

end Run

/-! ## Points that a flex collects -/

/-- Where a move leads, if it has its operands. -/
def Operator.displacement? (operands : Operands) : Operator → Option Point
  | rmoveto => (operands.bottom? 2).map fun v => ⟨v.first, v.second⟩
  | hmoveto => (operands.bottom? 1).map fun v => ⟨v.first, 0⟩
  | vmoveto => (operands.bottom? 1).map fun v => ⟨0, v.first⟩
  | _ => none

/-- Within a flex that has room, a move collects a point, and nothing is rounded. -/
theorem Decode.execute_collect (setup : Setup) {op : Operator} {delta : Point}
    (hactive : d.flex.active = true) (hroom : d.flex.points.length < Flex.capacity)
    (hop : op.displacement? d.operands = some delta) :
    execute setup (.operator op) d =
      .ok .next { ((Instruction.operator op).begin d).collect delta with operands := .empty } := by
  let begun := (Instruction.operator op).begin d
  have collects {n : Nat} {delta' : Vector Number n → Point}
      (h : (d.operands.bottom? n).map delta' = some delta) :
      moveWith n delta' begun = .ok .next { begun.collect delta with operands := .empty } := by
    obtain ⟨v, hv, rfl⟩ := Option.map_eq_some_iff.1 h
    rw [moveWith, bind_run (arguments_run (d := begun) hv),
      bind_run (Decoder.move_collect (d := begun) hactive hroom (delta' v))]
    rfl
  cases op with
  | rmoveto => exact collects hop
  | hmoveto => exact collects hop
  | vmoveto => exact collects hop
  | _ => cases hop

/-- If a matrix acts, and otherwise from the first step on that blends values, all coordinates of
the curves, flexes and stems that a receiver is given are results of rounding, before the matrix
maps them. Without a matrix and before that step the curves, flexes and stems are those that the
steps compute, from points of a flex that are sums of displacements, with nothing rounded on the
way. -/
theorem rounded_after_blend (s : Source) (font : Font) (settings : Settings) (takes : Capabilities)
    (offset : Nat) (st : Source.State) :
    let setup := Setup.of font settings takes
    let run := Run.after s setup offset st
    let last := Run.last s setup offset st
    let accepted (elements : List Element) :=
      elements.flatMap (Element.accept takes settings.updateOperators)
    (parse s font settings takes offset st).1.elements =
      (accepted last.elements).map settings.place ∧
    Run.reported (run 0) = [] ∧ (∃ k, ∀ n, k ≤ n → Run.reported (run n) = last.elements) ∧
    (∀ n, settings.activeMatrix? ≠ none ∨ Run.BlendedBefore setup run n →
      ∃ later, last.elements = Run.reported (run n) ++ later ∧
        ∀ x ∈ accepted later, x.Snapped) ∧
    (settings.activeMatrix? = none → ∀ n, ¬ Run.BlendedBefore setup run n →
      Run.reported (run (n + 1)) <+: last.elements ∧
      (Run.reported (run (n + 1))).filterMap Element.controlled? = Run.computed run (n + 1)) ∧
    ∀ op d delta, d.flex.active = true → d.flex.points.length < Flex.capacity →
      op.displacement? d.operands = some delta →
      Decode.execute setup (.operator op) d =
        .ok .next
          { ((Instruction.operator op).begin d).collect delta with operands := .empty } := by
  intro setup run last accepted
  refine ⟨?_, Run.reported_zero s setup offset st, Run.reported_eventually s setup offset st,
    fun n h => ?_, fun hnone n h => ⟨Run.reported_le_last s setup offset st _, ?_⟩,
    fun op d delta => Decode.execute_collect setup⟩
  · rw [Run.elements_parse, List.map_flatMap]
    exact congrArg (List.flatMap · last.elements) (funext (Element.deliver_eq settings takes))
  · have hrounds : setup.mapped = true ∨ Run.BlendedBefore setup run n :=
      h.imp_left Option.isSome_iff_ne_none.2
    -- From the first blend on each element is rounded as it is reported; acceptance forgets what a
    -- receiver does not take, but alters no coordinates.
    obtain ⟨later, hlater, hsnapped⟩ := Run.snapped_after hrounds
    refine ⟨later, hlater, fun x hx => ?_⟩
    obtain ⟨y, hy, hx⟩ := List.mem_flatMap.1 hx
    exact Element.snapped_accept (hsnapped y hy) takes settings.updateOperators x hx
  · have hmapped : setup.mapped = false := by
      show settings.activeMatrix?.isSome = false
      rw [hnone]
      rfl
    exact Run.controlled_eq_computed hmapped h

/-- The bytes of `0 0 rmoveto`, a curve along two displacements by the quotient of 1 and 4,
`10 0 1 blend 0 rmoveto`, and the same curve again. -/
def Rounding.blended : List UInt8 :=
  [139, 139, 21, 140, 143, 12, 12, 139, 140, 143, 12, 12, 139, 139, 139, 8] ++
  [149, 139, 140, 16, 139, 21] ++
  [140, 143, 12, 12, 139, 140, 143, 12, 12, 139, 139, 139, 8, 14]

/-- The control points are fractional before values are blended, and rounded one by one after. -/
theorem rounded_after_blend_curves :
    let s : Source := .memory Rounding.blended none
    let font : Font := { masters := 2, weights := [0.5, 0.5] }
    let run := Run.after s (.of font {} {}) 0 {}
    let last := Run.last s (.of font {} {}) 0 {}
    let later : List Element := [.moveTo ⟨11, 0⟩, .curveTo ⟨⟨11, 0⟩, ⟨11, 0⟩, ⟨11, 0⟩⟩]
    ¬ Run.BlendedBefore (.of font {} {}) run 17 ∧ Run.BlendedBefore (.of font {} {}) run 18 ∧
    Run.computed run 18 = [.curveTo ⟨⟨0.25, 0⟩, ⟨0.5, 0⟩, ⟨1, 0⟩⟩] ∧
    (Run.reported (run 18)).filterMap Element.controlled? = Run.computed run 18 ∧
    last.elements = Run.reported (run 18) ++ later ∧ ∀ x ∈ later, x.Snapped := by
  intro s font run last later
  obtain ⟨m, hm, hfalse⟩ := Option.map_eq_some_iff.1
    (by decide +kernel : (run 17).moment?.map (·.decoder.blended) = some false)
  obtain ⟨m', hm', htrue⟩ := Option.map_eq_some_iff.1
    (by decide +kernel : (run 18).moment?.map (·.decoder.blended) = some true)
  have hbefore : ¬ Run.BlendedBefore (.of font {} {}) run 17 := fun h =>
    Bool.false_ne_true (hfalse.symm.trans
      ((Run.blended_iff (Status.eq_running_of_moment? hm)).2 h))
  have hafter : Run.BlendedBefore (.of font {} {}) run 18 :=
    (Run.blended_iff (Status.eq_running_of_moment? hm')).1 htrue
  obtain ⟨-, -, -, hsnapped, hcomputed, -⟩ := rounded_after_blend s font {} {} 0 {}
  have hlast : last.elements = Run.reported (run 18) ++ later := by decide +kernel
  refine ⟨hbefore, hafter, by decide +kernel, (hcomputed rfl 17 hbefore).2, hlast, ?_⟩
  obtain ⟨later', hlater, h⟩ := hsnapped 18 (.inr hafter)
  obtain rfl : later = later' := List.append_cancel_left (hlast.symm.trans hlater)
  exact h

end Type1
