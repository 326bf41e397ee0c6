import Type1.Proofs.Moments
import Type1.Proofs.Renewal

/-!
# The shift of an accent

An accent is shifted against its base once, by the first instruction that moves or draws outside of
the points that a flex collects (`Activity.places`). What comes before that reports no segment, and
what that instruction reports is shifted already.

* `Decode.execute_places`: an instruction that places the accent does the same after the shift.
* `Run.isPlaced_iff`: whether the accent is placed at a moment of a run.
* `accent_shifted_once`: what an instruction does at such a moment.
-/

namespace Type1

/-- Whether instructions of the activity place an accent that is decoded. -/
def Activity.places : Activity → Bool
  | moves | draws => true
  | _ => false

/-- Whether the part is an accent, with the current point shifted already. -/
def Part.isPlaced : Part → Bool
  | accent _ _ placed => placed
  | _ => false

/-- Whether the element is a segment of a contour, or starts one. -/
def Element.isSegment : Element → Bool
  | moveTo _ | lineTo _ | curveTo _ | flex .. => true
  | _ => false

/-- The segments in the history. -/
def Decoder.segments (d : Decoder) : List Element := d.elements.filter Element.isSegment

variable {setup : Setup}

namespace Decoder

/-! ## Placing the accent -/

variable (d : Decoder)

theorem placeAccent_operands : d.placeAccent.operands = d.operands := by
  obtain ⟨_, _, h⟩ := d.placeAccent_eq
  rw [h]

theorem placeAccent_flex : d.placeAccent.flex = d.flex := by
  obtain ⟨_, _, h⟩ := d.placeAccent_eq
  rw [h]

theorem placeAccent_record (event : Event) :
    (d.record event).placeAccent = d.placeAccent.record event := by
  unfold placeAccent
  simp only [record]
  split <;> rfl

theorem placeAccent_setOperands (operands : Operands) :
    { d with operands }.placeAccent = { d.placeAccent with operands } := by
  unfold placeAccent
  dsimp only
  split <;> rfl

theorem placeAccent_setFlex (flex : Flex) :
    { d with flex }.placeAccent = { d.placeAccent with flex } := by
  unfold placeAccent
  dsimp only
  split <;> rfl

/-- An accent that is not placed is shifted; nothing else is. -/
theorem placeAccent_cases :
    (∃ bearing shift, d.part = .accent bearing shift false ∧
      d.placeAccent = { d with point := d.point + shift, part := .accent bearing shift true }) ∨
    (∀ bearing shift, d.part ≠ .accent bearing shift false) ∧ d.placeAccent = d := by
  unfold placeAccent
  split
  · next bearing shift hpart => exact .inl ⟨bearing, shift, hpart, rfl⟩
  · next hpart => exact .inr ⟨hpart, rfl⟩

theorem placeAccent_elements : d.placeAccent.elements = d.elements := by
  obtain ⟨_, _, h⟩ := d.placeAccent_eq
  rw [h]
  rfl

/-- The shift is added once. -/
theorem placeAccent_placeAccent : d.placeAccent.placeAccent = d.placeAccent := by
  rcases d.placeAccent_cases with ⟨bearing, shift, -, h⟩ | ⟨-, h⟩ <;> rw [h]
  · rfl
  · exact h

/-- The accent is placed already where the part is that of a state with it placed. -/
theorem placeAccent_of_part {d e : Decoder} (h : e.part = d.placeAccent.part) :
    e.placeAccent = e := by
  rcases e.placeAccent_cases with ⟨bearing, shift, hpart, -⟩ | ⟨-, he⟩
  · rcases d.placeAccent_cases with ⟨_, _, -, hd⟩ | ⟨hne, hd⟩ <;> rw [hd] at h
    · cases hpart.symm.trans h
    · exact absurd (h.symm.trans hpart) (hne bearing shift)
  · exact he

theorem placeAccent_startContour : d.placeAccent.startContour = d.startContour := by
  rw [startContour, placeAccent_placeAccent]
  rfl

theorem startContour_operands : d.startContour.operands = d.operands := by
  obtain ⟨_, _, _, h⟩ := d.startContour_eq
  rw [h, d.placeAccent_operands]

theorem placeAccent_moveBy (delta : Point) : d.placeAccent.moveBy delta = d.moveBy delta := by
  rw [moveBy, placeAccent_placeAccent]
  rfl

theorem placeAccent_lineBy (delta : Point) : d.placeAccent.lineBy delta = d.lineBy delta := by
  rw [lineBy, placeAccent_startContour]
  rfl

theorem placeAccent_curveBy (p q r : Point) :
    d.placeAccent.curveBy setup p q r = d.curveBy setup p q r := by
  rw [curveBy, placeAccent_startContour]
  rfl

theorem placeAccent_flexTo (depth : Number) (left right : Curve) :
    d.placeAccent.flexTo setup depth left right = d.flexTo setup depth left right := by
  rw [flexTo, placeAccent_startContour]
  rfl

theorem placeAccent_startFlex : d.placeAccent.startFlex = d.startFlex := by
  rw [startFlex, placeAccent_placeAccent]
  rfl

theorem placeAccent_setPoint (p : Point) : d.placeAccent.setPoint p = d.setPoint p := by
  rw [setPoint, placeAccent_placeAccent]
  rfl

theorem absolute_placeAccent (p : Point) : d.placeAccent.absolute p = d.absolute p := by
  rcases d.placeAccent_cases with ⟨bearing, shift, hpart, h⟩ | ⟨-, h⟩ <;> rw [h]
  rw [absolute, absolute, hpart]

/-- An accent is placed afterwards, and nothing else is. -/
theorem isPlaced_placeAccent :
    d.placeAccent.part.isPlaced = true ↔ d.part.Fits [.accent] := by
  rcases d.placeAccent_cases with ⟨bearing, shift, hpart, h⟩ | ⟨hpart, h⟩ <;> rw [h]
  · rw [hpart]
    exact ⟨fun _ => rfl, fun _ => rfl⟩
  · cases hd : d.part with
    | glyph => exact ⟨nofun, nofun⟩
    | base bearing => exact ⟨nofun, fun ⟨_, _, h⟩ => nomatch h⟩
    | accent bearing shift placed =>
      cases placed with
      | false => exact absurd hd (hpart bearing shift)
      | true => exact ⟨fun _ => rfl, fun _ => rfl⟩

end Decoder

/-! ## Instructions that place the accent -/

/-- There is room for as many values as were taken off. -/
theorem Operands.append?_of_split? {s t : Operands} {n : Nat} {v : Vector Number n}
    (h : s.split? n = some (t, v)) (values : List Number) (hle : values.length ≤ n) :
    ∃ u, t.append? values = some u := by
  unfold split? at h
  split at h
  · next hn =>
    cases h
    refine Option.ne_none_iff_exists'.1 fun hnone => ?_
    have hfull := append?_eq_none_iff.1 hnone
    have := s.length_le
    unfold size at hn hfull
    rw [List.length_take] at hfull
    omega
  · cases h

namespace Decode

variable {α β : Type}

/-- The computation fails before it draws, or it does the same as after the accent is placed. -/
def Places (setup : Setup) (x : Decode α) (d : Decoder) : Prop :=
  (∃ v e, x d = .ok v e ∧ x d.placeAccent = .ok v e ∧ e.part = d.placeAccent.part) ∨
    ∃ y e, x d = .error y e ∧ Changes setup .quiet d e

/-- What only looks at the operands can come before. -/
theorem places_bind {x : Decode α} {k : α → Decode β} {d : Decoder} (hx : Makes setup .quiet x)
    (h : ∀ v e, x d = .ok v e → x d.placeAccent = .ok v e.placeAccent ∧
      Changes setup .quiet d e ∧ e.placeAccent.part = d.placeAccent.part ∧
      Places setup (k v) e) :
    Places setup (x >>= k) d := by
  rcases bind_cases x k d with ⟨y, e, hd, hbind⟩ | ⟨v, e, hd, hbind⟩
  · have he := hx d
    rw [hd] at he
    exact .inr ⟨y, e, hbind, he⟩
  · obtain ⟨hplaced, hde, hpart, hk⟩ := h v e hd
    rcases hk with ⟨w, c, hc, hc', hcpart⟩ | ⟨y, c, hc, hchanges⟩
    · exact .inl ⟨w, c, hbind.trans hc, (bind_run hplaced).trans hc', hcpart.trans hpart⟩
    · exact .inr ⟨y, c, hbind.trans hc, hde.trans hchanges⟩

theorem places_modify_bind {f : Decoder → Decoder} {k : Unit → Decode β} {d : Decoder}
    (hc : ∀ d, Change setup .quiet d (f d)) (hf : (f d).placeAccent = f d.placeAccent)
    (hpart : (f d.placeAccent).part = d.placeAccent.part) (hk : Places setup (k ()) (f d)) :
    Places setup (modify f >>= k) d := by
  refine places_bind (makes_modify hc) fun _ e h => ?_
  cases h
  exact ⟨congrArg _ hf.symm, .single (hc d), (congrArg Decoder.part hf).trans hpart, hk⟩

theorem places_arguments {n : Nat} {k : Vector Number n → Decode β} {d : Decoder}
    (hk : ∀ v, Places setup (k v) d) : Places setup (arguments n >>= k) d := by
  refine places_bind (makes_arguments n) fun v e h => ?_
  obtain ⟨hv, rfl⟩ := arguments_eq_ok h
  rw [← d.placeAccent_operands] at hv
  exact ⟨arguments_run hv, .refl, rfl, hk v⟩

/-- A change that places the accent itself. -/
theorem places_modify {f : Decoder → Decoder} {d : Decoder} (hf : f d.placeAccent = f d)
    (hpart : (f d).part = d.placeAccent.part) :
    Places setup (do modify f; clear; return Control.next) d := by
  refine .inl ⟨.next, { f d with operands := .empty }, rfl, ?_, hpart⟩
  rw [modify_bind_run, hf]
  rfl

theorem places_draw {n : Nat} {f : Vector Number n → Decoder → Decoder} {d : Decoder}
    (h : ∀ v, f v d.placeAccent = f v d ∧ (f v d).part = d.placeAccent.part) :
    Places setup (draw n f) d :=
  places_arguments fun v => places_modify (h v).1 (h v).2

theorem move_run {delta : Point} {d : Decoder} (h : d.flex.active = false) :
    move delta d = .ok () (d.moveBy delta) := by
  rw [move, get_bind_run, h]
  rfl

/-- A move outside of a flex. -/
theorem places_moveWith {n : Nat} {delta : Vector Number n → Point} {d : Decoder}
    (hflex : d.flex.active = false) : Places setup (moveWith n delta) d := by
  refine places_arguments fun v => .inl ⟨_, _, bind_run (move_run hflex), ?_, rfl⟩
  rw [bind_run (move_run (d.placeAccent_flex ▸ hflex)), d.placeAccent_moveBy]
  rfl

theorem places_take {n : Nat} {k : Vector Number n → Decode β} {d : Decoder}
    (hk : ∀ operands v, d.operands.split? n = some (operands, v) →
      Places setup (k v) { d with operands }) :
    Places setup (take n >>= k) d := by
  refine places_bind (makes_take n) fun v e h => ?_
  obtain ⟨operands, hsplit, rfl⟩ := take_cases h
  refine ⟨?_, .single (.operands _), ?_, hk operands v hsplit⟩
  · rw [d.placeAccent_setOperands operands]
    rw [← d.placeAccent_operands] at hsplit
    exact take_run hsplit
  · rw [d.placeAccent_setOperands operands]

theorem places_get {k : Decoder → Decode β} {d : Decoder} (hsame : k d.placeAccent = k d)
    (hk : Places setup (k d) d) : Places setup (get >>= k) d := by
  rcases hk with ⟨w, c, hc, hc', hpart⟩ | herror
  · exact .inl ⟨w, c, hc, (congrFun hsame _).trans hc', hpart⟩
  · exact .inr herror

theorem places_flexTo {depth : Number} {left right : Curve} {values : List Number}
    {operands : Operands} {d : Decoder} (h : d.operands.append? values = some operands) :
    Places setup (do modify (·.flexTo setup depth left right); pushAll values) d := by
  rw [← d.startContour_operands] at h
  refine .inl ⟨(), { d.flexTo setup depth left right with operands }, pushAll_run h, ?_,
    d.startContour_part⟩
  rw [modify_bind_run, d.placeAccent_flexTo]
  exact pushAll_run h

/-- The end of a flex. The point goes back on the stack, where there is room for it. -/
theorem places_endFlex (n : Nat) (d : Decoder) : Places setup (endFlex setup n) d := by
  unfold endFlex
  refine places_get (by rw [d.placeAccent_flex]) ?_
  dsimp only
  split
  · refine places_modify_bind (fun _ => .flex _) (d.placeAccent_setFlex _) rfl ?_
    refine places_take fun operands v hsplit => ?_
    obtain ⟨rest, hrest⟩ := Operands.append?_of_split? hsplit [v.second, v.third] (Nat.le_succ 2)
    exact places_get (by rw [Decoder.absolute_placeAccent]) (places_flexTo hrest)
  · exact .inr ⟨_, _, rfl, .single (.note _)⟩

theorem places_performOtherSubr {subr : OtherSubr} (h : subr.activity.places) (n : Nat)
    (d : Decoder) : Places setup (performOtherSubr setup n subr) d := by
  cases subr with
  | startFlex =>
    refine .inl ⟨(), d.startFlex, rfl, ?_, rfl⟩
    rw [← d.placeAccent_startFlex]
    rfl
  | endFlex => exact places_endFlex n d
  | _ => cases h

theorem places_callOtherSubr {subr : OtherSubr} {d : Decoder}
    (h : OtherSubr.selected? d.operands.toList = some subr) (hplaces : subr.activity.places) :
    Places setup (callOtherSubr setup) d := by
  rcases callOtherSubr_cases setup d with ⟨n, subr', operands, hsubr, hrun⟩ | herror
  · obtain rfl := Option.some.inj (hsubr.symm.trans h)
    have hd := hrun d rfl
    have hplaced := hrun d.placeAccent d.placeAccent_operands
    rw [← d.placeAccent_setOperands operands] at hplaced
    rcases places_performOtherSubr hplaces n { d with operands } with
      ⟨v, e, he, he', hpart⟩ | ⟨y, e, he, hchanges⟩
    · refine .inl ⟨v, e, hd.trans he, hplaced.trans he', hpart.trans ?_⟩
      rw [d.placeAccent_setOperands operands]
    · exact .inr ⟨y, e, hd.trans he, .head (.operands operands) hchanges⟩
  · exact .inr herror

theorem places_perform {op : Operator} {d : Decoder} (h : (op.activity d).places) :
    Places setup (perform setup op) d := by
  have moved {n : Nat} {delta : Vector Number n → Point}
      (h : (if d.flex.active then Activity.quiet else .moves).places) :
      Places setup (moveWith n delta) d := by
    refine places_moveWith (Bool.eq_false_iff.2 fun hflex => ?_)
    rw [if_pos hflex] at h
    cases h
  cases op with
  | rmoveto | hmoveto | vmoveto => exact moved h
  | rlineto | hlineto | vlineto =>
    exact places_draw fun _ => ⟨d.placeAccent_lineBy _, d.startContour_part⟩
  | rrcurveto | vhcurveto | hvcurveto =>
    exact places_draw fun _ => ⟨d.placeAccent_curveBy _ _ _, d.startContour_part⟩
  | setcurrentpoint => exact places_draw fun _ => ⟨d.placeAccent_setPoint _, rfl⟩
  | callothersubr =>
    have hquiet : Operator.callothersubr.activity d ≠ .quiet := fun hquiet => by
      rw [hquiet] at h
      cases h
    obtain ⟨subr, hsubr, hactivity⟩ := activity_callothersubr rfl hquiet
    rw [← hactivity] at h
    have hcall : Places setup (callOtherSubr setup) d := places_callOtherSubr hsubr h
    rcases hcall with ⟨_, e, he, he', hpart⟩ | ⟨y, e, he, hchanges⟩
    · exact .inl ⟨.next, e, bind_run he, bind_run he', hpart⟩
    · exact .inr ⟨y, e, bind_run_error he, hchanges⟩
  | _ => cases h

/-- An instruction that places the accent fails before it draws, or it does the same as after the
accent is placed. -/
theorem execute_places (setup : Setup) {i : Instruction} {d : Decoder} (h : (i.activity d).places) :
    (∃ control e, execute setup i d = .ok control e ∧
      execute setup i d.placeAccent = .ok control e ∧ e.part = d.placeAccent.part) ∨
    ∃ x e, execute setup i d = .error x e ∧ Changes setup .quiet (i.begin d) e := by
  cases i with
  | operator op =>
    have hbegan : execute setup (.operator op) d.placeAccent =
        perform setup op (d.record (.began op d.operands.toList)).placeAccent := by
      rw [d.placeAccent_record, ← d.placeAccent_operands]
      rfl
    rw [hbegan, ← show (d.record (.began op d.operands.toList)).placeAccent.part =
      d.placeAccent.part by rw [d.placeAccent_record]; rfl]
    exact places_perform (d := d.record (.began op d.operands.toList)) h
  | _ => cases h

end Decode

/-! ## Other instructions -/

theorem Decoder.segments_record (event : Event) (d : Decoder)
    (h : ∀ x ∈ event.element?, x.isSegment = false) : (d.record event).segments = d.segments := by
  unfold segments
  rw [d.elements_record, List.filter_append]
  cases hx : event.element? with
  | none => exact List.append_nil _
  | some x =>
    rw [Option.toList_some, List.filter_cons_of_neg (by rw [h x hx]; nofun)]
    exact List.append_nil _

theorem Decoder.segments_hintStem (setup : Setup) (kind : StemKind) (position extent : Number)
    (d : Decoder) : (d.hintStem setup kind position extent).segments = d.segments := by
  have hstem (x : Element) (d e : Decoder) (hx : x.isSegment = false)
      (h : e.elements = d.elements) : (e.report x).segments = d.segments := by
    rw [report, e.segments_record _ fun y hy => by cases hy; exact hx, segments, h]
    rfl
  unfold hintStem
  dsimp only
  split <;> exact hstem _ _ _ rfl rfl

/-- No segment has come about, and the accent is placed afterwards if it was before. -/
structure Decoder.Unplaced (d e : Decoder) : Prop where
  segments : e.segments = d.segments
  isPlaced : e.part.isPlaced = d.part.isPlaced
  part {bearing shift : Point} {placed : Bool} : d.part = .accent bearing shift placed →
    ∃ bearing', e.part = .accent bearing' shift placed

namespace Decoder.Unplaced

variable {d e c : Decoder}

theorem refl (d : Decoder) : d.Unplaced d := ⟨rfl, rfl, fun h => ⟨_, h⟩⟩

theorem trans (h : d.Unplaced e) (h' : e.Unplaced c) : d.Unplaced c := by
  refine ⟨h'.segments.trans h.segments, h'.isPlaced.trans h.isPlaced, fun hd => ?_⟩
  obtain ⟨_, he⟩ := h.part hd
  exact h'.part he

/-- What leaves segments and part alone places nothing. -/
theorem of_eq (hsegments : e.segments = d.segments) (hpart : e.part = d.part) : d.Unplaced e :=
  ⟨hsegments, congrArg Part.isPlaced hpart, fun hd => ⟨_, hpart.trans hd⟩⟩

theorem record (event : Event) (h : ∀ x ∈ event.element?, x.isSegment = false) :
    d.Unplaced (d.record event) :=
  of_eq (d.segments_record event h) rfl

end Decoder.Unplaced

/-- A change of an activity that places no accent. -/
theorem Change.unplaced {a : Activity} {d e : Decoder} (h : Change setup a d e)
    (ha : a.places = false) : d.Unplaced e := by
  have reported {c : Decoder} {x : Element} (hx : x.isSegment = false) (hc : d.Unplaced c) :
      d.Unplaced (c.report x) :=
    hc.trans (.record (.element x) fun y hy => by cases hy; exact hx)
  cases h with
  | move | set | line | curve | startFlex | flexTo => cases ha
  | note n => exact .record (.noted n) nofun
  | lookedUp code offset => exact .record (.lookedUp code offset) nofun
  | operator code operands => exact reported rfl (.refl d)
  | accented shift parts => exact reported rfl (.refl d)
  | width bearing width hpart hwidth =>
    exact reported (c := { d with bearing, width := some width }) rfl (.of_eq rfl rfl)
  | stem kind position extent hkind =>
    exact .of_eq (d.segments_hintStem setup kind _ _) (d.hintStem_part setup kind _ _)
  | counterStem vertical near far =>
    exact reported (c := { d with hintsDue := false, groupDue := false }) rfl (.of_eq rfl rfl)
  | bearing bearing =>
    refine ⟨rfl, ?_, fun {b shift placed} hpart => ⟨bearing, ?_⟩⟩
    · show (d.part.withBearing bearing).isPlaced = _
      cases d.part <;> rfl
    · show d.part.withBearing bearing = _
      rw [hpart]
      rfl
  | _ => exact .of_eq rfl rfl

theorem Decode.unplaced_of_changes {a : Activity} {i : Instruction} {d e : Decoder}
    (h : Changes setup a (i.begin d) e) (ha : a.places = false) : d.Unplaced e := by
  have hbegin : d.Unplaced (i.begin d) := by
    cases i with
    | operator op => exact .record (.began op d.operands.toList) nofun
    | _ => exact .refl d
  exact h.keeps (P := d.Unplaced) (fun _ _ hc hd => hd.trans (hc.unplaced ha)) hbegin

/-- Whether the accent is placed after an instruction. -/
theorem Decode.isPlaced_execute {i : Instruction} {d e : Decoder} {control : Control}
    (h : execute setup i d = .ok control e) :
    e.part.isPlaced = true ↔
      d.part.isPlaced = true ∨ (d.part.Fits [.accent] ∧ (i.activity d).places = true) := by
  cases ha : (i.activity d).places with
  | false =>
    have hchanges := changes_execute setup i d
    rw [h] at hchanges
    have he : d.Unplaced e := unplaced_of_changes hchanges ha
    rw [he.isPlaced]
    exact ⟨.inl, fun h => h.resolve_right fun h => nomatch h.2⟩
  | true =>
    have hpart : e.part = d.placeAccent.part := by
      rcases execute_places setup ha with ⟨control', e', he, -, hpart⟩ | ⟨x, e', he, -⟩
      · cases h.symm.trans he
        exact hpart
      · cases h.symm.trans he
    have hfits : d.part.isPlaced = true → d.part.Fits [.accent] := by
      cases d.part with
      | accent => exact fun _ => rfl
      | _ => nofun
    rw [hpart, d.isPlaced_placeAccent]
    exact ⟨fun h => .inr ⟨h, rfl⟩, fun h => h.elim hfits (·.1)⟩

/-! ## Runs -/

namespace Run

variable {s : Source} {offset : Nat} {st : Source.State} {n : Nat} {m : Moment s}

/-- An instruction that places accents was executed before, while an accent was decoded. -/
def PlacedBefore (run : Nat → Status s) (n : Nat) : Prop :=
  ∃ k < n, ∃ l i d, run k = .running l ∧ .accent ∈ l.frames ∧ l.Executes i d ∧
    (i.activity d).places = true

theorem placedBefore_succ {run : Nat → Status s} {l : Moment s} {i : Instruction} {d : Decoder}
    (hl : run n = .running l) (hi : l.Executes i d) :
    PlacedBefore run (n + 1) ↔
      PlacedBefore run n ∨ (.accent ∈ l.frames ∧ (i.activity d).places = true) := by
  constructor
  · rintro ⟨k, hk, l', i', d', hl', hframes, hi', hplaces⟩
    rcases Nat.lt_succ_iff_lt_or_eq.1 hk with hlt | rfl
    · exact .inl ⟨k, hlt, l', i', d', hl', hframes, hi', hplaces⟩
    · obtain rfl := Status.running.inj (hl.symm.trans hl')
      obtain ⟨rfl, rfl⟩ := hi.unique hi'
      exact .inr ⟨hframes, hplaces⟩
  · rintro (⟨k, hk, h⟩ | ⟨hframes, hplaces⟩)
    · exact ⟨k, Nat.lt_succ_of_lt hk, h⟩
    · exact ⟨n, Nat.lt_succ_self n, l, i, d, hl, hframes, hi, hplaces⟩

/-- No part of an accented character begins with its accent placed. -/
theorem isPlaced_onward {d c : Decoder} (h : d.Onward c) : c.part.isPlaced = d.part.isPlaced := by
  cases h with
  | same => rfl
  | base hpart => rw [hpart]; rfl
  | accent bearing shift hpart => rw [hpart]; rfl

/-- The accent is placed once an instruction that places accents was executed. -/
theorem isPlaced_iff (h : after s setup offset st n = .running m) :
    m.decoder.part.isPlaced = true ↔ PlacedBefore (after s setup offset st) n := by
  induction n generalizing m with
  | zero =>
    obtain ⟨-, calls, hm⟩ := resume_passage h
    rw [hm, Decoder.recordCalls_part]
    exact ⟨nofun, fun ⟨_, hk, _⟩ => absurd hk (Nat.not_lt_zero _)⟩
  | succ n ih =>
    obtain ⟨l, hl, i, d, control, e, c, calls, hi, hx, hc, hm⟩ := passage h
    have hpart : d.part = l.decoder.part := by
      obtain ⟨next, calls, -, rfl⟩ := hi
      exact l.decoder.recordCalls_part calls
    rw [hm, c.recordCalls_part, isPlaced_onward hc, Decode.isPlaced_execute hx,
      placedBefore_succ hl hi, ← ih hl, ← (fits hl).accent_iff, hpart, Part.fits_accent_iff]

/-- Whether the accent is placed, in a run that goes on. -/
def isPlaced? : Status s → Option Bool
  | .running m => some m.decoder.part.isPlaced
  | .ended _ => none

theorem running_of_isPlaced? {x : Status s} {placed : Bool} (h : isPlaced? x = some placed) :
    ∃ m, x = .running m ∧ m.decoder.part.isPlaced = placed := by
  cases x with
  | running m => exact ⟨m, rfl, Option.some.inj h⟩
  | ended outcome => cases h

end Run

/-- The accent is placed at a moment of a run exactly if an instruction that places accents was
executed before while the accent was decoded, so by the first of these and for good. Any other
instruction of the accent, and one that fails, reports no segment and leaves the accent where it is.
One that places it and succeeds does what it does if the shift is added first. -/
theorem accent_shifted_once (s : Source) (font : Font) (settings : Settings) (takes : Capabilities)
    (offset : Nat) (st : Source.State) :
    let setup := Setup.of font settings takes
    let run := Run.after s setup offset st
    ∀ n m, run n = .running m →
      ((∃ bearing shift placed, m.decoder.part = .accent bearing shift placed) ↔
        .accent ∈ m.frames) ∧
      (m.decoder.part.isPlaced = true ↔ Run.PlacedBefore run n) ∧
      ∀ i d bearing shift placed, m.Executes i d → d.part = .accent bearing shift placed →
        let e := Decode.final (Decode.execute setup i d)
        ((i.activity d).places = false ∨ (∃ x, Decode.execute setup i d = .error x e) →
          e.segments = d.segments ∧ ∃ bearing', e.part = .accent bearing' shift placed) ∧
        ((i.activity d).places = true → ∀ control, Decode.execute setup i d = .ok control e →
          Decode.execute setup i d.placeAccent = .ok control e ∧
          e.part = .accent bearing shift true) := by
  intro setup run n m hm
  refine ⟨(Run.fits hm).accent_iff, Run.isPlaced_iff hm, fun i d bearing shift placed hi hd => ?_⟩
  have hchanges := Decode.changes_execute setup i d
  constructor
  · intro h
    -- Whatever does not place leaves no segment, and what places does so first, unless it fails
    -- before.
    have hunplaced : d.Unplaced (Decode.final (Decode.execute setup i d)) := by
      cases ha : (i.activity d).places with
      | false => exact Decode.unplaced_of_changes hchanges ha
      | true =>
        obtain ⟨x, hx⟩ := h.resolve_left (by rw [ha]; nofun)
        rcases Decode.execute_places setup ha with ⟨c, e, he, -⟩ | ⟨y, e, he, hquiet⟩
        · cases hx.symm.trans he
        · rw [he]
          exact Decode.unplaced_of_changes hquiet rfl
    exact ⟨hunplaced.segments, hunplaced.part hd⟩
  · intro ha control hx
    rcases Decode.execute_places setup ha with ⟨c, e, he, he', hpart⟩ | ⟨y, e, he, -⟩
    · obtain ⟨rfl, hfinal⟩ := EStateM.Result.ok.inj (hx.symm.trans he)
      rw [hfinal]
      refine ⟨he', hpart.trans ?_⟩
      rcases d.placeAccent_cases with ⟨b, sh, hpart, h⟩ | ⟨hpart, h⟩ <;> rw [h]
      · cases hd.symm.trans hpart
        rfl
      · cases placed with
        | false => exact absurd hd (hpart bearing shift)
        | true => exact hd
    · cases hx.symm.trans he

/-- An accent that gives a side bearing and a stem is placed by the move after them. -/
theorem accent_shifted_once_move :
    let run := Run.after (.memory Renewing.data none)
      (.of (Aacute.font 12 29) Aacute.settings {}) 0 {}
    ¬ Run.PlacedBefore run 24 ∧ Run.PlacedBefore run 25 := by
  intro run
  obtain ⟨m, hm, hunplaced⟩ := Run.running_of_isPlaced?
    (by decide +kernel : Run.isPlaced? (run 24) = some false)
  obtain ⟨m', hm', hplaced⟩ := Run.running_of_isPlaced?
    (by decide +kernel : Run.isPlaced? (run 25) = some true)
  have h := accent_shifted_once _ _ _ _ _ _ 24 m hm
  have h' := accent_shifted_once _ _ _ _ _ _ 25 m' hm'
  refine ⟨fun hbefore => ?_, h'.2.1.1 hplaced⟩
  cases hunplaced.symm.trans (h.2.1.2 hbefore)

end Type1
