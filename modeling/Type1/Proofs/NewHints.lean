import Type1.Proofs.Moments
import Type1.Proofs.Renewal

/-!
# Stems that start a new set of hints

Which stems do can be told from the marks that a history leaves: where new hints were asked for,
where a contour was started, and where a stem was given.

* `Event.mark?`, `marks`: the marks of a history.
* `Due`, `ImplicitlyDue`: when a stem starts a new set of hints, because it was asked for or because
  a contour was started.
* `HintState`: how the state of a decoding reflects its history. Changes keep it
  (`Change.hintState`).
* `newHints_iff`: the stems of a decoding that start a new set of hints.
-/

namespace Type1

/-- What matters for the stems that start a new set of hints. -/
inductive Mark where
  /-- A new set of hints was asked for. -/
  | renewal
  /-- A contour was started. -/
  | contour
  /-- A stem was given. -/
  | stem
  /-- A stem of a counter group was given. -/
  | counter
deriving DecidableEq, Repr

/-- The mark of a stem. -/
def StemKind.mark (kind : StemKind) : Mark := if kind.counter then .counter else .stem

/-- The mark that an event leaves, if it matters. -/
def Event.mark? : Event → Option Mark
  | element (.moveTo _) => some .contour
  | element (.stem kind _ _) => some kind.mark
  | began .callothersubr operands =>
    if OtherSubr.selected? operands = some .renewHints then some .renewal else none
  | _ => none

/-- The marks that a history leaves. -/
def marks (events : List Event) : List Mark := events.filterMap Event.mark?

/-- A new set of hints was asked for, and no stem was given since then. -/
def Due (ms : List Mark) : Prop :=
  ∃ before after, ms = before ++ .renewal :: after ∧ .stem ∉ after ∧ .counter ∉ after

/-- A contour was started, a new set of hints was not asked for, and no stem was given after a
contour was started, apart from stems of counter groups. -/
def ImplicitlyDue (ms : List Mark) : Prop :=
  .contour ∈ ms ∧ .renewal ∉ ms ∧ ¬ [Mark.contour, .stem].Sublist ms

/-- A stem that comes after a history starts a new set of hints if one is due. -/
def Renews (events : List Event) (kind : StemKind) : Prop :=
  kind.newHints = true ↔
    Due (marks events) ∨ (kind.counter = false ∧ ImplicitlyDue (marks events))

theorem marks_append (events later : List Event) :
    marks (events ++ later) = marks events ++ marks later :=
  List.filterMap_append

theorem due_concat {ms : List Mark} {m : Mark} :
    Due (ms ++ [m]) ↔ m = .renewal ∨ (Due ms ∧ m ≠ .stem ∧ m ≠ .counter) := by
  constructor
  · rintro ⟨before, after, h, hstem, hcounter⟩
    rcases List.eq_nil_or_concat after with rfl | ⟨rest, x, rfl⟩
    · exact .inl (List.singleton_inj.1 (List.append_inj' h rfl).2)
    · rw [List.concat_eq_append, ← List.cons_append, ← List.append_assoc] at h
      obtain ⟨rfl, hx⟩ := List.append_inj' h rfl
      obtain rfl := List.singleton_inj.1 hx
      rw [List.concat_eq_append, List.mem_append, List.mem_singleton, not_or] at hstem hcounter
      exact .inr ⟨⟨before, rest, rfl, hstem.1, hcounter.1⟩, Ne.symm hstem.2, Ne.symm hcounter.2⟩
  · rintro (rfl | ⟨⟨before, after, rfl, hstem, hcounter⟩, hs, hc⟩)
    · exact ⟨ms, [], rfl, List.not_mem_nil, List.not_mem_nil⟩
    · refine ⟨before, after ++ [m], by rw [List.append_assoc, List.cons_append], ?_, ?_⟩ <;>
        rw [List.mem_append, List.mem_singleton, not_or]
      · exact ⟨hstem, hs.symm⟩
      · exact ⟨hcounter, hc.symm⟩

/-- A stem that comes last comes after a contour, or the stem before does. -/
theorem sublist_concat {ms : List Mark} {m : Mark} :
    [Mark.contour, .stem].Sublist (ms ++ [m]) ↔
      [Mark.contour, .stem].Sublist ms ∨ (.contour ∈ ms ∧ m = .stem) := by
  rw [← List.reverse_sublist, List.reverse_append, List.reverse_singleton, List.singleton_append,
    List.sublist_cons_iff, ← @List.reverse_sublist _ _ ms]
  refine or_congr_right ⟨?_, ?_⟩
  · rintro ⟨r, hr, hsub⟩
    obtain ⟨rfl, rfl⟩ := List.cons.inj hr
    exact ⟨List.mem_reverse.1 (List.singleton_sublist.1 hsub), rfl⟩
  · rintro ⟨hmem, rfl⟩
    exact ⟨[.contour], rfl, List.singleton_sublist.2 (List.mem_reverse.2 hmem)⟩

/-! ## What the state tells of the history -/

/-- Each stem in a history starts a new set of hints if one is due. -/
def Lawful (events : List Event) : Prop :=
  ∀ before kind near far after,
    events = before ++ .element (.stem kind near far) :: after → Renews before kind

theorem lawful_concat {events : List Event} {event : Event} :
    Lawful (events ++ [event]) ↔
      Lawful events ∧ ∀ kind near far, event = .element (.stem kind near far) →
        Renews events kind := by
  constructor
  · intro h
    refine ⟨fun before kind near far after hevents => ?_, fun kind near far hevent => ?_⟩
    · refine h before kind near far (after ++ [event]) ?_
      rw [hevents, List.append_assoc, List.cons_append]
    · exact h events kind near far [] (by rw [hevent])
  · rintro ⟨hevents, hlast⟩ before kind near far after h
    rcases List.eq_nil_or_concat after with rfl | ⟨rest, x, rfl⟩
    · obtain ⟨rfl, hx⟩ := List.append_inj' h rfl
      exact hlast kind near far (List.singleton_inj.1 hx)
    · rw [List.concat_eq_append, ← List.cons_append, ← List.append_assoc] at h
      obtain ⟨rfl, -⟩ := List.append_inj' h rfl
      exact hevents before kind near far rest rfl

/-- How the state of a decoding reflects its history. -/
structure HintState (d : Decoder) : Prop where
  moved : d.moved = true ↔ .contour ∈ marks d.events
  renewed : d.hintsRenewed = true ↔
    .renewal ∈ marks d.events ∨ [Mark.contour, .stem].Sublist (marks d.events)
  due : d.hintsDue = true ↔ Due (marks d.events)
  stems : Lawful d.events

namespace HintState

variable {setup : Setup} {d e : Decoder}

/-- It depends on what it mentions alone. -/
theorem of_eq (h : HintState d) (hmoved : e.moved = d.moved)
    (hrenewed : e.hintsRenewed = d.hintsRenewed) (hdue : e.hintsDue = d.hintsDue)
    (hevents : e.events = d.events) : HintState e := by
  constructor
  · rw [hmoved, hevents]
    exact h.moved
  · rw [hrenewed, hevents]
    exact h.renewed
  · rw [hdue, hevents]
    exact h.due
  · rw [hevents]
    exact h.stems

/-- Events that do not matter can be recorded. -/
theorem record (h : HintState d) (event : Event) (hmark : event.mark? = none) :
    HintState (d.record event) := by
  have hmarks : marks (d.record event).events = marks d.events := by
    rw [d.events_record, marks_append, marks, marks, List.filterMap_cons_none hmark]
    exact List.append_nil _
  constructor
  · rw [hmarks]
    exact h.moved
  · rw [hmarks]
    exact h.renewed
  · rw [hmarks]
    exact h.due
  · rw [d.events_record, lawful_concat]
    refine ⟨h.stems, ?_⟩
    rintro kind near far rfl
    cases hmark

theorem report (h : HintState d) {x : Element} (hmark : (Event.element x).mark? = none) :
    HintState (d.report x) :=
  h.record (.element x) hmark

theorem setPoint (h : HintState d) (p : Point) : HintState { d with point := p } :=
  h.of_eq rfl rfl rfl rfl

theorem placeAccent (h : HintState d) : HintState d.placeAccent := by
  unfold Decoder.placeAccent
  split
  · exact h.of_eq rfl rfl rfl rfl
  · exact h

theorem openContour (h : HintState d) : HintState d.openContour := by
  have hevents : d.openContour.events = d.events ++ [.element (.moveTo d.point)] :=
    Decoder.events_record _ _
  have hmarks : marks d.openContour.events = marks d.events ++ [.contour] := by
    rw [hevents, marks_append]
    rfl
  constructor
  · rw [hmarks]
    exact ⟨fun _ => List.mem_append_right _ (List.mem_singleton_self _), fun _ => rfl⟩
  · rw [hmarks, sublist_concat, List.mem_append, List.mem_singleton]
    show d.hintsRenewed = true ↔ _
    simpa using h.renewed
  · rw [hmarks, due_concat]
    show d.hintsDue = true ↔ _
    simpa using h.due
  · rw [hevents]
    simpa [lawful_concat] using h.stems

theorem startContour (h : HintState d) : HintState d.startContour := by
  unfold Decoder.startContour
  dsimp only
  split
  · exact h.placeAccent.openContour
  · exact h.placeAccent

/-- A stem is given. -/
theorem afterStem (h : HintState d) {kind : StemKind} {near far : Number}
    (hevents : e.events = d.events ++ [.element (.stem kind near far)]) (hmoved : e.moved = d.moved)
    (hdue : e.hintsDue = false) (hrenews : Renews d.events kind)
    (hrenewed : e.hintsRenewed = true ↔
      d.hintsRenewed = true ∨ (d.moved = true ∧ kind.counter = false)) : HintState e := by
  have hmarks : marks e.events = marks d.events ++ [kind.mark] := by
    rw [hevents, marks_append]
    rfl
  have hmark : kind.mark = .stem ∧ kind.counter = false ∨
      kind.mark = .counter ∧ kind.counter = true := by
    unfold StemKind.mark
    cases kind.counter with
    | false => exact .inl ⟨rfl, rfl⟩
    | true => exact .inr ⟨rfl, rfl⟩
  -- A stem adds its own mark and no other, so whether the others occur is as before.
  have hmem (m : Mark) (hs : m ≠ .stem) (hc : m ≠ .counter) :
      m ∈ marks d.events ++ [kind.mark] ↔ m ∈ marks d.events := by
    rw [List.mem_append, List.mem_singleton]
    refine ⟨fun h => h.resolve_right fun h => ?_, .inl⟩
    rcases hmark with ⟨hm, -⟩ | ⟨hm, -⟩
    · exact hs (h.trans hm)
    · exact hc (h.trans hm)
  constructor
  · rw [hmoved, hmarks, hmem .contour nofun nofun]
    exact h.moved
  · rw [hrenewed, hmarks, hmem .renewal nofun nofun, sublist_concat, h.renewed, h.moved, or_assoc]
    refine or_congr_right (or_congr_right (and_congr_right fun _ => ?_))
    rcases hmark with ⟨hm, hc⟩ | ⟨hm, hc⟩ <;> rw [hm, hc]
    · exact ⟨fun _ => rfl, fun _ => rfl⟩
    · exact ⟨nofun, nofun⟩
  · rw [hdue, hmarks, due_concat]
    refine ⟨nofun, fun hdue => ?_⟩
    rcases hmark with ⟨hm, -⟩ | ⟨hm, -⟩ <;> rw [hm] at hdue
    · exact absurd rfl (hdue.resolve_left nofun).2.1
    · exact absurd rfl (hdue.resolve_left nofun).2.2
  · rw [hevents, lawful_concat]
    refine ⟨h.stems, fun kind' near' far' heq => ?_⟩
    cases heq
    exact hrenews

/-- New hints are asked for. -/
theorem afterRenewal (h : HintState d) (hmarks : marks e.events = marks d.events ++ [.renewal])
    (hstems : Lawful e.events) (hmoved : e.moved = d.moved) (hrenewed : e.hintsRenewed = true)
    (hdue : e.hintsDue = true) : HintState e := by
  constructor
  · rw [hmoved, hmarks, List.mem_append, List.mem_singleton]
    exact h.moved.trans ⟨.inl, fun h => h.resolve_right nofun⟩
  · rw [hmarks]
    exact ⟨fun _ => .inl (List.mem_append_right _ (List.mem_singleton_self _)), fun _ => hrenewed⟩
  · rw [hmarks, due_concat]
    exact ⟨fun _ => .inl rfl, fun _ => hdue⟩
  · exact hstems

theorem counterStem (h : HintState d) (vertical : Bool) (near far : Number) :
    HintState (d.addStem setup { vertical, counter := true } near far) := by
  refine h.afterStem (Decoder.events_record _ _) rfl rfl (h.due.trans ?_) ?_
  · exact ⟨.inl, fun h => h.resolve_right fun h => nomatch h.1⟩
  · exact ⟨.inl, fun h => h.resolve_right fun h => nomatch h.2⟩

/-- A stem of `hstem` and the like starts a new set of hints if one was asked for, or if it is the
first one after a contour was started. -/
theorem hintStem (h : HintState d) {kind : StemKind} (hkind : kind.counter = false)
    (position extent : Number) : HintState (d.hintStem setup kind position extent) := by
  unfold Decoder.hintStem
  dsimp only
  split
  · next himplicit =>
    obtain ⟨hmoved, hrenewed⟩ : d.moved = true ∧ d.hintsRenewed = false := by
      rwa [Bool.and_eq_true, Bool.not_eq_true'] at himplicit
    refine h.afterStem (Decoder.events_record _ _) rfl rfl ?_ ?_
    · refine ⟨fun _ => .inr ⟨hkind, h.moved.1 hmoved, fun hmem => ?_, fun hsub => ?_⟩,
        fun _ => rfl⟩
      · exact absurd (hrenewed.symm.trans (h.renewed.2 (.inl hmem))) nofun
      · exact absurd (hrenewed.symm.trans (h.renewed.2 (.inr hsub))) nofun
    · exact ⟨fun _ => .inr ⟨hmoved, hkind⟩, fun _ => rfl⟩
  · next himplicit =>
    have hrenewed (hmoved : d.moved = true) : d.hintsRenewed = true := by
      rw [hmoved, Bool.true_and, Bool.not_eq_true', Bool.not_eq_false] at himplicit
      exact himplicit
    refine h.afterStem (Decoder.events_record _ _) rfl rfl (h.due.trans ⟨.inl, ?_⟩) ?_
    · rintro (hdue | ⟨-, hcontour, hrenewal, hsub⟩)
      · exact hdue
      · exact absurd (h.renewed.1 (hrenewed (h.moved.2 hcontour))) (not_or.2 ⟨hrenewal, hsub⟩)
    · exact ⟨.inl, fun hr => hr.elim id fun hr => hrenewed hr.1⟩

end HintState

/-! ## Changes and instructions -/

section Instructions

variable {setup : Setup} {d e : Decoder}

/-- The state reflects the history after each change, apart from the request for new hints, which
comes after the call that makes it. -/
theorem Change.hintState {a : Activity} (h : Change setup a d e) (ha : a ≠ .renews)
    (hd : HintState d) : HintState e := by
  cases h with
  | note n => exact hd.record (.noted n) rfl
  | lookedUp code offset => exact hd.record (.lookedUp code offset) rfl
  | operator code operands => exact hd.report rfl
  | accented shift parts => exact hd.report rfl
  | width bearing width hpart hwidth =>
    exact (hd.of_eq (e := { d with bearing, width := some width }) rfl rfl rfl rfl).report rfl
  | move delta => exact (hd.placeAccent.setPoint _).openContour
  | set p => exact hd.placeAccent.setPoint _
  | startFlex => exact hd.placeAccent.of_eq rfl rfl rfl rfl
  | line delta => exact (hd.startContour.setPoint _).report rfl
  | curve p q r => exact (hd.startContour.setPoint _).report rfl
  | flexTo depth left right => exact (hd.startContour.setPoint _).report rfl
  | stem kind position extent hkind => exact hd.hintStem hkind position extent
  | counterStem vertical near far => exact hd.counterStem vertical near far
  | renew => exact absurd rfl ha
  | _ => exact hd.of_eq rfl rfl rfl rfl

/-- What is no call for new hints gives no stem that is not as it should be. -/
theorem Change.lawful_of_quiet (h : Change setup .quiet d e) (hd : Lawful d.events) :
    Lawful e.events := by
  cases h with
  | note n =>
    rw [d.events_record]
    simpa [lawful_concat] using hd
  | operator code operands =>
    rw [Decoder.report, d.events_record]
    simpa [lawful_concat] using hd
  | _ => exact hd

namespace Decode

/-- The call that asks for new hints leaves its mark when it begins. -/
theorem mark?_begin {i : Instruction} (h : i.activity d ≠ .renews) (hd : HintState d) :
    HintState (i.begin d) := by
  cases i with
  | operator op =>
    refine hd.record (.began op d.operands.toList) ?_
    unfold Event.mark?
    split
    · next heq => cases heq
    · next heq => cases heq
    · next operands heq =>
      cases heq
      refine if_neg fun hselected => h ?_
      rw [Instruction.activity, Operator.activity, hselected]
      rfl
    · rfl
  | _ => exact hd

/-- Whatever comes of an instruction, the stems are as they should be, and if it succeeds, the state
reflects the history. -/
theorem execute_hintState (setup : Setup) (i : Instruction) (hd : HintState d) :
    Lawful (final (execute setup i d)).events ∧
      ∀ control e, execute setup i d = .ok control e → HintState e := by
  by_cases ha : i.activity d = .renews
  · obtain ⟨rfl, hselected⟩ := eq_of_renews ha
    have hbegan : Lawful (d.record (.began .callothersubr d.operands.toList)).events := by
      rw [d.events_record]
      simpa [lawful_concat] using hd.stems
    have hmarks : marks (d.record (.began .callothersubr d.operands.toList)).events =
        marks d.events ++ [.renewal] := by
      rw [d.events_record, marks_append]
      refine congrArg (marks d.events ++ ·) ?_
      simp only [marks, List.filterMap_cons, Event.mark?, hselected, if_true, List.filterMap_nil]
    rcases execute_renews setup ha with ⟨operands, hx⟩ | ⟨x, e, hx, hquiet⟩ <;> rw [hx]
    · refine ⟨hbegan, fun control e he => ?_⟩
      cases he
      exact hd.afterRenewal hmarks hbegan rfl rfl rfl
    · have hkeeps := hquiet.keeps (P := fun e => Lawful e.events)
        (fun _ _ hc => hc.lawful_of_quiet) hbegan
      refine ⟨hkeeps, fun control e he => ?_⟩
      cases he
  · have hchanges := changes_execute setup i d
    have hfinal := hchanges.keeps (fun _ _ hc => hc.hintState ha) (mark?_begin ha hd)
    refine ⟨hfinal.stems, fun control e he => ?_⟩
    rwa [he] at hfinal

end Decode

end Instructions

/-! ## The stems of an operator -/

/-- What is told about a stem, if the element is one. -/
def Element.stemKind? : Element → Option StemKind
  | stem kind _ _ => some kind
  | _ => none

/-- What is told about the stems in the history. -/
def Decoder.stemKinds (d : Decoder) : List StemKind := d.elements.filterMap Element.stemKind?

namespace Decoder

variable (setup : Setup) (kind : StemKind) (d : Decoder)

/-- The next stem that belongs to no counter group starts a new set of hints. -/
def renewsNext : Bool := d.hintsDue || (d.moved && !d.hintsRenewed)

theorem stemKinds_addStem (near far : Number) :
    (d.addStem setup kind near far).stemKinds =
      d.stemKinds ++ [{ kind with newHints := d.hintsDue, newGroup := d.groupDue }] := by
  rw [stemKinds, addStem, report, elements_record, List.filterMap_append]
  rfl

theorem stemKinds_hintStem (position extent : Number) :
    (d.hintStem setup kind position extent).stemKinds =
      d.stemKinds ++ [{ kind with newHints := d.renewsNext, newGroup := d.groupDue }] := by
  unfold hintStem renewsNext
  dsimp only
  split
  · next h => rw [stemKinds_addStem, h, Bool.or_true]; rfl
  · next h => rw [stemKinds_addStem, Bool.eq_false_iff.2 h, Bool.or_false]

/-- No stem starts a new set of hints right after another. -/
theorem renewsNext_hintStem (position extent : Number) :
    (d.hintStem setup kind position extent).renewsNext = false := by
  unfold hintStem
  dsimp only
  split
  · show (false || (d.moved && !true)) = false
    rw [Bool.not_true, Bool.and_false, Bool.or_false]
  · next h => exact Bool.eq_false_iff.2 h

theorem groupDue_hintStem (position extent : Number) :
    (d.hintStem setup kind position extent).groupDue = false := by
  unfold hintStem
  dsimp only
  split <;> rfl

/-- Of three stems, only the first one can start a new set of hints. -/
theorem stemKinds_hintStems (v : Vector Number 6) :
    (d.hintStems setup kind v).stemKinds = d.stemKinds ++
      [{ kind with newHints := d.renewsNext, newGroup := d.groupDue },
        { kind with newHints := false, newGroup := false },
        { kind with newHints := false, newGroup := false }] := by
  simp only [hintStems, stemKinds_hintStem, renewsNext_hintStem, groupDue_hintStem,
    List.append_assoc, List.cons_append, List.nil_append]

theorem stemKinds_began (op : Operator) (operands : List Number) :
    (d.record (.began op operands)).stemKinds = d.stemKinds := by
  rw [stemKinds, elements_record]
  exact congrArg (List.filterMap Element.stemKind?) (List.append_nil _)

end Decoder

namespace Decode

variable {setup : Setup} {d e : Decoder} {control : Control}

theorem draw_eq_ok {n : Nat} {f : Vector Number n → Decoder → Decoder}
    (h : draw n f d = .ok control e) : ∃ v, e = { f v d with operands := .empty } := by
  obtain ⟨v, _, hv, h⟩ := bind_eq_ok h
  obtain ⟨-, rfl⟩ := arguments_eq_ok hv
  cases h
  exact ⟨v, rfl⟩

/-- `hstem` and `vstem` give one stem. -/
theorem execute_stem {i : Instruction} (hi : i = .operator .hstem ∨ i = .operator .vstem)
    (h : execute setup i d = .ok control e) :
    ∃ kind, e.stemKinds = d.stemKinds ++ [kind] ∧ kind.counter = false := by
  rcases hi with rfl | rfl <;> obtain ⟨v, rfl⟩ := draw_eq_ok h <;>
    refine ⟨_, (Decoder.stemKinds_hintStem _ _ _ _ _).trans
      (congrArg (· ++ _) (d.stemKinds_began _ _)), ?_⟩ <;> rfl

/-- `hstem3` and `vstem3` give three stems. Only the first of them can start a new set of hints. -/
theorem execute_stem3 {i : Instruction} (hi : i = .operator .hstem3 ∨ i = .operator .vstem3)
    (h : execute setup i d = .ok control e) :
    ∃ kind₁ kind₂ kind₃, e.stemKinds = d.stemKinds ++ [kind₁, kind₂, kind₃] ∧
      kind₁.counter = false ∧ kind₂.counter = false ∧ kind₃.counter = false ∧
      kind₂.newHints = false ∧ kind₃.newHints = false := by
  rcases hi with rfl | rfl <;> obtain ⟨v, rfl⟩ := draw_eq_ok h <;>
    exact ⟨_, _, _, (Decoder.stemKinds_hintStems _ _ _ _).trans
      (congrArg (· ++ _) (d.stemKinds_began _ _)), rfl, rfl, rfl, rfl, rfl⟩

end Decode

/-! ## Runs -/

theorem Run.hint_invariant (setup : Setup) :
    Invariant setup (fun _ _ => True) HintState (fun d => Lawful d.events) where
  called call h := h.record (.called call) rfl
  ok _ h hx := (Decode.execute_hintState setup _ h).2 _ _ hx
  error {i _ _ _} _ h hx := by
    have := (Decode.execute_hintState setup i h).1
    rwa [hx] at this
  fails h := h.stems
  base h := h.of_eq rfl rfl rfl rfl
  accent _ h := h.of_eq rfl rfl rfl rfl
  done h := h.of_eq rfl rfl rfl rfl

theorem Run.lawful_last (s : Source) (setup : Setup) (offset : Nat) (st : Source.State) :
    Lawful (last s setup offset st).events := by
  refine (hint_invariant setup).last ⟨⟨nofun, nofun⟩, ⟨nofun, ?_⟩, ⟨nofun, ?_⟩, ?_⟩
    fun _ _ _ _ _ _ => trivial
  · exact fun h => h.elim nofun nofun
  · rintro ⟨before, after, h, -⟩
    exact absurd h.symm (List.append_ne_nil_of_right_ne_nil _ nofun)
  · intro before kind near far after h
    exact absurd h.symm (List.append_ne_nil_of_right_ne_nil _ nofun)

/-- A stem comes due by a contour once: one that comes after it comes after a stem after a
contour. -/
theorem implicitlyDue_unique {events before before' after after' : List Event}
    {kind kind' : StemKind} {near far near' far' : Number}
    (h : events = before ++ .element (.stem kind near far) :: after)
    (h' : events = before' ++ .element (.stem kind' near' far') :: after')
    (hkind : kind.counter = false) (hkind' : kind'.counter = false)
    (hdue : ImplicitlyDue (marks before)) (hdue' : ImplicitlyDue (marks before')) :
    before = before' := by
  -- A stem of the other position would be among the marks before.
  have earlier {before before' rest : List Event} {kind : StemKind} {near far : Number}
      (hkind : kind.counter = false) (hdue : ImplicitlyDue (marks before))
      (h : before' = before ++ .element (.stem kind near far) :: rest) :
      ¬ ImplicitlyDue (marks before') := by
    rintro ⟨-, -, hsub⟩
    have hmark : marks [.element (.stem kind near far)] = [.stem] := by
      show [kind.mark] = _
      rw [StemKind.mark, hkind]
      rfl
    refine hsub ?_
    rw [h, List.append_cons, marks_append, marks_append, hmark]
    exact (sublist_concat.2 (.inr ⟨hdue.1, rfl⟩)).trans (List.sublist_append_left _ _)
  rcases List.append_eq_append_iff.1 (h.symm.trans h') with ⟨rest, hb, hr⟩ | ⟨rest, hb, hr⟩
  · cases rest with
    | nil => rw [hb, List.append_nil]
    | cons x rest =>
      obtain ⟨rfl, -⟩ := List.cons.inj hr
      exact absurd hdue' (earlier hkind hdue hb)
  · cases rest with
    | nil => rw [hb, List.append_nil]
    | cons x rest =>
      obtain ⟨rfl, -⟩ := List.cons.inj hr
      exact absurd hdue (earlier hkind' hdue' hb)

theorem Settings.stemKind?_place (settings : Settings) (e : Element) :
    (settings.place e).stemKind? = e.stemKind? := by
  unfold place
  cases settings.activeMatrix? with
  | none => rfl
  | some m => cases e <;> rfl

theorem Element.stemKind?_accept {takes : Capabilities} (htakes : takes.stem = true)
    (updateOperators : Bool) (e : Element) :
    (e.accept takes updateOperators).filterMap stemKind? = e.stemKind?.toList := by
  cases e with
  | stem kind near far =>
    rw [accept, if_pos htakes]
    rfl
  | flex depth left right =>
    rw [accept]
    split
    · rfl
    · split <;> rfl
  | accented shift parts => rfl
  | _ =>
    rw [accept]
    split <;> rfl

/-- A receiver that takes stems is given all of them. -/
theorem stemKinds_deliver (settings : Settings) {takes : Capabilities} (htakes : takes.stem = true)
    (elements : List Element) :
    (elements.flatMap (Element.deliver settings takes)).filterMap Element.stemKind? =
      elements.filterMap Element.stemKind? := by
  have hplace : Element.stemKind? ∘ settings.place = Element.stemKind? :=
    funext settings.stemKind?_place
  induction elements with
  | nil => rfl
  | cons e elements ih =>
    rw [List.flatMap_cons, List.filterMap_append, ih, Element.deliver_eq, List.filterMap_map,
      hplace, Element.stemKind?_accept htakes, List.filterMap_cons]
    cases e.stemKind? <;> rfl

/-- A stem starts a new set of hints exactly if one was asked for and no stem was given since then,
or if it belongs to no counter group, a contour was started, no new hints were asked for, and no
such stem was given after a contour. The latter comes about once at most. A receiver that takes
stems is given them all: one for each `hstem` and `vstem`, and three for each `hstem3` and `vstem3`,
of which only the first one can start a new set of hints. -/
theorem newHints_iff (s : Source) (font : Font) (settings : Settings) (takes : Capabilities)
    (offset : Nat) (st : Source.State) :
    let setup := Setup.of font settings takes
    let last := Run.last s setup offset st
    (∀ before kind near far after,
      last.events = before ++ .element (.stem kind near far) :: after →
      (kind.newHints = true ↔
        Due (marks before) ∨ (kind.counter = false ∧ ImplicitlyDue (marks before)))) ∧
    (∀ before kind near far after before' kind' near' far' after',
      last.events = before ++ .element (.stem kind near far) :: after →
      last.events = before' ++ .element (.stem kind' near' far') :: after' →
      kind.newHints = true → ¬ Due (marks before) →
      kind'.newHints = true → ¬ Due (marks before') → before = before') ∧
    (takes.stem = true →
      (parse s font settings takes offset st).1.elements.filterMap Element.stemKind? =
        last.stemKinds) ∧
    ∀ i d control e, Decode.execute setup i d = .ok control e →
      (i = .operator .hstem ∨ i = .operator .vstem →
        ∃ kind, e.stemKinds = d.stemKinds ++ [kind] ∧ kind.counter = false) ∧
      (i = .operator .hstem3 ∨ i = .operator .vstem3 →
        ∃ kind₁ kind₂ kind₃, e.stemKinds = d.stemKinds ++ [kind₁, kind₂, kind₃] ∧
          kind₁.counter = false ∧ kind₂.counter = false ∧ kind₃.counter = false ∧
          kind₂.newHints = false ∧ kind₃.newHints = false) := by
  intro setup last
  have hlaw : Lawful last.events := Run.lawful_last s setup offset st
  refine ⟨hlaw, ?_, fun htakes => ?_, fun i d control e hx => ⟨fun hi => Decode.execute_stem hi hx,
    fun hi => Decode.execute_stem3 hi hx⟩⟩
  · intro before kind near far after before' kind' near' far' after' h h' hnew hdue hnew' hdue'
    -- Both are due implicitly, and that is so only before the first stem of its kind behind a
    -- contour.
    obtain ⟨hkind, himplicit⟩ := ((hlaw before kind near far after h).1 hnew).resolve_left hdue
    obtain ⟨hkind', himplicit'⟩ :=
      ((hlaw before' kind' near' far' after' h').1 hnew').resolve_left hdue'
    exact implicitlyDue_unique h h' hkind hkind' himplicit himplicit'
  · rw [Run.elements_parse]
    exact stemKinds_deliver settings htakes _

end Type1
