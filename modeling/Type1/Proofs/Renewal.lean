import Type1.Proofs.Composition
import Type1.Proofs.Receivers

/-!
# Hints of an accent

The first stem of an accent starts a new set of hints if its base has started a contour, and has
given no stem since it last asked for new hints (`accent_renews_hints`). A base that asked for new
hints and gave stems after that keeps its accent from starting another set
(`accent_of_renewed_base`).
-/

namespace Type1

/-- Whether the element is a stem. -/
def Element.isStem : Element → Bool
  | stem .. => true
  | _ => false

/-- The first of the stems starts a new set of hints, unless it belongs to a counter group. -/
def FirstRenews (elements : List Element) : Prop :=
  ∀ kind near far, elements.find? Element.isStem = some (.stem kind near far) →
    kind.counter = false → kind.newHints = true

theorem find?_append_stem (given : List Element) (kind : StemKind) (near far : Number) :
    (given ++ [Element.stem kind near far]).find? Element.isStem =
      (given.find? Element.isStem).or (some (.stem kind near far)) :=
  List.find?_append

theorem FirstRenews.append_stem {given : List Element} (h : FirstRenews given) {kind : StemKind}
    {near far : Number} (hkind : kind.counter = false → given.find? Element.isStem = none →
      kind.newHints = true) : FirstRenews (given ++ [.stem kind near far]) := by
  intro kind' near' far' hfind hcounter
  rw [find?_append_stem] at hfind
  cases hgiven : given.find? Element.isStem with
  | none =>
    rw [hgiven] at hfind
    cases hfind
    exact hkind hcounter hgiven
  | some x =>
    rw [hgiven] at hfind
    exact h kind' near' far' (hgiven.trans hfind) hcounter

/-! ## The accent -/

/-- What holds while a part is decoded, where `before` are the elements that the glyph had: the
first stem since then starts a new set of hints, or is going to. -/
structure Renewing (before : List Element) (d : Decoder) : Prop where
  part : d.part ≠ .glyph
  given : ∃ given, d.elements = before ++ given ∧ FirstRenews given ∧
    (given.find? Element.isStem = none →
      d.hintsDue = true ∨ (d.moved = true ∧ d.hintsRenewed = false))

namespace Renewing

variable {before : List Element} {d : Decoder} {setup : Setup}

/-- Elements that are no stems make no difference. -/
theorem record (h : Renewing before d) (event : Event)
    (hevent : ∀ x ∈ event.element?, x.isStem = false) : Renewing before (d.record event) := by
  obtain ⟨given, hd, hfirst, hnone⟩ := h.given
  have hfind : (given ++ event.element?.toList).find? Element.isStem =
      given.find? Element.isStem := by
    rw [List.find?_append]
    cases hx : event.element? with
    | none => exact Option.or_none
    | some x =>
      rw [Option.toList_some, List.find?_singleton, hevent x hx]
      exact Option.or_none
  refine ⟨h.part, given ++ event.element?.toList, ?_, ?_, ?_⟩
  · rw [Decoder.elements_record, hd, List.append_assoc]
  · unfold FirstRenews
    rw [hfind]
    exact hfirst
  · rw [hfind]
    exact hnone

theorem renewHints (h : Renewing before d) : Renewing before d.renewHints := by
  obtain ⟨given, hd, hfirst, -⟩ := h.given
  exact ⟨h.part, given, hd, hfirst, fun _ => .inl rfl⟩

/-- A stem makes no difference after the first one, which has to start a new set of hints or to
belong to a counter group. -/
theorem addStem (h : Renewing before d) {kind : StemKind} (near far : Number)
    (hdue : kind.counter = false → ∀ given, d.elements = before ++ given →
      given.find? Element.isStem = none → d.hintsDue = true) :
    Renewing before (d.addStem setup kind near far) := by
  obtain ⟨given, hd, hfirst, -⟩ := h.given
  refine ⟨h.part, given ++ [.stem { kind with newHints := d.hintsDue, newGroup := d.groupDue }
    (d.control setup near) (d.control setup far)], ?_, hfirst.append_stem ?_, fun hnone => ?_⟩
  · rw [Decoder.addStem, Decoder.report, Decoder.elements_record]
    exact (congrArg (· ++ _) hd).trans (List.append_assoc _ _ _)
  · exact fun hcounter => hdue hcounter given hd
  · rw [find?_append_stem, Option.or_eq_none_iff] at hnone
    cases hnone.2

/-- A stem of `hstem` and the like is given after new hints were asked for, if they are due. -/
theorem hintStem (h : Renewing before d) (kind : StemKind) (position extent : Number) :
    Renewing before (d.hintStem setup kind position extent) := by
  obtain ⟨given, hd, hfirst, hnone⟩ := h.given
  have hgiven {t : List Element} (ht : d.elements = before ++ t)
      (hn : t.find? Element.isStem = none) :
      d.hintsDue = true ∨ (d.moved = true ∧ d.hintsRenewed = false) :=
    hnone (List.append_cancel_left (hd.symm.trans ht) ▸ hn)
  unfold Decoder.hintStem
  dsimp only
  split
  · exact h.renewHints.addStem _ _ fun _ _ _ _ => rfl
  · next hold =>
    refine h.addStem _ _ fun _ t ht hn => (hgiven ht hn).resolve_right fun hr => hold ?_
    rw [hr.1, hr.2]
    rfl

theorem kept (before : List Element) (setup : Setup) : Kept setup (Renewing before) where
  setOperands h _ := ⟨h.part, h.given⟩
  closed h := ⟨h.part, h.given⟩
  note h n := h.record (.noted n) nofun
  report h x hx := h.record (.element x) fun y hy => by
    cases hy
    cases x <;> first | rfl | cases hx
  setPoint h _ := ⟨h.part, h.given⟩
  opened h := by
    obtain ⟨given, hd, hfirst, hnone⟩ := h.given
    exact ⟨h.part, given, hd, hfirst, fun hn => (hnone hn).imp_right fun hr => ⟨rfl, hr.2⟩⟩
  placeAccent h := by
    unfold Decoder.placeAccent
    split
    · exact ⟨nofun, h.given⟩
    · exact h
  renewHints h := h.renewHints
  hintStem h := h.hintStem
  setFlex h _ := ⟨h.part, h.given⟩

end Renewing

/-! ## Instructions and levels -/

section Level

variable (before : List Element) (setup : Setup)

/-- States that are the same, in which an accent is decoded. -/
def RenewingSame (d e : Decoder) : Prop := d = e ∧ Renewing before d

theorem counting_renewing : Counting setup (RenewingSame before) where
  counters := by rintro d _ ⟨rfl, -⟩; rfl
  setCounters := by rintro d _ ⟨rfl, h⟩ _; exact ⟨rfl, h.part, h.given⟩
  openGroup := by rintro d _ ⟨rfl, h⟩; exact ⟨rfl, h.part, h.given⟩
  stemOrigin := by rintro d _ ⟨rfl, -⟩; rfl
  counterStem := by rintro d _ ⟨rfl, h⟩ _ _ _; exact ⟨rfl, h.addStem _ _ nofun⟩

theorem storing_renewing : Storing (RenewingSame before) where
  setStorage := by rintro d _ ⟨rfl, h⟩ _; exact ⟨rfl, h.part, h.given⟩
  setSeed := by rintro d _ ⟨rfl, h⟩ _; exact ⟨rfl, h.part, h.given⟩
  blended := by rintro d _ ⟨rfl, h⟩; exact ⟨rfl, h.part, h.given⟩

theorem partOf_renewing : PartOf (RenewingSame before) where
  part := by rintro d _ ⟨rfl, h⟩; exact ⟨rfl, h.part⟩
  setPart := by rintro d _ ⟨rfl, h⟩ _ hp; exact ⟨rfl, hp, h.given⟩
  began := by rintro d _ ⟨rfl, h⟩ _ _; exact ⟨rfl, h.record (.began _ _) nofun⟩

theorem lockstep_renewing :
    Direct.Lockstep (fun _ => True) (RenewingSame before) (RenewingSame before) setup setup where
  before _ _ := trivial
  fails h := h
  step h _ := by
    have hd := (Renewing.kept before setup).drawing
    exact Decode.related_execute_part hd (fun _ _ h => h) (partOf_renewing before) h
      (fun _ _ _ => storing_renewing before) fun _ n subr _ =>
        Decode.relates_performOtherSubr hd n (fun _ _ => counting_renewing before setup)
          fun _ => storing_renewing before
  parts h _ hx := absurd (Decode.execute_eq_compose hx).2.1 h.2.part

end Level

/-! ## What a receiver is given -/

theorem Settings.place_stem (settings : Settings) (kind : StemKind) (near far : Number) :
    ∃ near' far', settings.place (.stem kind near far) = .stem kind near' far' := by
  unfold place
  cases settings.activeMatrix? with
  | none => exact ⟨near, far, rfl⟩
  | some m => exact ⟨_, _, rfl⟩

theorem Settings.isStem_place (settings : Settings) (e : Element) :
    (settings.place e).isStem = e.isStem := by
  unfold place
  cases settings.activeMatrix? with
  | none => rfl
  | some m => cases e <;> rfl

theorem find?_accept (takes : Capabilities) (updateOperators : Bool) (e : Element) :
    (e.accept takes updateOperators).find? Element.isStem =
      if takes.stem && e.isStem then some e else none := by
  cases e with
  | stem kind near far =>
    cases hs : takes.stem with
    | false => simp only [Element.accept, hs]; rfl
    | true => simp only [Element.accept, hs]; rfl
  | flex depth left right =>
    simp only [Element.isStem, Element.accept, Bool.and_false, Bool.false_eq_true, if_false]
    split
    · rfl
    · split <;> rfl
  | accented shift parts =>
    simp only [Element.isStem, Bool.and_false, Bool.false_eq_true, if_false]
    rfl
  | _ =>
    simp only [Element.isStem, Element.accept, Bool.and_false, Bool.false_eq_true, if_false]
    split <;> rfl

/-- The first stem that a receiver is given is the first stem. -/
theorem find?_deliver (settings : Settings) (takes : Capabilities) (elements : List Element) :
    (elements.flatMap (Element.deliver settings takes)).find? Element.isStem =
      if takes.stem then (elements.find? Element.isStem).map settings.place else none := by
  have hstem : Element.isStem ∘ settings.place = Element.isStem := funext settings.isStem_place
  induction elements with
  | nil => split <;> rfl
  | cons e elements ih =>
    rw [List.flatMap_cons, List.find?_append, ih, Element.deliver_eq, List.find?_map, hstem,
      find?_accept, List.find?_cons]
    cases takes.stem <;> cases e.isStem <;> rfl

theorem FirstRenews.deliver {given : List Element} (h : FirstRenews given) (settings : Settings)
    (takes : Capabilities) : FirstRenews (given.flatMap (Element.deliver settings takes)) := by
  intro kind near far hfind hcounter
  rw [find?_deliver] at hfind
  split at hfind
  · obtain ⟨x, hx, hplace⟩ := Option.map_eq_some_iff.1 hfind
    have hstem : x.isStem := List.find?_some hx
    cases x with
    | stem kind' near' far' =>
      obtain ⟨_, _, hp⟩ := settings.place_stem kind' near' far'
      cases hp.symm.trans hplace
      exact h _ _ _ hx hcounter
    | _ => cases hstem
  · cases hfind

/-- If the base has started a contour, and has given no stem since it last asked for new hints, the
first stem of the accent starts a new set of hints, unless it belongs to a counter group. -/
theorem accent_renews_hints {data : List UInt8} {font : Font} {settings : Settings}
    {takes : Capabilities} {offset : Nat} {c : Composition} {after : Decoder} {flow : Flow}
    (h : c.Of data (.of font settings takes) offset)
    (hbase : c.baseOutcome data (.of font settings takes) = .ok flow after)
    (hmoved : after.moved = true)
    (hdue : after.hintsRenewed = true → after.hintsDue = true)
    (chunk : Option Nat) (st : Source.State) :
    ∃ given, (parse (.memory data chunk) font settings takes offset st).1.elements =
        after.elements.flatMap (Element.deliver settings takes) ++ given ∧
      FirstRenews given := by
  have hstart : Renewing after.elements (after.beginAccent c.shift) := by
    refine ⟨nofun, [], (List.append_nil _).symm, nofun, fun _ => ?_⟩
    cases hr : after.hintsRenewed with
    | false => exact .inr ⟨hmoved, hr⟩
    | true => exact .inl (hdue hr)
  have hrun : RenewingSame after.elements _ _ :=
    ((lockstep_renewing after.elements (.of font settings takes)).nested data c.levels c.accent
      _ _ ⟨rfl, hstart⟩ trivial : Decode.Related _ _ (c.accentOutcome data _ after) _).final
  obtain ⟨given, hgiven, hfirst, -⟩ := hrun.2.given
  refine ⟨given.flatMap (Element.deliver settings takes), ?_, hfirst.deliver settings takes⟩
  have hanswer := congrArg Prod.fst (c.answer h hbase chunk st)
  rw [← List.flatMap_append, ← hgiven]
  exact hanswer

/-! ## A base that has asked for new hints -/

/-- An accented character; a base that starts a contour and one that gives a stem after that; an
accent with a stem. -/
def Renewing.data : List UInt8 :=
  Aacute.charstring ++
  [139, 139, 13, 139, 139, 21, 14] ++
  [139, 139, 13, 139, 139, 21, 149, 159, 1, 14] ++
  [139, 139, 13, 144, 149, 1, 149, 159, 21, 144, 6, 14]

/-- After a base that starts a contour, the accent starts a new set of hints. -/
theorem accent_renews_hints_moved :
    ∃ c after, Aacute.parts? Renewing.data 12 29 = some (c, after) ∧ after.moved = true ∧
      after.hintsRenewed = false ∧ ∃ given, Aacute.elements Renewing.data 12 29 =
        after.elements.flatMap (Element.deliver Aacute.settings {}) ++ given ∧
        FirstRenews given := by
  obtain ⟨⟨c, after⟩, hparts⟩ := Option.isSome_iff_exists.1
    (by decide +kernel : (Aacute.parts? Renewing.data 12 29).isSome)
  have hstate : (Aacute.parts? Renewing.data 12 29).all fun (_, after) =>
      after.moved = true ∧ after.hintsRenewed = false := by
    decide +kernel
  rw [hparts, Option.all_some, decide_eq_true_eq] at hstate
  obtain ⟨hof, hbase⟩ := Composition.of_parts? hparts
  refine ⟨c, after, hparts, hstate.1, hstate.2, ?_⟩
  have hdue (h : after.hintsRenewed = true) : after.hintsDue = true :=
    absurd (h.symm.trans hstate.2) nofun
  exact accent_renews_hints hof hbase hstate.1 hdue none {}

/-- After a base that has asked for new hints and given a stem, the accent goes on with the hints of
the base, although the base has started a contour. -/
theorem accent_of_renewed_base :
    ∃ c after, Aacute.parts? Renewing.data 19 29 = some (c, after) ∧ after.moved = true ∧
      ¬ ∃ given, Aacute.elements Renewing.data 19 29 =
        after.elements.flatMap (Element.deliver Aacute.settings {}) ++ given ∧
        FirstRenews given := by
  obtain ⟨⟨c, after⟩, hparts⟩ := Option.isSome_iff_exists.1
    (by decide +kernel : (Aacute.parts? Renewing.data 19 29).isSome)
  have hbase : (Aacute.parts? Renewing.data 19 29).all fun (_, after) => after.moved = true ∧
      Aacute.elements Renewing.data 19 29 =
        after.elements.flatMap (Element.deliver Aacute.settings {}) ++
          [.stem {} 45 55, .moveTo ⟨40, 60⟩, .lineTo ⟨45, 60⟩] := by
    decide +kernel
  rw [hparts, Option.all_some, decide_eq_true_eq] at hbase
  obtain ⟨hmoved, hgiven⟩ := hbase
  refine ⟨c, after, hparts, hmoved, fun ⟨given, helements, hfirst⟩ => ?_⟩
  obtain rfl := List.append_cancel_left (hgiven.symm.trans helements)
  cases hfirst {} 45 55 rfl rfl

end Type1
