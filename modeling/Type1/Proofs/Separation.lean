import Type1.Proofs.CounterGroups
import Type1.Proofs.Receivers

/-!
# What a base leaves to its accent

Between the parts of an accented character only some of the state begins anew. Bases that neither
blend nor write the storage or the seed, and that leave the same collection of flex points and of
counter hints unfinished, make no difference to the accent: it gives the same elements, and comes
to the same end (`accent_of_same_unfinished`). Only whether its stems start a new set of hints may
still depend on the base.

What a base leaves unfinished does reach the accent (`accent_of_unfinished_flex`).
-/

namespace Type1

/-! ## The base -/

/-- Whether the event is the beginning of an operator that blends, or that writes cells, a register
or the seed, by itself or with an other subroutine. -/
def Event.stores : Event → Bool
  | began .callothersubr operands => (OtherSubr.selected? operands).any OtherSubr.stores
  | began op _ => op.stores
  | _ => false

/-- What no part changes of the state, unless it blends or writes the storage or the seed. -/
def Decoder.lasting (d : Decoder) :
    Point × Option Number × Option Components × Storage × UInt32 × Bool :=
  (d.bearing, d.width, d.components, d.storage, d.seed, d.blended)

/-- A state of a part that has changed nothing that lasts since it began. -/
structure Lasting (before d : Decoder) : Prop where
  part : d.part ≠ .glyph
  lasting : d.lasting = before.lasting
  size : before.history.size ≤ d.history.size

/-- States that are the same, of such a part. -/
def LastingSame (before d e : Decoder) : Prop := d = e ∧ Lasting before d

/-- What began after a state stores nothing. -/
def StoresNothing (before : Decoder) (events : List Event) : Prop :=
  ∀ event ∈ events.drop before.history.size, event.stores = false

instance (before : Decoder) (events : List Event) : Decidable (StoresNothing before events) :=
  inferInstanceAs (Decidable (∀ _ ∈ _, _))

section Base

variable {before d : Decoder} {setup : Setup}

theorem Lasting.record (h : Lasting before d) (event : Event) :
    Lasting before (d.record event) := by
  refine ⟨h.part, h.lasting, Nat.le_trans h.size ?_⟩
  rw [Decoder.record, Array.size_push]
  exact Nat.le_succ _

theorem Lasting.addStem (h : Lasting before d) (kind : StemKind) (near far : Number) :
    Lasting before (d.addStem setup kind near far) :=
  (Lasting.mk h.part h.lasting h.size : Lasting before
    { d with hintsDue := false, groupDue := false }).record _

theorem kept_lasting : Kept setup (Lasting before) where
  setOperands h _ := ⟨h.part, h.lasting, h.size⟩
  closed h := ⟨h.part, h.lasting, h.size⟩
  note h _ := h.record _
  report h _ _ := h.record _
  setPoint h _ := ⟨h.part, h.lasting, h.size⟩
  opened h := ⟨h.part, h.lasting, h.size⟩
  placeAccent h := by
    unfold Decoder.placeAccent
    split
    · exact ⟨nofun, h.lasting, h.size⟩
    · exact h
  renewHints h := ⟨h.part, h.lasting, h.size⟩
  hintStem {d} h _ _ _ := by
    have hrenewed : Lasting before d.renewHints := ⟨h.part, h.lasting, h.size⟩
    unfold Decoder.hintStem
    dsimp only
    split
    · exact hrenewed.addStem _ _ _
    · exact h.addStem _ _ _
  setFlex h _ := ⟨h.part, h.lasting, h.size⟩

theorem counting_lasting : Counting setup (LastingSame before) where
  counters := by rintro d _ ⟨rfl, -⟩; rfl
  setCounters := by rintro d _ ⟨rfl, h⟩ _; exact ⟨rfl, h.part, h.lasting, h.size⟩
  openGroup := by rintro d _ ⟨rfl, h⟩; exact ⟨rfl, h.part, h.lasting, h.size⟩
  stemOrigin := by rintro d _ ⟨rfl, -⟩; rfl
  counterStem := by rintro d _ ⟨rfl, h⟩ _ _ _; exact ⟨rfl, h.addStem _ _ _⟩

theorem partOf_lasting : PartOf (LastingSame before) where
  part := by rintro d _ ⟨rfl, h⟩; exact ⟨rfl, h.part⟩
  setPart := by rintro d _ ⟨rfl, h⟩ _ hp; exact ⟨rfl, hp, h.lasting, h.size⟩
  began := by rintro d _ ⟨rfl, h⟩ _ _; exact ⟨rfl, h.record _⟩

theorem StoresNothing.of_prefix {events events' : List Event} (hp : events <+: events')
    (h : StoresNothing before events') : StoresNothing before events := by
  obtain ⟨rest, rfl⟩ := hp
  intro event he
  refine h event ?_
  rw [List.drop_append]
  exact List.mem_append_left _ he

/-- An operator that begins in a part is among the events since the part began. -/
theorem StoresNothing.began {op : Operator} (h : StoresNothing before
      (Decode.final (Decode.execute setup (.operator op) d)).events)
    (hd : Lasting before d) : (Event.began op d.operands.toList).stores = false := by
  have hle : before.history.size ≤ d.events.length := by
    rw [Decoder.events, Array.length_toList]
    exact hd.size
  refine h.of_prefix (Decode.began_grows setup op d) _ ?_
  rw [List.drop_append_of_le_length hle]
  exact List.mem_append_right _ List.mem_cons_self

theorem lockstep_lasting (before : Decoder) (setup : Setup) :
    Direct.Lockstep (StoresNothing before) (LastingSame before) Unrelated setup setup where
  before hp h := h.of_prefix hp
  fails _ := trivial
  step {i d e} hde hq := by
    have hd : Drawing setup (LastingSame before) := kept_lasting.drawing
    refine Decode.related_execute_part hd (fun _ _ _ => trivial) partOf_lasting hde ?_ ?_
    · rintro op rfl hs
      have hb := hq.began hde.2
      cases op with
      | callothersubr => cases hs
      | _ => exact absurd (hs.symm.trans hb) nofun
    · rintro rfl n subr hsubr
      have hb : (OtherSubr.selected? d.operands.toList).any OtherSubr.stores = false :=
        hq.began hde.2
      rw [hsubr, Option.any_some] at hb
      exact (Decode.relates_performOtherSubr hd n (fun _ _ => counting_lasting)
        fun hs => absurd (hs.symm.trans hb) nofun).mono fun _ _ _ => trivial
  parts h _ hx := absurd (Decode.execute_eq_compose hx).2.1 h.2.part

/-- What lasts is after a base what it was before it. -/
theorem Composition.lasting_after {data : List UInt8} {c : Composition} {after : Decoder}
    {flow : Flow} (hbase : c.baseOutcome data setup = .ok flow after)
    (hstores : StoresNothing c.before after.events) : after.lasting = c.before.lasting := by
  have hr : Decode.Related (LastingSame c.before) Unrelated (c.baseOutcome data setup)
      (c.baseOutcome data setup) := by
    refine (lockstep_lasting c.before setup).nested data c.levels c.base _ _
      ⟨rfl, nofun, rfl, Nat.le_refl _⟩ ?_
    rw [show Direct.nested data setup c.levels c.base c.before.beginBase = _ from hbase]
    exact hstores
  rw [hbase] at hr
  cases hr with
  | ok h => exact h.2.lasting

end Base

/-! ## The accent -/

/-- The element without the mark that a stem starts a new set of hints. -/
def Element.unmarked : Element → Element
  | stem kind near far => stem { kind with newHints := false } near far
  | e => e

/-- States of the same accent after bases that may have given other elements and may have done
otherwise with hints. Points that no flex collects any more make no difference. -/
structure SameAccent (before before' : List Element) (d e : Decoder) : Prop where
  same : ∃ moved hintsDue hintsRenewed flex history,
    e = { d with moved, hintsDue, hintsRenewed, flex, history }
  part : d.part ≠ .glyph
  active : d.flex.active = e.flex.active
  flex : d.flex.active = true → d.flex = e.flex
  given : ∃ given given', d.elements = before ++ given ∧ e.elements = before' ++ given' ∧
    given.map Element.unmarked = given'.map Element.unmarked

section Accent

variable {before before' : List Element} {d e : Decoder} {setup : Setup}

namespace SameAccent

theorem record (h : SameAccent before before' d e) {x y : Event}
    (hxy : x.element?.map Element.unmarked = y.element?.map Element.unmarked) :
    SameAccent before before' (d.record x) (e.record y) := by
  obtain ⟨given, given', hd, he, hgiven⟩ := h.given
  refine ⟨?_, h.part, h.active, h.flex, given ++ x.element?.toList, given' ++ y.element?.toList,
    ?_, ?_, ?_⟩
  · obtain ⟨_, _, _, _, _, rfl⟩ := h.same
    exact ⟨_, _, _, _, _, rfl⟩
  · rw [Decoder.elements_record, hd, List.append_assoc]
  · rw [Decoder.elements_record, he, List.append_assoc]
  · rw [List.map_append, List.map_append, hgiven, ← Option.toList_map, ← Option.toList_map, hxy]

/-- What does not look at what may differ is the same. -/
theorem read (h : SameAccent before before' d e) {α : Type} (f : Decoder → α)
    (hsame : ∀ d moved hintsDue hintsRenewed flex history,
      f { d with moved, hintsDue, hintsRenewed, flex, history } = f d := by intros; rfl) :
    f d = f e := by
  obtain ⟨moved, hintsDue, hintsRenewed, flex, history, rfl⟩ := h.same
  exact (hsame d moved hintsDue hintsRenewed flex history).symm

/-- A change of both states that leaves alone what may differ. -/
theorem beside (h : SameAccent before before' d e) (f : Decoder → Decoder)
    (hsame : ∀ d moved hintsDue hintsRenewed flex history,
      f { d with moved, hintsDue, hintsRenewed, flex, history } =
        { f d with moved, hintsDue, hintsRenewed, flex, history } := by intros; rfl)
    (hkept : (f d).part = d.part ∧ (f d).flex = d.flex ∧ (f d).history = d.history := by
      exact ⟨rfl, rfl, rfl⟩) :
    SameAccent before before' (f d) (f e) := by
  obtain ⟨⟨moved, hintsDue, hintsRenewed, flex, history, rfl⟩, hpart, hactive, hflex, hgiven⟩ := h
  obtain ⟨hp, hf, hh⟩ := hkept
  rw [hsame d moved hintsDue hintsRenewed flex history]
  rw [← hp] at hpart
  rw [← hf] at hactive hflex
  unfold Decoder.elements at hgiven
  rw [← hh] at hgiven
  exact ⟨⟨_, _, _, _, _, rfl⟩, hpart, hactive, hflex, hgiven⟩

theorem addStem (h : SameAccent before before' d e) (kind : StemKind) (near far : Number) :
    SameAccent before before' (d.addStem setup kind near far) (e.addStem setup kind near far) := by
  have hsettled : SameAccent before before' { d with hintsDue := false, groupDue := false }
      { e with hintsDue := false, groupDue := false } := by
    obtain ⟨_, _, _, _, _, rfl⟩ := h.same
    exact ⟨⟨_, _, _, _, _, rfl⟩, h.part, h.active, h.flex, h.given⟩
  refine hsettled.record ?_
  obtain ⟨_, _, _, _, _, rfl⟩ := h.same
  rfl

end SameAccent

/-- A stem is the same, but for the mark that may be due in one state only. -/
theorem SameAccent.hintStem (h : SameAccent before before' d e) (kind : StemKind)
    (position extent : Number) :
    SameAccent before before' (d.hintStem setup kind position extent)
      (e.hintStem setup kind position extent) := by
  have left {d e : Decoder} (h : SameAccent before before' d e) :
      SameAccent before before' d.renewHints e := by
    obtain ⟨⟨_, _, _, _, _, rfl⟩, hp, ha, hf, hg⟩ := h
    exact ⟨⟨_, _, _, _, _, rfl⟩, hp, ha, hf, hg⟩
  have right {d e : Decoder} (h : SameAccent before before' d e) :
      SameAccent before before' d e.renewHints := by
    obtain ⟨⟨_, _, _, _, _, rfl⟩, hp, ha, hf, hg⟩ := h
    exact ⟨⟨_, _, _, _, _, rfl⟩, hp, ha, hf, hg⟩
  have hsame := h
  obtain ⟨⟨_, _, _, _, _, rfl⟩, -⟩ := h
  unfold Decoder.hintStem
  dsimp only
  -- Both states report the stem relative to the same point, whichever asks for new hints.
  split <;> split
  · exact (left (right hsame)).addStem kind _ _
  · exact (left hsame).addStem kind _ _
  · exact (right hsame).addStem kind _ _
  · exact hsame.addStem kind _ _

theorem drawing_sameAccent : Drawing setup (SameAccent before before') where
  workspace h := h.read Decoder.workspace
  setOperands h operands := h.beside ({ · with operands })
  closed h := h.beside ({ · with moveDue := true })
  note h _ := h.record rfl
  report h _ _ := h.record rfl
  point h := h.read Decoder.point
  setPoint h point := h.beside ({ · with point })
  moveDue h := h.read Decoder.moveDue
  opened := by
    rintro d _ ⟨⟨_, _, _, _, _, rfl⟩, hp, ha, hf, hg⟩
    exact ⟨⟨_, _, _, _, _, rfl⟩, hp, ha, hf, hg⟩
  placeAccent := by
    rintro d _ ⟨⟨_, _, _, _, _, rfl⟩, hp, ha, hf, hg⟩
    unfold Decoder.placeAccent
    dsimp only
    split
    · exact ⟨⟨_, _, _, _, _, rfl⟩, nofun, ha, hf, hg⟩
    · exact ⟨⟨_, _, _, _, _, rfl⟩, hp, ha, hf, hg⟩
  absolute h p := h.read (·.absolute p)
  renewHints := by
    rintro d _ ⟨⟨_, _, _, _, _, rfl⟩, hp, ha, hf, hg⟩
    exact ⟨⟨_, _, _, _, _, rfl⟩, hp, ha, hf, hg⟩
  hintStem h := h.hintStem
  active h := h.active
  flex h := h.flex
  setFlex := by
    rintro d _ ⟨⟨_, _, _, _, _, rfl⟩, hp, ha, hf, hg⟩ _
    exact ⟨⟨_, _, _, _, _, rfl⟩, hp, rfl, fun _ => rfl, hg⟩
  malformed h _ := h.record rfl

theorem counting_sameAccent : Counting setup (SameAccent before before') where
  counters h := h.read Decoder.counters
  setCounters h counters := h.beside ({ · with counters })
  openGroup h := h.beside ({ · with groupDue := true })
  stemOrigin h := h.read Decoder.stemOrigin
  counterStem h _ _ _ := h.addStem _ _ _

theorem storing_sameAccent : Storing (SameAccent before before') where
  setStorage h storage := h.beside ({ · with storage })
  setSeed h seed := h.beside ({ · with seed })
  blended h := h.beside ({ · with blended := true })

theorem partOf_sameAccent : PartOf (SameAccent before before') where
  part h := ⟨h.read Decoder.part, h.part⟩
  setPart := by
    rintro d _ ⟨⟨_, _, _, _, _, rfl⟩, hp, ha, hf, hg⟩ _ hpart
    exact ⟨⟨_, _, _, _, _, rfl⟩, hpart, ha, hf, hg⟩
  began h _ _ := h.record rfl

/-- Where the glyphs of the codes are makes no difference to an accent. -/
theorem lockstep_sameAccent (before before' : List Element) (setup : Setup)
    (lookup : Option (UInt8 → Option Nat)) :
    Direct.Lockstep (fun _ => True) (SameAccent before before') (SameAccent before before') setup
      (setup.withLookup lookup) where
  before _ _ := trivial
  fails h := h
  step {i d e} h _ := by
    have hd : Drawing setup (SameAccent before before') := drawing_sameAccent
    have he : e.part ≠ .glyph := (partOf_sameAccent.part h).1 ▸ h.part
    rw [Decode.execute_withLookup_part setup lookup i he]
    exact Decode.related_execute_part hd (fun _ _ h => h) partOf_sameAccent h
      (fun _ _ _ => storing_sameAccent) fun _ n subr _ =>
        Decode.relates_performOtherSubr hd n (fun _ _ => counting_sameAccent)
          fun _ => storing_sameAccent
  parts h _ hx := absurd (Decode.execute_eq_compose hx).2.1 h.part

end Accent

/-! ## What a receiver is given -/

/-- What a base leaves unfinished: the points of a flex that is being collected, and the counter
hints. -/
def Decoder.unfinished (d : Decoder) : Option Flex × List Number :=
  (if d.flex.active then some d.flex else none, d.counters)

theorem Decoder.eq_of_unfinished {d e : Decoder} (h : d.unfinished = e.unfinished) :
    d.flex.active = e.flex.active ∧ (d.flex.active = true → d.flex = e.flex) ∧
      d.counters = e.counters := by
  obtain ⟨hflex, hcounters⟩ := Prod.mk.inj h
  split at hflex
  · next hd =>
    split at hflex
    · next he => exact ⟨hd.trans he.symm, fun _ => Option.some.inj hflex, hcounters⟩
    · cases hflex
  · next hd =>
    split at hflex
    · cases hflex
    · next he =>
      rw [Bool.not_eq_true] at hd he
      exact ⟨hd.trans he.symm, fun h => absurd (h.symm.trans hd) nofun, hcounters⟩

/-- Bases that change nothing that lasts and leave the same unfinished make no difference to the
state in which the accent begins, but for hints. -/
theorem sameAccent_start {d e : Decoder} (hlasting : d.lasting = e.lasting)
    (hgroup : d.groupDue = e.groupDue) (hunfinished : d.unfinished = e.unfinished)
    (shift : Point) :
    SameAccent d.elements e.elements (d.beginAccent shift) (e.beginAccent shift) := by
  obtain ⟨hactive, hflex, hcounters⟩ := Decoder.eq_of_unfinished hunfinished
  refine ⟨⟨e.moved, e.hintsDue, e.hintsRenewed, e.flex, e.history, ?_⟩, nofun, hactive, hflex,
    [], [], (List.append_nil _).symm, (List.append_nil _).symm, rfl⟩
  simp only [Decoder.lasting, Prod.mk.injEq] at hlasting
  obtain ⟨hbearing, hwidth, hcomponents, hstorage, hseed, hblended⟩ := hlasting
  unfold Decoder.beginAccent
  rw [hbearing, hwidth, hcomponents, hstorage, hseed, hblended, hgroup, hcounters]

theorem Element.unmarked_deliver (settings : Settings) (takes : Capabilities) (e : Element) :
    (e.deliver settings takes).map unmarked = e.unmarked.deliver settings takes := by
  have hplace : unmarked ∘ settings.place = settings.place ∘ unmarked := by
    funext x
    simp only [Function.comp_apply, Settings.place]
    cases settings.activeMatrix? with
    | none => rfl
    | some m => cases x <;> rfl
  have haccept : (e.accept takes settings.updateOperators).map unmarked =
      e.unmarked.accept takes settings.updateOperators := by
    cases e with
    | accented shift parts => rfl
    | _ => simp only [accept, unmarked, apply_ite (List.map unmarked), List.map_cons, List.map_nil]
  rw [deliver_eq, deliver_eq, List.map_map, hplace, ← List.map_map, haccept]

theorem map_unmarked_deliver {given given' : List Element}
    (h : given.map Element.unmarked = given'.map Element.unmarked) (settings : Settings)
    (takes : Capabilities) :
    (given.flatMap (Element.deliver settings takes)).map Element.unmarked =
      (given'.flatMap (Element.deliver settings takes)).map Element.unmarked := by
  have hmap (l : List Element) : (l.flatMap (Element.deliver settings takes)).map Element.unmarked =
      (l.map Element.unmarked).flatMap (Element.deliver settings takes) := by
    rw [List.map_flatMap, List.flatMap_map]
    congr 1
    funext e
    exact e.unmarked_deliver settings takes
  rw [hmap, hmap, h]

/-- Bases that neither blend nor write the storage or the seed, and leave the same unfinished, make
no difference to the accent: a receiver is given the same of it, apart from the marks that stems
start a new set of hints, and the result is the same. -/
theorem accent_of_same_unfinished {data : List UInt8} {font : Font}
    {lookup : Option (UInt8 → Option Nat)} {settings : Settings} {takes : Capabilities}
    {offset : Nat} {c c' : Composition} {after after' : Decoder} {flow flow' : Flow}
    (h : c.Of data (.of font settings takes) offset)
    (h' : c'.Of data (.of { font with lookup } settings takes) offset)
    (haccent : c'.accent = c.accent)
    (hbase : c.baseOutcome data (.of font settings takes) = .ok flow after)
    (hbase' : c'.baseOutcome data (.of { font with lookup } settings takes) = .ok flow' after')
    (hstores : StoresNothing c.before after.events)
    (hstores' : StoresNothing c'.before after'.events)
    (hunfinished : after.unfinished = after'.unfinished)
    (chunk chunk' : Option Nat) (st st' : Source.State) :
    ∃ given given',
      (parse (.memory data chunk) font settings takes offset st).1.elements =
        after.elements.flatMap (Element.deliver settings takes) ++ given ∧
      (parse (.memory data chunk') { font with lookup } settings takes offset st').1.elements =
        after'.elements.flatMap (Element.deliver settings takes) ++ given' ∧
      given.map Element.unmarked = given'.map Element.unmarked ∧
      (parse (.memory data chunk) font settings takes offset st).1.result =
        (parse (.memory data chunk') { font with lookup } settings takes offset st').1.result := by
  have hsetup : Setup.of { font with lookup } settings takes =
      (Setup.of font settings takes).withLookup lookup := rfl
  obtain ⟨hlevels, hshift, e, codes, hbefore, hbefore'⟩ := Composition.before_of_lookup h.2 h'.2
  have hlasting : after.lasting = after'.lasting := by
    rw [Composition.lasting_after hbase hstores, Composition.lasting_after hbase' hstores',
      hbefore, hbefore']
    rfl
  have hgroup : after.groupDue = after'.groupDue :=
    (Composition.groupDue_after h hbase).trans (Composition.groupDue_after h' hbase').symm
  -- The two accents are decoded in lockstep, from states that differ in what the bases gave and in
  -- whether they asked for new hints.
  have hrun : Decode.Related (SameAccent after.elements after'.elements)
      (SameAccent after.elements after'.elements)
      (c.accentOutcome data (.of font settings takes) after)
      (c'.accentOutcome data (.of { font with lookup } settings takes) after') := by
    unfold Composition.accentOutcome
    rw [hlevels, hshift, haccent, hsetup]
    exact (lockstep_sameAccent _ _ _ lookup).nested data c.levels c.accent _ _
      (sameAccent_start hlasting hgroup hunfinished c.shift) trivial
  have hanswer := c.answer h hbase chunk st
  have hanswer' := c'.answer h' hbase' chunk' st'
  obtain ⟨given, given', hgiven, hgiven', hsame⟩ := hrun.final.given
  refine ⟨given.flatMap (Element.deliver settings takes),
    given'.flatMap (Element.deliver settings takes), ?_, ?_,
    map_unmarked_deliver hsame settings takes, ?_⟩
  · rw [← List.flatMap_append, ← hgiven]
    exact congrArg Prod.fst hanswer
  · rw [← List.flatMap_append, ← hgiven']
    exact congrArg Prod.fst hanswer'
  · refine (congrArg Prod.snd hanswer).trans (Eq.trans ?_ (congrArg Prod.snd hanswer').symm)
    revert hrun
    dsimp only
    generalize c.accentOutcome data _ after = o
    generalize c'.accentOutcome data _ after' = o'
    rintro (hd | -)
    · obtain ⟨_, _, _, _, _, rfl⟩ := hd.same
      rfl
    · rfl

/-! ## A base that leaves a flex unfinished -/

/-- An accented character; an empty base and one that begins a flex; an accent that starts a
contour; a base that does so as well. -/
def SameAccent.data : List UInt8 :=
  Aacute.charstring ++
  [139, 139, 13, 14] ++
  [139, 139, 13, 139, 140, 12, 16, 14] ++
  [139, 139, 13, 149, 159, 21, 144, 6, 14] ++
  [139, 139, 13, 139, 139, 21, 149, 6, 14]

/-- The accent is the same after an empty base and after one with a contour. -/
theorem accent_of_same_unfinished_contour :
    ∃ c after c' after', Aacute.parts? SameAccent.data 12 24 = some (c, after) ∧
      Aacute.parts? SameAccent.data 33 24 = some (c', after') ∧
      ∃ given given',
        Aacute.elements SameAccent.data 12 24 =
          after.elements.flatMap (Element.deliver Aacute.settings {}) ++ given ∧
        Aacute.elements SameAccent.data 33 24 =
          after'.elements.flatMap (Element.deliver Aacute.settings {}) ++ given' ∧
        given.map Element.unmarked = given'.map Element.unmarked := by
  obtain ⟨⟨c, after⟩, h⟩ := Option.isSome_iff_exists.1
    (by decide +kernel : (Aacute.parts? SameAccent.data 12 24).isSome)
  obtain ⟨⟨c', after'⟩, h'⟩ := Option.isSome_iff_exists.1
    (by decide +kernel : (Aacute.parts? SameAccent.data 33 24).isSome)
  have hplain : (Aacute.parts? SameAccent.data 12 24).all fun (c, after) =>
      c.accent = 24 ∧ StoresNothing c.before after.events ∧ after.unfinished = (none, []) := by
    decide +kernel
  have hcontour : (Aacute.parts? SameAccent.data 33 24).all fun (c, after) =>
      c.accent = 24 ∧ StoresNothing c.before after.events ∧ after.unfinished = (none, []) := by
    decide +kernel
  rw [h, Option.all_some, decide_eq_true_eq] at hplain
  rw [h', Option.all_some, decide_eq_true_eq] at hcontour
  obtain ⟨haccent, hstores, hunfinished⟩ := hplain
  obtain ⟨haccent', hstores', hunfinished'⟩ := hcontour
  obtain ⟨hof, hbase⟩ := Composition.of_parts? h
  obtain ⟨hof', hbase'⟩ := Composition.of_parts? h'
  obtain ⟨given, given', helements, helements', heq, -⟩ :=
    accent_of_same_unfinished hof hof' (haccent'.trans haccent.symm) hbase hbase' hstores hstores'
      (hunfinished.trans hunfinished'.symm) none none {} {}
  exact ⟨c, after, c', after', h, h', given, given', helements, helements', heq⟩

/-- The accent after a base that has begun a flex collects points for it, in place of starting its
contour where it does after an empty base. Neither base stores anything. -/
theorem accent_of_unfinished_flex :
    ∃ c after c' after', Aacute.parts? SameAccent.data 12 24 = some (c, after) ∧
      Aacute.parts? SameAccent.data 16 24 = some (c', after') ∧
      StoresNothing c.before after.events ∧ StoresNothing c'.before after'.events ∧
      ¬ ∃ given given',
        Aacute.elements SameAccent.data 12 24 =
          after.elements.flatMap (Element.deliver Aacute.settings {}) ++ given ∧
        Aacute.elements SameAccent.data 16 24 =
          after'.elements.flatMap (Element.deliver Aacute.settings {}) ++ given' ∧
        given.map Element.unmarked = given'.map Element.unmarked := by
  obtain ⟨⟨c, after⟩, h⟩ := Option.isSome_iff_exists.1
    (by decide +kernel : (Aacute.parts? SameAccent.data 12 24).isSome)
  obtain ⟨⟨c', after'⟩, h'⟩ := Option.isSome_iff_exists.1
    (by decide +kernel : (Aacute.parts? SameAccent.data 16 24).isSome)
  -- The first move of the accent starts its contour after the one base, and is a point of the flex
  -- after the other.
  have hplain : (Aacute.parts? SameAccent.data 12 24).all fun (c, after) =>
      StoresNothing c.before after.events ∧ Aacute.elements SameAccent.data 12 24 =
        after.elements.flatMap (Element.deliver Aacute.settings {}) ++
          [.moveTo ⟨40, 60⟩, .lineTo ⟨45, 60⟩] := by
    decide +kernel
  have hflex : (Aacute.parts? SameAccent.data 16 24).all fun (c, after) =>
      StoresNothing c.before after.events ∧ Aacute.elements SameAccent.data 16 24 =
        after.elements.flatMap (Element.deliver Aacute.settings {}) ++
          [.moveTo ⟨30, 40⟩, .lineTo ⟨35, 40⟩] := by
    decide +kernel
  rw [h, Option.all_some, decide_eq_true_eq] at hplain
  rw [h', Option.all_some, decide_eq_true_eq] at hflex
  refine ⟨c, after, c', after', h, h', hplain.1, hflex.1, ?_⟩
  rintro ⟨given, given', helements, helements', hsame⟩
  obtain rfl := List.append_cancel_left (hplain.2.symm.trans helements)
  obtain rfl := List.append_cancel_left (hflex.2.symm.trans helements')
  exact absurd hsame (by decide)

end Type1
