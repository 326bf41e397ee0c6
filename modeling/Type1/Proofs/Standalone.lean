import Type1.Proofs.Composition
import Type1.Proofs.Frames
import Type1.Proofs.Receivers

/-!
# A base is decoded as the glyph itself

The base of an accented character gives what it gives as a glyph of its own, apart from its width
(`elements_of_base`), although it begins at another point, at a level further up, and with a side
bearing of its own beside that of the accented character.

* `Operator.givesMetricsFirst`: the programs for which this holds.
* `Opening`: the states on the way to an accented character that calculates nothing.
* `AsBase`: the states of a glyph and of the same glyph as a base. Until it has given its side
  bearing, the current point may be another one.
-/

namespace Type1

/-! ## Operators that began -/

/-- The operator that begins. -/
def Event.operator? : Event → Option Operator
  | began op _ => some op
  | _ => none

/-- The operators that began so far. -/
def Decoder.operators (d : Decoder) : List Operator := d.events.filterMap Event.operator?

/-- The operators that began. -/
def Report.operators (r : Report) : List Operator := r.events.filterMap Event.operator?

/-- An operator comes after those before. -/
theorem Decoder.operators_record (event : Event) (d : Decoder) :
    (d.record event).operators = d.operators ++ event.operator?.toList := by
  rw [operators, operators, d.events_record, List.filterMap_append]
  cases h : event.operator? <;> simp [h]

/-- An operator that began is among those that have begun later on. -/
theorem Decoder.operators_grows {d e : Decoder} {op : Operator} {operands : List Number}
    (h : d.events ++ [.began op operands] <+: e.events) : d.operators ++ [op] <+: e.operators := by
  have hp := h.filterMap Event.operator?
  rw [List.filterMap_append] at hp
  exact hp

/-- Side bearing and width are given exactly once, nothing is drawn, hinted or left to other
subroutines before, and no accented character is composed. -/
def Operator.givesMetricsFirst : List Operator → Bool
  | [] => false
  | op :: ops =>
    if op.isMetrics then ops.all fun op => !op.isMetrics && op != .seac
    else op.isQuiet && givesMetricsFirst ops

/-- What can begin in such a program, after the operators that began before. -/
theorem Operator.begins_of_givesMetricsFirst {ops before : List Operator} {op : Operator}
    (h : givesMetricsFirst ops) (hp : before ++ [op] <+: ops) :
    (before.any isMetrics = false ∧ (op.isMetrics ∨ op.isQuiet)) ∨
      (before.any isMetrics ∧ op.isMetrics = false ∧ op ≠ .seac) := by
  induction before generalizing ops with
  | nil =>
    obtain ⟨rest, rfl⟩ := hp
    refine .inl ⟨rfl, ?_⟩
    rw [List.nil_append, List.singleton_append, givesMetricsFirst] at h
    split at h
    · next hop => exact .inl hop
    · exact .inr (Bool.and_eq_true _ _ ▸ h).1
  | cons first before ih =>
    obtain ⟨rest, rfl⟩ := hp
    rw [List.cons_append, List.cons_append, givesMetricsFirst] at h
    rw [List.any_cons]
    split at h
    · next hfirst =>
      rw [hfirst, Bool.true_or]
      have hop := List.all_eq_true.1 h op (by simp)
      simp only [Bool.and_eq_true, Bool.not_eq_true', bne_iff_ne] at hop
      exact .inr ⟨rfl, hop⟩
    · next hfirst =>
      rw [Bool.not_eq_true] at hfirst
      rw [hfirst, Bool.false_or]
      rw [Bool.and_eq_true] at h
      exact ih h.2 ⟨rest, rfl⟩

/-! ## Side bearing and width -/

/-- The side bearing and the advance width among the operands of an operator that gives them. -/
def Operator.metrics? (operands : Operands) : Operator → Option (Point × Number)
  | hsbw => (operands.bottom? 2).map fun v => (⟨v.first, 0⟩, v.second)
  | sbw => (operands.bottom? 4).map fun v => (⟨v.first, v.second⟩, v.third)
  | _ => none

theorem Decoder.operands_record (event : Event) (d : Decoder) :
    (d.record event).operands = d.operands := rfl

/-- The width of a glyph that gives an advance width. -/
def Decoder.measure (setup : Setup) (d : Decoder) (advance : Number) : Number :=
  d.control setup (if advance.abs > 32000 then advance / 65536 else advance)

/-- The state after the glyph itself has got side bearing and width. -/
def Decoder.measured (setup : Setup) (op : Operator) (bearing : Point) (advance : Number)
    (d : Decoder) : Decoder :=
  .report (.width (d.measure setup advance))
    { d.record (.began op d.operands.toList) with
      operands := .empty
      point := bearing.round
      bearing
      width := some (d.measure setup advance) }

/-- The state after a base has got a side bearing. -/
def Decoder.placedBase (op : Operator) (bearing : Point) (d : Decoder) : Decoder :=
  { d.record (.began op d.operands.toList) with
    operands := .empty
    point := bearing.round
    part := .base bearing }

section Measured

variable (setup : Setup) (op : Operator) (bearing : Point) (advance : Number) (d : Decoder)

theorem Decoder.elements_measured : (d.measured setup op bearing advance).elements =
    d.elements ++ [.width (d.measure setup advance)] := by
  rw [measured, report, elements_record]
  exact congrArg (· ++ _) ((d.elements_record _).trans (List.append_nil _))

theorem Decoder.operators_measured :
    (d.measured setup op bearing advance).operators = d.operators ++ [op] := by
  rw [measured, report, operators_record]
  exact (List.append_nil _).trans (d.operators_record _)

theorem Decoder.elements_placedBase : (d.placedBase op bearing).elements = d.elements :=
  (d.elements_record _).trans (List.append_nil _)

end Measured

namespace Decode

variable {setup : Setup} {d : Decoder}

/-- Operands are read from the bottom of the stack, which is cleared. -/
theorem arguments_clear {α : Type} {n : Nat} (k : Vector Number n → Decode α) (d : Decoder) :
    (do let v ← arguments n; clear; k v) d =
      match d.operands.bottom? n with
      | some v => k v { d with operands := .empty }
      | none => .error .stackUnderflow d := by
  cases h : d.operands.bottom? n with
  | none => exact bind_run_error (arguments_run_short (Operands.bottom?_eq_none_iff.1 h))
  | some v => exact bind_run (arguments_run h)

/-- An operator that gives side bearing and width does nothing else. -/
theorem perform_metrics {op : Operator} (hop : op.isMetrics) (d : Decoder) :
    perform setup op d =
      match op.metrics? d.operands with
      | some (bearing, advance) => metrics setup bearing advance { d with operands := .empty }
      | none => .error .stackUnderflow d := by
  cases op with
  | hsbw =>
    rw [perform, arguments_clear, Operator.metrics?]
    cases d.operands.bottom? 2 <;> rfl
  | sbw =>
    rw [perform, arguments_clear, Operator.metrics?]
    cases d.operands.bottom? 4 <;> rfl
  | _ => cases hop

/-- The glyph itself gets side bearing and width the first time. -/
theorem metrics_glyph {bearing : Point} {advance : Number} (hpart : d.part = .glyph)
    (hwidth : d.width = none) :
    metrics setup bearing advance d =
      .ok (if setup.widthOnly then .leave .finished else .next)
        (Decoder.report (.width (d.measure setup advance))
          { d with
            point := bearing.round
            bearing
            width := some (d.measure setup advance) }) := by
  cases d
  cases hpart
  cases hwidth
  unfold metrics
  cases setup.widthOnly <;> rfl

/-- A base only gets a side bearing. -/
theorem metrics_base {bearing b : Point} {advance : Number} (hpart : d.part = .base b) :
    metrics setup bearing advance d =
      .ok .next { d with point := bearing.round, part := .base bearing } := by
  cases d
  cases hpart
  rfl

theorem execute_metrics_glyph {op : Operator} (hop : op.isMetrics) (hpart : d.part = .glyph)
    (hwidth : d.width = none) :
    execute setup (.operator op) d =
      match op.metrics? d.operands with
      | some (bearing, advance) =>
        .ok (if setup.widthOnly then .leave .finished else .next)
          (d.measured setup op bearing advance)
      | none => .error .stackUnderflow (d.record (.began op d.operands.toList)) := by
  refine (perform_metrics hop (d.record (.began op d.operands.toList))).trans ?_
  rw [Decoder.operands_record]
  split
  · exact metrics_glyph hpart hwidth
  · rfl

theorem execute_metrics_base {op : Operator} (hop : op.isMetrics) {b : Point}
    (hpart : d.part = .base b) :
    execute setup (.operator op) d =
      match op.metrics? d.operands with
      | some (bearing, _) => .ok .next (d.placedBase op bearing)
      | none => .error .stackUnderflow (d.record (.began op d.operands.toList)) := by
  refine (perform_metrics hop (d.record (.began op d.operands.toList))).trans ?_
  rw [Decoder.operands_record]
  split
  · exact metrics_base hpart
  · rfl

end Decode

/-! ## On the way to the accented character -/

/-- A state in which nothing has been executed but numbers and, maybe, one operator that gives side
bearing and width. -/
structure Opening (setup : Setup) (d : Decoder) : Prop where
  same : ∃ operands point bearing width history,
    d = { Decoder.start setup.font with operands, point, bearing, width, history }
  given : d.elements = (d.width.map Element.width).toList
  fresh : d.operators = [] → d.width = none
  known : d.operators ≠ [] → d.width.isSome ∧ setup.widthOnly = false

namespace Opening

variable {setup : Setup} {d e : Decoder}

theorem start : Opening setup (.start setup.font) :=
  ⟨⟨_, _, _, _, _, rfl⟩, rfl, fun _ => rfl, fun h => absurd rfl h⟩

theorem setOperands (h : Opening setup d) (operands : Operands) :
    Opening setup { d with operands } := by
  obtain ⟨⟨_, _, _, _, _, rfl⟩, hg, hf, hk⟩ := h
  exact ⟨⟨_, _, _, _, _, rfl⟩, hg, hf, hk⟩

/-- Operands are pushed. -/
theorem number (h : Opening setup d) {value : Number} {control : Control}
    (hx : Decode.execute setup (.number value) d = .ok control e) : Opening setup e := by
  obtain ⟨_, c, hpush, hpure⟩ := Decode.bind_eq_ok hx
  cases hpure
  obtain ⟨_, _, hget, hpush⟩ := Decode.bind_eq_ok hpush
  cases hget
  obtain ⟨operands, _, hfail, hmodify⟩ := Decode.bind_eq_ok hpush
  obtain ⟨-, rfl⟩ := Decode.orFail_eq_ok hfail
  cases hmodify
  exact h.setOperands operands

/-- The glyph gets its side bearing and width. -/
theorem metrics (h : Opening setup d) (hd : d.operators = []) {op : Operator}
    (hop : op.isMetrics) (hx : Decode.execute setup (.operator op) d = .ok .next e) :
    Opening setup e := by
  have hwidth := h.fresh hd
  have hnone : d.elements = [] := by rw [h.given, hwidth]; rfl
  have hpart : d.part = .glyph := by
    obtain ⟨_, _, _, _, _, rfl⟩ := h.same
    rfl
  rw [Decode.execute_metrics_glyph hop hpart hwidth] at hx
  split at hx
  · obtain ⟨hcontrol, rfl⟩ := EStateM.Result.ok.inj hx
    have hsetup : setup.widthOnly = false := by
      cases hw : setup.widthOnly with
      | false => rfl
      | true => rw [hw] at hcontrol; cases hcontrol
    refine ⟨?_, ?_, ?_, fun _ => ⟨rfl, hsetup⟩⟩
    · obtain ⟨_, _, _, _, _, rfl⟩ := h.same
      exact ⟨_, _, _, _, _, rfl⟩
    · rw [Decoder.elements_measured, hnone]
      rfl
    · rw [Decoder.operators_measured]
      exact fun hnil => absurd (List.append_eq_nil_iff.1 hnil).2 (List.cons_ne_nil _ _)
  · cases hx

end Opening

/-- An instruction other than a call after which a level goes on. -/
theorem Direct.execute_of_goesOn {setup : Setup} {nested : Nat → Decoder → Outcome}
    {i : Instruction} {d e : Decoder} (hi : i ≠ .operator .callsubr)
    (h : effect setup nested i d = .goesOn e) : Decode.execute setup i d = .ok .next e := by
  unfold effect at h
  cases hx : Decode.execute setup i d with
  | error x c =>
    rw [hx] at h
    cases h
  | ok control c =>
    rw [hx] at h
    cases control with
    | next =>
      cases h
      rfl
    | call offset => exact absurd (Instruction.eq_callsubr (Decode.yields_execute _ _ _ _ _ hx)) hi
    | _ => cases h

theorem Decoder.operators_composed (codes : Components) (base accent : Nat) (d : Decoder) :
    (d.composed codes base accent).operators = d.operators ++ [.seac] := by
  rw [composed, operators_record, operators_record]
  simp only [Event.operator?, Option.toList_none, List.append_nil]
  exact d.operators_record _

theorem Decoder.elements_composed (codes : Components) (base accent : Nat) (d : Decoder) :
    (d.composed codes base accent).elements = d.elements := by
  rw [composed, elements_record, elements_record]
  simp only [Event.element?, Option.toList_none, List.append_nil]
  exact (d.elements_record _).trans (List.append_nil _)

/-- A list that goes on within a list of two. -/
theorem prefix_pair {α : Type} {l : List α} {a x y : α} (h : l ++ [a] <+: [x, y]) :
    (l = [] ∧ a = x) ∨ (l = [x] ∧ a = y) := by
  obtain ⟨rest, h⟩ := h
  match l with
  | [] => exact .inl ⟨rfl, (List.cons.inj h).1⟩
  | [b] =>
    obtain ⟨hb, htail⟩ := List.cons.inj h
    exact .inr ⟨hb ▸ rfl, (List.cons.inj htail).1⟩
  | _ :: _ :: _ => simp at h

/-- An accented character that executes one operator that gives side bearing and width, and `seac`,
is composed at the lowest level, in a state of which all but these two is as at the beginning. -/
theorem Composition.Reached.opening {c : Composition} {data : List UInt8} {setup : Setup}
    {m : Operator} (hops : c.before.operators = [m, .seac]) (hm : m.isMetrics) {levels p : Nat}
    {d : Decoder} (h : c.Reached data setup levels p d) (hd : Opening setup d) :
    c.levels = levels ∧ ∃ e codes, Opening setup e ∧ e.operators = [m] ∧
      c.before = e.composed codes c.base c.accent := by
  have hcall : m ≠ .callsubr := by
    rintro rfl
    cases hm
  induction h with
  | @here levels p n i d hread hx hlevels =>
    obtain ⟨-, -, -, v, codes, -, -, -, -, -, -, -, -, hc⟩ := Decode.execute_eq_compose hx
    rw [hc, Decoder.operators_composed] at hops
    exact ⟨hlevels.symm, d, codes, hd, List.append_cancel_right hops, hc⟩
  | @next levels p n i d e hread he hr ih =>
    have hn : Direct.Grows (Direct.nested data setup levels) := Direct.nested_grows levels
    have hg := (Direct.effect_grows setup hn i d).2
    rw [he] at hg
    cases i with
    | number value => exact ih (hd.number (Direct.execute_of_goesOn nofun he))
    | reserved byte => cases he
    | operator op =>
      have hp := Decoder.operators_grows
        ((Decode.began_grows setup op d).trans (hg.trans hr.grows))
      rw [hops] at hp
      -- Of two operators the second composes, so any that a step executes before is the first.
      obtain ⟨hnil, rfl⟩ | ⟨-, rfl⟩ := prefix_pair hp
      · refine ih (hd.metrics hnil hm (Direct.execute_of_goesOn (fun h => hcall ?_) he))
        exact Instruction.operator.inj h
      · exact absurd rfl (Direct.ne_seac (congrArg Direct.Effect.isOpen he))
  | @call levels p n offset i d e hread hx hle hr ih =>
    obtain rfl := Instruction.eq_callsubr (Decode.yields_execute _ _ _ _ _ hx)
    have hg := Decode.began_grows setup .callsubr d
    rw [hx] at hg
    have hp := Decoder.operators_grows (hg.trans hr.grows)
    rw [hops] at hp
    obtain ⟨-, h⟩ | ⟨-, h⟩ := prefix_pair hp
    · exact absurd h.symm hcall
    · cases h

/-! ## A glyph and the same glyph as a base -/

/-- Whether the element is a width. -/
def Element.isWidth : Element → Bool
  | width _ => true
  | _ => false

/-- States of a glyph and of the same glyph as a base, where `before` are the elements that the
accented character had. Once the glyph has got its side bearing, the points are the same. -/
structure AsBase (placed : Bool) (before : List Element) (d e : Decoder) : Prop where
  same : ∃ point bearing width b components history,
    e = { d with point, bearing, width, part := .base b, components, history }
  part : d.part = .glyph
  width : d.width.isSome = placed
  begun : d.operators.any Operator.isMetrics = placed
  placed : placed = true → d.point = e.point ∧ e.part = .base d.bearing
  given : e.elements = before ++ d.elements.filter (!·.isWidth)

section AsBase

variable {placed : Bool} {before : List Element} {d e : Decoder} {setup : Setup}

namespace AsBase

/-- What does not look at what may differ is the same. -/
theorem read (h : AsBase placed before d e) {α : Type} (f : Decoder → α)
    (hsame : ∀ d point bearing width part components history,
      f { d with point, bearing, width, part, components, history } = f d := by intros; rfl) :
    f d = f e := by
  obtain ⟨point, bearing, width, b, components, history, rfl⟩ := h.same
  exact (hsame d point bearing width (.base b) components history).symm

/-- A change of both states that leaves alone what may differ. -/
theorem beside (h : AsBase placed before d e) (f : Decoder → Decoder)
    (hsame : ∀ d point bearing width part components history,
      f { d with point, bearing, width, part, components, history } =
        { f d with point, bearing, width, part, components, history } := by intros; rfl)
    (hkept : (f d).point = d.point ∧ (f d).bearing = d.bearing ∧ (f d).width = d.width ∧
      (f d).part = d.part ∧ (f d).history = d.history := by exact ⟨rfl, rfl, rfl, rfl, rfl⟩) :
    AsBase placed before (f d) (f e) := by
  obtain ⟨⟨point, bearing, width, b, components, history, rfl⟩, hpart, hwidth, hbegun, hplaced,
    hgiven⟩ := h
  obtain ⟨hp, hb, hw, hpt, hh⟩ := hkept
  rw [hsame d point bearing width (.base b) components history]
  unfold Decoder.elements at hgiven
  unfold Decoder.operators Decoder.events at hbegun
  rw [← hpt] at hpart
  rw [← hw] at hwidth
  rw [← hp, ← hb] at hplaced
  rw [← hh] at hbegun hgiven
  exact ⟨⟨_, _, _, _, _, _, rfl⟩, hpart, hwidth, hbegun, hplaced, hgiven⟩

theorem record (h : AsBase placed before d e) {x : Event}
    (hx : ∀ y ∈ x.element?, y.isWidth = false) (hop : ∀ op ∈ x.operator?, op.isMetrics = false) :
    AsBase placed before (d.record x) (e.record x) := by
  refine ⟨?_, h.part, h.width, ?_, h.placed, ?_⟩
  · obtain ⟨_, _, _, _, _, _, rfl⟩ := h.same
    exact ⟨_, _, _, _, _, _, rfl⟩
  · rw [Decoder.operators_record, List.any_append, h.begun]
    cases hx : x.operator? with
    | none => simp
    | some op => simp [hop op hx]
  · rw [Decoder.elements_record, Decoder.elements_record, h.given, List.filter_append,
      List.append_assoc]
    congr 2
    cases hy : x.element? with
    | none => rfl
    | some y => simp [hx y hy]

/-- Stems are relative to the side bearing of the base, not to that of the accented character. -/
theorem stemOrigin (h : AsBase true before d e) : d.stemOrigin = e.stemOrigin := by
  unfold Decoder.stemOrigin
  rw [h.part, (h.placed rfl).2]

theorem addStem (h : AsBase placed before d e) (kind : StemKind) (near far : Number) :
    AsBase placed before (d.addStem setup kind near far) (e.addStem setup kind near far) := by
  have hsettled := h.beside ({ · with hintsDue := false, groupDue := false })
  unfold Decoder.addStem
  obtain ⟨_, _, _, _, _, _, rfl⟩ := h.same
  refine hsettled.record (fun y hy => ?_) nofun
  cases hy
  rfl

theorem hintStem (h : AsBase true before d e) (kind : StemKind) (position extent : Number) :
    AsBase true before (d.hintStem setup kind position extent)
      (e.hintStem setup kind position extent) := by
  have hasked : AsBase true before
      (if d.moved && !d.hintsRenewed then d.renewHints else d)
      (if e.moved && !e.hintsRenewed then e.renewHints else e) := by
    rw [← h.read Decoder.moved, ← h.read Decoder.hintsRenewed]
    split
    · exact h.beside Decoder.renewHints
    · exact h
  unfold Decoder.hintStem
  dsimp only
  rw [hasked.stemOrigin]
  exact hasked.addStem _ _ _

/-- Neither a glyph nor a base is an accent. -/
theorem placeAccent (h : AsBase placed before d e) :
    d.placeAccent = d ∧ e.placeAccent = e := by
  unfold Decoder.placeAccent
  rw [h.part]
  obtain ⟨_, _, _, _, _, _, rfl⟩ := h.same
  exact ⟨rfl, rfl⟩

end AsBase

theorem reporting_asBase : Reporting (AsBase placed before) where
  workspace h := h.read Decoder.workspace
  setOperands h operands := h.beside ({ · with operands })
  closed h := h.beside ({ · with moveDue := true })
  note h n := h.record nofun nofun
  report h x hx := by
    refine h.record (fun y hy => ?_) nofun
    cases hy
    cases x with
    | width w => cases hx
    | _ => rfl

theorem storing_asBase : Storing (AsBase placed before) where
  setStorage h storage := h.beside ({ · with storage })
  setSeed h seed := h.beside ({ · with seed })
  blended h := h.beside ({ · with blended := true })

theorem drawing_asBase : Drawing setup (AsBase true before) where
  toReporting := reporting_asBase
  point h := (h.placed rfl).1
  setPoint := by
    rintro d _ ⟨⟨_, _, _, _, _, _, rfl⟩, hp, hw, hb, hpl, hg⟩ _
    exact ⟨⟨_, _, _, _, _, _, rfl⟩, hp, hw, hb, fun _ => ⟨rfl, (hpl rfl).2⟩, hg⟩
  moveDue h := h.read Decoder.moveDue
  opened h := h.beside ({ · with moveDue := false, moved := true })
  placeAccent h := by rwa [h.placeAccent.1, h.placeAccent.2]
  absolute h p := by
    unfold Decoder.absolute
    rw [h.part, (h.placed rfl).2]
  renewHints h := h.beside Decoder.renewHints
  hintStem h := h.hintStem
  active h := h.read (·.flex.active)
  flex h _ := h.read Decoder.flex
  setFlex h flex := h.beside ({ · with flex })
  malformed h n := by
    obtain ⟨_, _, _, _, _, _, rfl⟩ := h.same
    exact h.record nofun nofun

theorem counting_asBase : Counting setup (AsBase true before) where
  counters h := h.read Decoder.counters
  setCounters h counters := h.beside ({ · with counters })
  openGroup h := h.beside ({ · with groupDue := true })
  stemOrigin h := h.stemOrigin
  counterStem h _ _ _ := h.addStem _ _ _

theorem AsBase.measured (h : AsBase false before d e) {op : Operator} (hop : op.isMetrics)
    (bearing : Point) (advance : Number) :
    AsBase true before (d.measured setup op bearing advance) (e.placedBase op bearing) := by
  refine ⟨?_, h.part, rfl, ?_, fun _ => ⟨rfl, rfl⟩, ?_⟩
  · obtain ⟨_, _, _, _, _, _, rfl⟩ := h.same
    exact ⟨_, _, _, _, _, _, rfl⟩
  · rw [Decoder.operators_measured, List.any_append, List.any_cons, hop, Bool.true_or,
      Bool.or_true]
  · rw [Decoder.elements_placedBase, Decoder.elements_measured, List.filter_append, h.given]
    exact congrArg (before ++ ·) (List.append_nil _).symm

theorem AsBase.began (h : AsBase placed before d e) {op : Operator} (hop : op.isMetrics = false) :
    AsBase placed before (d.record (.began op d.operands.toList))
      (e.record (.began op e.operands.toList)) := by
  rw [← h.read Decoder.operands]
  refine h.record nofun fun op' h' => ?_
  cases h'
  exact hop

theorem Operator.isMetrics_of_isQuiet {op : Operator} (h : op.isQuiet) : op.isMetrics = false := by
  cases op with
  | hsbw | sbw => cases h
  | _ => rfl

/-- An instruction does the same to a base as to the glyph itself, in a program that gives side
bearing and width once and before anything else. -/
theorem AsBase.execute (h : AsBase placed before d e) (hsetup : setup.widthOnly = false)
    {ops : List Operator} (hops : Operator.givesMetricsFirst ops) {i : Instruction}
    (hq : (Decode.final (Decode.execute setup i d)).operators <+: ops) :
    Decode.Related (fun d e => ∃ placed, AsBase placed before d e) Unrelated
      (Decode.execute setup i d) (Decode.execute setup i e) := by
  have any {α : Type} {placed : Bool} {o o' : EStateM.Result Error Decoder α}
      (h : Decode.Related (AsBase placed before) Unrelated o o') :
      Decode.Related (fun d e => ∃ placed, AsBase placed before d e) Unrelated o o' :=
    h.imp fun _ _ h => ⟨placed, h⟩
  cases i with
  | number value =>
    have hpush := (Decode.relates_push reporting_asBase.toCongruence value).bind fun _ =>
      Decode.relates_pure (R := AsBase placed before) Control.next
    exact any ((hpush d e h).mono fun _ _ _ => trivial)
  | reserved byte => exact .error trivial
  | operator op =>
    have hp := (Decoder.operators_grows (Decode.began_grows setup op d)).trans hq
    -- What was executed before and what the operator is leaves three cases: the one that gives the
    -- metrics, calculations before it, and any other operator after it.
    obtain ⟨hnone, hmetrics | hquiet⟩ | ⟨hsome, hmetrics, hseac⟩ :=
      Operator.begins_of_givesMetricsFirst hops hp
    · obtain rfl : placed = false := h.begun.symm.trans hnone
      have hwidth : d.width = none := by
        rw [← Option.not_isSome_iff_eq_none, h.width]
        exact Bool.false_ne_true
      obtain ⟨b, hpart⟩ : ∃ b, e.part = .base b := by
        obtain ⟨_, _, _, b, _, _, rfl⟩ := h.same
        exact ⟨b, rfl⟩
      rw [Decode.execute_metrics_glyph hmetrics h.part hwidth,
        Decode.execute_metrics_base hmetrics hpart, hsetup, ← h.read Decoder.operands]
      split
      · exact .ok ⟨true, h.measured hmetrics _ _⟩
      · exact .error trivial
    · have hperform : Decode.Relates (AsBase placed before) (AsBase placed before)
          (Decode.perform setup op) (Decode.perform setup op) :=
        Decode.relates_quiet reporting_asBase hquiet fun _ => storing_asBase
      have hbegan := h.began (Operator.isMetrics_of_isQuiet hquiet)
      exact any ((hperform _ _ hbegan).mono fun _ _ _ => trivial)
    · obtain rfl : placed = true := h.begun.symm.trans hsome
      have hbegan := h.began hmetrics
      refine any (Decode.related_perform drawing_asBase (fun _ _ _ => trivial)
        (fun _ => storing_asBase) (fun hm => absurd (hm.symm.trans hmetrics) nofun)
        (fun hs => absurd hs hseac) (fun _ => ?_) hbegan)
      exact Decode.related_callOtherSubr reporting_asBase.toCongruence (fun _ _ _ => trivial)
        hbegan fun n _ _ => (Decode.relates_performOtherSubr drawing_asBase n
          (fun _ _ => counting_asBase) fun _ => storing_asBase).mono fun _ _ _ => trivial

/-- A base in lockstep with the glyph itself. -/
theorem lockstep_asBase (before : List Element) (hsetup : setup.widthOnly = false)
    {ops : List Operator} (hops : Operator.givesMetricsFirst ops) :
    Direct.Lockstep (fun events => events.filterMap Event.operator? <+: ops)
      (fun d e => ∃ placed, AsBase placed before d e) Unrelated setup setup where
  before hp hq := (hp.filterMap _).trans hq
  fails _ := trivial
  step := fun ⟨_, h⟩ hq => h.execute hsetup hops hq
  parts {i d e c base accent shift} _ hq hx := by
    obtain ⟨rfl, -, -, -, codes, -, -, -, -, -, -, -, -, rfl⟩ := Decode.execute_eq_compose hx
    have hp : (d.composed codes base accent).operators <+: ops := hq
    rw [Decoder.operators_composed] at hp
    obtain ⟨-, h | h⟩ | ⟨-, -, h⟩ := Operator.begins_of_givesMetricsFirst hops hp
    · cases h
    · cases h
    · exact absurd rfl h

end AsBase

/-- The base of an accented character that calculates nothing gives what it gives on its own, if
side bearing and width are the first it does. -/
theorem Composition.baseOutcome_of_nested {c : Composition} {data : List UInt8} {setup : Setup}
    {offset : Nat} {m : Operator} {flow : Flow} {d : Decoder} (h : c.Of data setup offset)
    (hops : c.before.operators = [m, .seac]) (hm : m.isMetrics)
    (hd : Direct.nested data setup maxDepth c.base (.start setup.font) = .ok flow d)
    (honce : Operator.givesMetricsFirst d.operators) :
    ∃ w e, c.before.width = some w ∧ c.baseOutcome data setup = .ok flow e ∧
      e.elements = .width w :: d.elements.filter (!·.isWidth) := by
  obtain ⟨hlevels, e, codes, hopening, he, hbefore⟩ := h.2.opening hops hm Opening.start
  have hknown := hopening.known (he ▸ List.cons_ne_nil _ _)
  obtain ⟨w, hw⟩ := Option.isSome_iff_exists.1 hknown.1
  have hgiven : c.before.elements = [.width w] := by
    rw [hbefore, Decoder.elements_composed, hopening.given, hw]
    rfl
  -- The base begins where the glyph on its own would, behind the elements of the accented
  -- character.
  have hstart : AsBase false c.before.elements (.start setup.font) c.before.beginBase := by
    refine ⟨?_, rfl, rfl, rfl, nofun, (List.append_nil _).symm⟩
    obtain ⟨_, _, _, _, _, rfl⟩ := hopening.same
    rw [hbefore]
    exact ⟨_, _, _, _, _, _, rfl⟩
  have hrun := (lockstep_asBase c.before.elements hknown.2 honce).nested data maxDepth c.base _ _
    ⟨false, hstart⟩ (by rw [hd]; exact List.prefix_rfl)
  rw [hd, ← hlevels] at hrun
  have hwidth : c.before.width = some w := by
    rw [hbefore]
    exact hw
  unfold baseOutcome
  revert hrun
  generalize Direct.nested data setup c.levels c.base c.before.beginBase = o
  rintro (⟨_, hbase⟩ | _)
  exact ⟨w, _, hwidth, rfl, hbase.given.trans (congrArg (· ++ _) hgiven)⟩

/-! ## What a receiver is given -/

theorem Settings.isWidth_place (settings : Settings) (e : Element) :
    (settings.place e).isWidth = e.isWidth := by
  unfold place
  cases settings.activeMatrix? with
  | none => rfl
  | some m => cases e <;> rfl

theorem Element.isWidth_of_mem_deliver {settings : Settings} {takes : Capabilities}
    {x e : Element} (h : x ∈ e.deliver settings takes) : x.isWidth = e.isWidth := by
  rw [deliver_eq] at h
  obtain ⟨y, hy, rfl⟩ := List.mem_map.1 h
  rw [Settings.isWidth_place]
  cases e with
  | flex depth left right =>
    rw [accept] at hy
    split at hy
    · cases List.mem_singleton.1 hy
      rfl
    · split at hy
      · rw [List.mem_cons, List.mem_singleton] at hy
        obtain rfl | rfl := hy <;> rfl
      · cases hy
  | accented shift parts =>
    cases List.mem_singleton.1 hy
    rfl
  | _ =>
    rw [accept, List.mem_ite_nil_right, List.mem_singleton] at hy
    rw [hy.2]

/-- It makes no difference whether widths are left out before or after a receiver takes its
share. -/
theorem flatMap_deliver_filter (settings : Settings) (takes : Capabilities)
    (elements : List Element) :
    (elements.filter (!·.isWidth)).flatMap (Element.deliver settings takes) =
      (elements.flatMap (Element.deliver settings takes)).filter (!·.isWidth) := by
  induction elements with
  | nil => rfl
  | cons e elements ih =>
    have hkind (x : Element) (hx : x ∈ e.deliver settings takes) : (!x.isWidth) = !e.isWidth :=
      congrArg _ (Element.isWidth_of_mem_deliver hx)
    rw [List.flatMap_cons, List.filter_append, ← ih, List.filter_congr hkind, List.filter_cons]
    cases e.isWidth with
    | true => exact congrArg (· ++ _) (List.filter_eq_nil_iff.2 fun _ _ => Bool.false_ne_true).symm
    | false => exact congrArg (· ++ _) (List.filter_eq_self.2 fun _ _ => rfl).symm

theorem filterMap_operator?_deliver (settings : Settings) (takes : Capabilities)
    (history : List Event) :
    (history.flatMap (Event.deliver settings takes)).filterMap Event.operator? =
      history.filterMap Event.operator? := by
  induction history with
  | nil => rfl
  | cons event history ih =>
    rw [List.flatMap_cons, List.filterMap_append, ih]
    cases event with
    | element e =>
      rw [Event.deliver, List.filterMap_map]
      exact congrArg (· ++ _) (List.filterMap_eq_nil_iff.2 fun _ _ => rfl)
    | _ => rfl

/-- What a charstring that is decoded to its end tells is its history. -/
theorem parse_eq_ok {s : Source} {font : Font} {settings : Settings} {takes : Capabilities}
    {offset : Nat} {st : Source.State} {glyph : Glyph}
    (h : (parse s font settings takes offset st).1.result = .ok glyph) :
    ∃ flow session, Session.decodeGlyph s (.of font settings takes) offset st =
          .ok flow session ∧
      (parse s font settings takes offset st).1.elements =
        session.decoder.elements.flatMap (Element.deliver settings takes) ∧
      (parse s font settings takes offset st).1.operators = session.decoder.operators := by
  rw [parse_eq] at h ⊢
  revert h
  cases Session.decodeGlyph s (.of font settings takes) offset st with
  | error x session => exact nofun
  | ok flow session =>
    exact fun _ => ⟨flow, session, rfl, filterMap_element?_deliver _ _ _,
      filterMap_operator?_deliver _ _ _⟩

/-- Whether the event is a call of the source. -/
def Event.isCalled : Event → Bool
  | called _ => true
  | _ => false

/-- A charstring that is decoded to its end, and never comes to the last level, also comes to its
end at a level further up, with the same elements and operators. -/
theorem nested_of_parse {data : List UInt8} {font : Font} {settings : Settings}
    {takes : Capabilities} {offset : Nat} {chunk : Option Nat} {st : Source.State} {glyph : Glyph}
    (hok : (parse (.memory data chunk) font settings takes offset st).1.result = .ok glyph)
    (hdepth : ∀ n m, Run.after (.memory data chunk) (.of font settings takes) offset st n =
      .running m → m.depth ≤ 9) :
    ∃ flow d, Direct.nested data (.of font settings takes) maxDepth offset (.start font) =
        .ok flow d ∧
      (parse (.memory data chunk) font settings takes offset st).1.elements =
        d.elements.flatMap (Element.deliver settings takes) ∧
      (parse (.memory data chunk) font settings takes offset st).1.operators = d.operators := by
  obtain ⟨flow, session, hdecode, helements, hoperators⟩ := parse_eq_ok hok
  obtain ⟨flow', session', hdecode', hsession⟩ :=
    Run.decodeAt_of_depth_lt (show 9 + 1 = maxDepth from rfl) hdecode hdepth
  have hhistory : session'.decoder.history = session.decoder.history :=
    congrArg (fun session => session.decoder.history) hsession
  -- A level on the data is the level on the source, but for the calls of the source.
  have hmatches : Direct.Matches (fun x => !x.isCalled) (.ok flow' session')
      (Direct.nested data (.of font settings takes) maxDepth offset (.start font)) := by
    have h := Direct.matches_nested (.of font settings takes)
      (Source.reliable_memory : (Source.memory data chunk).Reliable) (fun _ => rfl) maxDepth offset
      ⟨st, .start font⟩ _ (.refl _ : Decoder.Agree (fun x => !x.isCalled) _ _)
    rw [Source.memory_data] at h
    exact hdecode' ▸ h
  revert hmatches
  generalize Direct.nested data (.of font settings takes) maxDepth offset (.start font) = o
  rintro (hagree | _)
  next d =>
  refine ⟨flow', d, rfl, helements.trans (congrArg _ ?_), hoperators.trans ?_⟩
  · unfold Decoder.elements
    rw [← hhistory]
    exact hagree.filterMap fun x hx => by cases x <;> first | rfl | cases hx
  · unfold Decoder.operators Decoder.events
    rw [← hhistory]
    exact hagree.filterMap fun x hx => by cases x <;> first | rfl | cases hx

/-- The base of an accented character that only gives side bearing and width, and `seac`, gives
what it gives on its own, apart from its width: it comes behind the width of the accented character
and before everything else. The base has to come to its end on its own, at most nine levels deep, to
give side bearing and width once, before anything is drawn, hinted or left to other subroutines, and
to compose no accented character. -/
theorem elements_of_base {data : List UInt8} {font : Font} {settings : Settings}
    {takes : Capabilities} {offset : Nat} {c : Composition} {m : Operator}
    {chunk : Option Nat} {st : Source.State} {glyph : Glyph}
    (h : c.Of data (.of font settings takes) offset)
    (hops : c.before.operators = [m, .seac]) (hm : m.isMetrics)
    (hok : (parse (.memory data chunk) font settings takes c.base st).1.result = .ok glyph)
    (honce : Operator.givesMetricsFirst
      (parse (.memory data chunk) font settings takes c.base st).1.operators)
    (hdepth : ∀ n m, Run.after (.memory data chunk) (.of font settings takes) c.base st n =
      .running m → m.depth ≤ 9)
    (chunk' : Option Nat) (st' : Source.State) :
    ∃ w, c.before.width = some w ∧
      (Element.width w).deliver settings takes ++
          (parse (.memory data chunk) font settings takes c.base st).1.elements.filter
            (!·.isWidth) <+:
        (parse (.memory data chunk') font settings takes offset st').1.elements := by
  obtain ⟨flow, d, hnested, helements, hoperators⟩ := nested_of_parse hok hdepth
  rw [hoperators] at honce
  obtain ⟨w, e, hwidth, hbase, he⟩ := Composition.baseOutcome_of_nested h hops hm hnested honce
  refine ⟨w, hwidth, ?_⟩
  -- The accent only adds to the history.
  have hgrows : e.events <+:
      (Decode.final (c.accentOutcome data (.of font settings takes) e)).events :=
    Direct.nested_grows c.levels c.accent (e.beginAccent c.shift)
  have hprefix : e.elements <+:
      (Decode.final (c.accentOutcome data (.of font settings takes) e)).elements :=
    hgrows.filterMap Event.element?
  obtain ⟨rest, hrest⟩ := hprefix
  -- However the memory is read, the answer is the one of the composition.
  have hanswer : (parse (.memory data chunk') font settings takes offset st').1.elements = _ :=
    congrArg Prod.fst (c.answer h hbase chunk' st')
  rw [hanswer, ← hrest, he, helements, ← flatMap_deliver_filter, List.flatMap_append,
    List.flatMap_cons]
  exact List.prefix_append _ _

/-- An accented character, a base with a stem and a contour, and an accent with a contour. -/
def AsBase.data : List UInt8 :=
  Aacute.charstring ++
  [149, 239, 13, 144, 149, 1, 159, 169, 21, 144, 6, 9, 14] ++
  [139, 139, 13, 149, 159, 21, 144, 6, 14]

/-- What the base tells on its own. -/
def AsBase.standalone : Report :=
  (parse (.memory data none) (Aacute.font 12 25) Aacute.settings {} 12 {}).1

/-- The run of the base on its own, after a number of steps. -/
def AsBase.run (n : Nat) : Status (.memory data none) :=
  Run.after (.memory data none) (.of (Aacute.font 12 25) Aacute.settings {}) 12 {} n

theorem elements_of_base_contour :
    ∃ (c : Composition) (w : Number),
      c.Of AsBase.data (.of (Aacute.font 12 25) Aacute.settings {}) 0 ∧ c.base = 12 ∧
      c.before.width = some w ∧
      (Element.width w).deliver Aacute.settings {} ++
        AsBase.standalone.elements.filter (!·.isWidth) <+: Aacute.elements AsBase.data 12 25 := by
  obtain ⟨⟨⟨levels, base, accent, shift, before⟩, after⟩, h⟩ := Option.isSome_iff_exists.1
    (by decide +kernel : (Aacute.parts? AsBase.data 12 25).isSome)
  have hc : (Aacute.parts? AsBase.data 12 25).all fun (c, _) =>
      c.base = 12 ∧ c.before.operators = [.hsbw, .seac] := by
    decide +kernel
  rw [h, Option.all_some, decide_eq_true_eq] at hc
  obtain ⟨hbase, hops⟩ := hc
  obtain rfl : base = 12 := hbase
  have hok : AsBase.standalone.result.isOk := by decide +kernel
  have honce : Operator.givesMetricsFirst AsBase.standalone.operators := by decide +kernel
  have hend : Run.depth? (AsBase.run 20) = none := by decide +kernel
  have hdepth : ∀ n < 20, ∀ k ∈ Run.depth? (AsBase.run n), k ≤ 9 := by decide +kernel
  cases hresult : AsBase.standalone.result with
  | error x =>
    rw [hresult] at hok
    cases hok
  | ok glyph =>
    obtain ⟨hof, -⟩ := Composition.of_parts? h
    obtain ⟨w, hw, hprefix⟩ := elements_of_base hof hops rfl hresult honce
      (fun _ _ => Run.depth_le_of_check hend hdepth) none {}
    exact ⟨_, w, hof, rfl, hw, hprefix⟩

end Type1
