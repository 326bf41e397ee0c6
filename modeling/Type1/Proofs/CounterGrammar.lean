import Type1.Proofs.Contours

/-!
# The grammar of counter hints

Counter hints may come in several calls. Only the values that these have collected together matter,
and they are read from the last one to the first, in pairs.

* `CounterPair.IsGroup`: the pairs of a complete group. `CounterPair.Reads`: how values are read,
  which is possible in some way for all of them (`CounterPair.exists_reads`).
* `CounterPair.stems`: the stems of groups, which are horizontal and vertical in turn.
* `Decode.counterGroups_reads`: what reporting values comes to, in terms of how they are read.
* `Run.collected`: the values that the calls of a run have collected, from its steps alone. The
  state has the same (`Run.counters_eq`).
* `counter_hints_read`: what a call of a run that gives counter hints comes to.
-/

namespace Type1

/-! ## Groups and their stems -/

/-- Two values of counter hints, in the order in which they are read. -/
structure CounterPair where
  /-- The distance from the edge before. -/
  gap : Number
  /-- The width of the stem, or its negative at the end of a group. -/
  width : Number

namespace CounterPair

/-- The values of a pair. -/
def values (p : CounterPair) : List Number := [p.gap, p.width]

/-- The pairs are those of a complete group: the last one, and no other, has a negative width. -/
inductive IsGroup : List CounterPair → Prop where
  /-- The last pair. -/
  | last {p : CounterPair} (h : p.width < 0) : IsGroup [p]
  /-- A pair before others. -/
  | cons {p : CounterPair} {g : List CounterPair} (h : ¬ p.width < 0) (hg : IsGroup g) :
    IsGroup (p :: g)

/-- How values are read: as complete groups, the pairs of a group that is cut off, and at most one
value that has no other to go with it. -/
structure Reads (values : List Number) (groups : List (List CounterPair)) (cut : List CounterPair)
    (rest : List Number) : Prop where
  /-- The groups are complete. -/
  isGroup : ∀ g ∈ groups, IsGroup g
  /-- No pair ends the group that is cut off. -/
  isCut : ∀ p ∈ cut, ¬ p.width < 0
  /-- All other values go in pairs. -/
  length_le : rest.length ≤ 1
  /-- All values are read, in order. -/
  eq : values = groups.flatten.flatMap CounterPair.values ++ cut.flatMap CounterPair.values ++ rest

/-- The edges of the stems of a group. Each stem is given relative to the far edge of the one
before. -/
def edges (edge : Number) : List CounterPair → List (Number × Number)
  | [] => []
  | p :: later =>
    let near := edge + p.gap
    let far := near + p.width.abs
    (near, far) :: edges far later

/-- The stems of a group between edges, of which the first one starts the group. -/
def groupStems (control : Number → Number) (vertical newHints : Bool) :
    List (Number × Number) → List Element
  | [] => []
  | (near, far) :: later =>
    .stem { vertical, counter := true, newHints, newGroup := true } (control near) (control far) ::
      later.map fun (near, far) => .stem { vertical, counter := true } (control near) (control far)

/-- The stems of groups. They are across the two axes in turn, and each group begins at the origin.
Only the first of all stems can start a new set of hints. -/
def stems (control : Number → Number) (origin : Point) :
    Bool → Bool → List (List CounterPair) → List Element
  | _, _, [] => []
  | vertical, newHints, g :: later =>
    groupStems control vertical newHints (edges (origin.across vertical) g) ++
      stems control origin (!vertical) false later

/-- All values can be read. -/
theorem exists_reads : ∀ values : List Number, ∃ groups cut rest, Reads values groups cut rest
  | [] => ⟨[], [], [], nofun, nofun, Nat.zero_le _, rfl⟩
  | [v] => ⟨[], [], [v], nofun, nofun, Nat.le_refl _, rfl⟩
  | gap :: width :: values => by
    obtain ⟨groups, cut, rest, h⟩ := exists_reads values
    by_cases hwidth : width < 0
    · refine ⟨[⟨gap, width⟩] :: groups, cut, rest, ?_, h.isCut, h.length_le, ?_⟩
      · exact List.forall_mem_cons.2 ⟨.last hwidth, h.isGroup⟩
      · rw [h.eq]
        rfl
    · cases groups with
      | nil =>
        refine ⟨[], ⟨gap, width⟩ :: cut, rest, nofun, ?_, h.length_le, ?_⟩
        · exact List.forall_mem_cons.2 ⟨hwidth, h.isCut⟩
        · rw [h.eq]
          rfl
      | cons g groups =>
        obtain ⟨hg, hgroups⟩ := List.forall_mem_cons.1 h.isGroup
        refine ⟨(⟨gap, width⟩ :: g) :: groups, cut, rest, ?_, h.isCut, h.length_le, ?_⟩
        · exact List.forall_mem_cons.2 ⟨.cons hwidth hg, hgroups⟩
        · rw [h.eq]
          rfl

end CounterPair

variable {s : Source} {setup : Setup}

/-! ## Stems one after the other -/

namespace Decoder

/-- Reports the stems of counter hints between edges. -/
def addCounterStems (setup : Setup) (vertical : Bool) (edges : List (Number × Number))
    (d : Decoder) : Decoder :=
  edges.foldl (fun d (near, far) => d.addStem setup { vertical, counter := true } near far) d

variable (setup) (d : Decoder)

theorem elements_addStem (kind : StemKind) (near far : Number) :
    (d.addStem setup kind near far).elements =
      d.elements ++ [.stem { kind with newHints := d.hintsDue, newGroup := d.groupDue }
        (d.control setup near) (d.control setup far)] :=
  elements_record _ _

/-- Stems of counter hints leave all but what is due to stems alone. -/
theorem addCounterStems_eq (vertical : Bool) (edges : List (Number × Number)) :
    ∃ hintsDue groupDue history, d.addCounterStems setup vertical edges =
      { d with hintsDue, groupDue, history } := by
  unfold addCounterStems
  induction edges generalizing d with
  | nil => exact ⟨d.hintsDue, d.groupDue, d.history, rfl⟩
  | cons e edges ih =>
    obtain ⟨hintsDue, groupDue, history, h⟩ :=
      ih (d.addStem setup { vertical, counter := true } e.1 e.2)
    exact ⟨hintsDue, groupDue, history, h⟩

theorem counters_addCounterStems (vertical : Bool) (edges : List (Number × Number)) :
    (d.addCounterStems setup vertical edges).counters = d.counters := by
  obtain ⟨_, _, _, h⟩ := d.addCounterStems_eq setup vertical edges
  rw [h]

/-- What is due to the first stem is not due to any after it. -/
theorem elements_addCounterStems_of_settled (vertical : Bool) (edges : List (Number × Number))
    (hhints : d.hintsDue = false) (hgroup : d.groupDue = false) :
    (d.addCounterStems setup vertical edges).elements = d.elements ++
        edges.map (fun (near, far) => Element.stem { vertical, counter := true }
          (d.control setup near) (d.control setup far)) ∧
      (d.addCounterStems setup vertical edges).hintsDue = false := by
  induction edges generalizing d with
  | nil => exact ⟨(List.append_nil _).symm, hhints⟩
  | cons e edges ih =>
    obtain ⟨helements, hdue⟩ :=
      ih (d.addStem setup { vertical, counter := true } e.1 e.2) rfl rfl
    refine ⟨helements.trans ?_, hdue⟩
    rw [elements_addStem, hhints, hgroup, List.append_assoc]
    rfl

/-- The stems of a group that is due. -/
theorem elements_addCounterStems (vertical : Bool) (edges : List (Number × Number))
    (hgroup : d.groupDue = true) :
    (d.addCounterStems setup vertical edges).elements = d.elements ++
      CounterPair.groupStems (d.control setup) vertical d.hintsDue edges := by
  cases edges with
  | nil => exact (List.append_nil _).symm
  | cons e edges =>
    have h := elements_addCounterStems_of_settled setup
      (d.addStem setup { vertical, counter := true } e.1 e.2) vertical edges rfl rfl
    refine h.1.trans ?_
    rw [elements_addStem, hgroup, List.append_assoc]
    rfl

theorem hintsDue_addCounterStems (vertical : Bool) {edges : List (Number × Number)}
    (h : edges ≠ []) : (d.addCounterStems setup vertical edges).hintsDue = false := by
  cases edges with
  | nil => exact absurd rfl h
  | cons e edges =>
    exact (elements_addCounterStems_of_settled setup
      (d.addStem setup { vertical, counter := true } e.1 e.2) vertical edges rfl rfl).2

end Decoder

/-! ## Reporting what is read -/

namespace Decode

/-- Reports groups of counter hints, of which the first one is vertical or not, given all values in
the order in which they are read. -/
def counterGroups (setup : Setup) (vertical : Bool) (values : List Number) : Decode Unit :=
  match values with
  | [] => pure ()
  | _ => do
    modify ({ · with groupDue := true })
    counterStems setup vertical ((← get).stemOrigin.across vertical) values

theorem counterGroups_of_ne_nil (setup : Setup) {vertical : Bool} {values : List Number}
    (h : values ≠ []) (d : Decoder) :
    counterGroups setup vertical values d =
      counterStems setup vertical (d.stemOrigin.across vertical) values
        { d with groupDue := true } := by
  cases values with
  | nil => exact absurd rfl h
  | cons v values => rfl

/-- A pair is reported, and may end its group. -/
theorem counterStems_pair (p : CounterPair) (vertical : Bool) (edge : Number)
    (values : List Number) (d : Decoder) :
    let near := edge + p.gap
    let far := near + p.width.abs
    let e := d.addStem setup { vertical, counter := true } near far
    counterStems setup vertical edge (p.values ++ values) d =
      if p.width < 0 then counterGroups setup (!vertical) values e
      else counterStems setup vertical far values e := by
  intro near far e
  show counterStems setup vertical edge (p.gap :: p.width :: values) d = _
  rw [counterStems.eq_def]
  dsimp only
  rw [modify_bind_run]
  split
  · cases values <;> rfl
  · rfl

/-- A complete group is followed by groups across the other axis. -/
theorem counterStems_group {g : List CounterPair} (hg : CounterPair.IsGroup g) (vertical : Bool)
    (edge : Number) (rest : List Number) (d : Decoder) :
    counterStems setup vertical edge (g.flatMap CounterPair.values ++ rest) d =
      counterGroups setup (!vertical) rest
        (d.addCounterStems setup vertical (CounterPair.edges edge g)) := by
  induction hg generalizing edge d with
  | last h => exact (counterStems_pair _ _ _ _ _).trans (if_pos h)
  | cons h hg ih =>
    rw [List.flatMap_cons, List.append_assoc, counterStems_pair, if_neg h]
    exact ih _ _

/-- Pairs of which none ends the group are followed by others, or the group is cut off. -/
theorem counterStems_cut {cut : List CounterPair} (hcut : ∀ p ∈ cut, ¬ p.width < 0)
    (vertical : Bool) (edge : Number) {rest : List Number} (hrest : rest.length ≤ 1) (d : Decoder) :
    counterStems setup vertical edge (cut.flatMap CounterPair.values ++ rest) d =
      refuse .cutOffGroup .badCounterControl
        (d.addCounterStems setup vertical (CounterPair.edges edge cut)) := by
  induction cut generalizing edge d with
  | nil =>
    match rest, hrest with
    | [], _ => rfl
    | [_], _ => rfl
  | cons p cut ih =>
    obtain ⟨hp, hcut⟩ := List.forall_mem_cons.1 hcut
    rw [List.flatMap_cons, List.append_assoc, counterStems_pair, if_neg hp]
    exact ih hcut _ _

/-- Groups that are complete are reported, then the pairs of a group that is cut off. This fails
unless all values make up complete groups. -/
theorem counterGroups_reads {values : List Number} {groups : List (List CounterPair)}
    {cut : List CounterPair} {rest : List Number} (h : CounterPair.Reads values groups cut rest)
    (vertical : Bool) (d : Decoder) :
    ∃ e : Decoder, e.counters = d.counters ∧
      e.elements = d.elements ++ CounterPair.stems (d.control setup) d.stemOrigin vertical
        d.hintsDue (groups ++ [cut]) ∧
      counterGroups setup vertical values d =
        if cut = [] ∧ rest = [] then .ok () e else .error .badCounterControl e := by
  -- Each group ends with a negative width and turns the direction of the stems round, so what is
  -- read after it is read the other way: the direction and the state are generalized.
  induction groups generalizing values vertical d with
  | nil =>
    obtain rfl : values = cut.flatMap CounterPair.values ++ rest := h.eq
    by_cases hnil : cut = [] ∧ rest = []
    · obtain ⟨rfl, rfl⟩ := hnil
      exact ⟨d, rfl, (List.append_nil _).symm, rfl⟩
    have hne : cut.flatMap CounterPair.values ++ rest ≠ [] := by
      intro hempty
      obtain ⟨hcut, hrest⟩ := List.append_eq_nil_iff.1 hempty
      cases cut with
      | nil => exact hnil ⟨rfl, hrest⟩
      | cons p cut => cases hcut
    -- What is left is a group that is cut off, whose pairs are reported before it is refused.
    have hrun := (counterGroups_of_ne_nil setup hne d).trans
      (counterStems_cut h.isCut vertical _ h.length_le _)
    refine ⟨_, ?_, ?_, hrun.trans (if_neg hnil).symm⟩
    · exact Decoder.counters_addCounterStems setup { d with groupDue := true } vertical _
    · rw [Decoder.elements_record, Decoder.elements_addCounterStems setup _ _ _ rfl,
        List.append_assoc]
      rfl
  | cons g groups ih =>
    obtain ⟨hg, hgroups⟩ := List.forall_mem_cons.1 h.isGroup
    let later := groups.flatten.flatMap CounterPair.values ++ cut.flatMap CounterPair.values ++ rest
    have hvalues : values = g.flatMap CounterPair.values ++ later := by
      rw [h.eq, List.flatten_cons, List.flatMap_append]
      simp only [later, List.append_assoc]
    have hlater : CounterPair.Reads later groups cut rest :=
      ⟨hgroups, h.isCut, h.length_le, rfl⟩
    have hne : values ≠ [] := by
      cases hg <;> rw [hvalues] <;> exact List.cons_ne_nil _ _
    let edges := CounterPair.edges (d.stemOrigin.across vertical) g
    have hedges : edges ≠ [] := by
      cases hg <;> exact List.cons_ne_nil _ _
    let begun : Decoder := { d with groupDue := true }
    have helements := Decoder.elements_addCounterStems setup begun vertical edges rfl
    have hdue := Decoder.hintsDue_addCounterStems setup begun vertical hedges
    obtain ⟨hintsDue, groupDue, history, hsame⟩ :=
      Decoder.addCounterStems_eq setup begun vertical edges
    obtain ⟨e, hcounters, he, hrun⟩ :=
      ih hlater (!vertical) (begun.addCounterStems setup vertical edges)
    refine ⟨e, ?_, ?_, ?_⟩
    · exact hcounters.trans (Decoder.counters_addCounterStems setup begun vertical edges)
    · rw [he, helements, hdue, hsame, List.append_assoc]
      rfl
    · rw [counterGroups_of_ne_nil _ hne, hvalues, counterStems_group hg]
      exact hrun

end Decode

/-! ## Calls -/

/-- The values that a call takes off the operand stack as counter hints, and whether they are the
last ones. -/
def Operands.counters? (operands : Operands) : Option (List Number × Bool) := do
  let (below, v) ← operands.split? 2
  let n ← v.first.toIndex?
  let (_, values) ← below.split? n
  match v.second.truncate? with
  | some 12 => some (values.toList, false)
  | some 13 => some (values.toList, true)
  | _ => none

/-- The values that an instruction gives as counter hints, and whether they are the last ones. -/
def Instruction.counters? (i : Instruction) (d : Decoder) : Option (List Number × Bool) :=
  match i with
  | operator .callothersubr => d.operands.counters?
  | _ => none

theorem OtherSubr.ofSelector?_counterHints_iff {selector : Int} {complete : Bool} :
    ofSelector? selector = some (.counterHints complete) ↔
      selector = if complete then 13 else 12 := by
  constructor
  · intro h
    unfold ofSelector? at h
    split at h <;> cases h <;> rfl
  · rintro rfl
    cases complete <;> rfl

theorem Operands.counters?_of_split? {operands below rest : Operands} {v : Vector Number 2}
    {n : Nat} {values : Vector Number n} {complete : Bool}
    (hsplit : operands.split? 2 = some (below, v)) (hcount : v.first.toIndex? = some n)
    (hvalues : below.split? n = some (rest, values))
    (hselector : v.second.truncate? = some (if complete then 13 else 12)) :
    operands.counters? = some (values.toList, complete) := by
  unfold counters?
  simp only [hsplit, hcount, hvalues, hselector, Option.bind_eq_bind, Option.bind_some]
  cases complete <;> rfl

theorem Operands.counters?_eq_some {operands : Operands} {values : List Number} {complete : Bool}
    (h : operands.counters? = some (values, complete)) :
    ∃ below v n rest w, operands.split? 2 = some (below, v) ∧ v.first.toIndex? = some n ∧
      below.split? n = some (rest, w) ∧ w.toList = values ∧
      v.second.truncate? = some (if complete then 13 else 12) := by
  obtain ⟨⟨below, v⟩, hsplit, h⟩ := Option.bind_eq_some_iff.1 h
  obtain ⟨n, hcount, h⟩ := Option.bind_eq_some_iff.1 h
  obtain ⟨⟨rest, w⟩, hvalues, h⟩ := Option.bind_eq_some_iff.1 h
  dsimp only at h
  split at h
  · next hselector =>
    cases h
    exact ⟨below, v, n, rest, w, hsplit, hcount, hvalues, rfl, hselector⟩
  · next hselector =>
    cases h
    exact ⟨below, v, n, rest, w, hsplit, hcount, hvalues, rfl, hselector⟩
  · cases h

namespace Decode

/-- Counter hints that fit are collected, and the last ones report all that were collected. -/
theorem counterHints_run {n : Nat} {complete : Bool} {d : Decoder} {operands : Operands}
    {values : Vector Number n} (hvalues : d.operands.split? n = some (operands, values)) :
    counterHints setup n complete d =
      if counterCapacity < (d.counters ++ values.toList).length then
        .error .badCounterControl { d with operands }
      else if complete then
        counterGroups setup false (d.counters ++ values.toList).reverse
          { d with operands, counters := [] }
      else .ok () { d with operands, counters := d.counters ++ values.toList } := by
  rw [counterHints, get_bind_run, bind_run (take_run hvalues)]
  dsimp only
  split
  · rfl
  · cases complete with
    | false => rfl
    | true =>
      show (match (d.counters ++ values.toList).reverse with
        | [] => pure ()
        | values => do
          modify ({ · with groupDue := true })
          counterStems setup false ((← get).stemOrigin.across false) values : Decode Unit) _ = _
      cases (d.counters ++ values.toList).reverse <;> rfl

/-- What a call that gives counter hints does. -/
theorem callOtherSubr_counters (setup : Setup) {d : Decoder} {values : List Number}
    {complete : Bool} (h : d.operands.counters? = some (values, complete)) :
    ∃ operands, callOtherSubr setup d =
      if counterCapacity < (d.counters ++ values).length then
        .error .badCounterControl { d with operands }
      else if complete then
        counterGroups setup false (d.counters ++ values).reverse { d with operands, counters := [] }
      else .ok () { d with operands, counters := d.counters ++ values } := by
  obtain ⟨below, v, n, rest, w, hsplit, hcount, hvalues, rfl, hselector⟩ :=
    Operands.counters?_eq_some h
  have hle : n ≤ below.size := by
    refine Nat.le_of_not_lt fun hlt => ?_
    rw [Operands.split?_eq_none_iff.2 hlt] at hvalues
    cases hvalues
  refine ⟨rest, (callOtherSubr_run hsplit hcount hle hselector
    (OtherSubr.ofSelector?_counterHints_iff.2 rfl) hle).trans ?_⟩
  exact counterHints_run hvalues

/-- A state differs from another only in the counter hints that were collected, which are those
given. -/
def Recounted (counters : List Number) (d e : Decoder) : Prop :=
  e = d.adjust { counters := fun _ => counters }

theorem recounted_self (d : Decoder) : Recounted d.counters d d := by
  simp [Recounted, Decoder.adjust]

/-- What does not depend on the counter hints that were collected leaves them alone. -/
theorem counters_of_related {α : Type} {E : Decoder → Decoder → Prop} {x : Decode α}
    {d e : Decoder} {a : α} {counters : List Number}
    (hx : Related (Recounted counters) E (x d) (x d)) (h : x d = .ok a e) :
    e.counters = counters := by
  rw [h] at hx
  cases hx with
  | ok he => exact congrArg Decoder.counters he

/-- A call that gives no counter hints leaves those alone that were collected. -/
theorem counters_callOtherSubr {d e : Decoder} {u : Unit} (h : d.operands.counters? = none)
    (hx : callOtherSubr setup d = .ok u e) : e.counters = d.counters := by
  rw [callOtherSubr_eq] at hx
  obtain ⟨⟨n, subr⟩, _, hselect, hperform⟩ := bind_eq_ok hx
  obtain ⟨below, v, selector, hsplit, hcount, hle, hselector, hsubr, rfl⟩ :=
    selectOtherSubr_eq_ok hselect
  have hother : ∀ complete, subr ≠ .counterHints complete := by
    rintro complete rfl
    rw [OtherSubr.ofSelector?_counterHints_iff.1 hsubr] at hselector
    cases hvalues : below.split? n with
    | none => exact absurd hle (Nat.not_le.2 (Operands.split?_eq_none_iff.1 hvalues))
    | some taken =>
      cases h.symm.trans (Operands.counters?_of_split? hsplit hcount hvalues hselector)
  let a : Aside := { counters := fun _ => d.counters }
  have hrelates := relates_performOtherSubr (drawing_adjust a rfl rfl setup) n
    (fun complete hsubr => absurd hsubr (hother complete)) fun _ => storing_adjust a
  exact counters_of_related (hrelates _ _ (recounted_self { d with operands := below })) hperform

/-- An instruction that gives no counter hints leaves those alone that were collected. -/
theorem counters_execute {i : Instruction} {d e : Decoder} {control : Control}
    (h : i.counters? d = none) (hx : execute setup i d = .ok control e) :
    e.counters = d.counters := by
  let a : Aside := { counters := fun _ => d.counters }
  have hdraw := drawing_adjust a rfl rfl setup
  cases i with
  | number value =>
    have hrelates := (relates_push hdraw.toCongruence value).bind
      fun _ => relates_pure Control.next
    exact counters_of_related (hrelates d d (recounted_self d)) hx
  | reserved byte => cases hx
  | operator op =>
    let begun := d.record (.began op d.operands.toList)
    by_cases hop : op = .callothersubr
    · subst hop
      obtain ⟨_, _, hcall, hnext⟩ := bind_eq_ok (show (callOtherSubr setup >>= fun _ =>
        pure Control.next) begun = .ok control e from hx)
      cases hnext
      exact counters_callOtherSubr (d := begun) h hcall
    · have hrelated := related_perform hdraw (fun _ _ he => he) (fun _ => storing_adjust a)
        (fun _ _ _ => (commutes_metrics a setup _ _).relates)
        (fun _ v => (commutes_accented a setup v).relates) (fun heq => absurd heq hop)
        (recounted_self begun)
      exact counters_of_related hrelated hx

section Execute

variable {i : Instruction} {d : Decoder} {values : List Number} {complete : Bool}

/-- Only a call gives counter hints. -/
theorem eq_of_counters? (h : i.counters? d = some (values, complete)) :
    i = .operator .callothersubr := by
  cases i with
  | operator op =>
    cases op with
    | callothersubr => rfl
    | _ => cases h
  | _ => cases h

/-- Counter hints that are too many are refused. -/
theorem execute_counters_full (setup : Setup) (h : i.counters? d = some (values, complete))
    (hfull : counterCapacity < (d.counters ++ values).length) :
    ∃ e, e.elements = d.elements ∧ execute setup i d = .error .badCounterControl e := by
  obtain rfl := eq_of_counters? h
  let begun := d.record (.began .callothersubr d.operands.toList)
  obtain ⟨operands, hcall⟩ := callOtherSubr_counters setup (d := begun) h
  refine ⟨{ begun with operands }, d.elements_begin (.operator .callothersubr), ?_⟩
  rw [execute_operator, perform]
  exact bind_run_error (hcall.trans (if_pos hfull))

/-- Counter hints that others follow are collected. -/
theorem execute_counters_collected (setup : Setup) (h : i.counters? d = some (values, false))
    (hfits : (d.counters ++ values).length ≤ counterCapacity) :
    ∃ e, e.counters = d.counters ++ values ∧ e.elements = d.elements ∧
      execute setup i d = .ok .next e := by
  obtain rfl := eq_of_counters? h
  let begun := d.record (.began .callothersubr d.operands.toList)
  obtain ⟨operands, hcall⟩ := callOtherSubr_counters setup (d := begun) h
  refine ⟨{ begun with operands, counters := d.counters ++ values }, rfl,
    d.elements_begin (.operator .callothersubr), ?_⟩
  exact bind_run (hcall.trans (if_neg (Nat.not_lt.2 hfits)))

/-- The last counter hints are reported with all that were collected, as they are read. -/
theorem execute_counters_last (setup : Setup) (h : i.counters? d = some (values, true))
    (hfits : (d.counters ++ values).length ≤ counterCapacity) {groups : List (List CounterPair)}
    {cut : List CounterPair} {rest : List Number}
    (hreads : CounterPair.Reads (d.counters ++ values).reverse groups cut rest) :
    ∃ e, e.counters = [] ∧
      e.elements = d.elements ++ CounterPair.stems (d.control setup) d.stemOrigin false d.hintsDue
        (groups ++ [cut]) ∧
      execute setup i d =
        if cut = [] ∧ rest = [] then .ok .next e else .error .badCounterControl e := by
  obtain rfl := eq_of_counters? h
  let begun := d.record (.began .callothersubr d.operands.toList)
  obtain ⟨operands, hcall⟩ := callOtherSubr_counters setup (d := begun) h
  obtain ⟨e, hcounters, helements, hgroups⟩ :=
    counterGroups_reads hreads false { begun with operands, counters := [] }
  have hbegun : begun.elements = d.elements := d.elements_begin (.operator .callothersubr)
  refine ⟨e, hcounters, helements.trans (congrArg (· ++ _) hbegun), ?_⟩
  have hrun := (hcall.trans (if_neg (Nat.not_lt.2 hfits))).trans hgroups
  by_cases hnil : cut = [] ∧ rest = []
  · rw [if_pos hnil] at hrun ⊢
    exact bind_run hrun
  · rw [if_neg hnil] at hrun ⊢
    rw [execute_operator, perform]
    exact bind_run_error hrun

end Execute

end Decode

/-! ## Runs -/

/-- The values that the next instruction gives as counter hints, and whether they are the last
ones. -/
def Moment.counters? (m : Moment s) : Option (List Number × Bool) :=
  match m.cursor.readInstruction with
  | .done i _ _ => i.counters? m.decoder
  | .failed .. => none

theorem Moment.Executes.elements {m : Moment s} {i : Instruction} {d : Decoder}
    (h : m.Executes i d) : d.elements = m.decoder.elements := by
  obtain ⟨next, calls, -, rfl⟩ := h
  exact m.decoder.recordCalls_elements calls

theorem Moment.counters?_eq {m : Moment s} {i : Instruction} {d : Decoder} (h : m.Executes i d) :
    m.counters? = i.counters? d := by
  obtain ⟨next, calls, hread, rfl⟩ := h
  obtain ⟨history, hcalls⟩ := m.decoder.recordCalls_eq calls
  rw [counters?, hread, hcalls]
  rfl

theorem Moment.executes_of_counters? {m : Moment s} {values : List Number} {complete : Bool}
    (h : m.counters? = some (values, complete)) : ∃ i d, m.Executes i d := by
  unfold counters? at h
  cases hread : m.cursor.readInstruction with
  | failed error source calls => rw [hread] at h; cases h
  | done i next calls => exact ⟨i, _, next, calls, hread, rfl⟩

namespace Run

/-- The counter hints that the steps of a run have collected. The last ones leave none, so what is
collected after them begins anew. -/
def collected (run : Nat → Status s) : Nat → List Number
  | 0 => []
  | n + 1 =>
    match (run n).moment?.bind Moment.counters? with
    | some (values, false) => collected run n ++ values
    | some (_, true) => []
    | none => collected run n

variable {offset : Nat} {st : Source.State} {n : Nat} {m : Moment s}

/-- What was collected is in the state. -/
theorem counters_eq (h : after s setup offset st n = .running m) :
    m.decoder.counters = collected (after s setup offset st) n := by
  induction n generalizing m with
  | zero =>
    obtain ⟨-, calls, hm⟩ := resume_passage h
    obtain ⟨history, hcalls⟩ := Decoder.recordCalls_eq (.start setup.font) calls
    rw [hm, hcalls]
    rfl
  | succ n ih =>
    obtain ⟨l, hl, i, d, control, e, c, calls, hi, hx, hc, hm⟩ := passage h
    have hm : m.decoder.counters = e.counters := by
      obtain ⟨history, hcalls⟩ := c.recordCalls_eq calls
      rw [hm, hcalls]
      cases hc <;> rfl
    have hd : d.counters = collected (after s setup offset st) n := by
      obtain ⟨history, rfl⟩ := hi.eq_history
      exact ih hl
    rw [hm, collected, hl, Status.moment?, Option.bind_some, Moment.counters?_eq hi]
    -- An instruction of a run that goes on collects counter hints, reads all of them, or does
    -- neither.
    match hcounters : i.counters? d with
    | none => exact (Decode.counters_execute hcounters hx).trans hd
    | some (values, complete) =>
      have hfits : (d.counters ++ values).length ≤ counterCapacity := by
        refine Nat.le_of_not_lt fun hfull => ?_
        obtain ⟨_, -, hrun⟩ := Decode.execute_counters_full setup hcounters hfull
        cases hrun.symm.trans hx
      cases complete with
      | false =>
        obtain ⟨_, he, -, hrun⟩ := Decode.execute_counters_collected setup hcounters hfits
        cases hrun.symm.trans hx
        rw [he, hd]
      | true =>
        obtain ⟨_, _, _, hreads⟩ := CounterPair.exists_reads (d.counters ++ values).reverse
        obtain ⟨_, he, -, hrun⟩ := Decode.execute_counters_last setup hcounters hfits hreads
        have hok := hrun.symm.trans hx
        split at hok
        · cases hok
          exact he
        · cases hok

/-- A run goes on after an instruction that leads to the next one, and is over after one that
fails. -/
theorem step_of_execute (setup : Setup) {i : Instruction} {d : Decoder} (hi : m.Executes i d) :
    (∀ e, Decode.execute setup i d = .ok .next e → ∃ next, step s setup m = .running next) ∧
      ∀ x e, Decode.execute setup i d = .error x e →
        ∃ session, step s setup m = .ended (.error x session) := by
  obtain ⟨next, calls, hread, rfl⟩ := hi
  constructor
  · intro e hx
    exact ⟨⟨m.frames, next, e⟩, by simp only [step, stepWith, hread, hx]⟩
  · intro x e hx
    exact ⟨⟨next.state, e⟩, by simp only [step, stepWith, hread, hx]⟩

end Run

/-! ## What a receiver is given -/

theorem CounterPair.eq_stem_of_mem {control : Number → Number} {origin : Point}
    {vertical newHints : Bool} {groups : List (List CounterPair)} {x : Element}
    (h : x ∈ stems control origin vertical newHints groups) :
    ∃ kind near far, x = .stem kind near far := by
  induction groups generalizing vertical newHints with
  | nil => cases h
  | cons g groups ih =>
    rcases List.mem_append.1 h with hgroup | hlater
    · match edges (origin.across vertical) g, hgroup with
      | (near, far) :: later, hgroup =>
        rcases List.mem_cons.1 hgroup with rfl | hlater
        · exact ⟨_, _, _, rfl⟩
        · obtain ⟨e, -, rfl⟩ := List.mem_map.1 hlater
          exact ⟨_, _, _, rfl⟩
    · exact ih hlater

/-- What a receiver is given for stems, by whether it takes them. -/
theorem Element.flatMap_deliver_stems (settings : Settings) (takes : Capabilities)
    {elements : List Element} (h : ∀ x ∈ elements, ∃ kind near far, x = .stem kind near far) :
    elements.flatMap (Element.deliver settings takes) =
      if takes.stem then elements.map settings.place else [] := by
  induction elements with
  | nil => cases takes.stem <;> rfl
  | cons x elements ih =>
    obtain ⟨⟨kind, near, far, rfl⟩, hlater⟩ := List.forall_mem_cons.1 h
    rw [List.flatMap_cons, ih hlater, deliver_eq, accept]
    cases takes.stem <;> rfl

/-- The next instruction of a run may give counter hints. With those that were collected before they
are refused if they are more than 96, and nothing is given. Otherwise they are collected, unless
they are the last: all that were collected are then read from the last one to the first. The stems
of the groups are given, and of the pairs of a group that is cut off, and the run goes on exactly if
there is nothing but complete groups. -/
theorem counter_hints_read (s : Source) (font : Font) (settings : Settings) (takes : Capabilities)
    (offset : Nat) (st : Source.State) :
    let run := Run.after s (.of font settings takes) offset st
    let given n := Run.given settings takes (run n)
    ∀ n m values complete, run n = .running m → m.counters? = some (values, complete) →
      let all := Run.collected run n ++ values
      let goesOn := ∃ next, run (n + 1) = .running next
      let refused := ∃ session, run (n + 1) = .ended (.error .badCounterControl session)
      let control v :=
        if settings.activeMatrix?.isSome || m.decoder.blended then Number.round v else v
      (96 < all.length → refused ∧ given (n + 1) = given n) ∧
      (all.length ≤ 96 → complete = false → goesOn ∧ given (n + 1) = given n) ∧
      (all.length ≤ 96 → complete = true →
        (goesOn ∨ refused) ∧
        (goesOn ↔ ∃ groups, CounterPair.Reads all.reverse groups [] []) ∧
        (∃ groups cut rest, CounterPair.Reads all.reverse groups cut rest) ∧
        ∀ groups cut rest, CounterPair.Reads all.reverse groups cut rest →
          let stems := CounterPair.stems control m.decoder.stemOrigin false m.decoder.hintsDue
            (groups ++ [cut])
          given (n + 1) = given n ++ if takes.stem then stems.map settings.place else []) := by
  intro run given n m values complete hm hcounters all goesOn refused control
  obtain ⟨i, d, hi⟩ := Moment.executes_of_counters? hcounters
  rw [Moment.counters?_eq hi] at hcounters
  have hgiven : given (n + 1) = (Decode.final (Decode.execute (.of font settings takes) i d)).given
      settings takes := Run.given_succ hm hi
  obtain ⟨hnext, hfailed⟩ := Run.step_of_execute (.of font settings takes) hi
  rw [← Run.after_succ hm] at hnext hfailed
  have hnow : d.given settings takes = given n := by
    refine (Decoder.given_of_elements hi.elements).trans ?_
    show _ = Run.given settings takes (run n)
    rw [hm]
    rfl
  obtain ⟨history, rfl⟩ := hi.eq_history
  have hall : m.decoder.counters ++ values = all := by rw [Run.counters_eq hm]
  -- Too many, some more, and the last ones.
  refine ⟨fun hlong => ?_, fun hfits hpartial => ?_, fun hfits hlast => ?_⟩
  · obtain ⟨e, he, hx⟩ := Decode.execute_counters_full (.of font settings takes) hcounters
      (by rw [hall]; exact hlong)
    refine ⟨hfailed _ e hx, ?_⟩
    rw [hgiven, hx, ← hnow]
    exact Decoder.given_of_elements he
  · subst hpartial
    obtain ⟨e, -, he, hx⟩ := Decode.execute_counters_collected (.of font settings takes) hcounters
      (by rw [hall]; exact hfits)
    refine ⟨hnext e hx, ?_⟩
    rw [hgiven, hx, ← hnow]
    exact Decoder.given_of_elements he
  · subst hlast
    have hlast {groups cut rest} (hreads : CounterPair.Reads all.reverse groups cut rest) :=
      Decode.execute_counters_last (.of font settings takes) hcounters (by rw [hall]; exact hfits)
        (by rw [hall]; exact hreads)
    -- How much is read of the values does not depend on the groups that are named.
    have hcomplete {groups cut rest} (hreads : CounterPair.Reads all.reverse groups cut rest) :
        (goesOn ∧ cut = [] ∧ rest = []) ∨ (refused ∧ ¬ (cut = [] ∧ rest = [])) := by
      obtain ⟨e, -, -, hx⟩ := hlast hreads
      split at hx
      · next hnil => exact .inl ⟨hnext e hx, hnil⟩
      · next hnil => exact .inr ⟨hfailed _ e hx, hnil⟩
    obtain ⟨groups, cut, rest, hreads⟩ := CounterPair.exists_reads all.reverse
    refine ⟨?_, ⟨?_, ?_⟩, ⟨groups, cut, rest, hreads⟩, ?_⟩
    · exact (hcomplete hreads).imp And.left And.left
    · rintro ⟨next, hrun⟩
      rcases hcomplete hreads with ⟨-, rfl, rfl⟩ | ⟨⟨session, hended⟩, -⟩
      · exact ⟨groups, hreads⟩
      · cases hrun.symm.trans hended
    · rintro ⟨groups, hreads⟩
      rcases hcomplete hreads with ⟨hgoesOn, -⟩ | ⟨-, hnil⟩
      · exact hgoesOn
      · exact absurd ⟨rfl, rfl⟩ hnil
    · intro groups cut rest hreads stems
      obtain ⟨e, -, he, hx⟩ := hlast hreads
      have hfinal : Decode.final (Decode.execute (.of font settings takes) i
          { m.decoder with history }) = e := by
        rw [hx]
        split <;> rfl
      rw [hgiven, hfinal, ← hnow, Decoder.given, he, List.flatMap_append,
        Element.flatMap_deliver_stems settings takes fun x => CounterPair.eq_stem_of_mem]
      rfl

/-- The bytes of `-50 40 2 12 callothersubr -30 5 20 10 4 13 callothersubr`. -/
def CounterPair.data : List UInt8 :=
  [89, 179, 141, 151, 12, 16, 109, 144, 159, 149, 143, 152, 12, 16]

/-- Of two calls, the second one gives two horizontal stems, and the first one a vertical stem. -/
theorem counter_hints_read_chunks :
    let run := Run.after (.memory CounterPair.data none) (.of {} {} {}) 0 {}
    (∃ next, run 12 = .running next) ∧
      Run.given {} {} (run 12) = Run.given {} {} (run 11) ++
        [.stem { counter := true, newGroup := true } 10 30, .stem { counter := true } 35 65,
          .stem { vertical := true, counter := true, newGroup := true } 40 90] := by
  intro run
  obtain ⟨m, hm, hstate⟩ := Option.map_eq_some_iff.1 (by decide +kernel :
    (run 11).moment?.map (fun m => (m.counters?, m.decoder.blended, m.decoder.stemOrigin,
      m.decoder.hintsDue)) = some (some ([-30, 5, 20, 10], true), false, .zero, false))
  obtain ⟨hcounters, hblended, horigin, hdue⟩ :
      m.counters? = some ([-30, 5, 20, 10], true) ∧ m.decoder.blended = false ∧
        m.decoder.stemOrigin = .zero ∧ m.decoder.hintsDue = false := by
    simpa only [Prod.mk.injEq] using hstate
  have hcollected : Run.collected run 11 = [-50, 40] := by decide +kernel
  have hreads : CounterPair.Reads (Run.collected run 11 ++ [-30, 5, 20, 10]).reverse
      [[⟨10, 20⟩, ⟨5, -30⟩], [⟨40, -50⟩]] [] [] := by
    have hgroups : ∀ g ∈ [[⟨10, 20⟩, ⟨5, -30⟩], [⟨40, -50⟩]], CounterPair.IsGroup g :=
      List.forall_mem_cons.2 ⟨.cons (by decide +kernel) (.last (by decide +kernel)),
        List.forall_mem_singleton.2 (.last (by decide +kernel))⟩
    exact ⟨hgroups, nofun, Nat.zero_le _, by rw [hcollected]; rfl⟩
  have h := counter_hints_read (.memory CounterPair.data none) {} {} {} 0 {} 11 m _ true
    (Status.eq_running_of_moment? hm) hcounters
  obtain ⟨-, hcomplete, -, hgiven⟩ := h.2.2
    (show (Run.collected run 11 ++ [-30, 5, 20, 10]).length ≤ 96 by rw [hcollected]; decide) rfl
  refine ⟨hcomplete.2 ⟨_, hreads⟩, (hgiven _ _ _ hreads).trans ?_⟩
  rw [hblended, horigin, hdue]
  refine congrArg (Run.given {} {} (run 11) ++ ·) ?_
  decide +kernel

end Type1
