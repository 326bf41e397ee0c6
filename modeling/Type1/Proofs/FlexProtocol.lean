import Type1.Proofs.Calculations

/-!
# The steps of a flex

A flex is given by a start, seven moves and an end. The moves between collect the running sums of
their displacements and draw nothing. The first point belongs to neither curve, and the end states
the last one.

* `Flex.program`: a flex as instructions, with any number of moves. The displacements, the depth and
  the last point are calculated by instructions of their own.
* `Flex.deltas?`: the displacements that are calculated.
* `Decoder.leads_opening`, `Decoder.leads_closing` and the cases that are refused: the state after
  its parts.
* `flex_protocol`: what a run comes to by a flex.
-/

namespace Type1

variable {s : Source} {setup : Setup}

/-! ## The parts of a flex -/

/-- Where a move of a flex leads. -/
inductive FlexMove.Direction where
  /-- Along both axes. -/
  | both
  /-- Along the horizontal axis. -/
  | horizontal
  /-- Along the vertical axis. -/
  | vertical

namespace FlexMove.Direction

/-- The operator that moves so. -/
def operator : Direction → Operator
  | both => .rmoveto
  | horizontal => .hmoveto
  | vertical => .vmoveto

/-- The displacement that the operator reads from its operands, if there are enough of them. -/
def delta? (operands : Operands) : Direction → Option Point
  | both => (operands.bottom? 2).map fun v => ⟨v.first, v.second⟩
  | horizontal => (operands.bottom? 1).map fun v => ⟨v.first, 0⟩
  | vertical => (operands.bottom? 1).map fun v => ⟨0, v.first⟩

end FlexMove.Direction

/-- A move of a flex. -/
structure FlexMove where
  /-- Where it leads. -/
  direction : FlexMove.Direction
  /-- The instructions by which its operands are calculated. -/
  operands : List Instruction

namespace FlexMove

/-- The move, and the call that marks its point: `0 2 callothersubr`. -/
def program (v : FlexMove) : List Instruction :=
  v.operands ++ [.operator v.direction.operator] ++
    Operator.callothersubr.call [.ofInt 0, .ofInt 2]

variable (setup) in
/-- The displacement of a move, and the workspace behind it, given the workspace before it. -/
def delta? (w : Workspace) (v : FlexMove) : Option (Point × Workspace) := do
  let w ← w.calculateAll? setup v.operands
  let delta ← v.direction.delta? w.operands
  some (delta, { w with operands := .empty })

end FlexMove

namespace Flex

/-- The start of a flex, `0 1 callothersubr`, and its moves. -/
def opening (moves : List FlexMove) : List Instruction :=
  Operator.callothersubr.call [.ofInt 0, .ofInt 1] ++ moves.flatMap FlexMove.program

theorem opening_append (moves later : List FlexMove) :
    opening (moves ++ later) = opening moves ++ later.flatMap FlexMove.program := by
  rw [opening, opening, List.flatMap_append, List.append_assoc]

/-- The end of a flex: the instructions by which its depth and its last point are calculated, and
`3 0 callothersubr`. -/
def closing (ending : List Instruction) : List Instruction :=
  ending ++ Operator.callothersubr.call [.ofInt 3, .ofInt 0]

/-- A flex. -/
def program (moves : List FlexMove) (ending : List Instruction) : List Instruction :=
  opening moves ++ closing ending

variable (setup) in
/-- The displacements of moves, and the workspace behind them, given the workspace before them. -/
def deltas? : Workspace → List FlexMove → Option (List Point × Workspace)
  | w, [] => some ([], w)
  | w, v :: later => do
    let (delta, w) ← v.delta? setup w
    let (deltas, w) ← deltas? w later
    some (delta :: deltas, w)

section Deltas

variable {w w' : Workspace} {v : FlexMove} {moves later : List FlexMove} {deltas : List Point}

theorem deltas?_cons_eq_some (h : deltas? setup w (v :: later) = some (deltas, w')) :
    ∃ delta w₁ deltas₁, v.delta? setup w = some (delta, w₁) ∧
      deltas? setup w₁ later = some (deltas₁, w') ∧ deltas = delta :: deltas₁ := by
  obtain ⟨⟨delta, w₁⟩, hfirst, h⟩ := Option.bind_eq_some_iff.1 h
  obtain ⟨⟨deltas₁, w₂⟩, hlater, h⟩ := Option.bind_eq_some_iff.1 h
  cases h
  exact ⟨delta, w₁, deltas₁, hfirst, hlater, rfl⟩

theorem deltas?_cons_of_some {delta : Point} {w₁ : Workspace}
    (hfirst : v.delta? setup w = some (delta, w₁))
    (hlater : deltas? setup w₁ later = some (deltas, w')) :
    deltas? setup w (v :: later) = some (delta :: deltas, w') := by
  rw [deltas?, hfirst]
  show (deltas? setup w₁ later).bind _ = _
  rw [hlater]
  rfl

theorem deltas?_append_eq_some (h : deltas? setup w (moves ++ later) = some (deltas, w')) :
    ∃ deltas₁ w₁ deltas₂, deltas? setup w moves = some (deltas₁, w₁) ∧
      deltas? setup w₁ later = some (deltas₂, w') ∧ deltas = deltas₁ ++ deltas₂ := by
  induction moves generalizing w deltas with
  | nil => exact ⟨[], w, deltas, rfl, h, rfl⟩
  | cons v moves ih =>
    obtain ⟨delta, w₁, _, hfirst, hrest, rfl⟩ := deltas?_cons_eq_some h
    obtain ⟨deltas₁, w₂, deltas₂, hmoves, hlater, rfl⟩ := ih hrest
    exact ⟨delta :: deltas₁, w₂, deltas₂, deltas?_cons_of_some hfirst hmoves, hlater, rfl⟩

theorem length_deltas (h : deltas? setup w moves = some (deltas, w')) :
    deltas.length = moves.length := by
  induction moves generalizing w deltas with
  | nil => cases h; rfl
  | cons v moves ih =>
    obtain ⟨_, _, _, -, hmoves, rfl⟩ := deltas?_cons_eq_some h
    rw [List.length_cons, List.length_cons, ih hmoves]

end Deltas

end Flex

namespace Decoder

variable {d : Decoder}

/-- A point is collected. -/
def collect (d : Decoder) (delta : Point) : Decoder :=
  { d with flex := { d.flex with
      reach := d.flex.reach + delta
      points := d.flex.points ++ [d.flex.reach + delta] } }

/-- A call of the other subroutine `selector` with the arguments below. -/
theorem callOtherSubr_ofInt {operands below : Operands} {count selector : Int} {n : Nat}
    {subr : OtherSubr}
    (hsplit : operands.split? 2 = some (below, #v[Number.ofInt count, Number.ofInt selector]))
    (hcount : (Number.ofInt count).toIndex? = some n) (hn : n ≤ below.size)
    (hselector : (Number.ofInt selector).truncate? = some selector)
    (hsubr : OtherSubr.ofSelector? selector = some subr) (harity : subr.arity n ≤ below.size) :
    Decode.callOtherSubr setup { d with operands } =
      Decode.performOtherSubr setup n subr { d with operands := below } :=
  Decode.callOtherSubr_run (d := { d with operands }) hsplit hcount hn hselector hsubr harity

/-- The operands of a call without arguments. -/
def bareOperands (selector : Int) : Operands :=
  ⟨[.ofInt 0, .ofInt selector], (by decide : 2 ≤ 48)⟩

/-- The numbers of a call without arguments are all of its operands. -/
theorem calculateAll?_bare (setup : Setup) (hd : d.operands = .empty) (selector : Int) :
    d.workspace.calculateAll? setup ([.ofInt 0, .ofInt selector].map .number) =
      some { d.workspace with operands := bareOperands selector } := by
  refine Workspace.calculateAll?_numbers ?_
  show _ = d.operands.toList ++ _
  rw [hd]
  rfl

theorem callOtherSubr_bare (setup : Setup) (hd : d.operands = .empty) (subr : OtherSubr)
    {selector : Int} (hselector : (Number.ofInt selector).truncate? = some selector)
    (hsubr : OtherSubr.ofSelector? selector = some subr) (harity : subr.arity 0 = 0) :
    Decode.callOtherSubr setup { d with operands := bareOperands selector } =
      Decode.performOtherSubr setup 0 subr d := by
  have hsplit : (bareOperands selector).split? 2 =
    some (.empty, #v[.ofInt 0, .ofInt selector]) := rfl
  rw [callOtherSubr_ofInt hsplit (by decide +kernel) (Nat.le_refl 0) hselector hsubr
    (Nat.le_of_eq harity), setOperands_self hd]

theorem perform_start (setup : Setup) (hd : d.operands = .empty) :
    Decode.perform setup .callothersubr { d with operands := bareOperands 1 } =
      .ok .next d.startFlex :=
  Decode.bind_run (callOtherSubr_bare setup hd .startFlex (by decide +kernel) rfl rfl)

/-- That the point of a move is marked changes nothing. -/
theorem perform_mark (setup : Setup) (hd : d.operands = .empty) :
    Decode.perform setup .callothersubr { d with operands := bareOperands 2 } = .ok .next d :=
  Decode.bind_run (callOtherSubr_bare setup hd .flexPoint (by decide +kernel) rfl rfl)

/-- A move reads its displacement from its operands. -/
theorem perform_move (setup : Setup) {direction : FlexMove.Direction} {delta : Point}
    (h : direction.delta? d.operands = some delta) :
    Decode.perform setup direction.operator d =
      (do Decode.move delta; Decode.clear; return Control.next : Decode Control) d := by
  cases direction with
  | both | horizontal | vertical =>
    obtain ⟨v, hv, rfl⟩ := Option.map_eq_some_iff.1 h
    exact Decode.bind_run (Decode.arguments_run hv)

/-- A move within a flex that has room collects a point. -/
theorem move_collect (hactive : d.flex.active = true)
    (hroom : d.flex.points.length < Flex.capacity) (delta : Point) :
    Decode.move delta d = .ok () (d.collect delta) := by
  rw [Decode.move, Decode.get_bind_run]
  dsimp only
  rw [if_pos hactive, if_pos hroom]
  rfl

/-- There is no room for a ninth point. -/
theorem move_full (hactive : d.flex.active = true)
    (hfull : Flex.capacity ≤ d.flex.points.length) (delta : Point) :
    Decode.move delta d = .error .badFlex d := by
  rw [Decode.move, Decode.get_bind_run]
  dsimp only
  rw [if_pos hactive, if_neg (Nat.not_lt.2 hfull)]
  rfl

theorem leads_start (hd : d.operands = .empty) :
    d.Leads setup (Operator.callothersubr.call [.ofInt 0, .ofInt 1]) d.startFlex :=
  leads_call (calculateAll?_bare setup hd 1) (perform_start setup hd)

section Move

variable {v : FlexMove} {delta : Point} {w : Workspace}

/-- What the operator of a move finds, and what it leaves. -/
theorem perform_collect (h : v.delta? setup d.workspace = some (delta, w))
    (hactive : d.flex.active = true) (hroom : d.flex.points.length < Flex.capacity) :
    ∃ w₁, d.workspace.calculateAll? setup v.operands = some w₁ ∧ w.operands = .empty ∧
      Decode.perform setup v.direction.operator (d.withWorkspace w₁) =
        .ok .next ((d.withWorkspace w).collect delta) := by
  obtain ⟨w₁, hw₁, h⟩ := Option.bind_eq_some_iff.1 h
  obtain ⟨_, hdelta, h⟩ := Option.bind_eq_some_iff.1 h
  cases h
  refine ⟨w₁, hw₁, rfl, ?_⟩
  rw [perform_move (d := d.withWorkspace w₁) setup hdelta,
    Decode.bind_run (move_collect (d := d.withWorkspace w₁) hactive hroom delta)]
  rfl

theorem leads_move (h : v.delta? setup d.workspace = some (delta, w))
    (hactive : d.flex.active = true) (hroom : d.flex.points.length < Flex.capacity) :
    d.Leads setup v.program ((d.withWorkspace w).collect delta) := by
  obtain ⟨w₁, hw₁, hempty, hperform⟩ := perform_collect h hactive hroom
  let collected := (d.withWorkspace w).collect delta
  exact (leads_call hw₁ hperform).trans
    (leads_call (d := collected) (calculateAll?_bare setup hempty 2) (perform_mark setup hempty))

/-- What depends neither on the workspace nor on the flex is kept by a move. -/
theorem keeps_move {P : Decoder → Prop} (hP : ∀ w flex, P { d.withWorkspace w with flex })
    (h : v.delta? setup d.workspace = some (delta, w))
    (hactive : d.flex.active = true) (hroom : d.flex.points.length < Flex.capacity) :
    d.Keeps setup P v.program := by
  obtain ⟨w₁, hw₁, hempty, hperform⟩ := perform_collect h hactive hroom
  let collected := (d.withWorkspace w).collect delta
  refine (keeps_call (hP · d.flex) hw₁ hperform (hP w collected.flex)).append
    (leads_call hw₁ hperform) ?_
  exact keeps_call (d := collected) (hP · collected.flex) (calculateAll?_bare setup hempty 2)
    (perform_mark setup hempty) (hP w collected.flex)

theorem refuses_move (h : v.delta? setup d.workspace = some (delta, w))
    (hactive : d.flex.active = true) (hfull : Flex.capacity ≤ d.flex.points.length) :
    d.Refuses setup v.program .badFlex := by
  obtain ⟨w₁, hw₁, h⟩ := Option.bind_eq_some_iff.1 h
  obtain ⟨_, hdelta, -⟩ := Option.bind_eq_some_iff.1 h
  have hperform : Decode.perform setup v.direction.operator (d.withWorkspace w₁) =
      .error .badFlex (d.withWorkspace w₁) := by
    rw [perform_move (d := d.withWorkspace w₁) setup hdelta,
      Decode.bind_run_error (move_full (d := d.withWorkspace w₁) hactive hfull _)]
  exact (refuses_call hw₁ hperform rfl).before _

end Move

/-- Moves collect the running sums of their displacements, and change nothing else. -/
theorem foldl_collect (deltas : List Point) (d : Decoder) :
    ∃ reach, deltas.foldl collect d =
      { d with flex := { d.flex with
          reach
          points := d.flex.points ++ (deltas.scanl (· + ·) d.flex.reach).tail } } := by
  induction deltas generalizing d with
  | nil => exact ⟨d.flex.reach, by rw [List.scanl_nil, List.tail_cons, List.append_nil]; rfl⟩
  | cons delta deltas ih =>
    obtain ⟨reach, h⟩ := ih (d.collect delta)
    refine ⟨reach, h.trans ?_⟩
    have hsums : deltas.scanl (· + ·) (d.flex.reach + delta) =
        (d.flex.reach + delta) :: (deltas.scanl (· + ·) (d.flex.reach + delta)).tail := by
      cases deltas with
      | nil => rw [List.scanl_nil, List.tail_cons]
      | cons => rw [List.scanl_cons, List.tail_cons]
    rw [List.scanl_cons, List.tail_cons, hsums, collect, List.append_assoc]
    rfl

/-- Moves collect the same points whatever the workspace is. -/
theorem foldl_collect_withWorkspace (deltas : List Point) (w : Workspace) (d : Decoder) :
    deltas.foldl collect (d.withWorkspace w) = (deltas.foldl collect d).withWorkspace w := by
  induction deltas generalizing d with
  | nil => rfl
  | cons delta deltas ih => exact ih (d.collect delta)

section Moves

variable {moves : List FlexMove} {deltas : List Point} {w : Workspace}

theorem leads_moves (h : Flex.deltas? setup d.workspace moves = some (deltas, w))
    (hactive : d.flex.active = true)
    (hroom : d.flex.points.length + moves.length ≤ Flex.capacity) :
    d.Leads setup (moves.flatMap FlexMove.program) ((deltas.foldl collect d).withWorkspace w) := by
  induction moves generalizing d deltas with
  | nil =>
    cases h
    exact .refl setup d
  | cons v moves ih =>
    obtain ⟨delta, w₁, deltas, hfirst, hlater, rfl⟩ := Flex.deltas?_cons_eq_some h
    rw [List.length_cons] at hroom
    let collected := (d.withWorkspace w₁).collect delta
    have hmoves : collected.Leads setup (moves.flatMap FlexMove.program)
        ((deltas.foldl collect collected).withWorkspace w) := by
      refine ih hlater hactive ?_
      show (d.flex.points ++ _).length + _ ≤ _
      rw [List.length_append, List.length_singleton]
      omega
    rw [show collected = (d.collect delta).withWorkspace w₁ from rfl,
      foldl_collect_withWorkspace] at hmoves
    exact (leads_move hfirst hactive (by omega)).trans hmoves

theorem keeps_moves {P : Decoder → Prop} (hP : ∀ w flex, P { d.withWorkspace w with flex })
    (h : Flex.deltas? setup d.workspace moves = some (deltas, w)) (hactive : d.flex.active = true)
    (hroom : d.flex.points.length + moves.length ≤ Flex.capacity) :
    d.Keeps setup P (moves.flatMap FlexMove.program) := by
  induction moves generalizing d deltas with
  | nil =>
    intro n _
    rw [List.flatMap_nil, List.take_nil]
    exact ⟨d, .refl setup d, hP d.workspace d.flex⟩
  | cons v moves ih =>
    obtain ⟨delta, w₁, deltas, hfirst, hlater, rfl⟩ := Flex.deltas?_cons_eq_some h
    rw [List.length_cons] at hroom
    refine (keeps_move hP hfirst hactive (by omega)).append
      (leads_move hfirst hactive (by omega)) ?_
    refine ih (d := (d.withWorkspace w₁).collect delta) (fun w flex => hP w flex) hlater hactive ?_
    show (d.flex.points ++ _).length + _ ≤ _
    rw [List.length_append, List.length_singleton]
    omega

end Moves

/-- The state after the start of a flex and moves. -/
def flexed (deltas : List Point) (d : Decoder) : Decoder := deltas.foldl collect d.startFlex

/-- The points are the running sums from the current point, with the accent placed. -/
theorem flexed_eq (deltas : List Point) (d : Decoder) :
    ∃ reach, d.flexed deltas =
      { d.placeAccent with
        flex := ⟨true, reach, (deltas.scanl (· + ·) d.placeAccent.point).tail⟩ } :=
  foldl_collect deltas d.startFlex

theorem flexed_elements (deltas : List Point) : (d.flexed deltas).elements = d.elements := by
  obtain ⟨reach, h⟩ := d.flexed_eq deltas
  rw [h]
  exact d.placeAccent_elements

theorem length_flexed_points (deltas : List Point) :
    (d.flexed deltas).flex.points.length = deltas.length := by
  obtain ⟨reach, h⟩ := d.flexed_eq deltas
  rw [h, List.length_tail, List.length_scanl]
  rfl

theorem placeAccent_withWorkspace (w : Workspace) (d : Decoder) :
    (d.withWorkspace w).placeAccent = d.placeAccent.withWorkspace w := by
  unfold placeAccent
  simp only [withWorkspace]
  split <;> rfl

theorem flexed_withWorkspace (deltas : List Point) (w : Workspace) (d : Decoder) :
    (d.withWorkspace w).flexed deltas = (d.flexed deltas).withWorkspace w := by
  have hstart : (d.withWorkspace w).startFlex = d.startFlex.withWorkspace w := by
    unfold startFlex
    rw [placeAccent_withWorkspace]
    rfl
  rw [flexed, hstart, foldl_collect_withWorkspace]
  rfl

theorem startFlex_workspace (d : Decoder) : d.startFlex.workspace = d.workspace := by
  obtain ⟨_, _, hplace⟩ := d.placeAccent_eq
  rw [startFlex, hplace]
  rfl

section Opening

variable {moves : List FlexMove} {deltas : List Point} {w : Workspace}

theorem leads_opening (hd : d.operands = .empty)
    (h : Flex.deltas? setup d.workspace moves = some (deltas, w))
    (hfits : moves.length ≤ Flex.capacity) :
    d.Leads setup (Flex.opening moves) ((d.flexed deltas).withWorkspace w) := by
  rw [← d.startFlex_workspace] at h
  refine (leads_start hd).trans (leads_moves h rfl ?_)
  rw [show d.startFlex.flex.points = [] from rfl, List.length_nil, Nat.zero_add]
  exact hfits

/-- The ninth move is refused, and the glyph got nothing before. -/
theorem refuses_opening (hd : d.operands = .empty)
    (h : Flex.deltas? setup d.workspace moves = some (deltas, w))
    (hlong : Flex.capacity < moves.length) : d.Refuses setup (Flex.opening moves) .badFlex := by
  obtain ⟨fitting, v, later, rfl, hfitting⟩ : ∃ fitting v later,
      moves = fitting ++ v :: later ∧ fitting.length = Flex.capacity := by
    refine ⟨moves.take Flex.capacity, moves[Flex.capacity], moves.drop (Flex.capacity + 1), ?_,
      List.length_take_of_le (Nat.le_of_lt hlong)⟩
    rw [List.getElem_cons_drop, List.take_append_drop]
  obtain ⟨collected, w₁, _, hfits, hlater, -⟩ := Flex.deltas?_append_eq_some h
  obtain ⟨_, _, _, hv, -, -⟩ := Flex.deltas?_cons_eq_some hlater
  let full := (d.flexed collected).withWorkspace w₁
  have hactive : full.flex.active = true := by
    obtain ⟨reach, h⟩ := d.flexed_eq collected
    show (d.flexed collected).flex.active = true
    rw [h]
  have hfull : Flex.capacity ≤ full.flex.points.length := by
    show _ ≤ (d.flexed collected).flex.points.length
    rw [length_flexed_points, Flex.length_deltas hfits, hfitting]
  rw [Flex.opening_append, List.flatMap_cons]
  exact .after (leads_opening hd hfits (Nat.le_of_eq hfitting)) (d.flexed_elements collected)
    ((refuses_move (d := full) hv hactive hfull).before _)

end Opening

/-! ### The end -/

theorem endFlex_malformed (setup : Setup) {d : Decoder} (h : d.flex.points.length ≠ 7) (n : Nat) :
    Decode.endFlex setup n d = Decode.refuse (.malformedFlex n d.flex.coordinates) .badFlex d :=
  Decode.endFlex_refused setup fun _ _ _ _ _ _ _ _ _ hpoints => h (congrArg List.length hpoints)

section Ending

variable {r p₁ p₂ p₃ p₄ p₅ q : Point} (hactive : d.flex.active = true)
  (hpoints : d.flex.points = [r, p₁, p₂, p₃, p₄, p₅, q])
include hactive hpoints

/-- A flex that is complete needs its depth and its last point. -/
theorem endFlex_short (setup : Setup) (h : d.operands.split? 3 = none) :
    Decode.endFlex setup 3 d =
      .error .stackUnderflow { d with flex := { d.flex with active := false } } := by
  rw [Decode.endFlex, Decode.get_bind_run]
  simp only [hactive, hpoints]
  rw [Decode.modify_bind_run, ← hpoints]
  exact Decode.bind_run_error (Decode.take_run_short (Operands.split?_eq_none_iff.1 h))

/-- A flex that is complete is drawn with the last point that is stated. -/
theorem endFlex_run (setup : Setup) {below : Operands} {v : Vector Number 3}
    (h : d.operands.split? 3 = some (below, v)) :
    Decode.endFlex setup 3 d = Decode.pushAll [v.second, v.third]
      (flexTo setup v.first ⟨p₁, p₂, p₃⟩ ⟨p₄, p₅, d.absolute ⟨v.second, v.third⟩⟩
        { d with flex := { d.flex with active := false }, operands := below }) := by
  let ended : Decoder := { d with flex := { d.flex with active := false } }
  have htake : Decode.take 3 ended = .ok v { ended with operands := below } := Decode.take_run h
  rw [Decode.endFlex, Decode.get_bind_run]
  simp only [hactive, hpoints]
  rw [Decode.modify_bind_run, ← hpoints, Decode.bind_run htake, Decode.get_bind_run,
    Decode.modify_bind_run]
  rfl

end Ending

/-- The operands of the end of a flex: its depth, its last point, the number of its arguments, and
the selector. -/
def closingOperands (depth fx fy : Number) : Operands :=
  ⟨[depth, fx, fy, .ofInt 3, .ofInt 0], (by decide : 5 ≤ 48)⟩

theorem callOtherSubr_closing (setup : Setup) (depth fx fy : Number) (d : Decoder) :
    Decode.callOtherSubr setup { d with operands := closingOperands depth fx fy } =
      Decode.endFlex setup 3 { d with operands := ⟨[depth, fx, fy], (by decide : 3 ≤ 48)⟩ } :=
  have hsplit : (closingOperands depth fx fy).split? 2 =
    some (⟨[depth, fx, fy], (by decide : 3 ≤ 48)⟩, #v[.ofInt 3, .ofInt 0]) := rfl
  callOtherSubr_ofInt hsplit (by decide +kernel) (Nat.le_refl 3) (by decide +kernel) rfl
    (Nat.le_refl 3)

section Closing

variable {ending : List Instruction} {w last : Workspace} {depth fx fy : Number}

theorem calculateAll?_closing (h : w.calculateAll? setup ending = some last)
    (hlast : last.operands.toList = [depth, fx, fy]) :
    w.calculateAll? setup (ending ++ [.ofInt 3, .ofInt 0].map .number) =
      some { last with operands := closingOperands depth fx fy } := by
  rw [Workspace.calculateAll?_append, h, Option.bind_some]
  refine Workspace.calculateAll?_numbers ?_
  rw [hlast]
  rfl

theorem refuses_closing (h : d.workspace.calculateAll? setup ending = some last)
    (hlast : last.operands.toList = [depth, fx, fy]) (hpoints : d.flex.points.length ≠ 7) :
    d.Refuses setup (Flex.closing ending) .badFlex := by
  let calculated := d.withWorkspace last
  let called : Decoder := { calculated with operands := ⟨[depth, fx, fy], (by decide : 3 ≤ 48)⟩ }
  have hcall := (callOtherSubr_closing setup depth fx fy calculated).trans
    (endFlex_malformed setup (d := called) hpoints 3)
  rw [Flex.closing, Operator.call, ← List.append_assoc]
  refine refuses_call (calculateAll?_closing h hlast) (Decode.bind_run_error hcall) ?_
  exact (elements_record _ _).trans (List.append_nil _)

end Closing

/-- The state after a flex, given the points that were collected. -/
def closed (setup : Setup) (depth fx fy : Number) (left : Curve) (first second : Point)
    (d : Decoder) : Decoder :=
  { flexTo setup depth left ⟨first, second, d.absolute ⟨fx, fy⟩⟩
      { d with flex := { d.flex with active := false }, operands := .empty } with
    operands := ⟨[fx, fy], (by decide : 2 ≤ 48)⟩ }

theorem endFlex_closed (setup : Setup) {d : Decoder} (hactive : d.flex.active = true)
    {r p₁ p₂ p₃ p₄ p₅ q : Point} (hpoints : d.flex.points = [r, p₁, p₂, p₃, p₄, p₅, q])
    {depth fx fy : Number} {operands : Operands}
    (hoperands : operands.split? 3 = some (.empty, #v[depth, fx, fy])) :
    Decode.endFlex setup 3 { d with operands } =
      .ok () (d.closed setup depth fx fy ⟨p₁, p₂, p₃⟩ p₄ p₅) := by
  refine (endFlex_run (d := { d with operands }) hactive hpoints setup hoperands).trans ?_
  refine Decode.pushAll_run ?_
  rw [flexTo]
  dsimp only [report, record]
  rw [startContour_operands]
  rfl

theorem leads_closing {ending : List Instruction} {last : Workspace} {depth fx fy : Number}
    (h : d.workspace.calculateAll? setup ending = some last)
    (hlast : last.operands.toList = [depth, fx, fy]) (hactive : d.flex.active = true)
    {r p₁ p₂ p₃ p₄ p₅ q : Point} (hpoints : d.flex.points = [r, p₁, p₂, p₃, p₄, p₅, q]) :
    d.Leads setup (Flex.closing ending)
      ((d.withWorkspace last).closed setup depth fx fy ⟨p₁, p₂, p₃⟩ p₄ p₅) := by
  have hcall := (callOtherSubr_closing setup depth fx fy (d.withWorkspace last)).trans
    (endFlex_closed (d := d.withWorkspace last) setup hactive hpoints rfl)
  rw [Flex.closing, Operator.call, ← List.append_assoc]
  exact leads_call (calculateAll?_closing h hlast) (Decode.bind_run hcall)

/-! ### The whole -/

section Whole

variable {moves : List FlexMove} {deltas : List Point} {behind : Workspace}

/-- From the start on, the moves that fit leave the current point alone, and the glyph gets nothing
from them. -/
theorem keeps_opening (hd : d.operands = .empty)
    (h : Flex.deltas? setup d.workspace moves = some (deltas, behind))
    (hfits : moves.length ≤ Flex.capacity) {n : Nat} (hstarted : (Flex.opening []).length ≤ n)
    (hn : n ≤ (Flex.opening moves).length) :
    ∃ e, d.Leads setup ((Flex.opening moves).take n) e ∧ e.point = d.placeAccent.point ∧
      e.elements = d.elements := by
  have hroom : d.startFlex.flex.points.length + moves.length ≤ Flex.capacity := by
    rwa [show d.startFlex.flex.points = [] from rfl, List.length_nil, Nat.zero_add]
  have hkeeps : d.startFlex.Keeps setup
      (fun e => e.point = d.placeAccent.point ∧ e.elements = d.elements)
      (moves.flatMap FlexMove.program) := by
    rw [← d.startFlex_workspace] at h
    exact keeps_moves (fun _ _ => ⟨rfl, d.placeAccent_elements⟩) h rfl hroom
  have hmoves := Flex.opening_append [] moves
  rw [List.nil_append] at hmoves
  rw [hmoves] at hn ⊢
  obtain ⟨k, rfl⟩ := Nat.exists_eq_add_of_le hstarted
  rw [List.length_append] at hn
  obtain ⟨e, hleads, he⟩ := hkeeps k (Nat.le_of_add_le_add_left hn)
  rw [List.take_length_add_append]
  have hstart : d.Leads setup (Flex.opening []) d.startFlex := leads_start hd
  exact ⟨e, hstart.trans hleads, he⟩

variable {ending : List Instruction} {last : Workspace} {depth fx fy : Number}
  (hd : d.operands = .empty)
  (hmoves : Flex.deltas? setup d.workspace moves = some (deltas, behind))
  (hending : behind.calculateAll? setup ending = some last)
  (hlast : last.operands.toList = [depth, fx, fy])
include hd hmoves hending hlast

/-- Too many moves are refused on the way, too few at the end. -/
theorem refuses_program (h : moves.length ≠ 7) :
    d.Refuses setup (Flex.program moves ending) .badFlex := by
  rcases Nat.lt_or_ge Flex.capacity moves.length with hlong | hfits
  · exact (refuses_opening hd hmoves hlong).before _
  · let collected := (d.flexed deltas).withWorkspace behind
    have hpoints : collected.flex.points.length ≠ 7 := by
      show (d.flexed deltas).flex.points.length ≠ 7
      rwa [length_flexed_points, Flex.length_deltas hmoves]
    exact .after (leads_opening hd hmoves hfits) (d.flexed_elements deltas)
      (refuses_closing (d := collected) hending hlast hpoints)

theorem leads_program (h : moves.length = 7) :
    ∃ r p₁ p₂ p₃ p₄ p₅ q, deltas.scanl (· + ·) d.placeAccent.point =
        [d.placeAccent.point, r, p₁, p₂, p₃, p₄, p₅, q] ∧
      d.Leads setup (Flex.program moves ending)
        (((d.withWorkspace last).flexed deltas).closed setup depth fx fy ⟨p₁, p₂, p₃⟩ p₄ p₅) := by
  obtain ⟨r, p₁, p₂, p₃, p₄, p₅, q, hsums⟩ : ∃ r p₁ p₂ p₃ p₄ p₅ q,
      deltas.scanl (· + ·) d.placeAccent.point =
        [d.placeAccent.point, r, p₁, p₂, p₃, p₄, p₅, q] := by
    -- Seven displacements have eight running sums, the first of which is the start.
    match deltas, (Flex.length_deltas hmoves).trans h with
    | [_, _, _, _, _, _, _], _ => exact ⟨_, _, _, _, _, _, _, rfl⟩
  refine ⟨r, p₁, p₂, p₃, p₄, p₅, q, hsums, ?_⟩
  have hfits : moves.length ≤ Flex.capacity := by
    rw [h]
    decide
  let collected := (d.flexed deltas).withWorkspace behind
  obtain ⟨reach, hflexed⟩ := d.flexed_eq deltas
  rw [hsums] at hflexed
  have hactive : collected.flex.active = true := by
    show (d.flexed deltas).flex.active = true
    rw [hflexed]
  have hpoints : collected.flex.points = [r, p₁, p₂, p₃, p₄, p₅, q] := by
    show (d.flexed deltas).flex.points = _
    rw [hflexed]
    rfl
  rw [flexed_withWorkspace]
  exact (leads_opening hd hmoves hfits).trans
    (leads_closing (d := collected) hending hlast hactive hpoints)

end Whole

/-! ### What is drawn -/

theorem startContour_controlPoint (setup : Setup) (d : Decoder) :
    d.startContour.controlPoint setup = d.controlPoint setup := by
  obtain ⟨_, _, _, hstart⟩ := d.startContour_eq
  obtain ⟨_, _, hplace⟩ := d.placeAccent_eq
  rw [hstart, hplace]
  rfl

theorem startContour_elements (d : Decoder) : d.startContour.elements =
    d.elements ++ if d.moveDue then [.moveTo d.placeAccent.point] else [] := by
  have hdue : d.placeAccent.moveDue = d.moveDue := by
    obtain ⟨_, _, hplace⟩ := d.placeAccent_eq
    rw [hplace]
  rw [startContour, hdue]
  split
  · exact (elements_record _ _).trans (congrArg (· ++ _) d.placeAccent_elements)
  · rw [placeAccent_elements, List.append_nil]

/-- What is drawn depends on what is being decoded, wherever its accent is. -/
theorem absolute_congr {d e : Decoder} (h : e.part = d.placeAccent.part) (p : Point) :
    e.absolute p = d.absolute p := by
  rw [← d.absolute_placeAccent, absolute, absolute, h]

/-- A point that is the current one already is set without effect. -/
theorem setPoint_of_part {d e : Decoder} (h : e.part = d.placeAccent.part) {p : Point}
    (hpoint : e.point = (d.absolute p).round) : e.setPoint p = e := by
  rw [setPoint, placeAccent_of_part h, absolute_congr h, ← hpoint]

/-- What the end of a flex comes to after its start and its moves. -/
theorem closed_flexed (setup : Setup) (d : Decoder) (deltas : List Point) (depth fx fy : Number)
    (left : Curve) (p₄ p₅ : Point) :
    let control := d.controlPoint setup
    let last := (control (d.absolute ⟨fx, fy⟩)).round
    let e := (d.flexed deltas).closed setup depth fx fy left p₄ p₅
    e.elements = d.elements ++ (if d.moveDue then [.moveTo d.placeAccent.point] else []) ++
        [.flex depth ⟨control left.first, control left.second, control left.last⟩
          ⟨control p₄, control p₅, last⟩] ∧
      e.point = last ∧ e.flex.active = false ∧ e.part = d.placeAccent.part := by
  intro control last e
  obtain ⟨reach, hflexed⟩ := d.flexed_eq deltas
  -- The end draws from the placed point, with the points that the moves have left.
  let flex : Flex := ⟨false, reach, (deltas.scanl (· + ·) d.placeAccent.point).tail⟩
  let ended : Decoder := { d.placeAccent with flex, operands := .empty }
  have hplaced : ended.placeAccent = ended := placeAccent_of_part (d := d) rfl
  have he : e = { ended.flexTo setup depth left ⟨p₄, p₅, d.absolute ⟨fx, fy⟩⟩ with
      operands := ⟨[fx, fy], (by decide : 2 ≤ 48)⟩ } := by
    show (d.flexed deltas).closed setup depth fx fy left p₄ p₅ = _
    rw [closed, absolute_congr (e := d.flexed deltas) (d := d) (by rw [hflexed]), hflexed]
  have hcontrol : ended.startContour.controlPoint setup = control := by
    obtain ⟨_, _, hplace⟩ := d.placeAccent_eq
    rw [startContour_controlPoint, show ended = { d.placeAccent with flex, operands := .empty } from
      rfl, hplace]
    rfl
  have hdue : ended.moveDue = d.moveDue := by
    obtain ⟨_, _, hplace⟩ := d.placeAccent_eq
    show d.placeAccent.moveDue = _
    rw [hplace]
  have hstart : ended.startContour.elements =
      d.elements ++ if d.moveDue then [.moveTo d.placeAccent.point] else [] := by
    rw [startContour_elements, hplaced, hdue]
    exact congrArg (· ++ _) d.placeAccent_elements
  rw [he, ← hstart]
  refine ⟨?_, ?_, ?_, ?_⟩
  · refine (elements_record _ _).trans ?_
    rw [hcontrol]
    rfl
  · show (ended.startContour.controlPoint setup _).round = _
    rw [hcontrol]
  · obtain ⟨_, _, _, h⟩ := ended.startContour_eq
    show ended.startContour.flex.active = false
    rw [h, hplaced]
  · refine ended.startContour_part.trans ?_
    rw [hplaced]

theorem round_controlPoint {p : Point} (h : p.round.round = p.round) :
    (d.controlPoint setup p).round = p.round := by
  unfold controlPoint control
  split
  · exact h
  · rfl

/-- A point on the operand stack that is the current one is taken off, and nothing else. -/
theorem leads_setcurrentpoint (setup : Setup) {d e : Decoder} {fx fy : Number}
    (hoperands : e.operands.toList = [fx, fy]) (hpart : e.part = d.placeAccent.part)
    (hpoint : e.point = (d.absolute ⟨fx, fy⟩).round) :
    e.Leads setup [.operator .pop, .operator .pop, .operator .setcurrentpoint]
      { e with operands := .empty } := by
  have hpop : e.Leads setup [.operator .pop] e :=
    leads_operator (show Decode.perform setup .pop e = .ok .next e from rfl)
  have hpops : e.Leads setup [.operator .pop, .operator .pop] e := hpop.trans hpop
  have harguments : Decode.arguments 2 e = .ok #v[fx, fy] e := by
    refine Decode.arguments_run ?_
    rw [show e.operands = ⟨[fx, fy], (by decide : 2 ≤ 48)⟩ from Operands.ext hoperands]
    rfl
  have hset : Decode.perform setup .setcurrentpoint e =
      .ok .next { e.setPoint ⟨fx, fy⟩ with operands := .empty } := by
    rw [Decode.perform, Decode.draw, Decode.bind_run harguments]
    rfl
  rw [setPoint_of_part hpart hpoint] at hset
  exact hpops.trans (leads_operator hset)

end Decoder

/-! ## What a receiver is given -/

/-- What a receiver is given for a flex that may start a contour. -/
theorem Element.flatMap_deliver_flex (settings : Settings) (takes : Capabilities) (due : Bool)
    (start : Point) (depth : Number) (left right : Curve) :
    ((if due then [Element.moveTo start] else []) ++ [Element.flex depth left right]).flatMap
        (Element.deliver settings takes) =
      ((if due && takes.move then [Element.moveTo start] else []) ++
        if takes.flex then [Element.flex depth left right]
        else if takes.curve then [Element.curveTo left, .curveTo right]
        else []).map settings.place := by
  have hflex : (Element.flex depth left right).deliver settings takes =
      (if takes.flex then [Element.flex depth left right]
        else if takes.curve then [Element.curveTo left, .curveTo right]
        else []).map settings.place := by
    rw [deliver_eq, accept]
  rw [List.flatMap_append, List.flatMap_singleton, hflex, List.map_append]
  congr 1
  cases due with
  | false => rfl
  | true =>
    rw [if_pos rfl, List.flatMap_singleton, deliver_eq, accept, Bool.true_and]

/-- From any moment of a run at which there are no operands, a flex with any number of moves comes
to this, by whatever instructions its operands are calculated. From its start on, the moves that fit
report nothing, and leave the current point alone, which is where the flex starts, with an accent
placed. With another number of moves than seven the flex is refused, and reports nothing. With seven
it is drawn, after the move that may be due, through the running sums of their displacements, except
the first and the last of these, and to the point that its end states. These points are rounded as
control points are at the end, the last one in any case, and mapped by the matrix. The last point is
the current point from then on, and stands on the operand stack as it was stated. Setting it takes
it off the stack and changes nothing else, if rounding it again does not. -/
theorem flex_protocol (s : Source) (font : Font) (settings : Settings) (takes : Capabilities)
    (m : Moment s) (hempty : m.decoder.operands = .empty) (moves : List FlexMove)
    (ending : List Instruction) {deltas : List Point} {behind last : Workspace}
    {depth fx fy : Number}
    (hmoves : Flex.deltas? (.of font settings takes) m.decoder.workspace moves =
      some (deltas, behind))
    (hending : behind.calculateAll? (.of font settings takes) ending = some last)
    (hlast : last.operands.toList = [depth, fx, fy])
    (hspells : m.cursor.Spells (Flex.program moves ending)) :
    let run := m.run (.of font settings takes)
    let given k := Run.given settings takes (run k)
    let total := (Flex.program moves ending).length
    let start := m.decoder.placeAccent.point
    (∀ k, (Flex.opening []).length ≤ k → k ≤ (Flex.opening (moves.take 8)).length →
      ∃ l, run k = .running l ∧ l.decoder.point = start ∧ given k = given 0) ∧
    ((∃ k ≤ total, ∃ session, run k = .ended (.error .badFlex session)) ↔ moves.length ≠ 7) ∧
    (∀ k ≤ total, ∀ session, run k = .ended (.error .badFlex session) → given k = given 0) ∧
    (moves.length = 7 → ∃ r p₁ p₂ p₃ p₄ p₅ q l,
      deltas.scanl (· + ·) start = [start, r, p₁, p₂, p₃, p₄, p₅, q] ∧
      run total = .running l ∧
      let control := Point.map fun v =>
        if settings.activeMatrix?.isSome || last.blended then v.round else v
      let stated := m.decoder.absolute ⟨fx, fy⟩
      let left : Curve := ⟨control p₁, control p₂, control p₃⟩
      let right : Curve := ⟨control p₄, control p₅, (control stated).round⟩
      given total = given 0 ++
        ((if m.decoder.moveDue && takes.move then [Element.moveTo start] else []) ++
          if takes.flex then [Element.flex depth left right]
          else if takes.curve then [Element.curveTo left, Element.curveTo right]
          else []).map settings.place ∧
      l.decoder.point = right.last ∧ l.decoder.flex.active = false ∧
      l.decoder.operands.toList = [fx, fy] ∧
      (l.cursor.Spells [.operator .pop, .operator .pop, .operator .setcurrentpoint] →
        stated.round.round = stated.round →
        ∃ l', run (total + 3) = .running l' ∧ given (total + 3) = given total ∧
          { l'.decoder with history := #[] } =
            { l.decoder with history := #[], operands := .empty })) := by
  intro run given total start
  have hleads (h : moves.length = 7) := Decoder.leads_program hempty hmoves hending hlast h
  have hrefused (h : moves.length ≠ 7) : ∃ k ≤ total, ∃ session,
      run k = .ended (.error .badFlex session) ∧ session.decoder.elements = m.decoder.elements :=
    Decoder.refuses_program hempty hmoves hending hlast h s m (.refl _) hspells
  -- With seven moves the run goes on to the end of the flex, so it was refused with another number.
  have hseven (k : Nat) (hk : k ≤ total) (session : Session)
      (hended : run k = .ended (.error .badFlex session)) : moves.length ≠ 7 := by
    intro h
    obtain ⟨_, _, _, _, _, _, _, -, hprogram⟩ := hleads h
    exact hprogram.ne_ended hspells hk _ hended
  refine ⟨fun k hstarted hk => ?_, ⟨?_, ?_⟩, ?_, fun h => ?_⟩
  · -- Of more than eight moves, the first eight are a flex of their own.
    have hfits : (moves.take 8).length ≤ Flex.capacity := List.length_take_le ..
    rw [← List.take_append_drop 8 moves] at hmoves
    obtain ⟨_, _, _, hfitting, -, -⟩ := Flex.deltas?_append_eq_some hmoves
    obtain ⟨e, hfitting, hpoint, helements⟩ :=
      Decoder.keeps_opening hempty hfitting hfits hstarted hk
    have hopening : m.cursor.Spells (Flex.opening (moves.take 8)) := by
      rw [Flex.program, ← List.take_append_drop 8 moves, Flex.opening_append] at hspells
      exact hspells.left.left
    rw [← List.take_append_drop k (Flex.opening (moves.take 8))] at hopening
    obtain ⟨l, hl, he⟩ := hfitting.run hopening.left
    have hrun : run k = .running l := by
      rwa [List.length_take_of_le hk] at hl
    refine ⟨l, hrun, (congrArg Decoder.point he.1).trans hpoint, ?_⟩
    exact (congrArg (Run.given settings takes) hrun).trans
      (Decoder.given_of_elements (he.elements.trans helements))
  · rintro ⟨k, hk, session, hended⟩
    exact hseven k hk session hended
  · intro h
    obtain ⟨k, hk, session, hended, -⟩ := hrefused h
    exact ⟨k, hk, session, hended⟩
  · -- A run ends once, so the refusal is the one that is known to have given nothing.
    intro k hk session hended
    obtain ⟨j, -, other, hother, helements⟩ := hrefused (hseven k hk session hended)
    cases Run.ended_unique hended hother
    exact (congrArg (Run.given settings takes) hended).trans (Decoder.given_of_elements helements)
  · obtain ⟨r, p₁, p₂, p₃, p₄, p₅, q, hsums, hprogram⟩ := hleads h
    obtain ⟨l, hrun, he⟩ := hprogram.run hspells
    let calculated := m.decoder.withWorkspace last
    have hplaced : calculated.placeAccent = m.decoder.placeAccent.withWorkspace last :=
      Decoder.placeAccent_withWorkspace ..
    obtain ⟨helements, hpoint, hactive, hpart⟩ := Decoder.closed_flexed (.of font settings takes)
      calculated deltas depth fx fy ⟨p₁, p₂, p₃⟩ p₄ p₅
    have hlpoint := (congrArg Decoder.point he.1).trans hpoint
    have hloperands : l.decoder.operands.toList = [fx, fy] := congrArg (·.operands.toList) he.1
    refine ⟨r, p₁, p₂, p₃, p₄, p₅, q, l, hsums, hrun, ?_, hlpoint,
      (congrArg (·.flex.active) he.1).trans hactive, hloperands, ?_⟩
    · refine (congrArg (Run.given settings takes) hrun).trans ?_
      show l.decoder.elements.flatMap _ = m.decoder.given settings takes ++ _
      rw [he.elements, helements, List.append_assoc, List.flatMap_append,
        Element.flatMap_deliver_flex, hplaced]
      rfl
    · intro hset hround
      have hlpart : l.decoder.part = m.decoder.placeAccent.part :=
        (congrArg Decoder.part he.1).trans (hpart.trans (by rw [hplaced]; rfl))
      have hsame := Decoder.leads_setcurrentpoint (.of font settings takes) hloperands hlpart
        (hlpoint.trans (Decoder.round_controlPoint (d := calculated) hround))
      obtain ⟨l', hl', he'⟩ := hsame.run hset
      have hrun' : run (total + 3) = .running l' := (Moment.run_add hrun 3).trans hl'
      refine ⟨l', hrun', ?_, he'.1⟩
      show Run.given settings takes (run (total + 3)) = Run.given settings takes (run total)
      rw [hrun', show run total = .running l from hrun]
      exact Decoder.given_of_elements he'.elements

/-- The bytes of `0 500 hsbw 100 100 rmoveto`, a flex of which three moves are along the horizontal
axis, the first one by `40 2 div`, and `pop pop setcurrentpoint`. -/
def Flex.data : List UInt8 :=
  [139, 248, 136, 13, 239, 239, 21, 139, 140, 12, 16, 179, 141, 12, 12, 22, 139, 141, 12, 16, 129,
    149, 21, 139, 141, 12, 16, 159, 144, 21, 139, 141, 12, 16, 159, 22, 139, 141, 12, 16, 159, 22,
    139, 141, 12, 16, 159, 134, 21, 139, 141, 12, 16, 129, 129, 21, 139, 141, 12, 16, 189, 247, 73,
    239, 142, 139, 12, 16, 12, 17, 12, 17, 12, 33]

/-- The last point is not where the moves lead. -/
theorem flex_protocol_seven :
    let run := Run.after (.memory Flex.data none) (.of {} {} {}) 0 {}
    ∃ m l l', run 6 = .running m ∧ run 56 = .running l ∧ run 59 = .running l' ∧
      Run.given {} {} (run 56) = Run.given {} {} (run 6) ++
        [.flex 50 ⟨⟨110, 110⟩, ⟨130, 115⟩, ⟨150, 115⟩⟩ ⟨⟨170, 115⟩, ⟨190, 110⟩, ⟨181, 100⟩⟩] ∧
      Run.given {} {} (run 59) = Run.given {} {} (run 56) ∧
      l.decoder.point = ⟨181, 100⟩ ∧ l'.decoder.point = ⟨181, 100⟩ := by
  intro run
  let moves : List FlexMove := [
    ⟨.horizontal, [.number 40, .number 2, .operator (.calculate .div)]⟩,
    ⟨.both, [.number (-10), .number 10]⟩, ⟨.both, [.number 20, .number 5]⟩,
    ⟨.horizontal, [.number 20]⟩, ⟨.horizontal, [.number 20]⟩,
    ⟨.both, [.number 20, .number (-5)]⟩, ⟨.both, [.number (-10), .number (-10)]⟩]
  let deltas : List Point :=
    [⟨40 / 2, 0⟩, ⟨-10, 10⟩, ⟨20, 5⟩, ⟨20, 0⟩, ⟨20, 0⟩, ⟨20, -5⟩, ⟨-10, -10⟩]
  let ending : List Instruction := [.number 50, .number 181, .number 100]
  let setting : List Instruction := [.operator .pop, .operator .pop, .operator .setcurrentpoint]
  obtain ⟨m, hm, hstate⟩ := Option.map_eq_some_iff.1 (by decide +kernel :
    (run 6).moment?.map (fun m => (m.decoder.operands.toList, m.decoder.blended,
      m.decoder.moveDue, m.decoder.placeAccent.point, m.decoder.absolute ⟨181, 100⟩,
      decide (m.cursor.Spells (Flex.program moves ending ++ setting)))) =
    some ([], false, false, ⟨100, 100⟩, ⟨181, 100⟩, true))
  have hrunning := Status.eq_running_of_moment? hm
  have hrun := Moment.run_eq_after hrunning
  obtain ⟨hempty, hblended, hdue, hstart, hstated, hspells⟩ :
      m.decoder.operands = .empty ∧ m.decoder.blended = false ∧ m.decoder.moveDue = false ∧
        m.decoder.placeAccent.point = ⟨100, 100⟩ ∧
        m.decoder.absolute ⟨181, 100⟩ = ⟨181, 100⟩ ∧
        m.cursor.Spells (Flex.program moves ending ++ setting) := by
    simp only [Prod.mk.injEq, decide_eq_true_eq] at hstate
    exact ⟨Operands.ext hstate.1, hstate.2⟩
  let before : Workspace := { m.decoder.workspace with operands := .empty }
  have hbefore : m.decoder.workspace = before := by
    show _ = { m.decoder.workspace with operands := .empty }
    rw [← hempty]
    rfl
  let last : Workspace := { before with operands := ⟨[50, 181, 100], (by decide : 3 ≤ 48)⟩ }
  have hmoves : Flex.deltas? (.of {} {} {}) m.decoder.workspace moves = some (deltas, before) :=
    (congrArg (Flex.deltas? (.of {} {} {}) · moves) hbefore).trans rfl
  have hending : before.calculateAll? (.of {} {} {}) ending = some last := rfl
  obtain ⟨-, -, -, hseven⟩ := flex_protocol (.memory Flex.data none) {} {} {} m hempty moves
    ending hmoves hending rfl hspells.left
  obtain ⟨r, p₁, p₂, p₃, p₄, p₅, q, l, hsums, hl, hgiven, hpoint, -, -, hset⟩ := hseven rfl
  have hpoints : deltas.scanl (· + ·) (⟨100, 100⟩ : Point) =
      [⟨100, 100⟩, ⟨120, 100⟩, ⟨110, 110⟩, ⟨130, 115⟩, ⟨150, 115⟩, ⟨170, 115⟩, ⟨190, 110⟩,
        ⟨180, 100⟩] := by
    decide +kernel
  rw [hstart, hpoints] at hsums
  obtain ⟨-, -, rfl, rfl, rfl, rfl, rfl, -⟩ := by
    simpa only [List.cons.injEq] using hsums
  have hend : run 56 = .running l := (hrun 50).symm.trans hl
  have hnext : l.cursor.Spells setting := by
    have hspelled :
        (run 56).moment?.map (fun l => decide (l.cursor.Spells setting)) = some true := by
      decide +kernel
    rw [hend] at hspelled
    exact of_decide_eq_true (Option.some.inj hspelled)
  obtain ⟨l', hl', hkept, hsame⟩ := hset hnext (by rw [hstated]; decide +kernel)
  have hlastBlended : last.blended = false := hblended
  rw [hlastBlended, hstated] at hpoint
  have hlast : l.decoder.point = ⟨181, 100⟩ := hpoint.trans (by decide +kernel)
  refine ⟨m, l, l', hrunning, hend, (hrun 53).symm.trans hl', ?_, ?_, hlast,
    (congrArg Decoder.point hsame).trans hlast⟩
  · rw [hdue, hlastBlended, hstart, hstated] at hgiven
    have hbegun : Run.given {} {} (m.run (.of {} {} {}) 0) = Run.given {} {} (run 6) :=
      congrArg (Run.given {} {}) (hrun 0)
    refine (congrArg (Run.given {} {}) (hrun 50)).symm.trans (hgiven.trans ?_)
    exact congrArg₂ (· ++ ·) hbegun (by decide +kernel)
  · refine (congrArg (Run.given {} {}) (hrun 53)).symm.trans (hkept.trans ?_)
    exact congrArg (Run.given {} {}) (hrun 50)

end Type1
