import Type1.Proofs.OperandNeeds
import Type1.Proofs.Progress

/-!
# Where the operand stack is too short or full

An operator fails by too few operands if there are fewer than its arity, or than those of `blend`
and `callothersubr` say. Only what puts more on the stack than it takes off can overflow: numbers,
`dup` and `random`, and only at a full stack.

* `Operator.Lacks`: an operator finds fewer operands than it needs. `Instruction.Grows`: what can
  overflow.
* `Decode.execute_underflow_iff`, `Decode.execute_overflow_iff`: all instructions.
* `Run.step_error_iff`: an error of the program is one of an instruction.
* `stack_errors_exact`: the steps that fail so.
-/

namespace Type1

/-! ## Instructions -/

/-- The operands that the other subroutine of a selector needs, whatever the count of arguments
is. -/
def OtherSubr.selectorNeeds (font : Font) : Int → Nat
  | 0 => 3
  | 3 | 19 | 25 | 29 => 1
  | 20 | 21 | 22 | 23 | 24 | 30 => 2
  | 27 => 4
  | 14 => font.blendArity 1
  | 15 => font.blendArity 2
  | 16 => font.blendArity 3
  | 17 => font.blendArity 4
  | 18 => font.blendArity 6
  | _ => 0

/-- With the arguments that are counted, a known subroutine lacks what its selector needs. -/
theorem OtherSubr.lt_needs_iff {font : Font} {k : Int} {subr : OtherSubr} {n size : Nat}
    (h : ofSelector? k = some subr) (hn : n ≤ size) :
    size < subr.needs font n ↔ size < selectorNeeds font k := by
  unfold ofSelector? at h
  split at h <;> cases h <;> first | exact Iff.rfl | skip
  · exact iff_of_false (Nat.not_lt.2 hn) (Nat.not_lt_zero _)
  · exact iff_of_false (Nat.not_lt.2 hn) (Nat.not_lt_zero _)

/-- What needs operands is known. -/
theorem OtherSubr.exists_of_lt {font : Font} {k : Int} {size : Nat}
    (h : size < selectorNeeds font k) : ∃ subr, ofSelector? k = some subr := by
  unfold selectorNeeds at h
  split at h <;> first | exact ⟨_, rfl⟩ | exact absurd h (Nat.not_lt_zero _)

/-- An operator finds fewer operands than it needs: fewer than its arity, fewer than the values that
`blend` is to blend take, or fewer than the arguments of `callothersubr` or the subroutine that it
calls. -/
inductive Operator.Lacks (font : Font) (operands : List Number) : Operator → Prop where
  | arity {op : Operator} (h : operands.length < op.arity) : Lacks font operands op
  | blend {below : List Number} {count : Number} {n : Nat} (htop : operands = below ++ [count])
      (hcount : count.toIndex? = some n) (h : below.length < font.blendArity n) :
      Lacks font operands .blend
  | arguments {below : List Number} {count selector : Number} {n : Nat}
      (htop : operands = below ++ [count, selector]) (hcount : count.toIndex? = some n)
      (h : below.length < n) : Lacks font operands .callothersubr
  | selected {below : List Number} {count selector : Number} {n : Nat} {k : Int}
      (htop : operands = below ++ [count, selector]) (hcount : count.toIndex? = some n)
      (hselector : selector.truncate? = some k)
      (h : below.length < OtherSubr.selectorNeeds font k) : Lacks font operands .callothersubr

/-- The instruction is an operator that finds fewer operands than it needs. -/
def Instruction.Lacks (font : Font) (operands : List Number) : Instruction → Prop
  | operator op => op.Lacks font operands
  | _ => False

/-- The instruction puts more on the operand stack than it takes off. -/
def Instruction.Grows : Instruction → Prop
  | number _ | operator (.calculate .dup) | operator (.calculate .random) => True
  | _ => False

theorem Calculation.room_cases (op : Calculation) :
    (op.room = 0 ∧ ¬ (Instruction.operator (.calculate op)).Grows) ∨
      (op.room = 1 ∧ op.arity ≤ 1 ∧ (Instruction.operator (.calculate op)).Grows) := by
  cases op <;> first | exact .inl ⟨rfl, id⟩ | exact .inr ⟨rfl, by decide, trivial⟩

theorem OtherSubr.room_le (subr : OtherSubr) : subr.room ≤ 1 := by
  cases subr with
  | calculate op =>
    rcases op.room_cases with ⟨hroom, -⟩ | ⟨hroom, -⟩
    · exact Nat.le_trans (Nat.le_of_eq hroom) (Nat.zero_le 1)
    · exact Nat.le_of_eq hroom
  | _ => exact Nat.zero_le 1

namespace Operator

theorem room_cases (op : Operator) : (op.room = 0 ∧ ¬ (Instruction.operator op).Grows) ∨
    (op.room = 1 ∧ op.arity ≤ 1 ∧ (Instruction.operator op).Grows) := by
  cases op with
  | calculate op => exact op.room_cases
  | _ => exact .inl ⟨rfl, id⟩

variable {font : Font} {operands below : List Number} {count selector : Number}

theorem lacks_iff_of_ne {op : Operator} (hblend : op ≠ .blend) (hcall : op ≠ .callothersubr) :
    op.Lacks font operands ↔ operands.length < op.arity := by
  refine ⟨fun h => ?_, .arity⟩
  cases h with
  | arity h => exact h
  | blend => exact absurd rfl hblend
  | arguments => exact absurd rfl hcall
  | selected => exact absurd rfl hcall

theorem lacks_blend_iff (htop : operands = below ++ [count]) :
    Operator.blend.Lacks font operands ↔
      ∃ n, count.toIndex? = some n ∧ below.length < font.blendArity n := by
  subst htop
  refine ⟨fun h => ?_, fun ⟨n, hcount, h⟩ => .blend rfl hcount h⟩
  cases h with
  | arity h =>
    rw [List.length_append] at h
    exact absurd h (Nat.not_lt.2 (Nat.le_add_left 1 _))
  | blend htop hcount h =>
    obtain ⟨rfl, heq⟩ := List.append_inj' htop rfl
    obtain rfl := (List.cons.inj heq).1
    exact ⟨_, hcount, h⟩

theorem lacks_callothersubr_iff (htop : operands = below ++ [count, selector]) :
    Operator.callothersubr.Lacks font operands ↔
      ∃ n, count.toIndex? = some n ∧ (below.length < n ∨
        ∃ k, selector.truncate? = some k ∧ below.length < OtherSubr.selectorNeeds font k) := by
  subst htop
  constructor
  · intro h
    cases h with
    | arity h =>
      rw [List.length_append] at h
      exact absurd h (Nat.not_lt.2 (Nat.le_add_left 2 _))
    | arguments htop hcount h =>
      obtain ⟨rfl, heq⟩ := List.append_inj' htop rfl
      simp only [List.cons.injEq, and_true] at heq
      obtain ⟨rfl, -⟩ := heq
      exact ⟨_, hcount, .inl h⟩
    | selected htop hcount hselector h =>
      obtain ⟨rfl, heq⟩ := List.append_inj' htop rfl
      simp only [List.cons.injEq, and_true] at heq
      obtain ⟨rfl, rfl⟩ := heq
      exact ⟨_, hcount, .inr ⟨_, hselector, h⟩⟩
  · rintro ⟨n, hcount, h | ⟨k, hselector, h⟩⟩
    · exact .arguments rfl hcount h
    · exact .selected rfl hcount hselector h

end Operator

namespace Decode

variable {setup : Setup} {d : Decoder} {t : Operands} {y : Error}

/-- A computation fails so, if what it goes on with after the top operands does. -/
theorem error_of_split {α : Type} {n : Nat} {v : Vector Number n} {k : Vector Number n → Decode α}
    (h : d.operands.split? n = some (t, v)) :
    (∃ e, (take n >>= k) d = .error y e) ↔ ∃ e, k v { d with operands := t } = .error y e := by
  rw [bind_run (take_run h)]

/-- How the values of an option are gone on with. -/
theorem error_orFail_bind {α β : Type} {x : Error} {o : Option α} {k : α → Decode β}
    (h : x ≠ y) : (∃ e, (orFail x o >>= k) d = .error y e) ↔
      ∃ v, o = some v ∧ ∃ e, k v d = .error y e := by
  cases o with
  | none =>
    refine iff_of_false (fun ⟨e, he⟩ => ?_) (fun ⟨v, hv, _⟩ => by cases hv)
    cases he
    exact h rfl
  | some v =>
    refine ⟨fun he => ⟨v, rfl, he⟩, fun ⟨w, hw, he⟩ => ?_⟩
    cases hw
    exact he

theorem error_require_bind {α : Type} {n : Nat} {k : Unit → Decode α} (h : n ≤ d.operands.size) :
    (∃ e, (require n >>= k) d = .error y e) ↔ ∃ e, k () d = .error y e := by
  rw [bind_run (require_run h)]

theorem error_bind_pure {α β : Type} {x : Decode α} {b : β} :
    (∃ e, (x >>= fun _ => pure b) d = .error y e) ↔ ∃ e, x d = .error y e := by
  rcases bind_cases x (fun _ => pure b) d with ⟨z, e, hz, hbind⟩ | ⟨v, e, hv, hbind⟩
  · rw [hbind, hz]
    exact ⟨fun ⟨_, h⟩ => by cases h; exact ⟨_, rfl⟩, fun ⟨_, h⟩ => by cases h; exact ⟨_, rfl⟩⟩
  · rw [hbind, hv]
    exact iff_of_false (fun ⟨_, h⟩ => by cases h) (fun ⟨_, h⟩ => by cases h)

/-- How a `blend` with a count has an error of the stack. -/
theorem error_blend {v : Vector Number 1} (hsplit : d.operands.split? 1 = some (t, v))
    (hy : y.isOfStack = true) :
    (∃ e, perform setup .blend d = .error y e) ↔ ∃ n, v.first.toIndex? = some n ∧
      ∃ e, (blend setup n >>= fun _ => pure .next : Decode Control) { d with operands := t } =
        .error y e := by
  have hbounds : Error.boundsCheck ≠ y := by
    rintro rfl
    cases hy
  exact (error_of_split hsplit).trans (error_orFail_bind hbounds)

theorem needs_blend_next (n : Nat) : Needs (setup.font.blendArity n) 0
    (blend setup n >>= fun _ => pure .next : Decode Control) :=
  (needs_blend setup n).bind fun _ e => spares_pure _ e

/-- How a call with a count and a selector has an error of the stack. -/
theorem error_callOtherSubr {v : Vector Number 2} (hsplit : d.operands.split? 2 = some (t, v))
    (hy : y.isOfStack = true) :
    (∃ e, callOtherSubr setup d = .error y e) ↔ ∃ n, v.first.toIndex? = some n ∧
      ((t.size < n ∧ y = .stackUnderflow) ∨ (n ≤ t.size ∧ ∃ k, v.second.truncate? = some k ∧
        ∃ subr, OtherSubr.ofSelector? k = some subr ∧
          ∃ e, (require (subr.arity n) >>= fun _ => performOtherSubr setup n subr)
            { d with operands := t } = .error y e)) := by
  -- The checks of the call that have other errors can be passed over.
  have hbounds : Error.boundsCheck ≠ y := by
    rintro rfl
    cases hy
  have hunknown : Error.invalidOtherSubr ≠ y := by
    rintro rfl
    cases hy
  unfold callOtherSubr
  rw [error_of_split hsplit, toIndex, error_orFail_bind hbounds]
  refine exists_congr fun n => and_congr_right fun _ => ?_
  rcases Nat.lt_or_ge t.size n with hlt | hle
  · rw [bind_run_error (require_run_short hlt)]
    constructor
    · rintro ⟨e, he⟩
      cases he
      exact .inl ⟨hlt, rfl⟩
    · rintro (⟨-, rfl⟩ | ⟨hle, -⟩)
      · exact ⟨_, rfl⟩
      · exact absurd hle (Nat.not_le.2 hlt)
  · rw [error_require_bind hle, error_orFail_bind hunknown, or_iff_right fun h => ?_,
      and_iff_right hle]
    · refine exists_congr fun k => and_congr_right fun _ => ?_
      cases OtherSubr.ofSelector? k with
      | none =>
        constructor
        · rintro ⟨e, he⟩
          cases he
          exact absurd rfl hunknown
        · rintro ⟨_, hsome, -⟩
          cases hsome
      | some subr =>
        constructor
        · intro he
          exact ⟨subr, rfl, he⟩
        · rintro ⟨_, hsome, he⟩
          cases hsome
          exact he
    · exact absurd h.1 (Nat.not_lt.2 hle)

theorem blend_underflow_iff (setup : Setup) (d : Decoder) :
    (∃ e, perform setup .blend d = .error .stackUnderflow e) ↔
      Operator.blend.Lacks setup.font d.operands.toList := by
  rcases Nat.lt_or_ge d.operands.size 1 with hlt | hle
  · exact iff_of_true ⟨_, bind_run_error (take_run_short hlt)⟩ (.arity hlt)
  · obtain ⟨t, v, hsplit⟩ := Operands.exists_split? hle
    rw [error_blend hsplit rfl, Operator.lacks_blend_iff (Operands.toList_of_split?_one hsplit)]
    exact exists_congr fun n => and_congr_right fun _ => (needs_blend_next n).underflow_iff _

theorem callothersubr_underflow_iff (setup : Setup) (d : Decoder) :
    (∃ e, perform setup .callothersubr d = .error .stackUnderflow e) ↔
      Operator.callothersubr.Lacks setup.font d.operands.toList := by
  rw [perform, error_bind_pure]
  rcases Nat.lt_or_ge d.operands.size 2 with hlt | hle
  · exact iff_of_true ⟨_, bind_run_error (take_run_short hlt)⟩ (.arity hlt)
  obtain ⟨t, v, hsplit⟩ := Operands.exists_split? hle
  rw [error_callOtherSubr hsplit rfl,
    Operator.lacks_callothersubr_iff (Operands.toList_of_split?_two hsplit)]
  refine exists_congr fun n => and_congr_right fun _ => ?_
  simp only [(needs_performOtherSubr setup n _).underflow_iff, and_true]
  rcases Nat.lt_or_ge t.size n with hlt | hle
  · exact iff_of_true (.inl hlt) (.inl hlt)
  · have hfits : ¬ t.toList.length < n := Nat.not_lt.2 hle
    rw [or_iff_right (Nat.not_lt.2 hle), or_iff_right hfits, and_iff_right hle]
    refine exists_congr fun k => and_congr_right fun _ => ?_
    constructor
    · rintro ⟨subr, hsubr, h⟩
      exact (OtherSubr.lt_needs_iff hsubr hle).1 h
    · intro h
      obtain ⟨subr, hsubr⟩ := OtherSubr.exists_of_lt h
      exact ⟨subr, hsubr, (OtherSubr.lt_needs_iff hsubr hle).2 h⟩

/-- An operator underflows exactly if it lacks operands. -/
theorem perform_underflow_iff (setup : Setup) (op : Operator) (d : Decoder) :
    (∃ e, perform setup op d = .error .stackUnderflow e) ↔
      op.Lacks setup.font d.operands.toList := by
  -- These two read from the stack how many operands they need. All others have a fixed number.
  by_cases hblend : op = .blend
  · subst hblend
    exact blend_underflow_iff setup d
  by_cases hcall : op = .callothersubr
  · subst hcall
    exact callothersubr_underflow_iff setup d
  rw [(needs_perform setup hblend hcall).underflow_iff, Operator.lacks_iff_of_ne hblend hcall]
  rfl

/-- The blended values are not more than those that they are computed from. -/
theorem blend_not_overflow (setup : Setup) (d : Decoder) :
    ¬ ∃ e, perform setup .blend d = .error .stackOverflow e := by
  intro h
  rcases Nat.lt_or_ge d.operands.size 1 with hlt | hle
  · rw [perform, bind_run_error (take_run_short hlt)] at h
    obtain ⟨_, h⟩ := h
    cases h
  · obtain ⟨t, v, hsplit⟩ := Operands.exists_split? hle
    obtain ⟨n, -, h⟩ := (error_blend hsplit rfl).1 h
    obtain ⟨-, hfull⟩ := ((needs_blend_next n).overflow_iff _).1 h
    exact absurd t.length_le (Nat.not_le.2 hfull)

/-- The operands that say what is called leave room for what it adds. -/
theorem callothersubr_not_overflow (setup : Setup) (d : Decoder) :
    ¬ ∃ e, perform setup .callothersubr d = .error .stackOverflow e := by
  intro h
  rw [perform, error_bind_pure] at h
  rcases Nat.lt_or_ge d.operands.size 2 with hlt | hle
  · rw [callOtherSubr, bind_run_error (take_run_short hlt)] at h
    obtain ⟨_, h⟩ := h
    cases h
  · obtain ⟨t, v, hsplit⟩ := Operands.exists_split? hle
    obtain ⟨n, -, ⟨-, h⟩ | ⟨-, k, -, subr, -, h⟩⟩ := (error_callOtherSubr hsplit rfl).1 h
    · cases h
    · obtain ⟨-, hfull⟩ := ((needs_performOtherSubr setup n subr).overflow_iff _).1 h
      have hcap : d.operands.size ≤ Operands.capacity := d.operands.length_le
      have hsize := Operands.size_of_split? hsplit
      have hroom := subr.room_le
      change _ < t.size + subr.room at hfull
      omega

/-- An operator overflows exactly if it puts one operand more on a full stack than it takes off. -/
theorem perform_overflow_iff (setup : Setup) (op : Operator) (d : Decoder) :
    (∃ e, perform setup op d = .error .stackOverflow e) ↔
      d.operands.size = Operands.capacity ∧ (Instruction.operator op).Grows := by
  have hcap : d.operands.size ≤ Operands.capacity := d.operands.length_le
  by_cases hblend : op = .blend
  · subst hblend
    exact iff_of_false (blend_not_overflow setup d) fun h => h.2
  by_cases hcall : op = .callothersubr
  · subst hcall
    exact iff_of_false (callothersubr_not_overflow setup d) fun h => h.2
  rw [(needs_perform setup hblend hcall).overflow_iff]
  rcases op.room_cases with ⟨hroom, hgrows⟩ | ⟨hroom, harity, hgrows⟩ <;> rw [hroom]
  · exact iff_of_false (fun h => absurd hcap (Nat.not_le.2 h.2)) fun h => hgrows h.2
  · rw [d.operands.full_iff]
    refine ⟨fun h => ⟨h.2, hgrows⟩, fun h => ⟨Nat.le_trans harity ?_, h.1⟩⟩
    rw [h.1]
    decide

theorem execute_underflow_iff (setup : Setup) (i : Instruction) (d : Decoder) :
    (∃ e, execute setup i d = .error .stackUnderflow e) ↔
      i.Lacks setup.font d.operands.toList := by
  cases i with
  | number value =>
    rw [execute, error_bind_pure, (needs_push value).underflow_iff]
    exact iff_of_false (Nat.not_lt_zero _) id
  | operator op => exact perform_underflow_iff setup op (d.record _)
  | reserved byte =>
    refine iff_of_false ?_ id
    rintro ⟨e, he⟩
    cases he

theorem execute_overflow_iff (setup : Setup) (i : Instruction) (d : Decoder) :
    (∃ e, execute setup i d = .error .stackOverflow e) ↔
      d.operands.size = Operands.capacity ∧ i.Grows := by
  cases i with
  | number value =>
    rw [execute, error_bind_pure, (needs_push value).overflow_iff, and_iff_right (Nat.zero_le _),
      d.operands.full_iff]
    exact (and_iff_left trivial).symm
  | operator op => exact perform_overflow_iff setup op (d.record _)
  | reserved byte =>
    refine iff_of_false ?_ fun h => h.2
    rintro ⟨e, he⟩
    cases he

end Decode

/-! ## Steps -/

namespace Run

variable {s : Source} {setup : Setup} {y : Error} {session session' : Session}

/-- What happens between instructions does not fail for what the program has. -/
theorem resume_error {frames : List Frame} {offset : Nat}
    (h : resume s frames offset session = .ended (.error y session')) :
    y.isOfProgram = false := by
  have hblames := Cursor.openAt_blames (s := s) offset session.source
  unfold resume at h
  split at h
  · next hopen =>
    cases h
    rw [hopen] at hblames
    rcases hblames with rfl | rfl <;> rfl
  · cases h

theorem enter_error {f : Frame} {frames : List Frame} {offset : Nat}
    (h : enter s f frames offset session = .ended (.error y session')) :
    y.isOfProgram = false := by
  unfold enter at h
  split at h
  · exact resume_error h
  · cases h
    rfl

theorem leave_error {frames : List Frame} {flow : Flow}
    (h : leave s frames flow session = .ended (.error y session')) :
    y.isOfProgram = false := by
  fun_induction leave s frames flow session with
  | case1 flow session => cases h
  | case2 p frames session => exact resume_error h
  | case3 p frames session ih => exact ih h
  | case4 accent shift frames flow session => exact enter_error h
  | case5 frames flow session ih => exact ih h

theorem pursue_error {frames : List Frame} {c : Cursor s} {d : Decoder} {control : Control}
    (h : pursue frames c d control = .ended (.error y session)) : y.isOfProgram = false := by
  cases control with
  | next => cases h
  | leave flow => exact leave_error h
  | call offset => exact enter_error h
  | compose base accent shift => exact enter_error h

/-- A step fails for what the program has exactly if its instruction does. -/
theorem step_error_iff (hy : y.isOfProgram = true) (m : Moment s) :
    (∃ session, step s setup m = .ended (.error y session)) ↔
      ∃ i d, m.Executes i d ∧ ∃ e, Decode.execute setup i d = .error y e := by
  obtain ⟨x, st, calls, hread, hend⟩ | ⟨i, next, calls, hread, hrest⟩ := step_cases setup m
  · refine iff_of_false (fun ⟨session, h⟩ => ?_) fun ⟨_, _, ⟨_, _, hdone, _⟩, _⟩ => ?_
    · have hblames := Cursor.readInstruction_blames m.cursor
      rw [hread] at hblames
      cases hend.symm.trans h
      rcases hblames with rfl | rfl <;> cases hy
    · cases hread.symm.trans hdone
  · have hexecutes : m.Executes i (m.decoder.recordCalls calls) := ⟨next, calls, hread, rfl⟩
    obtain ⟨x, e, hx, hend⟩ | ⟨control, e, hx, hgoes⟩ := hrest
    · constructor
      · rintro ⟨session, h⟩
        cases hend.symm.trans h
        exact ⟨i, _, hexecutes, e, hx⟩
      · rintro ⟨j, c, hj, e', he⟩
        obtain ⟨rfl, rfl⟩ := hexecutes.unique hj
        cases hx.symm.trans he
        exact ⟨_, hend⟩
    · refine iff_of_false (fun ⟨session, h⟩ => ?_) fun ⟨j, c, hj, e', he⟩ => ?_
      · exact absurd (pursue_error (hgoes.symm.trans h)) (by rw [hy]; decide)
      · obtain ⟨rfl, rfl⟩ := hexecutes.unique hj
        cases hx.symm.trans he

end Run

/-- At any moment, whether a run comes to it or not, an instruction fails by too few operands
exactly if it is an operator that finds fewer than it needs, and by too many exactly if 48 operands
are there and it is a number, of which all bytes can be read, `dup` or `random`. Neither is due to
reading, or to what follows an instruction. -/
theorem stack_errors_exact (s : Source) (setup : Setup) (m : Moment s) :
    let operands := m.decoder.operands.toList
    ((∃ session, Run.step s setup m = .ended (.error .stackUnderflow session)) ↔
      ∃ i next calls, m.cursor.readInstruction = .done i next calls ∧
        i.Lacks setup.font operands) ∧
    ((∃ session, Run.step s setup m = .ended (.error .stackOverflow session)) ↔
      operands.length = 48 ∧
        ∃ i next calls, m.cursor.readInstruction = .done i next calls ∧ i.Grows) := by
  intro operands
  -- The calls of the source are noted before an instruction is executed, and leave the operands.
  have hcalls (calls : List Source.Call) :
      (m.decoder.recordCalls calls).operands = m.decoder.operands :=
    Decoder.recordCalls_induction (P := fun e => e.operands = m.decoder.operands) rfl
      (fun _ _ h => h) calls
  constructor
  · rw [Run.step_error_iff rfl]
    constructor
    · rintro ⟨i, _, ⟨next, calls, hread, rfl⟩, h⟩
      rw [Decode.execute_underflow_iff, hcalls] at h
      exact ⟨i, next, calls, hread, h⟩
    · rintro ⟨i, next, calls, hread, h⟩
      refine ⟨i, _, ⟨next, calls, hread, rfl⟩, ?_⟩
      rw [Decode.execute_underflow_iff, hcalls]
      exact h
  · rw [Run.step_error_iff rfl]
    constructor
    · rintro ⟨i, _, ⟨next, calls, hread, rfl⟩, h⟩
      rw [Decode.execute_overflow_iff, hcalls] at h
      exact ⟨h.1, i, next, calls, hread, h.2⟩
    · rintro ⟨hfull, i, next, calls, hread, h⟩
      refine ⟨i, _, ⟨next, calls, hread, rfl⟩, ?_⟩
      rw [Decode.execute_overflow_iff, hcalls]
      exact ⟨hfull, h⟩

end Type1
