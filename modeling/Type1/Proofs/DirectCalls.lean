import Type1.Proofs.Blending
import Type1.Proofs.Calculations
import Type1.Proofs.PushedNumbers

/-!
# Operators that are called as other subroutines

Most other subroutines stand for an operator: a calculation, or `blend` for a fixed number of
values. A call of one and the operator itself do the same in any state, and fail in the same way,
whatever count of arguments the call states.

* `OtherSubr.direct?`: the operator, with the operands that it takes besides those of the call.
* `Decode.perform_direct`: what both do to a state.
* `Status.Takes`: what a step leaves, given what its instruction does (`Moment.takes_operator`,
  `Moment.takes_call`).
* `direct_calls`: the same in a run.
-/

namespace Type1

variable {s : Source} {setup : Setup}

/-- The operator that does what the other subroutine with a selector does, and the operands that it
takes besides. -/
def OtherSubr.direct? : Int → Option (List Number × Operator)
  | 14 => some ([.ofInt 1], .blend)
  | 15 => some ([.ofInt 2], .blend)
  | 16 => some ([.ofInt 3], .blend)
  | 17 => some ([.ofInt 4], .blend)
  | 18 => some ([.ofInt 6], .blend)
  | 20 => some ([], .calculate .add)
  | 21 => some ([], .calculate .sub)
  | 22 => some ([], .calculate .mul)
  | 23 => some ([], .calculate .div)
  | 24 => some ([], .calculate .put)
  | 25 => some ([], .calculate .get)
  | 27 => some ([], .calculate .ifelse)
  | 28 => some ([], .calculate .random)
  | 29 => some ([], .calculate .dup)
  | 30 => some ([], .calculate .exch)
  | _ => none

/-- What stands for an operator is that calculation, or blends the number of values that the
operator takes besides. -/
theorem OtherSubr.direct?_cases {selector : Int} {besides : List Number} {op : Operator}
    (h : direct? selector = some (besides, op)) :
    (Number.ofInt selector).truncate? = some selector ∧
      ((∃ c, ofSelector? selector = some (.calculate c) ∧ besides = [] ∧ op = .calculate c) ∨
        ∃ k count, ofSelector? selector = some (.blend k) ∧ besides = [count] ∧
          count.toIndex? = some k ∧ op = .blend) := by
  unfold direct? at h
  split at h <;> cases h <;> refine ⟨by decide +kernel, ?_⟩ <;>
    first
    | exact .inl ⟨_, rfl, rfl, rfl⟩
    | exact .inr ⟨_, _, rfl, rfl, by decide +kernel, rfl⟩

/-- A count of arguments that the stack has room for is read as it is stated. -/
theorem Number.toIndex?_ofInt {n : Nat} (h : n ≤ Operands.capacity) :
    (Number.ofInt n).toIndex? = some n := by
  have hall : ∀ k : Fin 49, (Number.ofInt (k : Nat)).toIndex? = some (k : Nat) := by decide +kernel
  exact hall ⟨n, Nat.lt_succ_of_le h⟩

/-! ## States -/

namespace Decode

variable {d : Decoder} {operands : Operands} {n : Nat}

/-- A call that states its count and its selector performs the subroutine in the state below
these. -/
theorem callOtherSubr_stated {selector : Int} {subr : OtherSubr}
    (htop : operands.toList = d.operands.toList ++ [.ofInt n, .ofInt selector])
    (hn : n ≤ d.operands.size)
    (hselector : (Number.ofInt selector).truncate? = some selector)
    (hsubr : OtherSubr.ofSelector? selector = some subr) :
    callOtherSubr setup { d with operands } =
      (require (subr.arity n) >>= fun _ => performOtherSubr setup n subr) d :=
  callOtherSubr_selected (d := { d with operands })
    (Checked.split?_eq (n := 2) htop rfl d.operands.length_le)
    (Number.toIndex?_ofInt (Nat.le_trans hn d.operands.length_le)) hn hselector hsubr

/-- A call and the operator that it stands for do the same. -/
theorem perform_direct {selector : Int} {besides : List Number} {op : Operator}
    (hdirect : OtherSubr.direct? selector = some (besides, op)) (setup : Setup) (d : Decoder) :
    ∃ x : Decode Unit,
      (∀ n operands, n ≤ d.operands.size →
        operands.toList = d.operands.toList ++ [Number.ofInt n, Number.ofInt selector] →
        perform setup .callothersubr { d with operands } =
          (x >>= fun _ => pure .next : Decode Control) d) ∧
      ∀ operands, operands.toList = d.operands.toList ++ besides →
        perform setup op { d with operands } =
          (x >>= fun _ => pure .next : Decode Control) d := by
  obtain ⟨hselector, ⟨c, hsubr, rfl, rfl⟩ | ⟨k, count, hsubr, rfl, hcount, rfl⟩⟩ :=
    OtherSubr.direct?_cases hdirect
  · refine ⟨calculate c, fun n operands hn htop => ?_, fun operands htop => ?_⟩
    · refine bind_congr_left ((callOtherSubr_stated htop hn hselector hsubr).trans ?_)
      exact (needs_calculate c).require_run d
    · rw [List.append_nil] at htop
      rw [Decoder.setOperands_self (Operands.ext htop).symm]
      rfl
  · refine ⟨blend setup k, fun n operands hn htop => ?_, fun operands htop => ?_⟩
    · refine bind_congr_left ((callOtherSubr_stated htop hn hselector hsubr).trans ?_)
      exact bind_run (require_run (Nat.zero_le _))
    · exact perform_blend htop hcount

end Decode

/-! ## Steps -/

/-- A run goes on at the level of these frames, or it fails, as an instruction says; up to what is
no element in the history. -/
inductive Status.Takes (frames : List Frame) :
    Status s → EStateM.Result Error Decoder Control → Prop where
  | next {m : Moment s} {d : Decoder} (hframes : m.frames = frames)
      (h : m.decoder.Agree Event.isElement d) : Takes frames (.running m) (.ok .next d)
  | error {x : Error} {session : Session} {d : Decoder}
      (h : session.decoder.Agree Event.isElement d) :
      Takes frames (.ended (.error x session)) (.error x d)

/-- Two runs go on at the same level, or fail with the same error, in states that differ in what is
no element in the history alone. -/
inductive Status.Agree {s' : Source} : Status s → Status s' → Prop where
  | running {m : Moment s} {m' : Moment s'} (hframes : m.frames = m'.frames)
      (h : m.decoder.Agree Event.isElement m'.decoder) : Agree (.running m) (.running m')
  | error {x : Error} {session session' : Session}
      (h : session.decoder.Agree Event.isElement session'.decoder) :
      Agree (.ended (.error x session)) (.ended (.error x session'))

theorem Status.Takes.agree {s' : Source} {frames : List Frame} {x : Status s} {y : Status s'}
    {r : EStateM.Result Error Decoder Control} (hx : x.Takes frames r) (hy : y.Takes frames r) :
    x.Agree y := by
  cases hx with
  | next hframes h =>
    cases hy with
    | next hframes' h' => exact .running (hframes.trans hframes'.symm) (h.trans h'.symm)
  | error h =>
    cases hy with
    | error h' => exact .error (h.trans h'.symm)

theorem Status.Agree.given {s' : Source} {x : Status s} {y : Status s'} (h : x.Agree y)
    (settings : Settings) (takes : Capabilities) :
    Run.given settings takes x = Run.given settings takes y := by
  cases h with
  | running hframes h => exact Decoder.given_of_elements h.elements
  | error h => exact Decoder.given_of_elements h.elements

/-- Instructions that are read next lead to where the ones after them are. -/
theorem Cursor.Spells.reads {c : Cursor s} {program later : List Instruction}
    (h : c.Spells (program ++ later)) : ∃ last, c.Reads program last ∧ last.Spells later := by
  induction program generalizing c with
  | nil => exact ⟨c, .nil c, h⟩
  | cons i program ih =>
    cases h with
    | cons hread h =>
      obtain ⟨last, hreads, hlater⟩ := ih h
      exact ⟨last, .cons hread hreads, hlater⟩

/-- What an operator does to a state, a step does that executes it there. -/
theorem Moment.takes_operator {m : Moment s} {op : Operator} {next : Cursor s}
    {calls : List Source.Call} {d c : Decoder} {x : Decode Unit}
    (hread : m.cursor.readInstruction = .done (.operator op) next calls)
    (hm : m.decoder.Agree Event.isElement d)
    (hx : Decode.perform setup op d = (x >>= fun _ => pure .next : Decode Control) c) :
    (Run.step s setup m).Takes m.frames
      ((x >>= fun _ => pure .next : Decode Control) c) := by
  let begun := (m.decoder.recordCalls calls).record
    (.began op (m.decoder.recordCalls calls).operands.toList)
  have hbegun : begun.Agree Event.isElement d := (hm.recordCalls (fun _ => rfl) calls).record rfl
  have hexecute : Decode.execute setup (.operator op) (m.decoder.recordCalls calls) =
    Decode.perform setup op begun := rfl
  -- The histories differ, but an operator does not read the history.
  have hagree := hbegun.run (Decode.blind_perform setup op)
  rw [hx, ← hexecute] at hagree
  generalize hrest : Decode.execute setup (.operator op) (m.decoder.recordCalls calls) = r
    at hagree
  rcases Decode.bind_cases x (fun _ => pure .next : Unit → Decode Control) c with
    ⟨y, e, -, hbind⟩ | ⟨_, e, -, hbind⟩ <;> rw [hbind] at hagree ⊢
  · cases hagree with
    | error h =>
      simp only [Run.step, Run.stepWith, hread, hrest]
      exact .error h
  · cases hagree with
    | ok h =>
      rw [Run.step_of_next hread hrest]
      exact .next rfl h

/-- A run finds the operands of an operator that are stated before it. -/
theorem Moment.takes_call {m : Moment s} {op : Operator} {values : List Number} {d : Decoder}
    {x : Decode Unit} (hm : m.decoder.Agree Event.isElement d)
    (hspells : m.cursor.Spells (op.call values)) (operands : Operands)
    (htop : operands.toList = d.operands.toList ++ values)
    (hx : Decode.perform setup op { d with operands } =
      (x >>= fun _ => pure .next : Decode Control) d) :
    (m.run setup (op.call values).length).Takes m.frames
      ((x >>= fun _ => pure .next : Decode Control) d) := by
  have hroom : m.decoder.operands.size + values.length ≤ Operands.capacity := by
    have hsame : m.decoder.operands = d.operands := congrArg (·.operands) hm.1
    have hcapacity := operands.length_le
    rwa [htop, List.length_append, ← hsame] at hcapacity
  have hlength : (op.call values).length = values.length + 1 := by
    rw [Operator.call, List.length_append, List.length_map, List.length_singleton]
  obtain ⟨last, hreads, hlater⟩ := hspells.reads
  obtain ⟨l, hrun, rfl, hpushes⟩ := Moment.run_numbers setup hreads hroom
  rw [hlength, Moment.run_succ hrun, ← hpushes.frames]
  cases hlater with
  | cons hread _ => exact Moment.takes_operator hread (hpushes.agree hm htop) hx

/-- At any moment with at most 46 operands, a call of an other subroutine that stands for an
operator comes to what the operator comes to at a moment of the same level and with the same state,
be the bytes others: both go on there, in states that are the same, or both fail with the same
error. They differ in what is no element in the history alone, so a receiver is given the same. All
this is so with any count of arguments that are there. -/
theorem direct_calls (setup : Setup) {s s' : Source} (m : Moment s) (m' : Moment s')
    (hframes : m.frames = m'.frames) (hdecoder : m.decoder.Agree Event.isElement m'.decoder)
    (hroom : m.decoder.operands.size ≤ 46) (n : Nat) (hn : n ≤ m.decoder.operands.size)
    (selector : Int) (besides : List Number) (op : Operator)
    (hdirect : OtherSubr.direct? selector = some (besides, op))
    (hcall : m.cursor.Spells (Operator.callothersubr.call [.ofInt n, .ofInt selector]))
    (hoperator : m'.cursor.Spells (op.call besides)) :
    let called := m.run setup 3
    let performed := m'.run setup (op.call besides).length
    called.Agree performed ∧
      ∀ settings takes, Run.given settings takes called = Run.given settings takes performed := by
  intro called performed
  obtain ⟨x, hcalled, hperformed⟩ := Decode.perform_direct hdirect setup m.decoder
  have hbesides : besides.length ≤ 1 := by
    obtain ⟨-, ⟨_, -, rfl, -⟩ | ⟨_, _, -, rfl, -⟩⟩ := OtherSubr.direct?_cases hdirect
    · exact Nat.zero_le 1
    · exact Nat.le_refl 1
  -- A call adds two numbers to the operands, and the operator finds one more at most.
  have hfits (values : List Number) (hlength : values.length ≤ 2) :
      (m.decoder.operands.toList ++ values).length ≤ Operands.capacity := by
    rw [List.length_append]
    exact Nat.add_le_add hroom hlength
  have hcalled := Moment.takes_call (.refl _) hcall
    ⟨_, hfits [.ofInt n, .ofInt selector] (Nat.le_refl 2)⟩ rfl (hcalled n _ hn rfl)
  have hperformed := Moment.takes_call hdecoder.symm hoperator
    ⟨_, hfits besides (Nat.le_succ_of_le hbesides)⟩ rfl (hperformed _ rfl)
  rw [← hframes] at hperformed
  have hagree : called.Agree performed := Status.Takes.agree hcalled hperformed
  exact ⟨hagree, hagree.given⟩

/-- A quotient by `6 3 1 23 callothersubr` and by `6 3 div`. The count of arguments is one short. -/
theorem direct_calls_div :
    let run := Run.after (.memory [145, 142, 140, 162, 12, 16] none) (.of {} {} {}) 0 {}
    let run' := Run.after (.memory [145, 142, 12, 12] none) (.of {} {} {}) 0 {}
    (run 5).Agree (run' 3) ∧ (run 5).moment?.map (·.decoder.operands.toList) = some [2] := by
  intro run run'
  let stated : Decoder := { Decoder.start {} with operands := ⟨[6, 3], (by decide : 2 ≤ 48)⟩ }
  let call := Operator.callothersubr.call [.ofInt 1, .ofInt 23]
  let division := (Operator.calculate .div).call []
  obtain ⟨m, hm, hstate⟩ := Option.map_eq_some_iff.1 (by decide +kernel :
    (run 2).moment?.map (fun m => (m.frames, { m.decoder with history := #[] },
      m.decoder.history.toList.filter Event.isElement, decide (m.cursor.Spells call))) =
    some ([], stated, [], true))
  obtain ⟨m', hm', hstate'⟩ := Option.map_eq_some_iff.1 (by decide +kernel :
    (run' 2).moment?.map (fun m => (m.frames, { m.decoder with history := #[] },
      m.decoder.history.toList.filter Event.isElement, decide (m.cursor.Spells division))) =
    some ([], stated, [], true))
  simp only [Prod.mk.injEq, decide_eq_true_eq] at hstate hstate'
  obtain ⟨hframes, hdecoder, hkept, hcall⟩ := hstate
  obtain ⟨hframes', hdecoder', hkept', hdivision⟩ := hstate'
  have hoperands : m.decoder.operands = stated.operands := congrArg (·.operands) hdecoder
  obtain ⟨hagree, -⟩ := direct_calls (.of {} {} {}) m m' (hframes.trans hframes'.symm)
    ⟨hdecoder.trans hdecoder'.symm, hkept.trans hkept'.symm⟩ (by rw [hoperands]; decide) 1
    (by rw [hoperands]; decide) 23 [] (.calculate .div) rfl hcall hdivision
  rw [Moment.run_eq_after (Status.eq_running_of_moment? hm),
    Moment.run_eq_after (Status.eq_running_of_moment? hm')] at hagree
  exact ⟨hagree, by decide +kernel⟩

end Type1
