import Type1.Proofs.Programs

/-!
# Instructions that calculate

Numbers, calculations and blending work on the operands, the storage, the seed and the mark of
blending. Whatever else a state has makes no difference to them, and stays as it is. So what a
program of such instructions comes to is a function of a `Workspace`.

* `Workspace.calculate?`, `Workspace.calculateAll?`: what an instruction and a program make of a
  workspace. Numbers alone are put on the operand stack (`Workspace.calculateAll?_numbers`).
* `Decode.execute_calculate`: what such an instruction does to a state.
* `Decoder.leads_calculateAll`, `Decoder.leads_call`: what a run comes to by a program that
  calculates, and by an operator behind it, which finds the operands that were calculated.
-/

namespace Type1

variable {setup : Setup}

/-! ## What calculates -/

/-- Whether an other subroutine stands for a calculation. -/
def OtherSubr.calculates : OtherSubr → Bool
  | blend _ | storeWeights | calculate _ => true
  | _ => false

/-- Whether an operator is a calculation, or calls an other subroutine that stands for one, given
its operands. -/
def Operator.calculates (operands : Operands) : Operator → Bool
  | calculate _ | blend | pop => true
  | callothersubr => (OtherSubr.selected? operands.toList).any OtherSubr.calculates
  | _ => false

/-- Whether an instruction puts a number on the operand stack or calculates, given the operands. -/
def Instruction.calculates (operands : Operands) : Instruction → Bool
  | number _ => true
  | operator op => op.calculates operands
  | reserved _ => false

/-- The state with another workspace. -/
def Decoder.withWorkspace (w : Workspace) (d : Decoder) : Decoder :=
  { d with operands := w.operands, storage := w.storage, seed := w.seed, blended := w.blended }

namespace Workspace

variable (setup) in
/-- What an instruction that calculates makes of a workspace, if it succeeds. -/
def calculate? (w : Workspace) (i : Instruction) : Option Workspace :=
  if i.calculates w.operands then
    match Decode.execute setup i ((Decoder.start setup.font).withWorkspace w) with
    | .ok .next d => some d.workspace
    | _ => none
  else
    none

variable (setup) in
/-- What a program that calculates makes of a workspace, if it succeeds. -/
def calculateAll? (w : Workspace) (program : List Instruction) : Option Workspace :=
  program.foldlM (calculate? setup) w

variable {w w' : Workspace} {i : Instruction} {program later : List Instruction}

theorem calculate?_of_execute {d : Decoder} (hi : i.calculates w.operands)
    (hx : Decode.execute setup i ((Decoder.start setup.font).withWorkspace w) = .ok .next d) :
    w.calculate? setup i = some d.workspace := by
  rw [calculate?, if_pos hi, hx]

theorem calculateAll?_cons :
    w.calculateAll? setup (i :: later) =
      (w.calculate? setup i).bind (calculateAll? setup · later) :=
  List.foldlM_cons

theorem calculateAll?_append :
    w.calculateAll? setup (program ++ later) =
      (w.calculateAll? setup program).bind (calculateAll? setup · later) :=
  List.foldlM_append

/-- Numbers are put on the operand stack, as there is room for them. -/
theorem calculateAll?_numbers {values : List Number} {operands : Operands}
    (h : operands.toList = w.operands.toList ++ values) :
    w.calculateAll? setup (values.map .number) = some { w with operands } := by
  induction values generalizing w with
  | nil =>
    rw [List.append_nil] at h
    obtain rfl := Operands.ext h
    rfl
  | cons v values ih =>
    have hroom : (w.operands.toList ++ [v]).length ≤ Operands.capacity := by
      have hle := operands.length_le
      rw [h] at hle
      simp only [List.length_append, List.length_cons, List.length_nil] at hle ⊢
      omega
    let pushed : Workspace := { w with operands := ⟨w.operands.toList ++ [v], hroom⟩ }
    have hpush : w.calculate? setup (.number v) = some pushed := by
      let d := (Decoder.start setup.font).withWorkspace w
      have happend : d.operands.append? [v] = some pushed.operands := by
        rw [List.length_append] at hroom
        exact dif_pos hroom
      have hexecute : Decode.execute setup (.number v) d =
          .ok .next { d with operands := pushed.operands } :=
        Decode.bind_run (Decode.pushAll_run happend)
      exact calculate?_of_execute rfl hexecute
    rw [List.map_cons, calculateAll?_cons, hpush]
    exact ih (w := pushed) (h.trans (List.append_cons ..))

end Workspace

/-! ## What a calculation does to a state -/

namespace Decoder

/-- A state that differs from `d` in the workspace alone, which is that of another state, and in
what is no element in the history. -/
def Besides (d c e : Decoder) : Prop := e.Agree Event.isElement (d.withWorkspace c.workspace)

theorem congruence_besides (d : Decoder) : Congruence d.Besides where
  workspace h := (congrArg workspace h.1).symm
  setOperands h operands := h.map (f := ({ · with operands })) fun _ _ => rfl
  note h _ := h.record rfl

theorem storing_besides (d : Decoder) : Storing d.Besides where
  setStorage h storage := h.map (f := ({ · with storage })) fun _ _ => rfl
  setSeed h seed := h.map (f := ({ · with seed })) fun _ _ => rfl
  blended h := h.map (f := ({ · with blended := true })) fun _ _ => rfl

end Decoder

namespace Decode

variable {d c e : Decoder} {i : Instruction} {op : Operator} {w w' : Workspace}

theorem related_perform_calculates (hop : op.calculates c.operands) (h : d.Besides c e) :
    Related d.Besides d.Besides (perform setup op c) (perform setup op e) := by
  have hcong := d.congruence_besides
  have hs := d.storing_besides
  cases op with
  | calculate | blend | pop =>
    refine (?_ : Relates d.Besides d.Besides _ _) c e h
    exact relates_silent hcong rfl nofun (fun _ => hs) nofun
  | callothersubr =>
    have hcall : Related d.Besides d.Besides (callOtherSubr setup c) (callOtherSubr setup e) := by
      refine related_callOtherSubr hcong (fun _ _ he => he) h fun n subr hsubr => ?_
      have hcalculates : subr.calculates := by
        rwa [Operator.calculates, hsubr] at hop
      cases subr with
      | blend k => exact relates_blend hcong hs setup k
      | storeWeights => exact relates_storeWeights hcong hs setup
      | calculate op => exact relates_calculate hcong fun _ => hs
      | _ => cases hcalculates
    exact hcall.bind fun _ c e _ he => relates_pure _ c e he
  | _ => cases hop

/-- What calculates does the same in all states with one workspace, and changes nothing else. -/
theorem related_execute_calculates (hi : i.calculates c.operands) (h : d.Besides c e) :
    Related d.Besides d.Besides (execute setup i c) (execute setup i e) := by
  cases i with
  | number v =>
    exact ((relates_push d.congruence_besides v).bind fun _ => relates_pure _) c e h
  | operator op =>
    have hop : op.calculates c.operands := hi
    exact related_perform_calculates hop (h.record rfl)
  | reserved byte => cases hi

/-- An instruction makes of a state what it makes of its workspace. -/
theorem execute_calculate (h : d.workspace.calculate? setup i = some w) :
    ∃ e, execute setup i d = .ok .next e ∧ e.Agree Event.isElement (d.withWorkspace w) := by
  let blank := (Decoder.start setup.font).withWorkspace d.workspace
  unfold Workspace.calculate? at h
  split at h
  · next hi =>
    have hrelated : Related d.Besides d.Besides (execute setup i blank) (execute setup i d) :=
      related_execute_calculates hi (.refl d)
    revert hrelated
    split at h
    · next c hx =>
      cases h
      rw [hx]
      generalize execute setup i d = o
      rintro (he | -)
      exact ⟨_, rfl, he⟩
    · cases h
  · cases h

end Decode

/-! ## Calculations in a run -/

namespace Decoder

variable {d e : Decoder} {i : Instruction} {op : Operator} {program : List Instruction}
  {w : Workspace} {x : Error} {P : Decoder → Prop}

theorem leads_calculate (h : d.workspace.calculate? setup i = some w) :
    d.Leads setup [i] (d.withWorkspace w) := by
  obtain ⟨e, hx, he⟩ := Decode.execute_calculate h
  exact (leads_execute hx).of_agree he

/-- By a program that calculates, a run comes to the state with the workspace that was
calculated. -/
theorem leads_calculateAll (h : d.workspace.calculateAll? setup program = some w) :
    d.Leads setup program (d.withWorkspace w) := by
  induction program generalizing d with
  | nil =>
    cases h
    exact .refl setup d
  | cons i later ih =>
    rw [Workspace.calculateAll?_cons] at h
    obtain ⟨w₁, hfirst, hlater⟩ := Option.bind_eq_some_iff.1 h
    exact (leads_calculate hfirst).trans (ih (d := d.withWorkspace w₁) hlater)

/-- What does not depend on the workspace is kept all the way. -/
theorem keeps_calculateAll (hP : ∀ w, P (d.withWorkspace w))
    (h : d.workspace.calculateAll? setup program = some w) : d.Keeps setup P program := by
  induction program generalizing d with
  | nil =>
    intro n _
    rw [List.take_nil]
    exact ⟨d, .refl setup d, hP d.workspace⟩
  | cons i later ih =>
    rw [Workspace.calculateAll?_cons] at h
    obtain ⟨w₁, hfirst, hlater⟩ := Option.bind_eq_some_iff.1 h
    intro n hn
    cases n with
    | zero => exact ⟨d, .refl setup d, hP d.workspace⟩
    | succ n =>
      obtain ⟨e, hleads, he⟩ :=
        ih (d := d.withWorkspace w₁) hP hlater n (Nat.le_of_succ_le_succ hn)
      exact ⟨e, (leads_calculate hfirst).trans hleads, he⟩

/-- A state has the operands that it has. -/
theorem setOperands_self {operands : Operands} (h : d.operands = operands) :
    { d with operands } = d := by
  rw [← h]

/-- An operator finds the operands that were calculated before it. -/
theorem leads_call (hw : d.workspace.calculateAll? setup program = some w)
    (h : Decode.perform setup op (d.withWorkspace w) = .ok .next e) :
    d.Leads setup (program ++ [.operator op]) e :=
  (leads_calculateAll hw).trans (leads_operator h)

theorem refuses_call (hw : d.workspace.calculateAll? setup program = some w)
    (h : Decode.perform setup op (d.withWorkspace w) = .error x e)
    (helements : e.elements = d.elements) :
    d.Refuses setup (program ++ [.operator op]) x :=
  .after (leads_calculateAll hw) rfl (refuses_operator h helements)

theorem keeps_call (hP : ∀ w, P (d.withWorkspace w))
    (hw : d.workspace.calculateAll? setup program = some w)
    (h : Decode.perform setup op (d.withWorkspace w) = .ok .next e) (he : P e) :
    d.Keeps setup P (program ++ [.operator op]) := by
  refine (keeps_calculateAll hP hw).append (leads_calculateAll hw) fun n hn => ?_
  cases n with
  | zero => exact ⟨_, .refl setup _, hP w⟩
  | succ n =>
    rw [List.take_of_length_le (Nat.succ_le_succ (Nat.zero_le n))]
    exact ⟨e, leads_operator h, he⟩

end Decoder

/-- An operator after its operands. -/
def Operator.call (operands : List Number) (op : Operator) : List Instruction :=
  operands.map .number ++ [.operator op]

end Type1
