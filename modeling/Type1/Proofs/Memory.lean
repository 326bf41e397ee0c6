import Type1.Proofs.Changes

/-!
# What leaves the memory alone

The memory of a glyph program is its storage and the mark that values were blended. Few operators
change it: those that write cells or a register, and those that blend.

* `Decode.KeepsMemory`: a computation leaves the memory as it is, whatever comes of it.
* `Decode.execute_memory`: the instructions that leave the memory as it is.
-/

namespace Type1

/-- The storage, and whether values were blended. -/
def Decoder.memory (d : Decoder) : Storage × Bool := (d.storage, d.blended)

/-- States that are the same, with a certain memory. -/
def SameMemory (memory : Storage × Bool) (d e : Decoder) : Prop := d = e ∧ d.memory = memory

/-- Whether the calculation writes cells or a register. -/
def Calculation.writes : Calculation → Bool
  | put | store | load => true
  | _ => false

/-- Whether the other subroutine blends, or writes cells. -/
def OtherSubr.remembers : OtherSubr → Bool
  | blend _ | storeWeights => true
  | calculate op => op.writes
  | _ => false

/-- Whether the operator blends, or writes cells or a register by itself. -/
def Operator.remembers : Operator → Bool
  | blend => true
  | calculate op => op.writes
  | _ => false

variable {setup : Setup} {memory : Storage × Bool} {d : Decoder}

theorem kept_memory : Kept setup fun d => d.memory = memory where
  setOperands h _ := h
  closed h := h
  note h _ := h
  report h _ _ := h
  setPoint h _ := h
  opened h := h
  placeAccent {d} h := by
    obtain ⟨_, _, hplaced⟩ := d.placeAccent_eq
    rw [hplaced]
    exact h
  renewHints h := h
  hintStem {d} h kind position extent := by
    obtain ⟨_, _, _, _, hstem⟩ := d.hintStem_eq setup kind position extent
    rw [hstem]
    exact h
  setFlex h _ := h

theorem drawing_memory : Drawing setup (SameMemory memory) := kept_memory.drawing

theorem congruence_memory : Congruence (SameMemory memory) :=
  (drawing_memory : Drawing { font := {} } (SameMemory memory)).toCongruence

theorem counting_memory : Counting setup (SameMemory memory) where
  counters := by rintro d _ ⟨rfl, -⟩; rfl
  setCounters := by rintro d _ ⟨rfl, h⟩ _; exact ⟨rfl, h⟩
  openGroup := by rintro d _ ⟨rfl, h⟩; exact ⟨rfl, h⟩
  stemOrigin := by rintro d _ ⟨rfl, -⟩; rfl
  counterStem := by rintro d _ ⟨rfl, h⟩ _ _ _; exact ⟨rfl, h⟩

namespace Decode

variable {α β : Type}

/-! ## Computations -/

/-- The computation leaves the memory as it is, whatever comes of it. -/
def KeepsMemory (x : Decode α) : Prop := ∀ d, (final (x d)).memory = d.memory

theorem memory_of_related {x : Decode α} (hd : d.memory = memory)
    (h : Related (SameMemory memory) (SameMemory memory) (x d) (x d)) :
    (final (x d)).memory = d.memory := by
  generalize x d = r at h
  cases h with
  | ok h => exact h.2.trans hd.symm
  | error h => exact h.2.trans hd.symm

theorem related_of_memory {x : Decode α} (h : (final (x d)).memory = memory) :
    Related (SameMemory memory) (SameMemory memory) (x d) (x d) := by
  generalize x d = r at h
  cases r with
  | ok v e => exact .ok ⟨rfl, h⟩
  | error y e => exact .error ⟨rfl, h⟩

theorem KeepsMemory.of_relates {x : Decode α}
    (h : ∀ memory, Relates (SameMemory memory) (SameMemory memory) x x) : KeepsMemory x :=
  fun d => memory_of_related rfl (h d.memory d d ⟨rfl, rfl⟩)

theorem KeepsMemory.relates {x : Decode α} (h : KeepsMemory x) :
    Relates (SameMemory memory) (SameMemory memory) x x := by
  rintro d _ ⟨rfl, hd⟩
  exact related_of_memory ((h d).trans hd)

theorem KeepsMemory.bind {x : Decode α} {k : α → Decode β} (hx : KeepsMemory x)
    (hk : ∀ v, KeepsMemory (k v)) : KeepsMemory (x >>= k) :=
  .of_relates fun _ => hx.relates.bind fun v => (hk v).relates

theorem keepsMemory_get_bind {k : Decoder → Decode β} (hk : ∀ d, KeepsMemory (k d)) :
    KeepsMemory (get >>= k) :=
  fun d => hk d d

theorem keepsMemory_pure (v : α) : KeepsMemory (pure v) := fun _ => rfl

theorem keepsMemory_orFail (y : Error) (o : Option α) : KeepsMemory (orFail y o) :=
  .of_relates fun _ => relates_orFail y o

theorem keepsMemory_pushAll (values : List Number) : KeepsMemory (pushAll values) :=
  .of_relates fun _ => relates_pushAll congruence_memory values

/-! ## Calculations and other subroutines -/

theorem keepsMemory_setSeed (seed : UInt32) :
    KeepsMemory (modify fun d => { d with seed } : Decode Unit) :=
  fun _ => rfl

/-- Drawing a random number changes the seed alone. -/
theorem keepsMemory_calculate {op : Calculation} (h : op.writes = false) :
    KeepsMemory (calculate op) := by
  by_cases hrandom : op = .random
  · subst hrandom
    exact keepsMemory_get_bind fun _ => (keepsMemory_setSeed _).bind fun _ =>
      keepsMemory_pushAll _
  · refine .of_relates fun _ => relates_calculate congruence_memory fun hstores => ?_
    cases op with
    | random => exact absurd rfl hrandom
    | put | store | load => cases h
    | _ => cases hstores

theorem keepsMemory_performOtherSubr (setup : Setup) (n : Nat) {subr : OtherSubr}
    (h : subr.remembers = false) : KeepsMemory (performOtherSubr setup n subr) := by
  cases subr with
  | calculate op => exact keepsMemory_calculate h
  | blend k => cases h
  | storeWeights => cases h
  | _ =>
    exact .of_relates fun _ => relates_performOtherSubr drawing_memory n
      (fun _ _ => counting_memory) nofun

/-- A call that neither blends nor writes cells. -/
theorem memory_callOtherSubr (setup : Setup)
    (h : ∀ subr, OtherSubr.selected? d.operands.toList = some subr → subr.remembers = false) :
    (final (callOtherSubr setup d)).memory = d.memory := by
  rcases callOtherSubr_called setup d with ⟨subr, below, n, hcalled⟩ | ⟨x, e, below, hx, he⟩
  · rw [callOtherSubr_of_called hcalled]
    exact keepsMemory_performOtherSubr setup n (h subr hcalled.selected) _
  · rw [hx]
    rcases he with rfl | ⟨n, rfl⟩ <;> rfl

/-! ## Instructions -/

theorem keepsMemory_metrics (bearing : Point) (advance : Number) :
    KeepsMemory (metrics setup bearing advance) := by
  intro d
  rw [metrics, modify_bind_run, get_bind_run]
  cases hpart : d.part with
  | base b => rfl
  | accent b shift placed => rfl
  | glyph =>
    dsimp only
    rw [get_bind_run]
    cases hwidth : d.width with
    | some w => rfl
    | none =>
      cases setup.widthOnly with
      | true => rfl
      | false => rfl

theorem keepsMemory_record (event : Event) : KeepsMemory (modify (·.record event) : Decode Unit) :=
  fun _ => rfl

theorem keepsMemory_setComponents (components : Option Components) :
    KeepsMemory (modify fun d => { d with components } : Decode Unit) :=
  fun _ => rfl

theorem keepsMemory_lookUp (glyphs : UInt8 → Option Nat) (code : UInt8) :
    KeepsMemory (lookUp glyphs code) :=
  (keepsMemory_record _).bind fun _ => keepsMemory_orFail _ _

theorem keepsMemory_accented (v : Vector Number 5) : KeepsMemory (accented setup v) := by
  refine (keepsMemory_orFail _ _).bind fun base => (keepsMemory_orFail _ _).bind fun accent =>
    keepsMemory_get_bind fun d => ?_
  cases d.part with
  | base | accent => exact fun _ => rfl
  | glyph =>
    refine (keepsMemory_setComponents _).bind fun _ => ?_
    dsimp only
    split
    · exact (keepsMemory_record _).bind fun _ => keepsMemory_pure _
    · exact (keepsMemory_orFail _ _).bind fun glyphs => (keepsMemory_lookUp glyphs base).bind
        fun _ => (keepsMemory_lookUp glyphs accent).bind fun _ => keepsMemory_pure _

/-- An operator that neither blends nor writes cells or a register. -/
theorem memory_perform {op : Operator} (hop : op.remembers = false)
    (hcall : op = .callothersubr → ∀ subr, OtherSubr.selected? d.operands.toList = some subr →
      subr.remembers = false) :
    (final (perform setup op d)).memory = d.memory := by
  have others (hstores : op.stores = false) :
      (final (perform setup op d)).memory = d.memory := by
    refine memory_of_related rfl (related_perform drawing_memory (fun _ _ h => h)
      (fun h => absurd (hstores.symm.trans h) nofun)
      (fun _ bearing advance => (keepsMemory_metrics bearing advance).relates)
      (fun _ v => (keepsMemory_accented v).relates) (fun h => ?_) ⟨rfl, rfl⟩)
    exact related_of_memory (memory_callOtherSubr setup (hcall h))
  cases op with
  | blend => cases hop
  | calculate op => exact ((keepsMemory_calculate hop).bind fun _ => keepsMemory_pure _) d
  | _ => exact others rfl

theorem memory_begin (i : Instruction) (d : Decoder) : (i.begin d).memory = d.memory := by
  cases i <;> rfl

/-- An instruction that neither blends nor writes cells or a register leaves the memory as it is,
whatever comes of it. -/
theorem execute_memory (setup : Setup) {i : Instruction}
    (hop : ∀ op, i = .operator op → op.remembers = false)
    (hcall : i = .operator .callothersubr → ∀ subr,
      OtherSubr.selected? d.operands.toList = some subr → subr.remembers = false) :
    (final (execute setup i d)).memory = d.memory := by
  cases i with
  | number value => exact ((keepsMemory_pushAll _).bind fun _ => keepsMemory_pure _) d
  | reserved byte => rfl
  | operator op =>
    exact memory_perform (d := d.record (.began op d.operands.toList)) (hop op rfl)
      fun h => hcall (h ▸ rfl)

end Decode

end Type1
