import Type1.Proofs.Changes

/-!
# Why instructions and readings fail

An instruction fails for what its program has: its operands, its numbers, the font that it is for.
A reading fails as the source gives no bytes. That there are too many levels is found out between
them only.

* `Error.isOfProgram`: the errors that are due to what the program has.
* `Decode.Blames`: a computation that fails, if at all, with such an error. So it is with
  instructions (`Decode.blames_execute`).
* `Reading.BlamesSource`: a reading that fails, if at all, with an error of the source. So it is
  with opening at an offset (`Cursor.openAt_blames`) and with the next instruction
  (`Cursor.readInstruction_blames`).
-/

namespace Type1

/-- Whether the error is due to what the program has. -/
def Error.isOfProgram : Error → Bool
  | streamRead | streamSeek | subrDepth | badLenIv => false
  | _ => true

namespace Decode

variable {α β : Type}

/-- A computation that fails does so for what the program has. -/
def Blames (x : Decode α) : Prop := ∀ d y e, x d = .error y e → y.isOfProgram = true

section Rules

theorem blames_pure (v : α) : Blames (pure v) := fun _ _ _ h => by cases h

theorem blames_throw {y : Error} (hy : y.isOfProgram = true) : Blames (throw y : Decode α) := by
  intro d z e h
  cases h
  exact hy

/-- Of two computations, the one that fails does so for what the program has. -/
theorem Blames.bind {x : Decode α} {k : α → Decode β} (hx : Blames x) (hk : ∀ v, Blames (k v)) :
    Blames (x >>= k) := by
  intro d y e h
  rcases bind_cases x k d with ⟨z, c, hz, hbind⟩ | ⟨v, c, -, hbind⟩
  · rw [hbind] at h
    cases h
    exact hx d y e hz
  · rw [hbind] at h
    exact hk v c y e h

theorem blames_get_bind {k : Decoder → Decode β} (hk : ∀ d, Blames (k d)) :
    Blames (get >>= k) :=
  fun d => hk d d

theorem blames_modify (f : Decoder → Decoder) : Blames (modify f) := fun _ _ _ h => by cases h

theorem blames_orFail {y : Error} (hy : y.isOfProgram = true) (o : Option α) :
    Blames (orFail y o) := by
  cases o with
  | none => exact blames_throw hy
  | some v => exact blames_pure v

theorem blames_ite {p : Prop} [Decidable p] {x y : Decode α} (hx : Blames x) (hy : Blames y) :
    Blames (if p then x else y) := by
  split
  · exact hx
  · exact hy

theorem blames_refuse (n : Note) {y : Error} (hy : y.isOfProgram = true) :
    Blames (refuse n y : Decode α) :=
  (blames_modify _).bind fun _ => blames_throw hy

end Rules

/-! ## The operand stack and the calculations -/

theorem blames_require (n : Nat) : Blames (require n) :=
  blames_get_bind fun _ => blames_ite (blames_throw rfl) (blames_pure _)

theorem blames_pushAll (values : List Number) : Blames (pushAll values) :=
  blames_get_bind fun _ => (blames_orFail rfl _).bind fun _ => blames_modify _

theorem blames_take (n : Nat) : Blames (take n) :=
  blames_get_bind fun _ => (blames_orFail rfl _).bind fun _ => (blames_modify _).bind fun _ =>
    blames_pure _

theorem blames_arguments (n : Nat) : Blames (arguments n) :=
  blames_get_bind fun _ => blames_orFail rfl _

theorem blames_unary (f : Number → Number) : Blames (unary f) :=
  (blames_take 1).bind fun _ => blames_pushAll _

theorem blames_binary (f : Number → Number → Number) : Blames (binary f) :=
  (blames_take 2).bind fun _ => blames_pushAll _

theorem blames_store (v : Vector Number 4) : Blames (store v) :=
  (blames_orFail rfl _).bind fun _ => (blames_orFail rfl _).bind fun _ =>
    (blames_orFail rfl _).bind fun _ => blames_modify _

theorem blames_load (v : Vector Number 3) : Blames (load v) :=
  (blames_orFail rfl _).bind fun _ => (blames_orFail rfl _).bind fun _ =>
    (blames_orFail rfl _).bind fun _ => blames_modify _

theorem blames_calculate (op : Calculation) : Blames (calculate op) := by
  cases op with
  | and | or | eq | add | sub | mul | div => rw [calculate]; exact blames_binary _
  | not | abs | neg => rw [calculate]; exact blames_unary _
  | sqrt =>
    refine (blames_take 1).bind fun v => ?_
    dsimp only
    split
    · exact (blames_throw rfl).bind fun _ => blames_pushAll _
    · exact blames_pushAll _
  | drop => exact (blames_take 1).bind fun _ => blames_pure _
  | dup => exact (blames_take 1).bind fun _ => blames_pushAll _
  | exch => exact (blames_take 2).bind fun _ => blames_pushAll _
  | index =>
    exact (blames_require 2).bind fun _ => (blames_take 1).bind fun _ =>
      (blames_orFail rfl _).bind fun _ => blames_get_bind fun _ => (blames_orFail rfl _).bind
        fun _ => blames_pushAll _
  | roll =>
    exact (blames_take 2).bind fun _ => (blames_orFail rfl _).bind fun _ =>
      (blames_orFail rfl _).bind fun _ => blames_get_bind fun _ =>
        blames_ite ((blames_take _).bind fun _ => blames_pushAll _) (blames_throw rfl)
  | put =>
    exact (blames_take 2).bind fun _ => (blames_orFail rfl _).bind fun _ =>
      blames_ite (blames_modify _) (blames_throw rfl)
  | get =>
    exact (blames_take 1).bind fun _ => (blames_orFail rfl _).bind fun _ => blames_get_bind
      fun _ => (blames_orFail rfl _).bind fun _ => blames_pushAll _
  | ifelse => exact (blames_take 4).bind fun _ => blames_pushAll _
  | random =>
    exact blames_get_bind fun _ => (blames_modify _).bind fun _ => blames_pushAll _
  | store => exact (blames_take 4).bind fun _ => blames_store _
  | load => exact (blames_take 3).bind fun _ => blames_load _

section Operators

variable (setup : Setup)

theorem blames_blend (n : Nat) : Blames (blend setup n) := by
  unfold blend
  dsimp only
  split
  · exact (blames_throw rfl).bind fun _ => (blames_take _).bind fun _ => blames_get_bind fun _ =>
      (blames_pushAll _).bind fun _ => blames_modify _
  · exact (blames_take _).bind fun _ => blames_get_bind fun _ => (blames_pushAll _).bind fun _ =>
      blames_modify _

theorem blames_storeWeights : Blames (storeWeights setup) := by
  unfold storeWeights
  dsimp only
  split
  · exact (blames_throw rfl).bind fun _ => (blames_take 1).bind fun _ =>
      (blames_orFail rfl _).bind fun _ => blames_ite (blames_modify _) (blames_throw rfl)
  · exact (blames_take 1).bind fun _ => (blames_orFail rfl _).bind fun _ =>
      blames_ite (blames_modify _) (blames_throw rfl)

/-! ## Flexes, counter hints and the other subroutines -/

theorem blames_move (delta : Point) : Blames (move delta) :=
  blames_get_bind fun _ => blames_ite (blames_ite (blames_modify _) (blames_throw rfl))
    (blames_modify _)

theorem blames_endFlex (n : Nat) : Blames (endFlex setup n) := by
  refine blames_get_bind fun d => ?_
  dsimp only
  split
  · exact (blames_modify _).bind fun _ => (blames_take 3).bind fun _ => blames_get_bind fun _ =>
      (blames_modify _).bind fun _ => blames_pushAll _
  · exact blames_refuse _ rfl

theorem blames_counterStems (vertical : Bool) (edge : Number) (values : List Number) :
    Blames (counterStems setup vertical edge values) := by
  fun_induction counterStems setup vertical edge values with
  | case1 vertical edge gap width rest near far last next =>
    refine (blames_modify _).bind fun _ => blames_ite ?_ next
    split
    · exact blames_pure _
    · exact (blames_modify _).bind fun _ => blames_get_bind fun e => last e
  | case2 => exact blames_refuse _ rfl

theorem blames_counterHints (n : Nat) (complete : Bool) :
    Blames (counterHints setup n complete) := by
  refine blames_get_bind fun _ => (blames_take n).bind fun v => ?_
  dsimp only
  split
  · exact blames_throw rfl
  · refine (blames_modify _).bind fun _ => blames_ite ?_ (blames_pure _)
    refine (blames_modify _).bind fun _ => ?_
    split
    · exact blames_pure _
    · exact (blames_modify _).bind fun _ => blames_get_bind fun _ => blames_counterStems _ _ _ _

theorem blames_performOtherSubr (n : Nat) (subr : OtherSubr) :
    Blames (performOtherSubr setup n subr) := by
  cases subr with
  | endFlex => exact blames_endFlex setup n
  | startFlex => exact blames_modify _
  | flexPoint => exact blames_pure ()
  | renewHints => exact blames_modify _
  | counterHints complete => exact blames_counterHints setup n complete
  | blend k => exact blames_blend setup k
  | storeWeights => exact blames_storeWeights setup
  | calculate op => exact blames_calculate op

theorem blames_callOtherSubr : Blames (callOtherSubr setup) := by
  refine (blames_take 2).bind fun v => (blames_orFail rfl _).bind fun n =>
    (blames_require n).bind fun _ => (blames_orFail rfl _).bind fun selector => ?_
  split
  · exact (blames_require _).bind fun _ => blames_performOtherSubr setup n _
  · exact blames_refuse _ rfl

/-! ## Operators -/

theorem blames_draw (n : Nat) (f : Vector Number n → Decoder → Decoder) : Blames (draw n f) :=
  (blames_arguments n).bind fun _ => (blames_modify _).bind fun _ => (blames_modify _).bind
    fun _ => blames_pure _

theorem blames_moveWith (n : Nat) (delta : Vector Number n → Point) : Blames (moveWith n delta) :=
  (blames_arguments n).bind fun v => (blames_move (delta v)).bind fun _ => (blames_modify _).bind
    fun _ => blames_pure _

theorem blames_metrics (bearing : Point) (advance : Number) :
    Blames (metrics setup bearing advance) := by
  refine (blames_modify _).bind fun _ => blames_get_bind fun d => ?_
  dsimp only
  split
  · exact (blames_modify _).bind fun _ => blames_pure _
  · exact (blames_modify _).bind fun _ => blames_pure _
  · refine blames_get_bind fun d => ?_
    split
    · exact (blames_modify _).bind fun _ => blames_pure _
    · exact blames_get_bind fun _ => (blames_modify _).bind fun _ =>
        blames_ite (blames_pure _) (blames_pure _)

theorem blames_accented (v : Vector Number 5) : Blames (accented setup v) := by
  have lookUp (glyphs : UInt8 → Option Nat) (code : UInt8) : Blames (lookUp glyphs code) :=
    (blames_modify _).bind fun _ => blames_orFail rfl _
  refine (blames_orFail rfl _).bind fun base => (blames_orFail rfl _).bind fun accent =>
    blames_get_bind fun d => ?_
  dsimp only
  split
  · refine (blames_modify _).bind fun _ => blames_ite ?_ ?_
    · exact (blames_modify _).bind fun _ => blames_pure _
    · exact (blames_orFail rfl _).bind fun glyphs => (lookUp _ _).bind fun _ =>
        (lookUp _ _).bind fun _ => blames_pure _
  · exact blames_refuse _ rfl

theorem blames_perform (op : Operator) : Blames (perform setup op) := by
  cases op with
  | hstem | vstem | hstem3 | vstem3 | rlineto | hlineto | vlineto | rrcurveto | vhcurveto
  | hvcurveto | closepath | setcurrentpoint | dotsection => exact blames_draw _ _
  | rmoveto | hmoveto | vmoveto => exact blames_moveWith _ _
  | hsbw | sbw =>
    exact (blames_arguments _).bind fun _ => (blames_modify _).bind fun _ => blames_metrics _ _ _
  | seac =>
    exact (blames_arguments _).bind fun _ => (blames_modify _).bind fun _ => blames_accented _ _
  | callsubr =>
    exact (blames_take 1).bind fun _ => (blames_orFail rfl _).bind fun _ => blames_pure _
  | returnToCaller => exact blames_pure _
  | endchar => exact (blames_modify _).bind fun _ => blames_pure _
  | blend =>
    exact (blames_take 1).bind fun _ => (blames_orFail rfl _).bind fun n =>
      (blames_blend setup n).bind fun _ => blames_pure _
  | callothersubr => exact (blames_callOtherSubr setup).bind fun _ => blames_pure _
  | pop => exact blames_pure _
  | calculate op => exact (blames_calculate op).bind fun _ => blames_pure _
  | unknown code => exact blames_refuse _ rfl

/-- An instruction fails for what its program has. -/
theorem blames_execute (i : Instruction) : Blames (execute setup i) := by
  cases i with
  | number value => exact (blames_pushAll _).bind fun _ => blames_pure _
  | operator op => exact (blames_modify _).bind fun _ => blames_perform setup op
  | reserved byte => exact blames_refuse _ rfl

end Operators

end Decode

/-! ## Readings -/

/-- Every error with which the reading may fail is one of the source. -/
def Reading.BlamesSource {s : Source} {α : Type} (r : Reading s α) : Prop :=
  match r with
  | .done .. => True
  | .failed y _ _ => y = .streamRead ∨ y = .streamSeek

namespace Reading.BlamesSource

variable {s : Source} {α β : Type} {r : Reading s α}

theorem after (h : r.BlamesSource) (calls : List Source.Call) : (r.after calls).BlamesSource := by
  cases r <;> exact h

theorem map (h : r.BlamesSource) (f : α → β) : (r.map f).BlamesSource := by
  cases r <;> exact h

theorem bind {next : α → Cursor s → Reading s β} (h : r.BlamesSource)
    (hn : ∀ a c, (next a c).BlamesSource) : (r.bind next).BlamesSource := by
  cases r with
  | done a c calls => exact (hn a c).after calls
  | failed y st calls => exact h

end Reading.BlamesSource

namespace Cursor

variable {s : Source}

theorem load_blames (st : Source.State) (valid : st.offset ≤ s.data.length) :
    (load (s := s) st valid).BlamesSource := by
  unfold load
  split
  · trivial
  · exact .inl rfl

theorem openAt_blames (offset : Nat) (st : Source.State) :
    (openAt (s := s) offset st).BlamesSource := by
  unfold openAt
  split
  · exact (load_blames _ _).after _
  · exact .inr rfl

theorem readByte_blames (c : Cursor s) : c.readByte.BlamesSource := by
  unfold readByte
  split
  · trivial
  · split
    · trivial
    · exact .inl rfl

theorem readBytes_blames (n : Nat) (c : Cursor s) : (c.readBytes n).BlamesSource := by
  induction n generalizing c with
  | zero => trivial
  | succ n ih => exact (readByte_blames c).bind fun _ next => (ih next).map _

theorem readInstruction_blames (c : Cursor s) : c.readInstruction.BlamesSource :=
  (readByte_blames c).bind fun _ next => (readBytes_blames _ next).map _

end Cursor

end Type1
