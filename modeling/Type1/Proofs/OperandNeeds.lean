import Type1.Proofs.Causes
import Type1.Proofs.Placement

/-!
# What computations need of the operand stack

With too few operands a computation underflows before it changes anything; with as many as it needs,
and with room for its results, it has no error of the operand stack.

* `Decode.Spares`: a computation has no such error from a state. There is a rule for each construct.
* `Decode.Needs`: the operands and the room that a computation needs, and what it does without them.
* `Decode.needs_calculate`: calculations.
* `Decode.needs_blend`, `Decode.needs_performOtherSubr`: other subroutines, which `blend` is one of.
* `Decode.needs_perform`: the operators but `blend` and `callothersubr`, which need more by what
  their operands say.
-/

namespace Type1

/-- An error of the operand stack. -/
def Error.isOfStack : Error → Bool
  | stackUnderflow | stackOverflow => true
  | _ => false

/-! ## Operands -/

namespace Operands

variable {s t : Operands} {n : Nat} {v : Vector Number n}

/-- What is taken off was on top of what is left. -/
theorem toList_of_split? (h : s.split? n = some (t, v)) : s.toList = t.toList ++ v.toList := by
  unfold split? at h
  split at h
  · obtain ⟨rfl, rfl⟩ := Prod.mk.inj (Option.some.inj h)
    exact (List.take_append_drop _ _).symm
  · cases h

theorem toList_of_split?_one {v : Vector Number 1} (h : s.split? 1 = some (t, v)) :
    s.toList = t.toList ++ [v.first] := by
  rw [toList_of_split? h]
  obtain ⟨⟨l⟩, hl⟩ := v
  match l, hl with
  | [_], _ => rfl

theorem toList_of_split?_two {v : Vector Number 2} (h : s.split? 2 = some (t, v)) :
    s.toList = t.toList ++ [v.first, v.second] := by
  rw [toList_of_split? h]
  obtain ⟨⟨l⟩, hl⟩ := v
  match l, hl with
  | [_, _], _ => rfl

/-- There is no room for one more operand. -/
theorem full_iff (s : Operands) : capacity < s.size + 1 ↔ s.size = capacity :=
  ⟨fun h => Nat.le_antisymm s.length_le (Nat.le_of_lt_succ h), fun h => h ▸ Nat.lt_succ_self _⟩

theorem exists_split? (h : n ≤ s.size) : ∃ t v, s.split? n = some (t, v) := ⟨_, _, dif_pos h⟩

theorem size_of_split? (h : s.split? n = some (t, v)) : s.size = t.size + n := by
  unfold size
  rw [toList_of_split? h, List.length_append, Vector.length_toList]

end Operands

/-! ## Computations that need operands and room -/

namespace Decode

variable {α β : Type}

/-- From this state, the computation has no error of the operand stack. -/
def Spares (x : Decode α) (d : Decoder) : Prop := ∀ y e, x d = .error y e → y.isOfStack = false

section Rules

variable {x : Decode α} {d : Decoder} {y : Error}

theorem spares_pure (v : α) (d : Decoder) : Spares (pure v) d := fun _ _ h => by cases h

theorem spares_throw (hy : y.isOfStack = false) (d : Decoder) : Spares (throw y : Decode α) d := by
  intro z e h
  cases h
  exact hy

theorem Spares.bind {k : α → Decode β} (hx : Spares x d)
    (hk : ∀ v e, x d = .ok v e → Spares (k v) e) : Spares (x >>= k) d := by
  intro y e h
  rcases bind_cases x k d with ⟨z, c, hz, hbind⟩ | ⟨v, c, hv, hbind⟩
  · rw [hbind] at h
    cases h
    exact hx y e hz
  · rw [hbind] at h
    exact hk v c hv y e h

theorem spares_get_bind {k : Decoder → Decode β} (h : Spares (k d) d) : Spares (get >>= k) d := h

theorem spares_modify (f : Decoder → Decoder) (d : Decoder) : Spares (modify f) d :=
  fun _ _ h => by cases h

theorem spares_orFail (hy : y.isOfStack = false) (o : Option α) (d : Decoder) :
    Spares (orFail y o) d := by
  cases o with
  | none => exact spares_throw hy d
  | some v => exact spares_pure v d

theorem spares_ite {p : Prop} [Decidable p] {x y : Decode α} (hx : Spares x d) (hy : Spares y d) :
    Spares (if p then x else y) d := by
  split
  · exact hx
  · exact hy

theorem spares_refuse (n : Note) (hy : y.isOfStack = false) (d : Decoder) :
    Spares (refuse n y : Decode α) d :=
  (spares_modify _ d).bind fun _ e _ => spares_throw hy e

/-- What goes on from the value of an option. -/
theorem spares_orFail_bind {o : Option α} {k : α → Decode β} (hy : y.isOfStack = false)
    (hk : ∀ v, o = some v → Spares (k v) d) : Spares (orFail y o >>= k) d :=
  (spares_orFail hy o d).bind fun v e h => by
    obtain ⟨hv, rfl⟩ := orFail_eq_ok h
    exact hk v hv

theorem spares_pushAll {values : List Number}
    (h : d.operands.size + values.length ≤ Operands.capacity) : Spares (pushAll values) d := by
  intro y e hx
  rw [pushAll_run (dif_pos h)] at hx
  cases hx

theorem spares_take_bind {n : Nat} {k : Vector Number n → Decode β} (h : n ≤ d.operands.size)
    (hk : ∀ v operands, operands.size + n = d.operands.size → Spares (k v) { d with operands }) :
    Spares (take n >>= k) d := by
  obtain ⟨operands, v, hsplit⟩ := Operands.exists_split? h
  intro y e hx
  rw [bind_run (take_run hsplit)] at hx
  exact hk v operands (Operands.size_of_split? hsplit).symm y e hx

end Rules

/-- The computation needs `n` operands, or it underflows and leaves the state as it was. With these
it needs room for `room` operands more than there are, or it overflows. It has no other error of the
operand stack. -/
structure Needs (n room : Nat) (x : Decode α) : Prop where
  short : ∀ d, d.operands.size < n → x d = .error .stackUnderflow d
  full : ∀ d, n ≤ d.operands.size → Operands.capacity < d.operands.size + room →
    ∃ e, x d = .error .stackOverflow e
  spares : ∀ d, n ≤ d.operands.size → d.operands.size + room ≤ Operands.capacity → Spares x d

section Needs

variable {n room : Nat} {x : Decode α}

/-- Without need for room a stack is not full. -/
theorem needs_of_spares (hshort : ∀ d, d.operands.size < n → x d = .error .stackUnderflow d)
    (hspares : ∀ d, n ≤ d.operands.size → Spares x d) : Needs n 0 x where
  short := hshort
  full d _ hfull := absurd d.operands.length_le (Nat.not_le.2 hfull)
  spares d h _ := hspares d h

theorem needs_nothing (h : ∀ d, Spares x d) : Needs 0 0 x :=
  needs_of_spares (fun _ h => absurd h (Nat.not_lt_zero _)) fun d _ => h d

theorem needs_take_bind {k : Vector Number n → Decode β}
    (hk : ∀ v d, d.operands.size + n ≤ Operands.capacity → Spares (k v) d) :
    Needs n 0 (take n >>= k) :=
  needs_of_spares (fun _ h => bind_run_error (take_run_short h)) fun d h =>
    spares_take_bind h fun v _ hsize => hk v _ (hsize ▸ d.operands.length_le)

theorem needs_arguments_bind {k : Vector Number n → Decode β} (hk : ∀ v d, Spares (k v) d) :
    Needs n 0 (arguments n >>= k) := by
  refine needs_of_spares (fun _ h => bind_run_error (arguments_run_short h)) fun d h => ?_
  have hrun : arguments n d = .ok _ d := arguments_run (dif_pos h)
  intro y e hx
  rw [bind_run hrun] at hx
  exact hk _ d y e hx

theorem needs_require_bind {k : Unit → Decode β}
    (hk : ∀ d, n ≤ d.operands.size → Spares (k ()) d) : Needs n 0 (require n >>= k) := by
  refine needs_of_spares (fun _ h => bind_run_error (require_run_short h)) fun d h => ?_
  intro y e hx
  rw [bind_run (require_run h)] at hx
  exact hk d h y e hx

/-- Counting the operands first makes no difference. -/
theorem Needs.require_run (h : Needs n room x) (d : Decoder) :
    (Decode.require n >>= fun _ => x) d = x d := by
  rcases Nat.lt_or_ge d.operands.size n with hlt | hle
  · rw [h.short d hlt, bind_run_error (require_run_short hlt)]
  · exact bind_run (Decode.require_run hle)

theorem Needs.bind (h : Needs n room x) {k : α → Decode β} (hk : ∀ v d, Spares (k v) d) :
    Needs n room (x >>= k) where
  short d hlt := bind_run_error (h.short d hlt)
  full d hle hfull := by
    obtain ⟨e, he⟩ := h.full d hle hfull
    exact ⟨e, bind_run_error he⟩
  spares d hle hroom := (h.spares d hle hroom).bind fun v e _ => hk v e

theorem Needs.underflow_iff (h : Needs n room x) (d : Decoder) :
    (∃ e, x d = .error .stackUnderflow e) ↔ d.operands.size < n := by
  refine ⟨fun ⟨e, he⟩ => Nat.lt_of_not_le fun hle => ?_, fun hlt => ⟨d, h.short d hlt⟩⟩
  -- With enough operands the error is an overflow, or none of the stack.
  rcases Nat.lt_or_ge Operands.capacity (d.operands.size + room) with hfull | hroom
  · obtain ⟨c, hc⟩ := h.full d hle hfull
    cases hc.symm.trans he
  · exact absurd (h.spares d hle hroom _ e he) (by decide)

theorem Needs.overflow_iff (h : Needs n room x) (d : Decoder) :
    (∃ e, x d = .error .stackOverflow e) ↔
      n ≤ d.operands.size ∧ Operands.capacity < d.operands.size + room := by
  refine ⟨fun ⟨e, he⟩ => ?_, fun ⟨hle, hfull⟩ => h.full d hle hfull⟩
  rcases Nat.lt_or_ge d.operands.size n with hlt | hle
  · cases (h.short d hlt).symm.trans he
  · refine ⟨hle, Nat.lt_of_not_le fun hroom => ?_⟩
    exact absurd (h.spares d hle hroom _ e he) (by decide)

end Needs

/-! ## Calculations -/

theorem needs_push (v : Number) : Needs 0 1 (push v) where
  short _ h := absurd h (Nat.not_lt_zero _)
  full _ _ h := ⟨_, pushAll_run_full h⟩
  spares _ _ h := spares_pushAll h

theorem needs_unary (f : Number → Number) : Needs 1 0 (unary f) :=
  needs_take_bind fun _ _ h => spares_pushAll h

theorem needs_binary (f : Number → Number → Number) : Needs 2 0 (binary f) :=
  needs_take_bind fun _ _ h => spares_pushAll (Nat.le_of_succ_le h)

theorem spares_store (v : Vector Number 4) (d : Decoder) : Spares (store v) d :=
  spares_orFail_bind rfl fun _ _ => spares_orFail_bind rfl fun _ _ => spares_orFail_bind rfl
    fun _ _ => spares_modify _ d

theorem spares_load (v : Vector Number 3) (d : Decoder) : Spares (load v) d :=
  spares_orFail_bind rfl fun _ _ => spares_orFail_bind rfl fun _ _ => spares_orFail_bind rfl
    fun _ _ => spares_modify _ d

theorem spares_roll (n j : Int) (d : Decoder) : Spares (roll n j) d := by
  refine spares_get_bind ?_
  split
  · next h =>
    have hle : n.toNat ≤ d.operands.size := by omega
    refine spares_take_bind hle fun v operands hsize => spares_pushAll ?_
    rw [length_rotate, Vector.length_toList, hsize]
    exact d.operands.length_le
  · exact spares_throw rfl d

end Decode

/-- The room that a calculation needs for its results, beyond that of the operands it takes off. -/
def Calculation.room : Calculation → Nat
  | dup | random => 1
  | _ => 0

namespace Decode

theorem needs_calculate (op : Calculation) : Needs op.arity op.room (calculate op) := by
  cases op with
  | and | or | eq | add | sub | mul | div => rw [calculate]; exact needs_binary _
  | not | abs | neg => rw [calculate]; exact needs_unary _
  | sqrt =>
    refine needs_take_bind fun v d h => ?_
    dsimp only
    split
    · exact (spares_throw rfl d).bind fun _ _ h => by cases h
    · exact spares_pushAll h
  | drop => exact needs_take_bind fun _ d _ => spares_pure _ d
  | exch => exact needs_take_bind fun _ _ h => spares_pushAll h
  | index =>
    refine needs_require_bind fun d hle => spares_take_bind (Nat.le_of_succ_le hle)
      fun v operands hsize => ?_
    have hroom : operands.size + 1 ≤ Operands.capacity := hsize ▸ d.operands.length_le
    exact spares_orFail_bind rfl fun i _ => spares_orFail_bind rfl fun w _ => spares_pushAll hroom
  | roll =>
    exact needs_take_bind fun _ d _ => spares_orFail_bind rfl fun n _ => spares_orFail_bind rfl
      fun j _ => spares_roll n j d
  | put =>
    exact needs_take_bind fun _ d _ => spares_orFail_bind rfl fun _ _ =>
      spares_ite (spares_modify _ d) (spares_throw rfl d)
  | get =>
    exact needs_take_bind fun _ d h => spares_orFail_bind rfl fun _ _ => spares_orFail_bind rfl
      fun _ _ => spares_pushAll h
  | ifelse =>
    exact needs_take_bind fun _ d h =>
      spares_pushAll (Nat.le_trans (Nat.add_le_add_left (by decide : 1 ≤ 4) _) h)
  | store => exact needs_take_bind fun v d _ => spares_store v d
  | load => exact needs_take_bind fun v d _ => spares_load v d
  | dup =>
    refine ⟨fun d h => bind_run_error (take_run_short h), fun d hle hfull => ?_,
      fun d hle hroom => spares_take_bind hle fun v operands hsize => spares_pushAll ?_⟩
    · obtain ⟨operands, v, hsplit⟩ := Operands.exists_split? hle
      have hsize := Operands.size_of_split? hsplit
      refine ⟨_, (bind_run (take_run hsplit)).trans (pushAll_run_full ?_)⟩
      rwa [hsize] at hfull
    · rwa [← hsize] at hroom
  | random =>
    -- The seed is changed before the number is pushed, so the state is no longer `d` there.
    have hrun (d : Decoder) : calculate .random d =
        push (randomOf (nextSeed d.seed)) { d with seed := nextSeed d.seed } := by
      rw [calculate, get_bind_run, modify_bind_run]
    refine ⟨fun _ h => absurd h (Nat.not_lt_zero _), fun d hle hfull => ?_,
      fun d hle hroom y e hx => ?_⟩
    · rw [hrun]
      exact (needs_push _).full { d with seed := nextSeed d.seed } hle hfull
    · rw [hrun] at hx
      exact (needs_push _).spares { d with seed := nextSeed d.seed } hle hroom y e hx

end Decode

/-! ## Blending and the other subroutines -/

theorem Decoder.flexTo_operands (setup : Setup) (depth : Number) (left right : Curve)
    (d : Decoder) : (d.flexTo setup depth left right).operands = d.operands :=
  d.startContour_operands

/-- The operands that `n` values take that are blended, if there can be so many masters. -/
def Font.blendArity (font : Font) (n : Nat) : Nat :=
  if 2 ≤ font.masters ∧ font.masters ≤ Storage.maxMasters then n * font.masters else 0

namespace Decode

variable (setup : Setup)

theorem needs_blend (n : Nat) : Needs (setup.font.blendArity n) 0 (blend setup n) := by
  unfold Font.blendArity blend
  dsimp only
  split
  · next h =>
    rw [if_neg (by omega)]
    refine needs_take_bind fun v d hroom => spares_get_bind ?_
    have hle : n ≤ n * setup.font.masters := Nat.le_mul_of_pos_right n (by omega)
    refine (spares_pushAll ?_).bind fun _ e _ => spares_modify _ e
    rw [length_blendValues, List.length_take]
    omega
  · next h =>
    rw [if_pos (by omega)]
    exact needs_nothing fun d => (spares_throw rfl d).bind fun _ _ h => by cases h

theorem spares_move (delta : Point) (d : Decoder) : Spares (move delta) d :=
  spares_get_bind (spares_ite (spares_ite (spares_modify _ d) (spares_throw rfl d))
    (spares_modify _ d))

theorem spares_endFlex (n : Nat) {d : Decoder} (h : 3 ≤ d.operands.size) :
    Spares (endFlex setup n) d := by
  refine spares_get_bind ?_
  dsimp only
  split
  · refine (spares_modify _ d).bind fun _ e he => ?_
    cases he
    refine spares_take_bind h fun v operands hsize => spares_get_bind ?_
    refine (spares_modify _ _).bind fun _ e he => ?_
    cases he
    have hroom : operands.size + 3 ≤ Operands.capacity := hsize ▸ d.operands.length_le
    refine spares_pushAll ?_
    rw [Decoder.flexTo_operands]
    exact Nat.le_of_succ_le hroom
  · exact spares_refuse _ rfl d

theorem spares_counterStems (vertical : Bool) (edge : Number) (values : List Number)
    (d : Decoder) : Spares (counterStems setup vertical edge values) d := by
  fun_induction counterStems setup vertical edge values generalizing d with
  | case1 vertical edge gap width rest near far last next =>
    refine (spares_modify _ d).bind fun _ e _ => spares_ite ?_ (next e)
    split
    · exact spares_pure _ e
    · exact (spares_modify _ e).bind fun _ c _ => spares_get_bind (last c c)
  | case2 => exact spares_refuse _ rfl d

theorem spares_counterHints {n : Nat} {d : Decoder} (h : n ≤ d.operands.size) (complete : Bool) :
    Spares (counterHints setup n complete) d := by
  refine spares_get_bind (spares_take_bind h fun v operands _ => ?_)
  dsimp only
  split
  · exact spares_throw rfl _
  · refine (spares_modify _ _).bind fun _ e _ => spares_ite ?_ (spares_pure _ e)
    refine (spares_modify _ e).bind fun _ c _ => ?_
    split
    · exact spares_pure _ c
    · exact (spares_modify _ c).bind fun _ b _ => spares_get_bind (spares_counterStems _ _ _ _ b)

theorem spares_storeWeights {d : Decoder} (h : 1 ≤ d.operands.size) :
    Spares (storeWeights setup) d := by
  unfold storeWeights
  dsimp only
  split
  · exact (spares_throw rfl d).bind fun _ _ h => by cases h
  · exact spares_take_bind h fun v operands _ => spares_orFail_bind rfl fun _ _ =>
      spares_ite (spares_modify _ _) (spares_throw rfl _)

end Decode

/-- The room that an other subroutine needs for its results, beyond that of the operands it takes
off. -/
def OtherSubr.room : OtherSubr → Nat
  | calculate op => op.room
  | _ => 0

/-- The operands that an other subroutine needs, called with `n` arguments. -/
def OtherSubr.needs (font : Font) (n : Nat) : OtherSubr → Nat
  | blend k => font.blendArity k
  | subr => subr.arity n

namespace Decode

variable (setup : Setup)

/-- An other subroutine that has been selected. -/
theorem needs_performOtherSubr (n : Nat) (subr : OtherSubr) :
    Needs (subr.needs setup.font n) subr.room
      (require (subr.arity n) >>= fun _ => performOtherSubr setup n subr) := by
  cases subr with
  | endFlex => exact needs_require_bind fun d h => spares_endFlex setup n h
  | startFlex => exact needs_require_bind fun d _ => spares_modify _ d
  | flexPoint => exact needs_require_bind fun d _ => spares_pure () d
  | renewHints => exact needs_require_bind fun d _ => spares_modify _ d
  | counterHints complete =>
    exact needs_require_bind fun d h => spares_counterHints setup h complete
  | storeWeights => exact needs_require_bind fun d h => spares_storeWeights setup h
  | calculate op =>
    have hrun : (require op.arity >>= fun _ => calculate op) = calculate op :=
      funext (needs_calculate op).require_run
    exact hrun.symm ▸ needs_calculate op
  | blend k =>
    -- What is required before a blend is nothing; the blend counts the operands itself.
    have hrun : (require 0 >>= fun _ => blend setup k) = blend setup k := by
      funext d
      exact bind_run (require_run (Nat.zero_le _))
    exact hrun ▸ needs_blend setup k

end Decode

/-! ## Operators -/

/-- The number of operands without which an operator underflows. -/
def Operator.arity : Operator → Nat
  | closepath | endchar | returnToCaller | dotsection | pop | unknown _ => 0
  | callsubr | vmoveto | hmoveto | hlineto | vlineto | blend => 1
  | hstem | vstem | rlineto | rmoveto | hsbw | setcurrentpoint | callothersubr => 2
  | vhcurveto | hvcurveto | sbw => 4
  | seac => 5
  | rrcurveto | hstem3 | vstem3 => 6
  | calculate op => op.arity

/-- The room that an operator needs for its results, beyond that of the operands it takes off. -/
def Operator.room : Operator → Nat
  | calculate op => op.room
  | _ => 0

namespace Decode

variable (setup : Setup)

theorem needs_draw (n : Nat) (f : Vector Number n → Decoder → Decoder) : Needs n 0 (draw n f) :=
  needs_arguments_bind fun _ d => (spares_modify _ d).bind fun _ e _ =>
    (spares_modify _ e).bind fun _ c _ => spares_pure _ c

theorem needs_moveWith (n : Nat) (delta : Vector Number n → Point) :
    Needs n 0 (moveWith n delta) :=
  needs_arguments_bind fun v d => (spares_move (delta v) d).bind fun _ e _ =>
    (spares_modify _ e).bind fun _ c _ => spares_pure _ c

theorem spares_metrics (bearing : Point) (advance : Number) (d : Decoder) :
    Spares (metrics setup bearing advance) d := by
  refine (spares_modify _ d).bind fun _ e _ => spares_get_bind ?_
  dsimp only
  split
  · exact (spares_modify _ e).bind fun _ c _ => spares_pure _ c
  · exact (spares_modify _ e).bind fun _ c _ => spares_pure _ c
  · refine spares_get_bind ?_
    split
    · exact (spares_modify _ e).bind fun _ c _ => spares_pure _ c
    · exact spares_get_bind ((spares_modify _ e).bind fun _ c _ =>
        spares_ite (spares_pure _ c) (spares_pure _ c))

theorem spares_accented (v : Vector Number 5) (d : Decoder) : Spares (accented setup v) d := by
  have lookUp (glyphs : UInt8 → Option Nat) (code : UInt8) (d : Decoder) :
      Spares (lookUp glyphs code) d :=
    (spares_modify _ d).bind fun _ e _ => spares_orFail rfl _ e
  refine spares_orFail_bind rfl fun base _ => spares_orFail_bind rfl fun accent _ =>
    spares_get_bind ?_
  dsimp only
  split
  · refine (spares_modify _ d).bind fun _ e _ => spares_ite ?_ ?_
    · exact (spares_modify _ e).bind fun _ c _ => spares_pure _ c
    · exact spares_orFail_bind rfl fun glyphs _ => (lookUp _ _ e).bind fun _ c _ =>
        (lookUp _ _ c).bind fun _ b _ => spares_pure _ b
  · exact spares_refuse _ rfl d

/-- An operator needs the operands that its arity states, unless these state that it needs more. -/
theorem needs_perform {op : Operator} (hblend : op ≠ .blend) (hcall : op ≠ .callothersubr) :
    Needs op.arity op.room (perform setup op) := by
  cases op with
  | blend => exact absurd rfl hblend
  | callothersubr => exact absurd rfl hcall
  | hstem | vstem | hstem3 | vstem3 | rlineto | hlineto | vlineto | rrcurveto | vhcurveto
  | hvcurveto | closepath | setcurrentpoint | dotsection => exact needs_draw _ _
  | rmoveto | hmoveto | vmoveto => exact needs_moveWith _ _
  | hsbw | sbw =>
    exact needs_arguments_bind fun _ d => (spares_modify _ d).bind fun _ e _ =>
      spares_metrics setup _ _ e
  | seac =>
    exact needs_arguments_bind fun v d => (spares_modify _ d).bind fun _ e _ =>
      spares_accented setup v e
  | callsubr =>
    exact needs_take_bind fun _ d _ => spares_orFail_bind rfl fun _ _ => spares_pure _ d
  | returnToCaller | pop => exact needs_nothing fun d => spares_pure _ d
  | endchar => exact needs_nothing fun d => (spares_modify _ d).bind fun _ e _ => spares_pure _ e
  | calculate op => exact (needs_calculate op).bind fun _ e => spares_pure _ e
  | unknown code => exact needs_nothing fun d => spares_refuse _ rfl d

end Decode

end Type1
