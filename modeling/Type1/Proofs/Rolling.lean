import Mathlib.Data.List.Rotate
import Type1.Proofs.Checked.Calculate
import Type1.Proofs.OperandNeeds

/-!
# Rolling the stack

The integers act on a block of operands by rolling it: whoever rolls it by `j` and then by `k` has
rolled it by `j + k`, and only the remainder by the size of the block counts.

* `rotate_zero`, `rotate_rotate`, `rotate_congr`: the action on a list.
* `getElem?_rotate`: where each value goes.
* `Decode.roll_run`, `Decode.roll_outside`: a block is rolled on the stack, or there is none.
* `Decode.roll_zero`, `Decode.roll_roll`, `Decode.roll_congr`: the action on the top of the stack.
* `roll_group_action`: the same as one statement, for the state, for the array that the operands are
  kept in, and for the operator.
-/

namespace Type1

/-! ## Values -/

section Values

variable {values : List Number} {j k : Int}

/-- Moving up by `j` places is moving down by as many as are left of a whole round. -/
theorem rotate_eq (j : Int) (values : List Number) :
    rotate j values = values.rotate (values.length - (j % values.length).toNat) := by
  rw [rotate, List.rotate_eq_drop_append_take (Nat.sub_le _ _)]

/-- Only the remainder counts. -/
theorem rotate_congr (h : j % values.length = k % values.length) :
    rotate j values = rotate k values := by
  rw [rotate, rotate, h]

theorem rotate_zero (values : List Number) : rotate 0 values = values := by
  rw [rotate_eq, Int.zero_emod, Int.toNat_zero, Nat.sub_zero, List.rotate_length]

/-- Moving up by two remainders, which make up a whole round together or do not. -/
theorem rotate_rotate_of_lt {a b : Nat} (ha : a < values.length) (hb : b < values.length) :
    rotate b (rotate a values) = rotate (a + b) values := by
  have hamod : (a : Int) % values.length = a := Int.emod_eq_of_lt (by omega) (by omega)
  have hbmod : (b : Int) % values.length = b := Int.emod_eq_of_lt (by omega) (by omega)
  rw [rotate_eq b, length_rotate, rotate_eq, rotate_eq, List.rotate_rotate, hamod, hbmod]
  rcases Nat.lt_or_ge (a + b) values.length with hlt | hge
  · rw [Int.emod_eq_of_lt (by omega) (by omega), ← List.rotate_mod,
      ← List.rotate_mod _ (values.length - _),
      show values.length - (a : Int).toNat + (values.length - (b : Int).toNat) =
        values.length - ((a : Int) + b).toNat + values.length by omega, Nat.add_mod_right]
  · have hround : ((a : Int) + b) % values.length = a + b - values.length := by
      rw [← Int.sub_emod_right, Int.emod_eq_of_lt (by omega) (by omega)]
    rw [hround]
    congr 1
    omega

/-- Rolling by `j` and then by `k` is rolling by `j + k`. -/
theorem rotate_rotate (j k : Int) (values : List Number) :
    rotate k (rotate j values) = rotate (j + k) values := by
  rcases Nat.eq_zero_or_pos values.length with hzero | hpos
  · rw [List.eq_nil_of_length_eq_zero hzero]
    simp [rotate]
  have hpos : (0 : Int) < values.length := Int.natCast_pos.2 hpos
  obtain ⟨a, ha⟩ := Int.eq_ofNat_of_zero_le (Int.emod_nonneg j (Int.ne_of_gt hpos))
  obtain ⟨b, hb⟩ := Int.eq_ofNat_of_zero_le (Int.emod_nonneg k (Int.ne_of_gt hpos))
  have halt := Int.emod_lt_of_pos j hpos
  have hblt := Int.emod_lt_of_pos k hpos
  have hj : rotate j values = rotate a values := rotate_congr (by rw [← ha, Int.emod_emod])
  have hk (l : List Number) (hl : l.length = values.length) : rotate k l = rotate b l :=
    rotate_congr (by rw [hl, ← hb, Int.emod_emod])
  rw [hj, hk _ (length_rotate _ _), rotate_rotate_of_lt (by omega) (by omega)]
  exact rotate_congr (by rw [← ha, ← hb, ← Int.add_emod])

/-- A value goes up by `j` places, or as far beyond the end as from the beginning on. -/
theorem getElem?_rotate (j : Int) {t : Nat} (ht : t < values.length) :
    (rotate j values)[((t + j) % values.length).toNat]? = values[t]? := by
  have hpos : (0 : Int) < values.length := by omega
  have hj := Int.emod_lt_of_pos j hpos
  have hj' := Int.emod_nonneg j (Int.ne_of_gt hpos)
  have hplace : ((t + j) % values.length).toNat < values.length := by
    have := Int.emod_lt_of_pos (t + j) hpos
    omega
  rw [rotate_eq, List.getElem?_rotate hplace, ← Int.add_emod_emod t j]
  generalize j % values.length = a at hj hj'
  congr 1
  rcases Int.lt_or_le (t + a) values.length with hlt | hge
  · rw [Int.emod_eq_of_lt (by omega) hlt,
      show (t + a).toNat + (values.length - a.toNat) = t + values.length by omega,
      Nat.add_mod_right, Nat.mod_eq_of_lt ht]
  · rw [← Int.sub_emod_right, Int.emod_eq_of_lt (by omega) (by omega),
      show (t + a - values.length).toNat + (values.length - a.toNat) = t by omega,
      Nat.mod_eq_of_lt ht]

end Values

/-! ## The top of the stack -/

namespace Decode

variable {setup : Setup} {d : Decoder} {n j k : Int}

/-- A block is rolled in its place. -/
theorem roll_run {below values : List Number} (hoperands : d.operands.toList = below ++ values)
    (hpos : 0 < n) (hn : values.length = n) (j : Int) :
    ∃ operands, roll n j d = .ok () { d with operands } ∧
      operands.toList = below ++ rotate j values := by
  have hcapacity := d.operands.length_le
  rw [hoperands, List.length_append] at hcapacity
  have hsize : d.operands.size = below.length + values.length := by
    rw [Operands.size, hoperands, List.length_append]
  have hsplit := Checked.split?_eq hoperands (n := n.toNat) (by omega) (by omega)
  have hroom : (below ++ rotate j values).length ≤ Operands.capacity := by
    rw [List.length_append, length_rotate]
    exact hcapacity
  refine ⟨⟨_, hroom⟩, ?_, rfl⟩
  rw [roll, get_bind_run, if_pos (by omega), bind_run (take_run hsplit)]
  exact pushAll_run (Checked.append?_eq rfl hroom)

theorem roll_outside (h : ¬ (1 ≤ n ∧ n ≤ d.operands.size)) (j : Int) :
    roll n j d = .error .boundsCheck d := by
  rw [roll, get_bind_run]
  show (if 1 ≤ n ∧ n ≤ d.operands.size then _ else throw .boundsCheck : Decode Unit) d = _
  rw [if_neg h]
  rfl

/-- The operands below a block, and the block. -/
theorem exists_block (hn : 1 ≤ n ∧ n ≤ d.operands.size) :
    ∃ below block, d.operands.toList = below ++ block ∧ (block.length : Int) = n := by
  refine ⟨_, _, (List.take_append_drop (d.operands.size - n.toNat) _).symm, ?_⟩
  rw [List.length_drop, ← Operands.size]
  omega

/-- To roll twice is to roll by the sum. -/
theorem roll_roll (n j k : Int) : (roll n j >>= fun _ => roll n k) = roll n (j + k) := by
  funext d
  by_cases hn : 1 ≤ n ∧ n ≤ d.operands.size
  · obtain ⟨below, block, hoperands, hlength⟩ := exists_block hn
    obtain ⟨operands, hj, hrolled⟩ := roll_run hoperands hn.1 hlength j
    obtain ⟨twice, hk, htwice⟩ := roll_run (d := { d with operands }) hrolled hn.1
      ((congrArg _ (length_rotate j block)).trans hlength) k
    obtain ⟨once, hjk, honce⟩ := roll_run hoperands hn.1 hlength (j + k)
    have hsame : twice = once := Operands.ext (by rw [htwice, honce, rotate_rotate])
    rw [bind_run hj, hk, hjk, hsame]
  · rw [bind_run_error (roll_outside hn j), roll_outside hn]

/-- Only the remainder of the number of places counts. -/
theorem roll_congr (h : j % n = k % n) : roll n j = roll n k := by
  funext d
  by_cases hn : 1 ≤ n ∧ n ≤ d.operands.size
  · obtain ⟨below, block, hoperands, hlength⟩ := exists_block hn
    obtain ⟨operands, hj, hrolled⟩ := roll_run hoperands hn.1 hlength j
    obtain ⟨operands', hk, hrolled'⟩ := roll_run hoperands hn.1 hlength k
    rw [rotate_congr (k := k) (by rw [hlength, h])] at hrolled
    have hsame : operands = operands' := Operands.ext (hrolled.trans hrolled'.symm)
    rw [hj, hk, hsame]
  · rw [roll_outside hn, roll_outside hn]

theorem roll_zero (hn : 1 ≤ n ∧ n ≤ d.operands.size) : roll n 0 d = .ok () d := by
  obtain ⟨below, block, hoperands, hlength⟩ := exists_block hn
  obtain ⟨operands, hrun, hrolled⟩ := roll_run hoperands hn.1 hlength 0
  rw [rotate_zero, ← hoperands] at hrolled
  rw [hrun, Operands.ext hrolled]

/-- Once a block is rolled, it is rolled on as if by the sum. -/
theorem roll_after {e : Decoder} (h : roll n j d = .ok () e) (k : Int) :
    roll n k e = roll n (j + k) d := by
  rw [← roll_roll, bind_run h]

/-- The operator takes the size of the block and the number of places off the stack first. -/
theorem perform_roll {count shift : Number} {operands : Operands}
    (htop : operands.toList = d.operands.toList ++ [count, shift])
    (hcount : count.truncate? = some n) (hshift : shift.truncate? = some j) :
    perform setup (.calculate .roll) { d with operands } =
      (roll n j >>= fun _ => pure .next : Decode Control) d := by
  have htake : take 2 { d with operands } = .ok #v[count, shift] d :=
    take_run (Checked.split?_eq (n := 2) htop rfl d.operands.length_le)
  have hroll : calculate .roll { d with operands } = roll n j d := by
    rw [calculate, bind_run htake]
    show (orFail .boundsCheck count.truncate? >>= fun n =>
      orFail .boundsCheck shift.truncate? >>= fun j => roll n j) d = _
    rw [hcount, hshift]
    rfl
  show EStateM.bind (calculate .roll) _ { d with operands } = EStateM.bind (roll n j) _ d
  rw [EStateM.bind, EStateM.bind, hroll]

end Decode

/-- Rolling the top `n` operands by `j` places, with `n` at least 1 and at most the number of
operands and `j` any integer, keeps all operands below them in place, and of the `n` puts the one at
the distance `t` from their bottom at the distance `t + j` modulo `n`. So to roll by `j` and then by
`k` is to roll by the remainder of `j + k`, to roll back by `j` undoes it, and two numbers of places
with the same remainder do the same. For any other `n` it fails with `boundsCheck` and leaves
everything as it was. In the array of the operands all is the same. The operator takes `n` and `j`
off the stack first. -/
theorem roll_group_action (setup : Setup) (d : Decoder) (n : Int) :
    let below := d.operands.toList.take (d.operands.size - n.toNat)
    let block := d.operands.toList.drop (d.operands.size - n.toNat)
    (1 ≤ n → n ≤ d.operands.size → ∀ j, ∃ operands rolled,
      Decode.roll n j d = .ok () { d with operands } ∧ operands.toList = below ++ rolled ∧
      rolled.length = n ∧
      (∀ t : Nat, t < n → rolled[((t + j) % n).toNat]? = block[t]?) ∧
      (∀ k, Decode.roll n k { d with operands } = Decode.roll n ((j + k) % n) d) ∧
      Decode.roll n (-j) { d with operands } = .ok () d ∧
      ∀ k, k % n = j % n → Decode.roll n k d = Decode.roll n j d) ∧
    (¬ (1 ≤ n ∧ n ≤ d.operands.size) → ∀ j, Decode.roll n j d = .error .boundsCheck d) ∧
    (∀ m : Machine, m.Shows d → ∀ j,
      (∀ y e, Decode.roll n j d = .error y e → Checked.roll n j m = .error (.failed y) m) ∧
      ∀ e, Decode.roll n j d = .ok () e → ∃ m', Checked.roll n j m = .ok () m' ∧ m'.Shows e) ∧
    ∀ count shift operands j, operands.toList = d.operands.toList ++ [count, shift] →
      count.truncate? = some n → shift.truncate? = some j →
      Decode.perform setup (.calculate .roll) { d with operands } =
        (Decode.roll n j >>= fun _ => pure .next : Decode Control) d := by
  intro below block
  have hoperands : d.operands.toList = below ++ block := (List.take_append_drop _ _).symm
  refine ⟨fun hpos hle j => ?_, fun h => Decode.roll_outside h,
    fun m hs j => ⟨fun y e h => ?_, fun e h => ?_⟩, fun _ _ _ _ => Decode.perform_roll⟩
  · have hlength : (block.length : Int) = n := by
      rw [List.length_drop, ← Operands.size]
      omega
    obtain ⟨operands, hroll, hrolled⟩ := Decode.roll_run hoperands hpos hlength j
    -- The laws are those of rotations of the block, of which each has the place that the remainder
    -- gives.
    refine ⟨operands, rotate j block, hroll, hrolled, by rw [length_rotate, hlength],
      fun t ht => ?_, fun k => ?_, ?_, fun k hk => by rw [Decode.roll_congr hk]⟩
    · rw [← hlength]
      exact getElem?_rotate j (by omega)
    · rw [Decode.roll_after hroll, Decode.roll_congr (Int.emod_emod _ _).symm]
    · rw [Decode.roll_after hroll, Int.add_right_neg, Decode.roll_zero ⟨hpos, hle⟩]
  · by_cases hn : 1 ≤ n ∧ n ≤ d.operands.size
    · obtain ⟨below, block, hoperands, hlength⟩ := Decode.exists_block hn
      obtain ⟨operands, hroll, -⟩ := Decode.roll_run hoperands hn.1 hlength j
      cases hroll.symm.trans h
    · cases (Decode.roll_outside hn j).symm.trans h
      have hsize : m.stack.size = d.operands.size := hs.stack.size
      rw [Checked.roll, Guarded.get_bind, Buffer.roll, hsize, if_neg (show ¬ (0 < n ∧ _) from hn)]
      rfl
  · -- The array refines the list, so that it shows the operands after a roll that succeeds.
    have hfollows := Checked.refines_roll n j m d hs
    rw [h] at hfollows
    generalize Checked.roll n j m = r at hfollows
    cases hfollows with
    | ok _ hs' => exact ⟨_, rfl, hs'⟩

/-- Three operands above another one, rolled by the lowest of the 32-bit integers, which leaves the
remainder 1. -/
theorem roll_group_action_lowest :
    let d : Decoder :=
      { operands := ⟨[7, 1, 2, 3], (by decide : 4 ≤ 48)⟩, storage := .ofVectors [] [] [] }
    ∃ operands, Decode.roll 3 (-2147483648) d = .ok () { d with operands } ∧
      operands.toList = [7, 3, 1, 2] := by
  intro d
  obtain ⟨hrun, -⟩ := roll_group_action { font := {} } d 3
  obtain ⟨operands, rolled, hroll, hoperands, hlength, hplace, -⟩ :=
    hrun (by decide) (by decide) (-2147483648)
  refine ⟨operands, hroll, ?_⟩
  have hplaces : rolled[1]? = some 1 ∧ rolled[2]? = some 2 ∧ rolled[0]? = some 3 :=
    ⟨hplace 0 (by decide), hplace 1 (by decide), hplace 2 (by decide)⟩
  match rolled, hlength, hplaces with
  | [a, b, c], _, ⟨h1, h2, h0⟩ =>
    cases h0
    cases h1
    cases h2
    exact hoperands

end Type1
