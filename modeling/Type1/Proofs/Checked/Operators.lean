import Type1.Proofs.Checked.Calculate

/-!
# The operators on arrays

Each operator on arrays refines the operator itself (`refines_execute`): it has the same outcome,
and so it has no fault.

* `addDifferences_run`, `blendOperands_run`: blending in place.
* `refines_endFlex`: a flex of seven points has the fourteen coordinates that are looked at.
* `follows_counterStems`: the counter hints are read from the last to the first.
-/

namespace Type1

namespace Checked

open Guarded

variable {α β : Type} {P : α → β → Prop} {m : Machine} {d : Decoder}

/-! ## Blending -/

/-- The differences of the masters from `k` on, added one by one. -/
theorem addDifferences_run {l : List Number} (hl : m.stack.Holds l) (first count k : Nat)
    (v : Number) (hk : k + count ≤ Storage.maxMasters) (hpos : 1 ≤ k)
    (hfirst : first + k - 1 + count ≤ l.length) :
    addDifferences first count k v m =
      .ok (blendValue (segment m.rest.storage.weights k count) v
        ((l.drop (first + k - 1)).take count)) m := by
  have hle := hl.length_le
  have hword : Operands.capacity < wordSize := by decide
  induction count generalizing k v with
  | zero => rfl
  | succ count ih =>
    have hw : segment m.rest.storage.weights k (count + 1) =
        m.rest.storage.weights[k] :: segment m.rest.storage.weights (k + 1) count := by
      rw [segment, List.drop_eq_getElem_cons (by rw [Vector.length_toList]; omega),
        List.take_succ_cons, Vector.getElem_toList, segment]
    have hd : (l.drop (first + k - 1)).take (count + 1) =
        l[first + k - 1] :: (l.drop (first + (k + 1) - 1)).take count := by
      rw [List.drop_eq_getElem_cons (by omega), List.take_succ_cons]
      congr 3
      omega
    rw [addDifferences, get_bind, bind_ok (read_run (by omega)), bind_ok (plus_run (by omega)),
      bind_ok (minus_run (by omega)), bind_ok (operand_run hl (by omega)), hw, hd]
    exact ih (k + 1) _ (by omega) (by omega) (by omega)

/-- The values from the index `i` on, each with its differences. Those before it are done, and so
many differences are used. -/
theorem blendOperands_run {front bases used rest : List Number} {masters base deltas count i : Nat}
    (hl : m.stack.Holds (front ++ bases ++ (used ++ rest))) (hm : masters ≤ Storage.maxMasters)
    (hpos : 1 ≤ masters) (hfront : front.length = base + i) (hbases : bases.length = count)
    (hdeltas : deltas = front.length + bases.length) (hused : used.length = i * (masters - 1))
    (hrest : rest.length = count * (masters - 1)) :
    ∃ stack, blendOperands masters base deltas count i m = .ok () { m with stack } ∧
      stack.Holds (front ++
        blendValues (segment m.rest.storage.weights 1 (masters - 1)) bases rest ++
          (used ++ rest)) := by
  -- The values that are done stand in `front`, and their differences in `used`. Each round moves
  -- one value to the former and its differences to the latter.
  induction count generalizing front bases used rest i m with
  | zero =>
    obtain rfl := List.length_eq_zero_iff.1 hbases
    exact ⟨m.stack, rfl, hl⟩
  | succ count ih =>
    obtain ⟨b, bases, rfl⟩ := List.exists_cons_of_length_eq_add_one hbases
    have hle := hl.length_le
    have hword : Operands.capacity < wordSize := by decide
    have hmul : (count + 1) * (masters - 1) = count * (masters - 1) + (masters - 1) :=
      Nat.succ_mul _ _
    have hmul' : (i + 1) * (masters - 1) = i * (masters - 1) + (masters - 1) := Nat.succ_mul _ _
    simp only [List.length_append, List.length_cons] at hle hbases hdeltas
    obtain ⟨head, tail, rfl, hhead⟩ : ∃ head tail, rest = head ++ tail ∧
        head.length = masters - 1 :=
      ⟨rest.take (masters - 1), rest.drop (masters - 1), (List.take_append_drop _ _).symm, by
        rw [List.length_take]; omega⟩
    rw [List.length_append] at hle hrest
    -- The differences of this value begin where those of the values before it end.
    have hd : ((front ++ b :: bases ++ (used ++ (head ++ tail))).drop
        (deltas + i * (masters - 1) + 1 - 1)).take (masters - 1) = head := by
      rw [Nat.add_sub_cancel, ← List.append_assoc _ used, List.drop_left' (by simp; omega),
        ← hhead, List.take_left]
    have hadd := addDifferences_run hl (deltas + i * (masters - 1)) (masters - 1) 1 b (by omega)
      (Nat.le_refl 1) (by simp; omega)
    rw [hd] at hadd
    have hblend : blendValues (segment m.rest.storage.weights 1 (masters - 1)) (b :: bases)
        (head ++ tail) =
        blendValue (segment m.rest.storage.weights 1 (masters - 1)) b head ::
          blendValues (segment m.rest.storage.weights 1 (masters - 1)) bases tail := by
      rw [blendValues, length_segment (by omega), ← hhead, List.take_left, List.drop_left]
    have hl' : m.stack.Holds (front ++ b :: (bases ++ (used ++ (head ++ tail)))) := by
      simpa using hl
    generalize hw : blendValue (segment m.rest.storage.weights 1 (masters - 1)) b head = w at *
    obtain ⟨stack, hset, hh⟩ := setOperand_run hl' w
    have hnext : ({ m with stack } : Machine).stack.Holds
        ((front ++ [w]) ++ bases ++ ((used ++ head) ++ tail)) := by
      simpa using hh
    have hfront' : (front ++ [w]).length = base + (i + 1) := by
      rw [List.length_append, hfront]
      rfl
    obtain ⟨stack', hrun, hh'⟩ := ih hnext hfront' (by omega) (by simp; omega) (by simp; omega)
      (by omega)
    refine ⟨stack', ?_, by rw [hblend]; simpa using hh'⟩
    rw [blendOperands, bind_ok (plus_run (by omega)), ← hfront, bind_ok (operand_run_append hl'),
      bind_ok (minus_run hpos), bind_ok (times_run (by omega)), bind_ok (plus_run (by omega)),
      bind_ok hadd, bind_ok hset]
    exact hrun

theorem refines_blend (setup : Setup) (n : Nat) :
    Refines Eq (blend setup n) (Decode.blend setup n) := by
  unfold blend Decode.blend
  dsimp only
  refine refines_ite Iff.rfl (fun _ => refines_fail_bind _) fun hm => ?_
  generalize setup.font.masters = masters at hm
  obtain ⟨hmore, hfew⟩ : 1 < masters ∧ masters ≤ Storage.maxMasters := by omega
  intro m d hs
  have hword : Operands.capacity < wordSize := by decide
  have hcap := d.operands.length_le
  have hsize : m.stack.size = d.operands.size := hs.stack.size
  -- If the operands are there, no product or sum goes past the stack. If they are not, the product
  -- itself may overflow, which is an underflow of the stack as well.
  by_cases hn : n * masters ≤ d.operands.size
  · obtain ⟨l, values, hd, hv, hl⟩ := exists_top hn
    have hmul : n * masters = n * (masters - 1) + n := by
      rw [← Nat.mul_succ]
      congr 1
      omega
    obtain ⟨bases, rest, rfl, hbases⟩ : ∃ bases rest, values = bases ++ rest ∧ bases.length = n :=
      ⟨values.take n, values.drop n, (List.take_append_drop _ _).symm, by
        rw [List.length_take]; omega⟩
    subst hbases
    rw [Operands.size, hd] at hsize hn
    rw [hd] at hcap
    simp only [List.length_append] at hv hcap hsize hn
    have hstack : m.stack.Holds (l ++ bases ++ ([] ++ rest)) := by
      have h := hs.stack
      rwa [hd, ← List.append_assoc] at h
    obtain ⟨stack, hrun, hh⟩ := blendOperands_run hstack hfew (by omega) (Nat.add_zero _).symm rfl
      rfl (by simp) (by omega)
    have hblend := length_blendValues (segment m.rest.storage.weights 1 (masters - 1)) bases rest
    have hkeep : m.stack.size - bases.length * masters = l.length := by omega
    have htake := hh.truncate (l.length + bases.length)
    rw [List.take_left' (by rw [List.length_append]; omega), hs.storage] at htake
    have hroom : (l ++ blendValues (segment d.storage.weights 1 (masters - 1)) bases
        rest).length ≤ Operands.capacity := by
      rw [List.length_append, length_blendValues]
      omega
    rw [if_pos (by omega), bind_ok orFail_run,
      bind_ok (require_run hs (by rw [Operands.size, hd]; simp; omega)), get_bind,
      bind_ok (minus_run (by omega)), hkeep, bind_ok (plus_run (by omega)), bind_ok hrun,
      modify_bind, bind_ok (Decode.take_run (split?_eq hd (by rw [List.length_append, hv]) hl)),
      get_bind]
    dsimp only [Vector.toList_mk]
    rw [List.take_left, List.drop_left, bind_ok (Decode.pushAll_run (append?_eq rfl hroom))]
    exact refines_modify (fun _ _ => rfl) _ _ (hs.setStack htake)
  · rw [bind_error (Decode.take_run_short (Nat.not_le.1 hn))]
    by_cases hlt : n * masters < wordSize
    · rw [if_pos hlt, bind_ok orFail_run, bind_error (require_run_short hs (Nat.not_le.1 hn))]
      exact .error hs.history
    · rw [if_neg hlt]
      exact .error hs.history

/-! ## Flex -/

theorem Flex.length_values (f : Flex) : f.values.length = 2 * f.points.length := by
  rw [Flex.values]
  induction f.points with
  | nil => rfl
  | cons p points ih =>
    rw [List.flatMap_cons, List.length_append, ih]
    simp only [List.length_cons, List.length_nil]
    omega

theorem refines_move (delta : Point) : Refines Eq (move delta) (Decode.move delta) := by
  refine refines_get fun m d hs => ?_
  have hlen := Flex.length_values d.flex
  have hcap : Flex.length = 2 * Flex.capacity + 1 := rfl
  rw [hs.rest_flex]
  by_cases h : d.flex.active
  · generalize hreach : d.flex.reach + delta = reach
    rw [if_pos h, if_pos h, bind_ok aside_modify_run, get_bind]
    by_cases hroom : d.flex.points.length < Flex.capacity
    · obtain ⟨buffer, hx, hh⟩ := Buffer.extend?_run (s := { m with rest := _ }) hs.flex (by decide)
        (show d.flex.values.length + [reach.x, reach.y].length ≤ _ by rw [hlen]; simp; omega)
      rw [if_pos hroom, bind_ok hx]
      refine .ok rfl ⟨hs.stack, ?_, hs.counters, ?_⟩
      · rw [Flex.values, List.flatMap_append]
        exact hh
      · dsimp only
        rw [hs.rest]
        rfl
    · rw [if_neg hroom, bind_ok (Buffer.extend?_run_full hs.flex (by rw [hlen]; simp; omega))]
      exact .error hs.history
  · rw [if_neg h, if_neg h]
    exact refines_modify (fun a d => d.moveBy_adjust a delta) m d hs

/-- A complete flex has two curves. -/
theorem curvePoints_eq {f : Flex} {p₀ p₁ p₂ p₃ p₄ p₅ p₆ : Point}
    (h : f.points = [p₀, p₁, p₂, p₃, p₄, p₅, p₆]) (last : Point) :
    curvePoints f.values last = #v[p₁, p₂, p₃, p₄, p₅, last] := by
  rw [Flex.values, h]
  rfl

theorem endFlex_run_malformed {setup : Setup} {n : Nat}
    (h : n ≠ 3 ∨ d.flex.active = false ∨ 2 * d.flex.points.length ≠ 14) :
    Decode.endFlex setup n d =
      Decode.refuse (.malformedFlex n (2 * d.flex.points.length)) .badFlex d := by
  rw [Decode.endFlex, get_bind]
  refine congrFun ?_ d
  dsimp only
  split
  · next ha hp =>
    rw [ha, hp] at h
    simp at h
  · rfl

theorem endFlex_run {setup : Setup} {p₀ p₁ p₂ p₃ p₄ p₅ p₆ : Point} (ha : d.flex.active = true)
    (hp : d.flex.points = [p₀, p₁, p₂, p₃, p₄, p₅, p₆]) :
    Decode.endFlex setup 3 d = (do
      let v ← Decode.take 3
      let last := (← get).absolute ⟨v.second, v.third⟩
      modify (·.flexTo setup v.first ⟨p₁, p₂, p₃⟩ ⟨p₄, p₅, last⟩)
      Decode.pushAll [v.second, v.third] : Decode Unit)
        { d with flex := { d.flex with active := false } } := by
  rw [Decode.endFlex, get_bind]
  dsimp only
  rw [ha, hp]
  rfl

theorem take_flex {n : Nat} {v : Vector Number n} {e : Decoder} (h : Decode.take n d = .ok v e) :
    e.flex = d.flex := by
  cases hsplit : d.operands.split? n with
  | none =>
    rw [Decode.take_run_short (Operands.split?_eq_none_iff.1 hsplit)] at h
    cases h
  | some p =>
    rw [Decode.take_run hsplit] at h
    cases h
    rfl

theorem refines_endFlex (setup : Setup) (n : Nat) :
    Refines Eq (endFlex setup n) (Decode.endFlex setup n) := by
  intro m d hs
  have hsize : m.flex.size = 2 * d.flex.points.length :=
    hs.flex.size.trans (Flex.length_values d.flex)
  have hactive : m.rest.flex.active = d.flex.active := by rw [hs.rest_flex]
  rw [endFlex, get_bind, hactive, hsize]
  by_cases hmal : n ≠ 3 ∨ d.flex.active = false ∨ 2 * d.flex.points.length ≠ 14
  · rw [if_pos hmal, endFlex_run_malformed hmal]
    exact refines_refuse _ _ m d hs
  · rw [if_neg hmal]
    simp only [not_or, Decidable.not_not, Bool.not_eq_false] at hmal
    obtain ⟨rfl, ha, hlen⟩ := hmal
    obtain ⟨p₀, p₁, p₂, p₃, p₄, p₅, p₆, hp⟩ : ∃ p₀ p₁ p₂ p₃ p₄ p₅ p₆,
        d.flex.points = [p₀, p₁, p₂, p₃, p₄, p₅, p₆] := by
      match hp : d.flex.points, hlen with
      | [p₀, p₁, p₂, p₃, p₄, p₅, p₆], _ => exact ⟨p₀, p₁, p₂, p₃, p₄, p₅, p₆, rfl⟩
    have hquiet : Refines Eq _ _ := refines_modify
      (f := fun d => { d with flex := { d.flex with active := false } }) fun _ _ => rfl
    rw [endFlex_run ha hp]
    refine (hquiet m d hs).bind_of_ok fun _ m _ hs => ?_
    refine (refines_popAll 3 m _ hs).bind_of_run fun v _ m e htake hv hs => ?_
    subst hv
    have hflex : e.flex.points = [p₀, p₁, p₂, p₃, p₄, p₅, p₆] := by
      rw [take_flex htake, ← hp]
    rw [get_bind, get_bind, bind_ok (Buffer.contents_run hs.flex),
      bind_ok (ensure_run (by rw [Flex.length_values, hflex]; simp)), get_bind,
      curvePoints_eq hflex, hs.rest]
    exact (refines_modify fun a d => d.flexTo_adjust a setup _ _ _).seq
      (fun _ => refines_push_push _ _) m e hs

/-! ## Counter hints -/

theorem Decode.counterStems_short {setup : Setup} {vertical : Bool} {edge : Number}
    {l : List Number} (h : l.length < 2) : Decode.counterStems setup vertical edge l =
      Decode.refuse .cutOffGroup .badCounterControl := by
  match l, h with
  | [], _ => rfl
  | [_], _ => rfl

/-- The stems of the first `i` values, the last of which is the first gap. -/
theorem refines_counterStems (setup : Setup) (values : Vector Number counterCapacity)
    (vertical : Bool) (edge : Number) {i : Nat} (hi : i ≤ counterCapacity) :
    Refines Eq (counterStems setup values vertical edge i)
      (Decode.counterStems setup vertical edge (values.toList.take i).reverse) := by
  have hlen : values.toList.length = counterCapacity := values.length_toList
  induction i using Nat.strongRecOn generalizing vertical edge with
  | ind i ih =>
    rw [counterStems]
    by_cases hshort : i < 2
    · rw [dif_pos hshort, Decode.counterStems_short (by simp; omega)]
      exact refines_refuse _ _
    -- The array is read from its end and the list is reversed, so that two values from the one are
    -- the first two of the other.
    obtain ⟨k, rfl⟩ : ∃ k, i = k + 2 := ⟨i - 2, by omega⟩
    have htake : (values.toList.take (k + 2)).reverse =
        values[k + 1] :: values[k] :: (values.toList.take k).reverse := by
      rw [List.take_succ_eq_append_getElem (by omega), List.take_succ_eq_append_getElem (by omega)]
      simp
    have hrest (vertical : Bool) (edge : Number) := ih k (by omega) vertical edge (by omega)
    have hnil : (values.toList.take k).reverse = [] ↔ k = 0 := by
      rw [List.reverse_eq_nil_iff, List.take_eq_nil_iff, ← List.length_eq_zero_iff, hlen]
      simp [counterCapacity]
    intro m d hs
    rw [dif_neg hshort, htake, bind_ok (minus_run (by omega)), bind_ok (read_run (by omega)),
      bind_ok (minus_run (by omega)), bind_ok (read_run (by omega))]
    refine (refines_modify (fun a d => d.addStem_adjust a setup _ _ _) m d hs).bind fun _ _ _ => ?_
    refine refines_ite Iff.rfl (fun _ => ?_) fun _ => hrest _ _
    by_cases hk : k = 0
    · rw [hnil.2 hk, if_pos (by omega)]
      exact refines_pure rfl
    rw [if_neg (by omega)]
    split
    · next h => exact absurd (hnil.1 h) hk
    · refine (refines_modify fun _ _ => rfl).seq fun _ => refines_get fun m d hs => ?_
      rw [hs.rest]
      exact hrest _ _ m d hs

theorem follows_reportCounters (setup : Setup) (hs : m.Shows d) :
    Follows Eq (reportCounters setup m) ((do
      modify ({ · with counters := [] })
      match d.counters.reverse with
      | [] => pure ()
      | values =>
        modify ({ · with groupDue := true })
        Decode.counterStems setup false ((← get).stemOrigin.across false) values :
          Decode Unit) d) := by
  have hle := hs.counters.length_le
  have hsize := hs.counters.size
  rw [reportCounters, get_bind, bind_ok (Buffer.contents_run hs.counters),
    bind_ok (copyInto_run (by rw [hsize, Nat.zero_add]) (by omega))]
  generalize hvalues : overwrite _ 0 d.counters = values
  have htake : values.toList.take m.counters.size = d.counters := by
    rw [← hvalues, ← List.drop_zero (l := Vector.toList _)]
    exact segment_overwrite _ hsize.symm (by omega)
  refine Follows.bind (P := Eq) (.ok rfl (hs.setCounters Buffer.holds_clear)) fun _ _ _ => ?_
  by_cases hpos : 0 < m.counters.size
  · rw [if_pos hpos]
    split
    · next h =>
      rw [hsize, List.reverse_eq_nil_iff.1 h] at hpos
      exact absurd hpos (Nat.lt_irrefl 0)
    · refine (refines_modify fun _ _ => rfl).seq fun _ => refines_get fun m' d' hs' => ?_
      rw [hs'.rest, ← htake]
      exact refines_counterStems setup values false _ (by omega) m' d' hs'
  · have hnil : d.counters = [] := List.length_eq_zero_iff.1 (by omega)
    rw [if_neg hpos, hnil]
    exact refines_pure rfl

/-- The top operands are added to the counter hints, if there are so many. -/
theorem follows_counterHints (setup : Setup) {n : Nat} (complete : Bool) (hs : m.Shows d)
    (hn : n ≤ d.operands.size) :
    Follows Eq (counterHints setup n complete m) (Decode.counterHints setup n complete d) := by
  obtain ⟨l, values, hd, hv, hl⟩ := exists_top hn
  have hstack := hs.stack
  rw [hd] at hstack
  have hsize := hstack.size
  rw [List.length_append, hv] at hsize
  have hvalues : m.stack.top n m = .ok values m := by
    rw [Buffer.top_run hstack (by simp; omega), List.length_append, hv, Nat.add_sub_cancel,
      List.drop_left]
  have htake := hstack.truncate l.length
  rw [List.take_left] at htake
  rw [counterHints, get_bind, bind_ok (minus_run (by omega)), get_bind, bind_ok hvalues, get_bind,
    Decode.counterHints, get_bind, bind_ok (Decode.take_run (split?_eq hd hv hl)), hsize,
    Nat.add_sub_cancel]
  dsimp only [Vector.toList_mk]
  -- There is room in the array exactly if the list stays within its bound.
  by_cases hroom : d.counters.length + values.length ≤ counterCapacity
  · obtain ⟨buffer, hx, hh⟩ := Buffer.extend?_run (s := m) hs.counters (by decide) hroom
    have hfits : ¬(d.counters ++ values).length > counterCapacity := by
      rw [List.length_append]
      omega
    rw [if_neg hfits, bind_ok hx]
    have hleft : Buffer.Holds _ (Operands.mk l hl).toList := htake
    have hs' := (hs.setStack hleft).setCounters hh
    by_cases hc : complete
    · subst hc
      exact follows_reportCounters setup hs'
    · rw [Bool.not_eq_true] at hc
      subst hc
      exact .ok rfl hs'
  · have hfull : (d.counters ++ values).length > counterCapacity := by
      rw [List.length_append]
      omega
    rw [if_pos hfull, bind_ok (Buffer.extend?_run_full hs.counters (Nat.not_le.1 hroom))]
    exact .error hs.history

/-! ## The other subroutines -/

theorem ofInt_masters {n : Nat} (h : n ≤ Storage.maxMasters) :
    Number.toIndex? (Number.ofInt n) = some n := by
  have hall : ∀ k : Fin (Storage.maxMasters + 1),
      Number.toIndex? (Number.ofInt k.val) = some k.val := by
    decide +kernel
  exact hall ⟨n, Nat.lt_succ_of_le h⟩

theorem refines_storeWeights (setup : Setup) :
    Refines Eq (storeWeights setup) (Decode.storeWeights setup) := by
  unfold storeWeights Decode.storeWeights
  dsimp only
  refine refines_ite Iff.rfl (fun _ => refines_fail_bind _) fun hm => ?_
  have hle := Nat.not_lt.1 hm
  refine refines_pop_bind fun i => ?_
  have hrange : Number.range? i (Number.ofInt setup.font.masters) Storage.cellCount =
      i.toIndex?.bind fun k =>
        if k + setup.font.masters ≤ Storage.cellCount then some (k, setup.font.masters)
        else none := by
    rw [Number.range?, ofInt_masters hle]
    cases i.toIndex? with
    | none => rfl
    | some k =>
      dsimp only [Option.bind_some]
      congr 1
      simp only [eq_iff_iff]
      omega
  -- The arrays check a range, the list its first cell and then its last one. The error is the same.
  rw [hrange]
  show Refines Eq _ (Decode.orFail .boundsCheck i.toIndex? >>= fun cell => _)
  cases i.toIndex? with
  | none => exact refines_fail_bind _
  | some cell =>
    intro m d hs
    dsimp only [Option.bind_some]
    rw [bind_ok Decode.orFail_run]
    by_cases hroom : cell + setup.font.masters ≤ Storage.cellCount
    · have hlen : (segment d.storage.weights 0 setup.font.masters).length = setup.font.masters :=
        length_segment (by omega)
      rw [if_pos hroom, if_pos hroom, bind_ok orFail_run, get_bind, hs.storage,
        bind_ok (slice_run (Nat.zero_le _) hle), Nat.sub_zero,
        bind_ok (copyInto_run (by rw [hlen]) hroom)]
      exact follows_setStorage hs _
    · rw [if_neg hroom, if_neg hroom]
      exact .error hs.history

theorem refines_startFlex : Refines Eq (do
      aside (modify (·.startFlex))
      modify fun m => { m with flex := m.flex.clear }) (modify (·.startFlex)) := by
  intro m d hs
  rw [bind_ok aside_modify_run]
  have hplace : d.placeAccent.operands = d.operands ∧ d.placeAccent.counters = d.counters := by
    unfold Decoder.placeAccent
    split <;> exact ⟨rfl, rfl⟩
  refine .ok rfl ⟨?_, Buffer.holds_clear, ?_, ?_⟩
  · show m.stack.Holds d.placeAccent.operands.toList
    rw [hplace.1]
    exact hs.stack
  · show m.counters.Holds d.placeAccent.counters
    rw [hplace.2]
    exact hs.counters
  · show m.rest.startFlex = d.startFlex.bare
    rw [hs.rest]
    unfold Decoder.startFlex Decoder.bare
    rw [Decoder.placeAccent_adjust]
    rfl

/-- An other subroutine that has the operands it needs. -/
theorem follows_performOtherSubr (setup : Setup) {n : Nat} {subr : OtherSubr} (hs : m.Shows d)
    (hn : n ≤ d.operands.size) :
    Follows Eq (performOtherSubr setup n subr m) (Decode.performOtherSubr setup n subr d) := by
  cases subr with
  | endFlex => exact refines_endFlex setup n m d hs
  | startFlex => exact refines_startFlex m d hs
  | flexPoint => exact refines_pure rfl m d hs
  | renewHints => exact refines_modify (fun _ _ => rfl) m d hs
  | counterHints complete => exact follows_counterHints setup complete hs hn
  | blend k => exact refines_blend setup k m d hs
  | storeWeights => exact refines_storeWeights setup m d hs
  | calculate op => exact refines_calculate op m d hs

theorem refines_callOtherSubr (setup : Setup) :
    Refines Eq (callOtherSubr setup) (Decode.callOtherSubr setup) := by
  refine refines_take_bind fun v => (refines_orFail _ _).seq fun n => ?_
  intro m d hs
  refine follows_require_bind hs (fun hn => bind_error (Decode.require_run_short hn)) fun hn => ?_
  rw [bind_ok (Decode.require_run hn)]
  cases v.second.truncate? with
  | none => exact .error hs.history
  | some selector =>
    rw [bind_ok orFail_run, bind_ok Decode.orFail_run]
    cases OtherSubr.ofSelector? selector with
    | none => exact refines_refuse _ _ m d hs
    | some subr =>
      dsimp only
      refine follows_require_bind hs (fun ha => bind_error (Decode.require_run_short ha))
        fun ha => ?_
      rw [bind_ok (Decode.require_run ha)]
      exact follows_performOtherSubr setup hs hn

/-! ## Operators and instructions -/

theorem refines_next {x : Checked Unit} {y : Decode Unit} (h : Refines Eq x y) :
    Refines Eq (do x; return Control.next) (do y; return Control.next) :=
  h.seq fun _ => refines_pure rfl

theorem refines_draw {n : Nat} {f : Vector Number n → Decoder → Decoder}
    (hf : ∀ v a d, f v (d.adjust a) = (f v d).adjust a) : Refines Eq (draw n f) (Decode.draw n f) :=
  (refines_arguments n).seq fun v => (refines_modify (hf v)).seq fun _ =>
    refines_clear.seq fun _ => refines_pure rfl

theorem refines_moveWith (n : Nat) (delta : Vector Number n → Point) :
    Refines Eq (moveWith n delta) (Decode.moveWith n delta) :=
  (refines_arguments n).seq fun _ => (refines_move _).seq fun _ =>
    refines_clear.seq fun _ => refines_pure rfl

theorem hintStemAt_run {setup : Setup} {kind : StemKind} {l : List Number} {i : Nat}
    (hl : m.stack.Holds l) (hi : i * 2 + 1 < l.length) (hi' : i * 2 < l.length) :
    hintStemAt setup kind i m =
      .ok () { m with rest := m.rest.hintStem setup kind l[i * 2] l[i * 2 + 1] } := by
  have hle := hl.length_le
  have hword : Operands.capacity < wordSize := by decide
  rw [hintStemAt, bind_ok (times_run (by omega)), bind_ok (operand_run hl hi'),
    bind_ok (times_run (by omega)), bind_ok (plus_run (by omega)), bind_ok (operand_run hl hi)]
  rfl

theorem refines_hintStems (setup : Setup) (kind : StemKind) :
    Refines Eq (hintStems setup kind) (Decode.draw 6 fun v => .hintStems setup kind v) := by
  intro m d hs
  rw [hintStems, Decode.draw]
  refine follows_require_bind hs (fun hn => bind_error (Decode.arguments_run_short hn))
    fun hn => ?_
  have hlen : 6 ≤ d.operands.toList.length := hn
  obtain ⟨v, hv, hget⟩ : ∃ v, d.operands.bottom? 6 = some v ∧
      ∀ k (hk : k < 6), v[k] = d.operands.toList[k] := by
    rw [Operands.bottom?, dif_pos hn]
    exact ⟨_, rfl, fun k hk => by simp⟩
  have hl {rest : Decoder} : ({ m with rest } : Machine).stack.Holds d.operands.toList := hs.stack
  rw [bind_ok (Decode.arguments_run hv), bind_ok (hintStemAt_run hl (by omega) (by omega)),
    bind_ok (hintStemAt_run hl (by omega) (by omega)),
    bind_ok (hintStemAt_run hl (by omega) (by omega)), ← hget 0 (by decide),
    ← hget 1 (by decide), ← hget 2 (by decide), ← hget 3 (by decide), ← hget 4 (by decide),
    ← hget 5 (by decide)]
  exact ((refines_modify fun a d => d.hintStems_adjust a setup kind v).seq fun _ =>
    refines_clear.seq fun _ => refines_pure rfl) m d hs

theorem refines_perform (setup : Setup) (op : Operator) :
    Refines Eq (perform setup op) (Decode.perform setup op) := by
  cases op with
  | hstem | vstem => exact refines_draw fun v a d => d.hintStem_adjust a setup _ _ _
  | hstem3 | vstem3 => exact refines_hintStems setup _
  | rmoveto | hmoveto | vmoveto => exact refines_moveWith _ _
  | rlineto | hlineto | vlineto => exact refines_draw fun v a d => d.lineBy_adjust a _
  | rrcurveto | vhcurveto | hvcurveto =>
    exact refines_draw fun v a d => d.curveBy_adjust a setup _ _ _
  | closepath => exact refines_draw fun _ _ _ => rfl
  | setcurrentpoint => exact refines_draw fun v a d => d.setPoint_adjust a _
  | dotsection => exact refines_draw fun _ a d => d.report_adjust a _
  | hsbw =>
    exact (refines_arguments 2).seq fun _ => refines_clear.seq fun _ =>
      refines_aside fun a => Decode.commutes_metrics a setup _ _
  | sbw =>
    exact (refines_arguments 4).seq fun _ => refines_clear.seq fun _ =>
      refines_aside fun a => Decode.commutes_metrics a setup _ _
  | seac =>
    exact (refines_arguments 5).seq fun v => refines_clear.seq fun _ =>
      refines_aside fun a => Decode.commutes_accented a setup v
  | callsubr =>
    exact refines_pop_bind fun _ => (refines_orFail _ _).seq fun _ => refines_pure rfl
  | returnToCaller => exact refines_pure rfl
  | endchar => exact refines_clear.seq fun _ => refines_pure rfl
  | blend =>
    exact refines_pop_bind fun _ => (refines_orFail _ _).seq fun n =>
      refines_next (refines_blend setup n)
  | callothersubr => exact refines_next (refines_callOtherSubr setup)
  | pop => exact refines_pure rfl
  | calculate op => exact refines_next (refines_calculate op)
  | unknown code => exact refines_refuse _ _

/-- An instruction on arrays has the outcome of the instruction itself. -/
theorem refines_execute (setup : Setup) (i : Instruction) :
    Refines Eq (execute setup i) (Decode.execute setup i) := by
  cases i with
  | number value => exact refines_next (refines_push value)
  | operator op =>
    intro m d hs
    rw [execute, get_bind, bind_ok (Buffer.contents_run hs.stack), Decode.execute, modify_bind]
    have hrecord : Refines Eq _ _ := refines_modify
      (f := fun e => e.record (.began op d.operands.toList)) fun a e => e.record_adjust a _
    exact (hrecord m d hs).bind_of_ok fun _ m _ hs => refines_perform setup op m _ hs
  | reserved byte => exact refines_refuse _ _

end Checked

end Type1
