import Type1.Proofs.Checked.Operators
import Type1.Proofs.OperandNeeds

/-!
# What blending computes

Of the operands that are blended, the values of the first master come first, and the differences of
the other masters to them after these, value by value. All are read as they were before, although
the blended values take their places one by one.

* `blendedValue`: one value, by the indices of what it is computed from.
* `blendValues_eq`: the values that blending gives are these.
* `Decode.blend_run`, `Checked.blend_masters`, `Checked.blend_short`: all outcomes.
* `blend_exact`: the same as one statement, for the state and for the array that the operands are
  kept in.
-/

namespace Type1

/-- The value of the first master with the index `i`, with the weighted differences of the other
masters added in their order. -/
def blendedValue (weights : Vector Number Storage.maxMasters) (masters : Nat)
    (bases deltas : List Number) (i : Nat) : Number :=
  (List.range' 1 (masters - 1)).foldl
    (fun v m => v + weights[m]! * deltas[i * (masters - 1) + m - 1]!) bases[i]!

/-! ## Values -/

variable {weights : Vector Number Storage.maxMasters} {deltas : List Number} {masters : Nat}

/-- The weights of the other masters, with the differences of one value. -/
theorem zip_segment {k start : Nat} (hk : k < Storage.maxMasters)
    (hstart : start + k ≤ deltas.length) :
    (segment weights 1 k).zip ((deltas.drop start).take k) =
      (List.range' 1 k).map fun m => (weights[m]!, deltas[start + m - 1]!) := by
  have hlength : (segment weights 1 k).length = k := by
    rw [segment, List.length_take, List.length_drop, Vector.length_toList]
    omega
  refine List.ext_getElem ?_ fun j hj hj' => ?_
  · rw [List.length_zip, hlength, List.length_take, List.length_drop, List.length_map,
      List.length_range']
    omega
  · rw [List.length_map, List.length_range'] at hj'
    have hweight : weights[1 + j]! = weights[1 + j] := getElem!_pos weights (1 + j) (by omega)
    have hdelta : deltas[start + (1 + j) - 1]! = deltas[start + j] := by
      rw [show start + (1 + j) - 1 = start + j by omega]
      exact getElem!_pos deltas (start + j) (by omega)
    rw [List.getElem_zip, List.getElem_map, List.getElem_range', Nat.one_mul, hweight, hdelta]
    simp only [segment, List.getElem_take, List.getElem_drop, Vector.getElem_toList]

/-- The differences of a value come after those of all values before it. -/
theorem getElem?_blendValues (weights bases differences : List Number) (i : Nat) :
    (blendValues weights bases differences)[i]? = bases[i]?.map fun base =>
      blendValue weights base ((differences.drop (i * weights.length)).take weights.length) := by
  induction bases generalizing differences i with
  | nil => rfl
  | cons base bases ih =>
    cases i with
    | zero => rw [blendValues, Nat.zero_mul]; rfl
    | succ i =>
      rw [blendValues, List.getElem?_cons_succ, List.getElem?_cons_succ, ih, List.drop_drop,
        Nat.succ_mul, Nat.add_comm]

/-- Each value is blended with its own differences. -/
theorem blendValues_eq {bases : List Number} (hmany : 2 ≤ masters)
    (hfew : masters ≤ Storage.maxMasters) (hdeltas : deltas.length = bases.length * (masters - 1)) :
    blendValues (segment weights 1 (masters - 1)) bases deltas =
      (List.range bases.length).map (blendedValue weights masters bases deltas) := by
  have hlength : (segment weights 1 (masters - 1)).length = masters - 1 := by
    rw [segment, List.length_take, List.length_drop, Vector.length_toList]
    omega
  refine List.ext_getElem? fun i => ?_
  rw [getElem?_blendValues, hlength, List.getElem?_map]
  rcases Nat.lt_or_ge i bases.length with hi | hi
  · have hwithin : i * (masters - 1) + (masters - 1) ≤ deltas.length := by
      rw [hdeltas, ← Nat.succ_mul]
      exact Nat.mul_le_mul_right _ hi
    rw [List.getElem?_eq_getElem hi, List.getElem?_range hi, Option.map_some, Option.map_some,
      blendValue, zip_segment (by omega) hwithin, List.foldl_map, blendedValue,
      getElem!_pos bases i hi]
  · rw [List.getElem?_eq_none hi, List.getElem?_eq_none (by rwa [List.length_range])]
    rfl

/-! ## Outcomes -/

namespace Decode

variable {setup : Setup} {d : Decoder} {n : Nat}

theorem blend_masters (h : setup.font.masters ≤ 1 ∨ Storage.maxMasters < setup.font.masters) :
    blend setup n d = .error .invalidWeightVector d := by
  unfold blend
  dsimp only
  rw [if_pos h]
  rfl

theorem blend_short (hmany : 2 ≤ setup.font.masters)
    (hfew : setup.font.masters ≤ Storage.maxMasters)
    (h : d.operands.size < n * setup.font.masters) :
    blend setup n d = .error .stackUnderflow d := by
  refine (needs_blend setup n).short d ?_
  rwa [Font.blendArity, if_pos ⟨hmany, hfew⟩]

/-- The blended values take the place of what they are computed from. -/
theorem blend_run {below bases deltas : List Number} (hmany : 2 ≤ setup.font.masters)
    (hfew : setup.font.masters ≤ Storage.maxMasters)
    (hoperands : d.operands.toList = below ++ bases ++ deltas)
    (hdeltas : deltas.length = bases.length * (setup.font.masters - 1)) :
    ∃ operands, blend setup bases.length d = .ok () { d with operands, blended := true } ∧
      operands.toList = below ++ (List.range bases.length).map
        (blendedValue d.storage.weights setup.font.masters bases deltas) := by
  have hcapacity := d.operands.length_le
  have htotal : (bases ++ deltas).length = bases.length * setup.font.masters := by
    rw [List.length_append, hdeltas, Nat.add_comm, ← Nat.mul_succ]
    congr 1
    omega
  rw [hoperands, List.append_assoc, List.length_append] at hcapacity
  have hsplit := Checked.split?_eq (hoperands.trans (List.append_assoc ..)) htotal (by omega)
  have hvalues : (below ++ blendValues (segment d.storage.weights 1 (setup.font.masters - 1)) bases
      deltas).length ≤ Operands.capacity := by
    rw [List.length_append, length_blendValues]
    rw [List.length_append] at hcapacity
    omega
  refine ⟨⟨_, hvalues⟩, ?_, congrArg (below ++ ·) (blendValues_eq hmany hfew hdeltas)⟩
  unfold blend
  dsimp only
  rw [if_neg (by omega), bind_run (take_run hsplit), get_bind_run]
  dsimp only [Vector.toList_mk]
  rw [List.take_left, List.drop_left, bind_run (pushAll_run (Checked.append?_eq rfl hvalues))]
  rfl

/-- With enough operands a blend finds the values of the first master and their differences. -/
theorem blend_run_of_le (hmany : 2 ≤ setup.font.masters)
    (hfew : setup.font.masters ≤ Storage.maxMasters)
    (hle : n * setup.font.masters ≤ d.operands.size) :
    ∃ below bases deltas operands, d.operands.toList = below ++ bases ++ deltas ∧
      bases.length = n ∧ deltas.length = n * (setup.font.masters - 1) ∧
      blend setup n d = .ok () { d with operands, blended := true } ∧
      operands.toList = below ++ (List.range n).map
        (blendedValue d.storage.weights setup.font.masters bases deltas) := by
  obtain ⟨below, values, hd, hvalues, -⟩ := Checked.exists_top hle
  have htotal : n * setup.font.masters = n * (setup.font.masters - 1) + n := by
    rw [← Nat.mul_succ]
    congr 1
    omega
  have hbases : (values.take n).length = n := by
    rw [List.length_take]
    omega
  have hdeltas : (values.drop n).length = n * (setup.font.masters - 1) := by
    rw [List.length_drop]
    omega
  rw [← List.take_append_drop n values, ← List.append_assoc] at hd
  obtain ⟨operands, hrun, hoperands⟩ := blend_run hmany hfew hd (by rw [hbases, hdeltas])
  rw [hbases] at hrun hoperands
  exact ⟨below, _, _, operands, hd, hbases, hdeltas, hrun, hoperands⟩

/-- A blend finds a number of masters that it cannot work with, or too few operands, or it
succeeds. -/
theorem blend_cases (setup : Setup) (n : Nat) (d : Decoder) :
    ((setup.font.masters ≤ 1 ∨ Storage.maxMasters < setup.font.masters) ∧
      blend setup n d = .error .invalidWeightVector d) ∨
    (2 ≤ setup.font.masters ∧ setup.font.masters ≤ Storage.maxMasters ∧
      ((d.operands.size < n * setup.font.masters ∧
        blend setup n d = .error .stackUnderflow d) ∨
      (n * setup.font.masters ≤ d.operands.size ∧
        ∃ operands, blend setup n d = .ok () { d with operands, blended := true }))) := by
  by_cases hmasters : setup.font.masters ≤ 1 ∨ Storage.maxMasters < setup.font.masters
  · exact .inl ⟨hmasters, blend_masters hmasters⟩
  obtain ⟨hmany, hfew⟩ : 2 ≤ setup.font.masters ∧ setup.font.masters ≤ Storage.maxMasters := by
    omega
  refine .inr ⟨hmany, hfew, ?_⟩
  rcases Nat.lt_or_ge d.operands.size (n * setup.font.masters) with hshort | hle
  · exact .inl ⟨hshort, blend_short hmany hfew hshort⟩
  · obtain ⟨-, -, -, operands, -, -, -, hrun, -⟩ := blend_run_of_le hmany hfew hle
    exact .inr ⟨hle, operands, hrun⟩

/-- The operator takes the number of values off the stack first. -/
theorem perform_blend {count : Number} {operands : Operands}
    (htop : operands.toList = d.operands.toList ++ [count]) (hcount : count.toIndex? = some n) :
    perform setup .blend { d with operands } =
      (blend setup n >>= fun _ => pure .next : Decode Control) d := by
  have htake : take 1 { d with operands } = .ok #v[count] d :=
    take_run (Checked.split?_eq (n := 1) htop rfl d.operands.length_le)
  rw [perform, bind_run htake]
  show (orFail _ count.toIndex? >>= _) d = _
  rw [hcount]
  rfl

theorem blend_error_iff {y : Error} {e : Decoder} : blend setup n d = .error y e ↔
    e = d ∧ ((y = .invalidWeightVector ∧
        (setup.font.masters ≤ 1 ∨ Storage.maxMasters < setup.font.masters)) ∨
      (y = .stackUnderflow ∧ 2 ≤ setup.font.masters ∧ setup.font.masters ≤ Storage.maxMasters ∧
        d.operands.size < n * setup.font.masters)) := by
  constructor
  · intro h
    rcases blend_cases setup n d with ⟨hbad, hx⟩ | ⟨hmany, hfew, ⟨hshort, hx⟩ | ⟨-, c, hx⟩⟩ <;>
      cases hx.symm.trans h
    · exact ⟨rfl, .inl ⟨rfl, hbad⟩⟩
    · exact ⟨rfl, .inr ⟨rfl, hmany, hfew, hshort⟩⟩
  · rintro ⟨rfl, ⟨rfl, hbad⟩ | ⟨rfl, hmany, hfew, hshort⟩⟩
    · exact blend_masters hbad
    · exact blend_short hmany hfew hshort

end Decode

namespace Checked

open Guarded

variable {setup : Setup} {m : Machine} {d : Decoder} {n : Nat}

theorem blend_masters (h : setup.font.masters ≤ 1 ∨ Storage.maxMasters < setup.font.masters) :
    blend setup n m = .error (.failed .invalidWeightVector) m := by
  unfold blend
  dsimp only
  rw [if_pos h]
  rfl

/-- The total may be too large for a machine word, or only for the stack. -/
theorem blend_short (hs : m.Shows d) (hmany : 2 ≤ setup.font.masters)
    (hfew : setup.font.masters ≤ Storage.maxMasters)
    (h : d.operands.size < n * setup.font.masters) :
    blend setup n m = .error (.failed .stackUnderflow) m := by
  unfold blend
  dsimp only
  rw [if_neg (by omega)]
  by_cases hword : n * setup.font.masters < wordSize
  · rw [if_pos hword, bind_ok orFail_run, bind_error (require_run_short hs h)]
  · rw [if_neg hword]
    rfl

end Checked

/-- Blending `n` values fails with `invalidWeightVector` exactly if there are fewer than two masters
or more than 16, whatever the operands, and else by too few operands exactly if there are fewer than
`n` for each master, however many these would be. A failure leaves everything as it was. Otherwise
the values of the first master, and the differences above them, give way to the blended values in
their order; those below stay, and it is noted that values were blended. Nothing else is changed. In
the array of the operands, where the values are replaced one by one while differences are still
read, and where the total is a machine word, all is the same. The operator takes the number of
values off the stack first. -/
theorem blend_exact (setup : Setup) (n : Nat) (d : Decoder) :
    let masters := setup.font.masters
    let result := Decode.blend setup n d
    ((∃ e, result = .error .invalidWeightVector e) ↔ masters ≤ 1 ∨ 16 < masters) ∧
    ((∃ e, result = .error .stackUnderflow e) ↔
      2 ≤ masters ∧ masters ≤ 16 ∧ d.operands.size < n * masters) ∧
    (∀ y e, result = .error y e → e = d ∧ (y = .invalidWeightVector ∨ y = .stackUnderflow)) ∧
    (2 ≤ masters → masters ≤ 16 → ∀ below bases deltas,
      d.operands.toList = below ++ bases ++ deltas → bases.length = n →
      deltas.length = n * (masters - 1) → ∃ operands,
        result = .ok () { d with operands, blended := true } ∧
        operands.toList =
          below ++ (List.range n).map (blendedValue d.storage.weights masters bases deltas)) ∧
    (∀ m : Machine, m.Shows d →
      (∀ y e, result = .error y e → Checked.blend setup n m = .error (.failed y) m) ∧
      ∀ e, result = .ok () e → ∃ m', Checked.blend setup n m = .ok () m' ∧ m'.Shows e) ∧
    ∀ count operands, operands.toList = d.operands.toList ++ [count] → count.toIndex? = some n →
      Decode.perform setup .blend { d with operands } =
        (Decode.blend setup n >>= fun _ => pure .next : Decode Control) d := by
  intro masters result
  refine ⟨⟨?_, fun h => ⟨d, Decode.blend_masters h⟩⟩,
    ⟨?_, fun ⟨hmany, hfew, hshort⟩ => ⟨d, Decode.blend_short hmany hfew hshort⟩⟩, ?_, ?_,
    fun m hs => ⟨fun y e h => ?_, fun e h => ?_⟩, fun _ _ => Decode.perform_blend⟩
  · rintro ⟨e, h⟩
    obtain ⟨-, ⟨-, hbad⟩ | ⟨hy, -⟩⟩ := Decode.blend_error_iff.1 h
    · exact hbad
    · cases hy
  · rintro ⟨e, h⟩
    obtain ⟨-, ⟨hy, -⟩ | ⟨-, hshort⟩⟩ := Decode.blend_error_iff.1 h
    · cases hy
    · exact hshort
  · intro y e h
    obtain ⟨rfl, ⟨hy, -⟩ | ⟨hy, -⟩⟩ := Decode.blend_error_iff.1 h
    · exact ⟨rfl, .inl hy⟩
    · exact ⟨rfl, .inr hy⟩
  · rintro hmany hfew below bases deltas hoperands rfl hdeltas
    exact Decode.blend_run hmany hfew hoperands hdeltas
  · obtain ⟨-, ⟨rfl, hbad⟩ | ⟨rfl, hmany, hfew, hshort⟩⟩ := Decode.blend_error_iff.1 h
    · exact Checked.blend_masters hbad
    · exact Checked.blend_short hs hmany hfew hshort
  · -- The values are replaced from the lowest one up, and the differences of a value stand above
    -- it: none that is still to be read has been replaced.
    have hfollows := Checked.refines_blend setup n m d hs
    rw [show Decode.blend setup n d = .ok () e from h] at hfollows
    generalize Checked.blend setup n m = r at hfollows
    cases hfollows with
    | ok _ hs' => exact ⟨_, rfl, hs'⟩

/-- Two values of three masters, above an operand that stays. -/
theorem blend_exact_three :
    let setup : Setup := { font := { masters := 3 } }
    let d : Decoder :=
      { operands := ⟨[7, 10, 20, 2, 4, 8, 16], (by decide : 7 ≤ 48)⟩
        storage := .ofVectors [0.25, 0.5, 0.25] [] [] }
    ∃ operands, Decode.blend setup 2 d = .ok () { d with operands, blended := true } ∧
      operands.toList = [7, 12, 28] := by
  intro setup d
  obtain ⟨-, -, -, hrun, -⟩ := blend_exact setup 2 d
  obtain ⟨operands, hblend, hoperands⟩ := hrun (by decide) (by decide) [7] [10, 20] [2, 4, 8, 16]
    rfl rfl rfl
  have hvalues : (List.range 2).map (blendedValue d.storage.weights 3 [10, 20] [2, 4, 8, 16]) =
      [12, 28] := by
    decide +kernel
  exact ⟨operands, hblend, hoperands.trans (congrArg ([7] ++ ·) hvalues)⟩

end Type1
