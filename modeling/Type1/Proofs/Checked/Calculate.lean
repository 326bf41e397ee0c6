import Type1.Proofs.Checked.Refinement

/-!
# Calculations on arrays

Each calculation on arrays refines the calculation itself, from every state that the arrays show. A
fault is no outcome of a calculation, so none of the accesses that are checked has one.

* `Number.range?_le`, `Number.range?_count`: what a range that was checked is good for. Two ranges
  from one operand have as many cells, so a copy from one to the other fits.
* `refines_calculate`: all calculations.
-/

namespace Type1

namespace Number

/-- A range that was checked lies in the capacity. -/
theorem range?_le {start count : Number} {capacity i n : Nat}
    (h : range? start count capacity = some (i, n)) : i + n ≤ capacity := by
  unfold range? at h
  split at h
  · split at h
    · cases h
      omega
    · cases h
  · cases h

/-- The counts of two ranges from one operand are the same. -/
theorem range?_count {start start' count : Number} {capacity capacity' i i' n n' : Nat}
    (h : range? start count capacity = some (i, n))
    (h' : range? start' count capacity' = some (i', n')) : n = n' := by
  unfold range? at h h'
  cases hc : toIndex? count with
  | none =>
    rw [hc] at h
    cases hs : toIndex? start <;> simp [hs] at h
  | some k =>
    rw [hc] at h h'
    cases hs : toIndex? start <;> cases hs' : toIndex? start' <;> simp [hs, hs'] at h h'
    omega

theorem toIndex?_zero : toIndex? 0 = some 0 := by decide +kernel

/-- A range from the number zero on begins at the index zero. -/
theorem range?_zero {count : Number} {capacity i n : Nat}
    (h : range? 0 count capacity = some (i, n)) : i = 0 := by
  rw [range?, toIndex?_zero] at h
  cases hc : toIndex? count with
  | none => simp [hc] at h
  | some k =>
    simp [hc] at h
    omega

end Number

theorem Storage.writeRegister_eq (m : Storage) (r : Register) (start : Nat)
    (values : List Number) :
    m.writeRegister r start values = m.replace r (overwrite (m.register r) start values) := by
  cases r <;> rfl

namespace Checked

open Guarded

variable {α β γ δ : Type} {P : α → β → Prop}

/-! ## Calculations -/

/-- A cell changed. -/
theorem set_eq_overwrite {n i : Nat} (cells : Vector Number n) (v : Number) (h : i < n) :
    cells.set i v = overwrite cells i [v] := by
  ext k hk
  simp only [overwrite, Vector.getElem_ofFn, Vector.getElem_set, List.length_singleton,
    Fin.getElem_fin]
  by_cases hki : i = k
  · subst hki
    simp
  · rw [if_neg hki, dif_neg (by omega)]

/-- The beginning of cells that were overwritten from their beginning. -/
theorem segment_overwrite {n k : Nat} (cells : Vector Number n) {values : List Number}
    (hv : values.length = k) (hk : k ≤ n) : segment (overwrite cells 0 values) 0 k = values := by
  have hle : values.length ≤ cells.toList.length := by
    rw [hv, Vector.length_toList]
    exact hk
  have h := toList_overwrite (List.nil_append cells.toList).symm hle
  rw [List.length_nil] at h
  rw [segment, h]
  simp [← hv]

theorem refines_unary (f : Number → Number) : Refines Eq (unary f) (Decode.unary f) :=
  refines_pop_bind fun _ => refines_push _

theorem refines_binary (f : Number → Number → Number) : Refines Eq (binary f) (Decode.binary f) :=
  refines_take_bind fun _ => refines_push _

/-- A copy of an operand, if the stack goes down so far. -/
theorem follows_duplicate (i : Int) {m : Machine} {d : Decoder} (hs : m.Shows d)
    (h : 0 < d.operands.size) : Follows Eq (duplicate i m) (Decode.index i d) := by
  have hle := d.operands.length_le
  rw [duplicate, get_bind, Decode.index, get_bind]
  by_cases hi : i.toNat < d.operands.size
  · rw [Operands.size] at hi h
    have hlt : d.operands.toList.length - 1 - i.toNat < d.operands.toList.length := by omega
    rw [Operands.fromTop?, List.getElem?_reverse hi, List.getElem?_eq_getElem hlt,
      bind_congr (Buffer.duplicate_eq hs.stack hi hlt)]
    exact refines_push _ m d hs
  · have htop : d.operands.fromTop? i.toNat = none := by
      rw [Operands.fromTop?, List.getElem?_eq_none]
      rw [List.length_reverse]
      exact Nat.le_of_not_lt hi
    rw [htop, bind_error (Buffer.duplicate_run_short hs.stack h (Nat.le_of_not_lt hi))]
    exact .error hs.history

theorem refines_exchange : Refines Eq exchange (Decode.calculate .exch) := by
  intro m d hs
  rw [exchange, get_bind, Decode.calculate]
  by_cases hn : 2 ≤ d.operands.size
  · obtain ⟨l, v, w, hd, hl, -⟩ := exists_top_two hn
    have hle := d.operands.length_le
    rw [hd] at hle
    obtain ⟨stack, hx, hh⟩ := Buffer.exchange_run (s := m) (hd ▸ hs.stack)
    rw [bind_ok hx, bind_ok (Decode.take_run (split?_eq (n := 2) hd rfl hl))]
    show Follows Eq _ (Decode.pushAll [w, v] _)
    rw [Decode.pushAll_run (append?_eq rfl (by simpa using hle))]
    exact .ok rfl (hs.setStack hh)
  · rw [bind_error (Decode.take_run_short (Nat.not_le.1 hn)), Buffer.exchange,
      bind_error (bind_error (Buffer.require_run_short hs.stack (Nat.not_le.1 hn)))]
    exact .error hs.history

theorem refines_roll (n j : Int) : Refines Eq (roll n j) (Decode.roll n j) := by
  intro m d hs
  rw [roll, get_bind, Decode.roll, get_bind]
  by_cases hn : 0 < n ∧ n ≤ d.operands.size
  · obtain ⟨l, values, hd, hv, hl⟩ := exists_top (d := d) (n := n.toNat) (by omega)
    have hle := d.operands.length_le
    rw [hd, List.length_append] at hle
    obtain ⟨stack, hx, hh⟩ := Buffer.roll_run (s := m) (hd ▸ hs.stack)
      (show n = values.length by omega) hn.1
      (by decide) j
    rw [bind_ok hx, if_pos hn, bind_ok (Decode.take_run (split?_eq hd hv hl))]
    have hlen : (values.length : Int) = n := by omega
    have hrotate : rotate j values = values.drop (values.length - (j % n).toNat) ++
        values.take (values.length - (j % n).toNat) := by
      rw [rotate, hlen]
    show Follows Eq _ (Decode.pushAll (rotate j values) _)
    rw [hrotate, Decode.pushAll_run (append?_eq rfl ?_)]
    · exact .ok rfl (hs.setStack hh)
    · simp only [List.length_append, List.length_drop, List.length_take]
      omega
  · have hsize : m.stack.size = d.operands.size := hs.stack.size
    rw [if_neg hn, Buffer.roll, hsize, if_neg hn]
    exact .error hs.history

/-- The store is part of what the arrays leave aside. -/
theorem follows_setStorage {m : Machine} {d : Decoder} (hs : m.Shows d) (storage : Storage) :
    Follows Eq (aside (modify ({ · with storage })) m)
      (.ok () { d with storage } : EStateM.Result Error Decoder Unit) :=
  refines_modify (fun _ _ => rfl) m d hs

theorem refines_put (i : Nat) (v : Number) : Refines Eq (put i v) (do
    if i < Storage.cellCount then
      modify fun d => { d with storage := d.storage.writeCells i [v] }
    else
      throw .boundsCheck) := by
  refine refines_ite Iff.rfl (fun hi => ?_) fun _ => refines_fail _
  intro m d hs
  rw [get_bind, hs.storage, bind_ok (write_run hi), set_eq_overwrite]
  exact follows_setStorage hs _

/-- Values of which one is missing are an error, whichever is looked for first. -/
theorem refines_orFail_swap {ι κ : Type} {e : Error} {o : Option ι} {o' : Option κ}
    {k : ι → κ → Checked α} {l : ι → κ → Decode β}
    (h : ∀ a b, o = some a → o' = some b → Refines P (k a b) (l a b)) :
    Refines P (orFail e o >>= fun a => orFail e o' >>= k a)
      (Decode.orFail e o' >>= fun b => Decode.orFail e o >>= fun a => l a b) := by
  cases o with
  | none => cases o' <;> exact refines_fail e
  | some a =>
    cases o' with
    | none => exact refines_fail e
    | some b => exact h a b rfl rfl

theorem refines_orFail_bind {ι : Type} {e : Error} {o : Option ι} {k : ι → Checked α}
    {l : ι → Decode β} (h : ∀ a, o = some a → Refines P (k a) (l a)) :
    Refines P (orFail e o >>= k) (Decode.orFail e o >>= l) := by
  cases o with
  | none => exact refines_fail_bind e
  | some a => exact h a rfl

theorem refines_store (v : Vector Number 4) : Refines Eq (store v) (Decode.store v) := by
  refine refines_orFail_swap fun p register hcell hregister => ?_
  refine refines_orFail_bind fun q hstart => ?_
  obtain ⟨cell, n⟩ := p
  obtain ⟨start, k⟩ := q
  have hcount := Number.range?_count hcell hstart
  have hle := Number.range?_le hcell
  have hle' := Number.range?_le hstart
  subst hcount
  intro m d hs
  dsimp only
  have hlen : (segment d.storage.cells cell n).length = n := length_segment hle
  rw [get_bind, hs.storage, bind_ok (slice_run (Nat.le_add_right _ _) hle), Nat.add_sub_cancel_left,
    bind_ok (copyInto_run (by rw [hlen]) hle'), ← Storage.writeRegister_eq]
  exact follows_setStorage hs _

theorem refines_load (v : Vector Number 3) : Refines Eq (load v) (Decode.load v) := by
  refine refines_orFail_swap fun p register hcell hregister => ?_
  refine refines_orFail_bind fun q hstart => ?_
  obtain ⟨cell, n⟩ := p
  obtain ⟨start, k⟩ := q
  have hcount := Number.range?_count hcell hstart
  have hle := Number.range?_le hcell
  have hle' := Number.range?_le hstart
  obtain rfl := Number.range?_zero hstart
  subst hcount
  intro m d hs
  dsimp only
  have hn : n ≤ register.size := by omega
  have hsize : register.size ≤ Storage.maxMasters := by cases register <;> decide
  have hlen : (segment (d.storage.register register) 0 n).length = n := length_segment (by omega)
  rw [get_bind, hs.storage, bind_ok (slice_run (Nat.le_add_right _ _) hle'),
    Nat.add_sub_cancel_left, bind_ok (copyInto_run (by rw [hlen, Nat.zero_add]) (by omega)),
    bind_ok (slice_run (Nat.zero_le _) (by omega)), Nat.sub_zero,
    segment_overwrite _ hlen (by omega), bind_ok (copyInto_run (by rw [hlen]) hle)]
  exact follows_setStorage hs _

/-- After a check for two operands the top one is taken, and one more is there. -/
theorem refines_require_pop {k : Number → Checked α} {y : Decode β}
    (hshort : ∀ d, d.operands.size < 2 → y d = .error .stackUnderflow d)
    (h : ∀ m d l v i, d.operands.toList = l ++ [v, i] → l.length ≤ Operands.capacity →
      ∀ hl, m.Shows { d with operands := ⟨l ++ [v], hl⟩ } → Follows P (k i m) (y d)) :
    Refines P (require 2 >>= fun _ => pop >>= k) y := by
  intro m d hs
  refine follows_require_bind hs (hshort d) fun hn => ?_
  obtain ⟨l, v, i, hd, hl, hl'⟩ := exists_top_two hn
  obtain ⟨stack, hp, hs'⟩ := pop_run hs (hd.trans (List.append_cons l v [i])) hl'
  rw [bind_ok hp]
  exact h _ d l v i hd hl hl' hs'

theorem refines_index : Refines Eq (calculate .index) (Decode.calculate .index) := by
  rw [calculate, Decode.calculate]
  refine refines_require_pop (fun d h => bind_error (Decode.require_run_short h))
    fun m d l v i hd _ hl hs => ?_
  have hn : 2 ≤ d.operands.size := by simp [Operands.size, hd]
  have hd' : d.operands.toList = (l ++ [v]) ++ [i] := hd.trans (List.append_cons l v [i])
  rw [bind_ok (Decode.require_run hn), bind_ok (Decode.take_run (split?_eq (n := 1) hd' rfl hl))]
  show Follows Eq ((orFail _ i.truncate? >>= duplicate) _)
    ((Decode.orFail _ i.truncate? >>= Decode.index) _)
  cases i.truncate? with
  | none => exact .error hs.history
  | some i => exact follows_duplicate i hs (by simp [Operands.size])

theorem refines_putTop : Refines Eq (calculate .put) (Decode.calculate .put) := by
  rw [calculate, Decode.calculate]
  refine refines_require_pop (fun d h => bind_error (Decode.take_run_short h))
    fun m d l v i hd hl _ hs => ?_
  rw [bind_ok (Decode.take_run (split?_eq (n := 2) hd rfl hl))]
  show Follows Eq ((orFail _ i.toIndex? >>= fun k => pop >>= put k) _)
    ((Decode.orFail _ i.toIndex? >>= fun k => _) _)
  cases i.toIndex? with
  | none => exact .error hs.history
  | some k =>
    obtain ⟨stack, hp, hs'⟩ := pop_run hs (l := l) (v := v) rfl hl
    show Follows Eq ((pop >>= put k) _) _
    rw [bind_ok hp]
    exact refines_put k v _ _ hs'

theorem refines_calculate (op : Calculation) :
    Refines Eq (calculate op) (Decode.calculate op) := by
  cases op with
  | and | or | eq | add | sub | mul | div =>
    rw [calculate, Decode.calculate]
    exact refines_binary _
  | not | abs | neg =>
    rw [calculate, Decode.calculate]
    exact refines_unary _
  | sqrt =>
    refine refines_pop_bind fun a => ?_
    exact refines_ite Iff.rfl (fun _ => refines_fail_bind _) fun _ => refines_push _
  | drop => exact refines_pop_bind fun _ => refines_pure rfl
  | dup => exact refines_pop_bind fun a => refines_push_push a a
  | exch => exact refines_exchange
  | index => exact refines_index
  | roll =>
    refine refines_take_bind fun v => ?_
    cases v.first.truncate? with
    -- The two are converted in the other order, but with the same error.
    | none => cases v.second.truncate? <;> exact refines_fail .boundsCheck
    | some n =>
      cases v.second.truncate? with
      | none => exact refines_fail .boundsCheck
      | some j => exact refines_roll n j
  | put => exact refines_putTop
  | get =>
    refine refines_pop_bind fun a => (refines_orFail _ _).seq fun i => refines_get fun m d hs => ?_
    rw [hs.storage]
    exact (refines_orFail _ _).seq (fun v => refines_push v) m d hs
  | ifelse => exact refines_take_bind fun _ => refines_push _
  | random =>
    refine refines_get fun m d hs => ?_
    rw [hs.seed]
    refine (refines_modify fun _ _ => rfl).seq
      (fun _ => refines_ensure_bind ?_ (refines_push _)) m d hs
    rw [UInt32.toNat_and]
    exact Nat.lt_of_le_of_lt (Nat.add_le_add_right Nat.and_le_right 1) (by decide)
  | store => exact refines_take_bind refines_store
  | load => exact refines_take_bind refines_load

end Checked

end Type1
