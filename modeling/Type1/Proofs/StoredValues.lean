import Type1.Proofs.Blending
import Type1.Proofs.Memory
import Type1.Proofs.Moments

/-!
# What the storage holds

The cells and the registers behave as memory: whatever is read is what was written there last, and
what nothing has written is what the font gives.

* `Storage.Address`, `Storage.read`: the places of the storage, of cells and registers alike.
* `Storage.Transfer`: what is written, and from where. `Storage.read_apply`: nothing else changes.
* `Storage.Write`, `Storage.Request`: what the operands of an instruction ask for, before they are
  read as indices (`Instruction.request?`).
* `Decode.execute_write`, `Decode.execute_get`, `Decode.execute_blend`: what comes of a request.
* `Run.Latest`: the value that an address was given last.
* `storage_is_memory`: the storage at each moment of a run, and what each instruction does with it.
-/

namespace Type1

namespace Storage

/-! ## Places -/

/-- A place of the storage. -/
inductive Address where
  /-- A cell. -/
  | cell (k : Nat)
  /-- A place in a register. -/
  | register (r : Register) (k : Nat)
deriving DecidableEq

/-- The number at a place, if there is such a place. -/
def read (m : Storage) : Address → Option Number
  | .cell k => m.cells[k]?
  | .register r k => (m.register r)[k]?

/-- What is written, with the places that it is read from. -/
inductive Transfer where
  /-- A number into a cell. -/
  | put (v : Number) (k : Nat)
  /-- Cells into a register, from a place in it on. -/
  | store (r : Register) (start cell count : Nat)
  /-- The beginning of a register into cells. -/
  | load (r : Register) (cell count : Nat)

namespace Transfer

/-- All the places that are written or read are there. -/
def Fits : Transfer → Prop
  | put _ k => k < cellCount
  | store r start cell count => cell + count ≤ cellCount ∧ start + count ≤ r.size
  | load r cell count => cell + count ≤ cellCount ∧ count ≤ r.size

/-- The number that is written at a place, if one is. -/
def value? (m : Storage) : Transfer → Address → Option Number
  | put v k, .cell c => if c = k then some v else none
  | store r start cell count, .register r' k =>
    if r' = r ∧ start ≤ k ∧ k < start + count then m.read (.cell (cell + (k - start))) else none
  | load r cell count, .cell c =>
    if cell ≤ c ∧ c < cell + count then m.read (.register r (c - cell)) else none
  | _, _ => none

/-- The storage afterwards. -/
def apply (m : Storage) : Transfer → Storage
  | put v k => m.writeCells k [v]
  | store r start cell count => m.writeRegister r start (segment m.cells cell count)
  | load r cell count => m.writeCells cell (segment (m.register r) 0 count)

end Transfer

/-! ## Transfers -/

theorem getElem?_overwrite {n start : Nat} {cells : Vector Number n} {values : List Number}
    (h : start + values.length ≤ n) (k : Nat) :
    (overwrite cells start values)[k]? =
      if start ≤ k ∧ k < start + values.length then values[k - start]? else cells[k]? := by
  rcases Nat.lt_or_ge k n with hk | hk
  · rw [Vector.getElem?_eq_getElem hk, Vector.getElem?_eq_getElem hk, overwrite,
      Vector.getElem_ofFn]
    by_cases hin : start ≤ k ∧ k < start + values.length
    · have hlt : k - start < values.length := by omega
      rw [dif_pos ⟨hin.1, hlt⟩, if_pos hin, List.getElem?_eq_getElem hlt]
    · rw [dif_neg fun h => hin ⟨h.1, by have := h.2; dsimp only at this; omega⟩, if_neg hin]
      rfl
  · rw [Vector.getElem?_eq_none hk, Vector.getElem?_eq_none hk, if_neg (by omega)]

theorem getElem?_segment {n start count j : Nat} (cells : Vector Number n) (hj : j < count) :
    (segment cells start count)[j]? = cells[start + j]? := by
  rw [segment, List.getElem?_take_of_lt hj, List.getElem?_drop, Vector.getElem?_toList]

section Writing

variable {m : Storage} {start : Nat} {values : List Number} {r r' : Register}

theorem read_writeCells (h : start + values.length ≤ cellCount) (k : Nat) :
    (m.writeCells start values).read (.cell k) =
      if start ≤ k ∧ k < start + values.length then values[k - start]? else m.read (.cell k) :=
  getElem?_overwrite h k

theorem register_writeCells (m : Storage) (start : Nat) (values : List Number) (r : Register) :
    (m.writeCells start values).register r = m.register r := by
  cases r <;> simp only [register, writeCells]

theorem read_writeCells_register (r : Register) (k : Nat) :
    (m.writeCells start values).read (.register r k) = m.read (.register r k) := by
  rw [read, register_writeCells]
  rfl

theorem register_writeRegister (m : Storage) (r : Register) (start : Nat) (values : List Number) :
    (m.writeRegister r start values).register r = overwrite (m.register r) start values := by
  cases r <;> rfl

theorem read_writeRegister (h : start + values.length ≤ r.size) (k : Nat) :
    (m.writeRegister r start values).read (.register r k) =
      if start ≤ k ∧ k < start + values.length then values[k - start]?
      else m.read (.register r k) := by
  rw [read, register_writeRegister]
  exact getElem?_overwrite h k

theorem read_writeRegister_of_ne (h : r' ≠ r) (k : Nat) :
    (m.writeRegister r start values).read (.register r' k) = m.read (.register r' k) := by
  cases r <;> cases r' <;> first | exact absurd rfl h | rfl

end Writing

/-- A transfer writes what it says, and leaves all other places as they are. -/
theorem read_apply {t : Transfer} (h : t.Fits) (m : Storage) (a : Address) :
    (t.apply m).read a = (t.value? m a).or (m.read a) := by
  -- Each writer is a segment, and either the address is in it or not. An address of the other kind
  -- is out of reach in any case.
  cases t with
  | put v k =>
    cases a with
    | register r c => exact read_writeCells_register r c
    | cell c =>
      rw [Transfer.apply, read_writeCells h, Transfer.value?]
      by_cases hc : c = k
      · subst hc
        rw [if_pos ⟨Nat.le_refl _, Nat.lt_succ_self _⟩, if_pos rfl, Nat.sub_self]
        rfl
      · rw [if_neg (fun hin => hc (Nat.le_antisymm (Nat.le_of_lt_succ hin.2) hin.1)), if_neg hc]
        rfl
  | store r start cell count =>
    have hlength : (segment m.cells cell count).length = count := length_segment h.1
    cases a with
    | cell c => cases r <;> rfl
    | register r' k =>
      rw [Transfer.apply, Transfer.value?]
      by_cases hr : r' = r
      · subst hr
        rw [read_writeRegister (by rw [hlength]; exact h.2), hlength]
        by_cases hk : start ≤ k ∧ k < start + count
        · rw [if_pos hk, if_pos ⟨rfl, hk⟩, getElem?_segment _ (by omega), read,
            Vector.getElem?_eq_getElem (by have := h.1; omega), Option.some_or]
        · rw [if_neg hk, if_neg fun h => hk h.2]
          rfl
      · rw [read_writeRegister_of_ne hr, if_neg fun h => hr h.1]
        rfl
  | load r cell count =>
    have hlength : (segment (m.register r) 0 count).length = count :=
      length_segment (by have := h.2; omega)
    cases a with
    | register r' k => exact read_writeCells_register r' k
    | cell c =>
      rw [Transfer.apply, Transfer.value?, read_writeCells (by rw [hlength]; exact h.1), hlength]
      by_cases hc : cell ≤ c ∧ c < cell + count
      · rw [if_pos hc, if_pos hc, getElem?_segment _ (by omega), Nat.zero_add]
        have hsource : c - cell < r.size := by have := h.2; omega
        show (m.register r)[c - cell]? = ((m.register r)[c - cell]?).or _
        rw [Vector.getElem?_eq_getElem hsource, Option.some_or]
      · rw [if_neg hc, if_neg hc]
        rfl

/-! ## Requests -/

/-- What is to be written, as the operands name it. -/
inductive Write where
  /-- A number into the cell with an index. -/
  | put (v index : Number)
  /-- Cells into a register: its number, the start in it, the first cell, and how many. -/
  | store (register start cell count : Number)
  /-- The beginning of a register into cells: its number, the first cell, and how many. -/
  | load (register cell count : Number)
  /-- The weights of the masters into cells from one on. -/
  | copyWeights (cell : Number)

/-- The transfer that the operands stand for, if they are indices and name a register. -/
def Write.transfer? (masters : Nat) : Write → Option Transfer
  | put v index => index.toIndex?.map (.put v)
  | store register start cell count => do
    return .store (← Register.ofNumber? register) (← start.toIndex?) (← cell.toIndex?)
      (← count.toIndex?)
  | load register cell count => do
    return .load (← Register.ofNumber? register) (← cell.toIndex?) (← count.toIndex?)
  | copyWeights cell => cell.toIndex?.map (.load .weights · masters)

/-- The error of a write that is not possible. -/
def Write.error (masters : Nat) : Write → Error
  | copyWeights _ => if maxMasters < masters then .invalidWeightVector else .boundsCheck
  | _ => .boundsCheck

/-- What operands ask of the storage. -/
inductive Request where
  /-- To fetch the number in the cell with an index. -/
  | get (index : Number)
  /-- To blend a number of values by the weights. -/
  | blend (n : Nat)
  /-- To write. -/
  | write (w : Write)

end Storage

/-- What a calculation asks of the storage, and the operands that it leaves. -/
def Calculation.request? (operands : Operands) : Calculation → Option (Operands × Storage.Request)
  | put => (operands.split? 2).map fun (below, v) => (below, .write (.put v.first v.second))
  | get => (operands.split? 1).map fun (below, v) => (below, .get v.first)
  | store => (operands.split? 4).map fun (below, v) =>
    (below, .write (.store v.first v.second v.third v.fourth))
  | load => (operands.split? 3).map fun (below, v) =>
    (below, .write (.load v.first v.second v.third))
  | _ => none

/-- What an other subroutine asks of the storage, and the operands that it leaves. -/
def OtherSubr.request? (operands : Operands) : OtherSubr → Option (Operands × Storage.Request)
  | calculate op => op.request? operands
  | storeWeights => (operands.split? 1).map fun (below, v) => (below, .write (.copyWeights v.first))
  | blend n => some (operands, .blend n)
  | _ => none

/-- What an instruction asks of the storage, and the operands that it leaves. -/
def Instruction.request? (operands : Operands) : Instruction → Option (Operands × Storage.Request)
  | operator (.calculate op) => op.request? operands
  | operator .blend => do
    let (below, v) ← operands.split? 1
    return (below, .blend (← v.first.toIndex?))
  | operator .callothersubr => do
    let (subr, below, _) ← operands.called?
    subr.request? below
  | _ => none

/-! ## What comes of requests -/

theorem Number.range?_eq_some_iff {start count : Number} {capacity i n : Nat} :
    range? start count capacity = some (i, n) ↔
      start.toIndex? = some i ∧ count.toIndex? = some n ∧ i + n ≤ capacity := by
  unfold range?
  constructor
  · intro h
    split at h
    · next hs hc =>
      split at h
      · next hle =>
        cases h
        exact ⟨hs, hc, hle.2⟩
      · cases h
    · cases h
  · rintro ⟨hs, hc, hle⟩
    rw [hs, hc]
    exact if_pos ⟨by omega, hle⟩

namespace Decode

open Storage

variable {setup : Setup} {d : Decoder} {masters : Nat}

/-- The write is made and leaves the operands below, or it fails with the memory as it is. -/
def Writes (masters : Nat) (w : Write) (below : Operands) (x : Decode Unit) (d : Decoder) : Prop :=
  (∃ t, w.transfer? masters = some t ∧ t.Fits ∧
    x d = .ok () { d with operands := below, storage := t.apply d.storage }) ∨
  ((∀ t, w.transfer? masters = some t → ¬ t.Fits) ∧
    ∃ e, x d = .error (w.error masters) e ∧ e.memory = d.memory)

/-- The operands are taken off first. -/
theorem writes_take {n : Nat} {v : Vector Number n} {k : Vector Number n → Decode Unit}
    {w : Write} {below : Operands} (hsplit : d.operands.split? n = some (below, v))
    (h : Writes masters w below (k v) { d with operands := below }) :
    Writes masters w below (take n >>= k) d := by
  have hrun : (take n >>= k) d = k v { d with operands := below } := bind_run (take_run hsplit)
  rw [Writes, hrun]
  exact h

/-- Makes a transfer, whether or not it fits. -/
def transfer (t : Transfer) : Decode Unit :=
  modify fun d => { d with storage := t.apply d.storage }

/-- A computation that names a transfer if there is one that fits, and makes it. -/
theorem writes_of_named {w : Write} {x : Decode Unit} (named : Option Transfer)
    (hx : x = orFail .boundsCheck named >>= transfer)
    (hnamed : ∀ t, named = some t ↔ w.transfer? masters = some t ∧ t.Fits)
    (herror : w.error masters = .boundsCheck) (d : Decoder) :
    Writes masters w d.operands x d := by
  rw [Writes, hx, herror]
  cases named with
  | none =>
    refine .inr ⟨fun t ht hfits => ?_, d, rfl, rfl⟩
    cases (hnamed t).2 ⟨ht, hfits⟩
  | some t =>
    obtain ⟨ht, hfits⟩ := (hnamed t).1 rfl
    exact .inl ⟨t, ht, hfits, rfl⟩

/-- Failing at each missing part is failing where the whole is missing. -/
theorem orFail_bind {α β γ : Type} (y : Error) (o : Option α) (f : α → Option β)
    (k : β → Decode γ) :
    (orFail y (o >>= f) >>= k) = (orFail y o >>= fun a => orFail y (f a) >>= k) := by
  cases o <;> rfl

/-- A transfer whose only operand is an index is made if it fits. -/
theorem writes_toIndex {index : Number} {w : Write} {f : Nat → Transfer} {p : Nat → Prop}
    [DecidablePred p] (hw : w.transfer? masters = index.toIndex?.map f)
    (hfits : ∀ i, p i ↔ (f i).Fits) (herror : w.error masters = .boundsCheck) (d : Decoder) :
    Writes masters w d.operands (do
      let i ← toIndex index
      if p i then modify fun d => { d with storage := (f i).apply d.storage }
      else throw .boundsCheck) d := by
  refine writes_of_named (index.toIndex? >>= fun i => if p i then some (f i) else none) ?_
    (fun t => ?_) herror d
  · rw [orFail_bind]
    refine bind_congr fun i => ?_
    by_cases hp : p i
    · rw [if_pos hp, if_pos hp]
      rfl
    · rw [if_neg hp, if_neg hp]
      rfl
  · simp only [hw, Option.bind_eq_bind, Option.bind_eq_some_iff, Option.map_eq_some_iff,
      Option.ite_none_right_eq_some, Option.some.injEq, hfits]
    constructor
    · rintro ⟨i, hi, hle, rfl⟩
      exact ⟨⟨i, hi, rfl⟩, hle⟩
    · rintro ⟨⟨i, hi, rfl⟩, hle⟩
      exact ⟨i, hi, hle, rfl⟩

/-- The transfer of cells into a register that operands name, if both have room for it. -/
def storing? (v : Vector Number 4) : Option Transfer := do
  let r ← Register.ofNumber? v.first
  let (j, n) ← Number.range? v.third v.fourth cellCount
  let (i, _) ← Number.range? v.second v.fourth r.size
  return .store r i j n

theorem writes_store (v : Vector Number 4) (d : Decoder) :
    Writes masters (.store v.first v.second v.third v.fourth) d.operands (store v) d := by
  refine writes_of_named (storing? v) ?_ (fun t => ?_) rfl d
  · simp only [storing?, orFail_bind]
    rfl
  · simp only [storing?, Write.transfer?, Option.bind_eq_bind, Option.bind_eq_some_iff,
      Option.pure_def, Option.some.injEq, Prod.exists, Number.range?_eq_some_iff]
    constructor
    · rintro ⟨r, hr, j, n, ⟨hj, hn, hcells⟩, i, n', ⟨hi, hn', hplaces⟩, rfl⟩
      obtain rfl : n = n' := Option.some.inj (hn.symm.trans hn')
      exact ⟨⟨r, hr, i, hi, j, hj, n, hn, rfl⟩, hcells, hplaces⟩
    · rintro ⟨⟨r, hr, i, hi, j, hj, n, hn, rfl⟩, hcells, hplaces⟩
      exact ⟨r, hr, j, n, ⟨hj, hn, hcells⟩, i, n, ⟨hi, hn, hplaces⟩, rfl⟩

/-- The transfer of a register into cells that operands name, if both have room for it. -/
def loading? (v : Vector Number 3) : Option Transfer := do
  let r ← Register.ofNumber? v.first
  let (j, n) ← Number.range? v.second v.third cellCount
  let _ ← Number.range? 0 v.third r.size
  return .load r j n

theorem writes_load (v : Vector Number 3) (d : Decoder) :
    Writes masters (.load v.first v.second v.third) d.operands (load v) d := by
  have hzero : Number.toIndex? 0 = some 0 := Number.toIndex?_zero
  refine writes_of_named (loading? v) ?_ (fun t => ?_) rfl d
  · simp only [loading?, orFail_bind]
    rfl
  · simp only [loading?, Write.transfer?, Option.bind_eq_bind, Option.bind_eq_some_iff,
      Option.pure_def, Option.some.injEq, Prod.exists, Number.range?_eq_some_iff]
    constructor
    · rintro ⟨r, hr, j, n, ⟨hj, hn, hcells⟩, i, n', ⟨hi, hn', hplaces⟩, rfl⟩
      obtain rfl : n = n' := Option.some.inj (hn.symm.trans hn')
      exact ⟨⟨r, hr, j, hj, n, hn, rfl⟩, hcells, by omega⟩
    · rintro ⟨⟨r, hr, j, hj, n, hn, rfl⟩, hcells, hplaces⟩
      exact ⟨r, hr, j, n, ⟨hj, hn, hcells⟩, 0, n, ⟨hzero, hn, by omega⟩, rfl⟩

/-- With more masters than weights nothing is copied. -/
theorem writes_storeWeights (setup : Setup) {v : Vector Number 1} {below : Operands}
    (hsplit : d.operands.split? 1 = some (below, v)) :
    Writes setup.font.masters (.copyWeights v.first) below (storeWeights setup) d := by
  unfold storeWeights
  dsimp only
  by_cases hmany : maxMasters < setup.font.masters
  · refine .inr ⟨fun t ht hfits => ?_, d, ?_, rfl⟩
    · obtain ⟨j, -, rfl⟩ := Option.map_eq_some_iff.1 ht
      exact absurd hfits.2 (Nat.not_le.2 hmany)
    · rw [if_pos hmany, Write.error, if_pos hmany]
      rfl
  · rw [if_neg hmany]
    refine writes_take hsplit ?_
    have hfits (i : Nat) : i + setup.font.masters ≤ cellCount ↔
        (Transfer.load .weights i setup.font.masters).Fits :=
      ⟨fun h => ⟨h, Nat.not_lt.1 hmany⟩, And.left⟩
    have herror : (Write.copyWeights v.first).error setup.font.masters = .boundsCheck :=
      if_neg hmany
    exact writes_toIndex (f := (.load .weights · setup.font.masters)) rfl hfits herror _

/-- A calculation that asks for a write. -/
theorem writes_calculate {op : Calculation} {w : Write} {below : Operands}
    (h : op.request? d.operands = some (below, .write w)) :
    Writes masters w below (calculate op) d := by
  cases op with
  | put =>
    obtain ⟨⟨_, v⟩, hsplit, heq⟩ := Option.map_eq_some_iff.1 h
    cases heq
    exact writes_take hsplit (writes_toIndex (f := .put v.first) (p := (· < cellCount)) rfl
      (fun _ => Iff.rfl) rfl _)
  | store =>
    obtain ⟨⟨_, v⟩, hsplit, heq⟩ := Option.map_eq_some_iff.1 h
    cases heq
    exact writes_take hsplit (writes_store v _)
  | load =>
    obtain ⟨⟨_, v⟩, hsplit, heq⟩ := Option.map_eq_some_iff.1 h
    cases heq
    exact writes_take hsplit (writes_load v _)
  | get =>
    obtain ⟨⟨_, v⟩, hsplit, heq⟩ := Option.map_eq_some_iff.1 h
    cases heq
  | _ => cases h

theorem storage_begin (i : Instruction) (d : Decoder) : (i.begin d).storage = d.storage :=
  congrArg Prod.fst (memory_begin i d)

/-- An instruction that asks something of the storage does what an other subroutine does that asks
the same. -/
theorem execute_request {i : Instruction} {below : Operands} {r : Storage.Request}
    (h : i.request? d.operands = some (below, r)) (setup : Setup) :
    ∃ subr rest, OtherSubr.request? rest subr = some (below, r) ∧ ∃ n, execute setup i d =
      (performOtherSubr setup n subr >>= fun _ => pure .next : Decode Control)
        { i.begin d with operands := rest } := by
  cases i with
  | operator op =>
    cases op with
    | calculate op => exact ⟨.calculate op, d.operands, h, 0, rfl⟩
    | blend =>
      obtain ⟨⟨rest, v⟩, hsplit, h⟩ := Option.bind_eq_some_iff.1 h
      obtain ⟨n, hn, h⟩ := Option.bind_eq_some_iff.1 h
      cases h
      refine ⟨.blend n, below, rfl, 0, ?_⟩
      exact perform_blend (d := { (Instruction.operator .blend).begin d with operands := below })
        (Operands.toList_of_split?_one hsplit) hn
    | callothersubr =>
      obtain ⟨⟨subr, rest, n⟩, hcalled, h⟩ := Option.bind_eq_some_iff.1 h
      exact ⟨subr, rest, h, n, bind_congr_left (callOtherSubr_of_called
        (d := (Instruction.operator .callothersubr).begin d)
        (Operands.called?_eq_some_iff.1 hcalled))⟩
    | _ => cases h
  | _ => cases h

/-- An instruction that asks for a write makes it, or fails with the storage as it is. -/
theorem execute_write (setup : Setup) {i : Instruction} {below : Operands} {w : Write}
    (h : i.request? d.operands = some (below, .write w)) :
    (∃ t, w.transfer? setup.font.masters = some t ∧ t.Fits ∧ execute setup i d =
      .ok .next { i.begin d with operands := below, storage := t.apply d.storage }) ∨
    ((∀ t, w.transfer? setup.font.masters = some t → ¬ t.Fits) ∧
      ∃ e, execute setup i d = .error (w.error setup.font.masters) e ∧ e.storage = d.storage) := by
  obtain ⟨subr, rest, hsubr, n, hexecute⟩ := execute_request h setup
  have hstorage : (i.begin d).storage = d.storage := storage_begin i d
  have hwrites : Writes setup.font.masters w below (performOtherSubr setup n subr)
      { i.begin d with operands := rest } := by
    cases subr with
    | calculate op => exact writes_calculate hsubr
    | storeWeights =>
      obtain ⟨⟨_, v⟩, hsplit, heq⟩ := Option.map_eq_some_iff.1 hsubr
      cases heq
      exact writes_storeWeights setup hsplit
    | _ => cases hsubr
  rw [hexecute]
  rcases hwrites with ⟨t, ht, hfits, hrun⟩ | ⟨hfits, e, hrun, he⟩
  · refine .inl ⟨t, ht, hfits, ?_⟩
    rw [bind_run hrun, hstorage]
    rfl
  · exact .inr ⟨hfits, e, bind_run_error hrun, (congrArg Prod.fst he).trans hstorage⟩

section Requests

variable {subr : OtherSubr} {operands below : Operands} {r : Storage.Request}

/-- Only one other subroutine fetches a number, only one blends, and the others that ask for
anything ask for a write. -/
theorem request_cases (h : subr.request? operands = some (below, r)) :
    (subr = .calculate .get ∧ ∃ v : Vector Number 1, operands.split? 1 = some (below, v) ∧
      r = .get v.first) ∨
    (∃ n, subr = .blend n ∧ operands = below ∧ r = .blend n) ∨ ∃ w, r = .write w := by
  cases subr with
  | calculate op =>
    cases op with
    | get =>
      obtain ⟨⟨_, v⟩, hsplit, heq⟩ := Option.map_eq_some_iff.1 h
      cases heq
      exact .inl ⟨rfl, v, hsplit, rfl⟩
    | put | store | load =>
      obtain ⟨_, -, heq⟩ := Option.map_eq_some_iff.1 h
      cases heq
      exact .inr (.inr ⟨_, rfl⟩)
    | _ => cases h
  | storeWeights =>
    obtain ⟨_, -, heq⟩ := Option.map_eq_some_iff.1 h
    cases heq
    exact .inr (.inr ⟨_, rfl⟩)
  | blend n =>
    cases h
    exact .inr (.inl ⟨n, rfl, rfl, rfl⟩)
  | _ => cases h

theorem eq_get_of_request {index : Number}
    (h : subr.request? operands = some (below, .get index)) :
    subr = .calculate .get ∧
      ∃ v : Vector Number 1, operands.split? 1 = some (below, v) ∧ v.first = index := by
  rcases request_cases h with ⟨hsubr, v, hsplit, hr⟩ | ⟨_, -, -, hr⟩ | ⟨_, hr⟩ <;> cases hr
  exact ⟨hsubr, v, hsplit, rfl⟩

theorem eq_blend_of_request {n : Nat} (h : subr.request? operands = some (below, .blend n)) :
    subr = .blend n ∧ operands = below := by
  rcases request_cases h with ⟨_, _, -, hr⟩ | ⟨_, hsubr, hbelow, hr⟩ | ⟨_, hr⟩ <;> cases hr
  exact ⟨hsubr, hbelow⟩

end Requests

/-- The number in a cell takes the place of its index. -/
theorem calculate_get {v : Vector Number 1} {below : Operands}
    (hsplit : d.operands.split? 1 = some (below, v)) :
    (∃ k x operands, v.first.toIndex? = some k ∧ d.storage.read (.cell k) = some x ∧
      operands.toList = below.toList ++ [x] ∧ calculate .get d = .ok () { d with operands }) ∨
    ((∀ k, v.first.toIndex? = some k → d.storage.read (.cell k) = none) ∧
      ∃ e, calculate .get d = .error .boundsCheck e ∧ e.memory = d.memory) := by
  have hrun : calculate .get d = (toIndex v.first >>= fun i => get >>= fun d =>
      orFail .boundsCheck d.storage.cells[i]? >>= push) { d with operands := below } :=
    bind_run (take_run hsplit)
  rw [hrun, toIndex]
  cases hk : v.first.toIndex? with
  | none => exact .inr ⟨fun _ hk => (by cases hk), _, rfl, rfl⟩
  | some k =>
    rw [bind_run orFail_run, get_bind_run]
    cases hx : d.storage.cells[k]? with
    | none =>
      refine .inr ⟨fun k' hk' => ?_, { d with operands := below }, ?_, rfl⟩
      · cases hk'
        exact hx
      · rfl
    | some x =>
      have hroom : (below.toList ++ [x]).length ≤ Operands.capacity := by
        have hsize := Operands.size_of_split? hsplit
        have hle := d.operands.length_le
        rw [← Operands.size, hsize] at hle
        rw [List.length_append]
        exact hle
      refine .inl ⟨k, x, ⟨_, hroom⟩, rfl, hx, rfl, ?_⟩
      rw [bind_run orFail_run]
      exact pushAll_run (Checked.append?_eq rfl hroom)

/-- An instruction that fetches a number puts it on the stack, or fails if there is no such cell. -/
theorem execute_get (setup : Setup) {i : Instruction} {below : Operands} {index : Number}
    (h : i.request? d.operands = some (below, .get index)) :
    (∃ k x operands, index.toIndex? = some k ∧ d.storage.read (.cell k) = some x ∧
      operands.toList = below.toList ++ [x] ∧
      execute setup i d = .ok .next { i.begin d with operands }) ∨
    ((∀ k, index.toIndex? = some k → d.storage.read (.cell k) = none) ∧
      ∃ e, execute setup i d = .error .boundsCheck e ∧ e.memory = d.memory) := by
  obtain ⟨subr, rest, hsubr, n, hexecute⟩ := execute_request h setup
  obtain ⟨rfl, v, hsplit, rfl⟩ := eq_get_of_request hsubr
  have hstorage : (i.begin d).storage = d.storage := storage_begin i d
  rcases calculate_get (d := { i.begin d with operands := rest }) hsplit with
    ⟨k, x, operands, hk, hx, hoperands, hrun⟩ | ⟨hnone, e, hrun, he⟩
  · exact .inl ⟨k, x, operands, hk, hstorage ▸ hx, hoperands, hexecute.trans (bind_run hrun)⟩
  · exact .inr ⟨hstorage ▸ hnone, e, hexecute.trans (bind_run_error hrun),
      he.trans (memory_begin i d)⟩

/-- An instruction that blends uses the weights that the storage holds. -/
theorem execute_blend (setup : Setup) {i : Instruction} {below : Operands} {n : Nat}
    {control : Control} {e : Decoder}
    (h : i.request? d.operands = some (below, .blend n)) (hx : execute setup i d = .ok control e) :
    ∃ rest bases deltas, below.toList = rest ++ bases ++ deltas ∧ bases.length = n ∧
      deltas.length = n * (setup.font.masters - 1) ∧
      e.operands.toList = rest ++ (List.range n).map
        (blendedValue d.storage.weights setup.font.masters bases deltas) := by
  obtain ⟨subr, rest, hsubr, k, hexecute⟩ := execute_request h setup
  obtain ⟨rfl, rfl⟩ := eq_blend_of_request hsubr
  let c : Decoder := { i.begin d with operands := rest }
  rw [hexecute] at hx
  rcases blend_cases setup n c with ⟨-, hrun⟩ | ⟨hmany, hfew, ⟨-, hrun⟩ | ⟨hle, -⟩⟩
  · cases (bind_run_error hrun).symm.trans hx
  · cases (bind_run_error hrun).symm.trans hx
  · obtain ⟨rest', bases, deltas, operands, hsplit, hbases, hdeltas, hrun, hoperands⟩ :=
      blend_run_of_le hmany hfew hle
    cases (bind_run hrun).symm.trans hx
    refine ⟨rest', bases, deltas, hsplit, hbases, hdeltas, hoperands.trans ?_⟩
    rw [show c.storage = d.storage from storage_begin i d]

/-- With the operands that it needs, an other subroutine that blends or writes asks for it. -/
theorem exists_request {subr : OtherSubr} {operands : Operands} {n : Nat}
    (h : subr.remembers = true) (harity : subr.arity n ≤ operands.size) :
    ∃ p, subr.request? operands = some p := by
  have of_split {α : Type} {k : Nat} {f : Operands × Vector Number k → α}
      (hle : k ≤ operands.size) : ∃ p, (operands.split? k).map f = some p := by
    obtain ⟨below, v, hsplit⟩ := Operands.exists_split? hle
    rw [hsplit]
    exact ⟨_, rfl⟩
  cases subr with
  | calculate op =>
    cases op with
    | put | store | load => exact of_split harity
    | _ => cases h
  | storeWeights => exact of_split harity
  | blend k => exact ⟨_, rfl⟩
  | _ => cases h

/-- A call asks for what the other subroutine asks for. -/
theorem request_of_called {subr : OtherSubr} {operands below : Operands} {n : Nat}
    (h : subr.Called operands below n) :
    (Instruction.operator .callothersubr).request? operands = subr.request? below := by
  rw [Instruction.request?, Operands.called?_eq_some_iff.2 h]
  rfl

theorem storage_blend (setup : Setup) (n : Nat) (d : Decoder) :
    (final (blend setup n d)).storage = d.storage := by
  rcases blend_cases setup n d with ⟨-, hx⟩ | ⟨-, -, ⟨-, hx⟩ | ⟨-, operands, hx⟩⟩ <;>
    rw [hx] <;> rfl

/-- An instruction that asks for nothing leaves the memory as it is: it does not even try to write
or to blend, or it lacks the operands for it. -/
theorem memory_of_request_none (setup : Setup) {i : Instruction}
    (h : i.request? d.operands = none) : (final (execute setup i d)).memory = d.memory := by
  -- Of the instructions that write or blend, the ones that ask for nothing fail before they come to
  -- that: operands are missing, or one is no count.
  cases i with
  | operator op =>
    let begun := d.record (.began op d.operands.toList)
    cases op with
    | calculate op =>
      cases hwrites : op.writes with
      | false =>
        exact execute_memory setup (fun _ heq => by cases heq; exact hwrites)
          fun heq _ _ => by cases heq
      | true =>
        have hshort : begun.operands.size < op.arity := Nat.lt_of_not_le fun hle => by
          obtain ⟨p, hp⟩ : ∃ p, op.request? begun.operands = some p :=
            exists_request (n := 0)
              (show (OtherSubr.calculate op).remembers = true from hwrites) hle
          cases h.symm.trans hp
        have hx : execute setup (.operator (.calculate op)) d = .error .stackUnderflow begun :=
          (execute_operator ..).trans (bind_run_error ((needs_calculate op).short begun hshort))
        rw [hx]
        rfl
    | blend =>
      cases hsplit : d.operands.split? 1 with
      | none =>
        have hx : take 1 begun = .error .stackUnderflow begun :=
          take_run_short (Operands.split?_eq_none_iff.1 hsplit)
        rw [execute_operator, perform, bind_run_error hx]
        rfl
      | some p =>
        obtain ⟨below, v⟩ := p
        have hx : take 1 begun = .ok v { begun with operands := below } := take_run hsplit
        cases hn : v.first.toIndex? with
        | none =>
          rw [execute_operator, perform, bind_run hx, toIndex, hn]
          rfl
        | some n =>
          rw [Instruction.request?, hsplit] at h
          simp only [Option.bind_eq_bind, Option.bind_some, hn] at h
          cases h
    | callothersubr =>
      have hexecute : execute setup (.operator .callothersubr) d =
        (callOtherSubr setup >>= fun _ => pure .next : Decode Control) begun := rfl
      -- A call performs the subroutine that it selects, or fails with at most its own operands
      -- taken.
      rcases callOtherSubr_called setup begun with
        ⟨subr, below, n, hcalled⟩ | ⟨x, e, below, hx, he⟩
      · cases hremembers : subr.remembers with
        | false =>
          refine execute_memory setup (fun _ heq => by cases heq; rfl) fun _ subr' hsubr => ?_
          cases hcalled.selected.symm.trans hsubr
          exact hremembers
        | true =>
          obtain ⟨p, hp⟩ := exists_request hremembers hcalled.arity
          cases h.symm.trans ((request_of_called hcalled).trans hp)
      · rw [hexecute, bind_run_error hx]
        rcases he with rfl | ⟨n, rfl⟩ <;> rfl
    | _ =>
      exact execute_memory setup (fun _ heq => by cases heq; rfl) fun heq _ _ => by cases heq
  | _ => exact execute_memory setup (fun _ heq => by cases heq) fun heq _ _ => by cases heq

/-- An instruction that asks for no write leaves the storage as it is, whatever comes of it. -/
theorem execute_storage (setup : Setup) {i : Instruction}
    (h : ∀ below w, i.request? d.operands ≠ some (below, .write w)) :
    (final (execute setup i d)).storage = d.storage := by
  cases hrequest : i.request? d.operands with
  | none => exact congrArg Prod.fst (memory_of_request_none setup hrequest)
  | some p =>
    obtain ⟨below, r⟩ := p
    cases r with
    | write w => exact absurd hrequest (h below w)
    | get index =>
      rcases execute_get setup hrequest with ⟨_, _, operands, -, -, -, hx⟩ | ⟨-, e, hx, he⟩
      · rw [hx]
        exact storage_begin i d
      · rw [hx]
        exact congrArg Prod.fst he
    | blend n =>
      obtain ⟨subr, rest, hsubr, k, hexecute⟩ := execute_request hrequest setup
      obtain ⟨rfl, rfl⟩ := eq_blend_of_request hsubr
      have hblend := storage_blend setup n { i.begin d with operands := rest }
      rw [hexecute, final_bind_pure]
      exact hblend.trans (storage_begin i d)

end Decode

/-! ## Runs -/

/-- The vector of a font that a register begins with. -/
def Font.vector (font : Font) : Register → List Number
  | .weights => font.weights
  | .normalizedDesign => font.normalizedDesign
  | .userDesign => font.userDesign

/-- What a place holds before anything is written: nothing but zeros in the cells, and the vectors
of the font in the registers, with zeros past their ends. -/
def Font.initially? (font : Font) : Storage.Address → Option Number
  | .cell k => if k < Storage.cellCount then some 0 else none
  | .register r k => if k < r.size then some ((font.vector r).getD k 0) else none

theorem Decoder.read_start (font : Font) (a : Storage.Address) :
    (start font).storage.read a = font.initially? a := by
  have filled (n : Nat) (values : List Number) (k : Nat) :
      (Storage.fill n values)[k]? = if k < n then some (values.getD k 0) else none := by
    rw [Storage.fill, Vector.getElem?_ofFn]
    rfl
  cases a with
  | cell k => exact Vector.getElem?_replicate
  | register r k => cases r <;> exact filled _ _ k

namespace Run

/-- The `k`-th instruction of a run writes a number at a place. -/
def WritesAt (s : Source) (setup : Setup) (offset : Nat) (st : Source.State) (k : Nat)
    (a : Storage.Address) (v : Number) : Prop :=
  ∃ m i d below w t, after s setup offset st k = .running m ∧ m.Executes i d ∧
    i.request? d.operands = some (below, .write w) ∧
    w.transfer? setup.font.masters = some t ∧ t.value? d.storage a = some v

/-- Before the `n`-th instruction of a run, the number was written at the place last, or it is what
the place held initially and nothing was written there. -/
def Latest (s : Source) (setup : Setup) (offset : Nat) (st : Source.State) (n : Nat)
    (a : Storage.Address) (v : Number) : Prop :=
  (∃ k < n, WritesAt s setup offset st k a v ∧
    ∀ j, k < j → j < n → ∀ u, ¬ WritesAt s setup offset st j a u) ∨
  (∀ j < n, ∀ u, ¬ WritesAt s setup offset st j a u) ∧ setup.font.initially? a = some v

variable {s : Source} {setup : Setup} {offset : Nat} {st : Source.State} {n : Nat}
  {a : Storage.Address} {v : Number} {l m : Moment s}

theorem latest_zero :
    Latest s setup offset st 0 a v ↔ setup.font.initially? a = some v := by
  refine ⟨fun h => ?_, fun h => .inr ⟨fun j hj => absurd hj (Nat.not_lt_zero j), h⟩⟩
  rcases h with ⟨k, hk, -⟩ | ⟨-, h⟩
  · exact absurd hk (Nat.not_lt_zero k)
  · exact h

/-- One more instruction writes at the place, or it leaves what was there. -/
theorem latest_succ : Latest s setup offset st (n + 1) a v ↔ WritesAt s setup offset st n a v ∨
    (∀ u, ¬ WritesAt s setup offset st n a u) ∧ Latest s setup offset st n a v := by
  constructor
  · rintro (⟨k, hk, hw, hno⟩ | ⟨hno, h⟩)
    · rcases Nat.lt_succ_iff_lt_or_eq.1 hk with hlt | rfl
      · exact .inr ⟨hno n hlt (Nat.lt_succ_self n), .inl ⟨k, hlt, hw, fun j hj hjn =>
          hno j hj (Nat.lt_succ_of_lt hjn)⟩⟩
      · exact .inl hw
    · exact .inr ⟨hno n (Nat.lt_succ_self n), .inr ⟨fun j hj => hno j (Nat.lt_succ_of_lt hj), h⟩⟩
  · rintro (hw | ⟨hno, ⟨k, hk, hw, hno'⟩ | ⟨hno', h⟩⟩)
    · exact .inl ⟨n, Nat.lt_succ_self n, hw, fun j hj hjn => absurd hj (by omega)⟩
    · refine .inl ⟨k, Nat.lt_succ_of_lt hk, hw, fun j hj hjn => ?_⟩
      rcases Nat.lt_succ_iff_lt_or_eq.1 hjn with hlt | rfl
      · exact hno' j hj hlt
      · exact hno
    · refine .inr ⟨fun j hj => ?_, h⟩
      rcases Nat.lt_succ_iff_lt_or_eq.1 hj with hlt | rfl
      · exact hno' j hlt
      · exact hno

/-- What an instruction writes that a run executes. -/
theorem writesAt_iff {i : Instruction} {d : Decoder} (hm : after s setup offset st n = .running m)
    (hi : m.Executes i d) : WritesAt s setup offset st n a v ↔
      ∃ below w t, i.request? d.operands = some (below, .write w) ∧
        w.transfer? setup.font.masters = some t ∧ t.value? d.storage a = some v := by
  constructor
  · rintro ⟨m', i', d', below, w, t, hm', hi', h⟩
    cases hm.symm.trans hm'
    obtain ⟨rfl, rfl⟩ := hi.unique hi'
    exact ⟨below, w, t, h⟩
  · rintro ⟨below, w, t, h⟩
    exact ⟨m, i, d, below, w, t, hm, hi, h⟩

theorem storage_of_executes {i : Instruction} {d : Decoder} (h : m.Executes i d) :
    d.storage = m.decoder.storage := by
  obtain ⟨history, rfl⟩ := h.eq_history
  rfl

theorem storage_recordCalls (d : Decoder) (calls : List Source.Call) :
    (d.recordCalls calls).storage = d.storage := by
  obtain ⟨history, h⟩ := d.recordCalls_eq calls
  rw [h]

/-- An instruction that succeeds writes at a place, or it leaves what is there. -/
theorem read_succ (hl : after s setup offset st n = .running l)
    (hm : after s setup offset st (n + 1) = .running m) :
    m.decoder.storage.read a = some v ↔ WritesAt s setup offset st n a v ∨
      (∀ u, ¬ WritesAt s setup offset st n a u) ∧ l.decoder.storage.read a = some v := by
  obtain ⟨l', hl', i, d, control, e, c, calls, hi, hx, honward, hdecoder⟩ := passage hm
  cases hl.symm.trans hl'
  have hstorage : m.decoder.storage = e.storage := by
    rw [hdecoder, storage_recordCalls]
    cases honward <;> rfl
  rw [hstorage, ← storage_of_executes hi]
  -- Only an instruction that asks for a write can be the last writer. If it succeeds, its transfer
  -- decides, place by place.
  by_cases hrequest : ∃ below w, i.request? d.operands = some (below, .write w)
  · obtain ⟨below, w, hw⟩ := hrequest
    rcases Decode.execute_write setup hw with ⟨t, ht, hfits, hrun⟩ | ⟨-, e', hrun, -⟩
    · cases hrun.symm.trans hx
      have hwrites (u : Number) :
          WritesAt s setup offset st n a u ↔ t.value? d.storage a = some u := by
        rw [writesAt_iff hl hi]
        refine ⟨fun ⟨_, _, _, hw', ht', h⟩ => ?_, fun h => ⟨below, w, t, hw, ht, h⟩⟩
        cases hw.symm.trans hw'
        cases ht.symm.trans ht'
        exact h
      simp only [hwrites, Storage.read_apply hfits]
      cases t.value? d.storage a with
      | none => simp
      | some x => simp
    · cases hrun.symm.trans hx
  · have hno (u : Number) : ¬ WritesAt s setup offset st n a u := by
      rw [writesAt_iff hl hi]
      rintro ⟨below, w, -, hw, -⟩
      exact hrequest ⟨below, w, hw⟩
    have hkept : e.storage = d.storage := by
      have := Decode.execute_storage setup fun below w hw => hrequest ⟨below, w, hw⟩
      rwa [hx] at this
    rw [hkept]
    exact ⟨fun h => .inr ⟨hno, h⟩, fun h => h.elim (fun hw => absurd hw (hno v)) And.right⟩

/-- At each moment of a run the storage holds at each place what was written there last. -/
theorem read_iff_latest (hm : after s setup offset st n = .running m) :
    m.decoder.storage.read a = some v ↔ Latest s setup offset st n a v := by
  -- The induction is on the steps: a place holds what the last of them wrote there, or what it held
  -- before.
  induction n generalizing m v with
  | zero =>
    obtain ⟨-, calls, hdecoder⟩ := resume_passage hm
    rw [latest_zero, hdecoder, storage_recordCalls]
    exact (Decoder.read_start setup.font a).symm ▸ Iff.rfl
  | succ n ih =>
    obtain ⟨l, hl, -⟩ := passage hm
    rw [read_succ hl hm, latest_succ, ih hl]

end Run

/-- The storage is memory. At each moment of a run each cell holds the number that was written there
last, and 0 if none was; each place of a register holds the number that was written there last, or
what the vector of the font has there, or 0 past the end of that. Of these

* an instruction that fetches a number puts the one in the cell on the stack, and fails with
  `boundsCheck` if there is no such cell;
* an instruction that blends, and succeeds, does so by the weights;
* an instruction that writes makes the transfer that its operands name and changes nothing else but
  the operands; if they name none, or one that does not fit the cells and the register, it fails,
  and nothing in the storage changes. The error is `boundsCheck`, but `invalidWeightVector` where
  there are more masters than weights to copy.

All other instructions leave the storage as it is, whatever comes of them. -/
theorem storage_is_memory (s : Source) (setup : Setup) (offset : Nat) (st : Source.State) (n : Nat)
    (m : Moment s) (hm : Run.after s setup offset st n = .running m) :
    let masters := setup.font.masters
    let latest := Run.Latest s setup offset st n
    let storage := m.decoder.storage
    (∀ a v, storage.read a = some v ↔ latest a v) ∧
    ∀ i d, m.Executes i d →
      let result := Decode.execute setup i d
      (∀ below index, i.request? d.operands = some (below, .get index) →
        (∀ k v, index.toIndex? = some k → latest (.cell k) v → ∃ operands,
          operands.toList = below.toList ++ [v] ∧ result = .ok .next { i.begin d with operands }) ∧
        ((∀ k v, index.toIndex? = some k → ¬ latest (.cell k) v) →
          ∃ e, result = .error .boundsCheck e)) ∧
      (∀ below k control e, i.request? d.operands = some (below, .blend k) →
        result = .ok control e → ∀ weights : Vector Number Storage.maxMasters,
        (∀ j v, weights[j]? = some v → latest (.register .weights j) v) →
        ∃ rest bases deltas, below.toList = rest ++ bases ++ deltas ∧ bases.length = k ∧
          deltas.length = k * (masters - 1) ∧ e.operands.toList =
            rest ++ (List.range k).map (blendedValue weights masters bases deltas)) ∧
      (∀ below w, i.request? d.operands = some (below, .write w) →
        (∀ t, w.transfer? masters = some t → t.Fits → ∃ after,
          result = .ok .next { i.begin d with operands := below, storage := after } ∧
          ∀ a, after.read a = (t.value? storage a).or (storage.read a)) ∧
        ((∀ t, w.transfer? masters = some t → ¬ t.Fits) →
          ∃ e, result = .error (w.error masters) e ∧ e.storage = storage)) ∧
      ((∀ below w, i.request? d.operands ≠ some (below, .write w)) →
        (Decode.final result).storage = storage) := by
  intro masters latest storage
  have hlatest (a : Storage.Address) (v : Number) : storage.read a = some v ↔ latest a v :=
    Run.read_iff_latest hm
  refine ⟨hlatest, fun i d hi => ?_⟩
  have hd : d.storage = storage := Run.storage_of_executes hi
  -- By what the instruction asks for. Each kind has its own equation, and what it reads in the
  -- storage is the latest write.
  refine ⟨fun below index h => ?_, fun below k control e h hx weights hweights => ?_,
    fun below w h => ?_, fun h => ?_⟩
  · have hcell (k : Nat) (v : Number) : d.storage.read (.cell k) = some v ↔ latest (.cell k) v :=
      hd ▸ hlatest (.cell k) v
    rcases Decode.execute_get setup h with
      ⟨k', x, operands, hk', hx, hoperands, hrun⟩ | ⟨hnone, e, hrun, -⟩
    · refine ⟨fun k v hk hv => ?_, fun hno => absurd ((hcell k' x).1 hx) (hno k' x hk')⟩
      cases hk'.symm.trans hk
      cases hx.symm.trans ((hcell k' v).2 hv)
      exact ⟨operands, hoperands, hrun⟩
    · refine ⟨fun k v hk hv => ?_, fun _ => ⟨e, hrun⟩⟩
      cases (hnone k hk).symm.trans ((hcell k v).2 hv)
  · -- The weights that were written last are all the weights there are, as each place has one.
    have hsame : weights = d.storage.weights := by
      refine Vector.ext fun j hj => ?_
      have hread := (hlatest (.register .weights j) _).2
        (hweights j weights[j] (Vector.getElem?_eq_getElem hj))
      rw [← hd] at hread
      exact Option.some.inj (hread.symm.trans (Vector.getElem?_eq_getElem hj))
    rw [hsame]
    exact Decode.execute_blend setup h hx
  · rcases Decode.execute_write setup h with ⟨t', ht', hfits', hrun⟩ | ⟨hno, e, hrun, he⟩
    · refine ⟨fun t ht hfits => ?_, fun hno => absurd hfits' (hno t' ht')⟩
      cases ht'.symm.trans ht
      exact ⟨_, hrun, fun a => hd ▸ Storage.read_apply hfits d.storage a⟩
    · exact ⟨fun t ht hfits => absurd hfits (hno t ht), fun _ => ⟨e, hrun, he.trans hd⟩⟩
  · exact (Decode.execute_storage setup h).trans hd

/-- A number is put into a cell, stored as a weight from there, and loaded into another cell, from
where it is fetched. -/
theorem storage_is_memory_reloaded :
    let s : Source := .memory [148, 142, 12, 20, 139, 140, 142, 140, 12, 8, 139, 143, 141, 12, 13,
      144, 12, 21] none
    let setup : Setup := { font := { weights := [0.25, 0.75], masters := 2 } }
    let latest := Run.Latest s setup 0 {} 13
    latest (.cell 5) 9 ∧ latest (.cell 4) 0.25 ∧ latest (.register .weights 1) 9 ∧
    latest (.register .weights 2) 0 ∧
    ∃ m d operands, Run.after s setup 0 {} 13 = .running m ∧
      m.Executes (.operator (.calculate .get)) d ∧ operands.toList = [9] ∧
      Decode.execute setup (.operator (.calculate .get)) d =
        .ok .next { (Instruction.operator (.calculate .get)).begin d with operands } := by
  intro s setup latest
  -- The state is computed; that these are the latest values is said by the theorem.
  obtain ⟨m, hrunning, hstate⟩ := Option.map_eq_some_iff.1 (by decide +kernel :
    (Run.after s setup 0 {} 13).moment?.map (fun m => (m.instruction?, m.decoder.operands.toList,
      [.cell 5, .cell 4, .register .weights 1, .register .weights 2].map m.decoder.storage.read)) =
    some (some (.operator (.calculate .get)), [5], [some 9, some 0.25, some 9, some 0]))
  simp only [Prod.mk.injEq, List.map_cons, List.map_nil, List.cons.injEq, and_true] at hstate
  obtain ⟨hnext, hoperands, hcell, hcell', hweight, hweight'⟩ := hstate
  have hm := Status.eq_running_of_moment? hrunning
  obtain ⟨d, hi⟩ := Moment.executes_of_instruction? hnext
  obtain ⟨hlatest, hinstruction⟩ := storage_is_memory s setup 0 {} 13 m hm
  have hlast : latest (.cell 5) 9 := (hlatest _ _).1 hcell
  refine ⟨hlast, (hlatest _ _).1 hcell', (hlatest _ _).1 hweight, (hlatest _ _).1 hweight', ?_⟩
  have hd : d.operands.toList = [5] := by
    obtain ⟨history, rfl⟩ := hi.eq_history
    exact hoperands
  have hrequest : (Instruction.operator (.calculate .get)).request? d.operands =
      some (.empty, .get 5) := by
    have hsplit := Checked.split?_eq (n := 1) (show _ = [] ++ [5] from hd) rfl (Nat.zero_le _)
    rw [Instruction.request?, Calculation.request?, hsplit]
    rfl
  obtain ⟨operands, hafter, hx⟩ :=
    ((hinstruction _ d hi).1 .empty 5 hrequest).1 5 9 (by decide +kernel) hlast
  exact ⟨m, d, operands, hm, hi, hafter, hx⟩

end Type1
