import Type1.Proofs.Checked.Refinement
import Type1.Proofs.CounterGrammar
import Type1.Proofs.StoredValues
import Type1.Proofs.Truncation

/-!
# Operands below zero as indices

Cells, values to blend, arguments, subroutines and the parts of an accented character are named by
operands that are read as indices, counts or character codes, and an operator knows such an operand
by the index alone. If there is none, the operator fails before it has done anything.

* `Operator.Indexes`: the operands of an operator, with a place for one that it reads so.
* `Decode.KnowsIndex`: what a computation makes of an operand. There is a rule for each construct.
* `Decode.knowsIndex_perform`: all operators.
* `negative_indices`: the operands below zero in a run. `negative_indices_get`: an index of -1.
* `negative_indices_accepted`: indices, subroutines and codes of -1/2.
-/

namespace Type1

/-! ## Places for indices -/

/-- The operands of a calculation, from the bottom of the stack to its top, with a place for one
that is read as an index or a count. -/
inductive Calculation.Indexes : Calculation → (Number → List Number) → Prop where
  | put (below : List Number) (x : Number) : Indexes .put (below ++ [x, ·])
  | get (below : List Number) : Indexes .get (below ++ [·])
  | storeStart (below : List Number) (register cell count : Number) :
      Indexes .store (below ++ [register, ·, cell, count])
  | storeCell (below : List Number) (register start count : Number) :
      Indexes .store (below ++ [register, start, ·, count])
  | storeCount (below : List Number) (register start cell : Number) :
      Indexes .store (below ++ [register, start, cell, ·])
  | loadCell (below : List Number) (register count : Number) :
      Indexes .load (below ++ [register, ·, count])
  | loadCount (below : List Number) (register cell : Number) :
      Indexes .load (below ++ [register, cell, ·])

/-- The same for an other subroutine. The weights are copied if there are at most as many as a font
can have. -/
inductive OtherSubr.Indexes (font : Font) : OtherSubr → (Number → List Number) → Prop where
  | calculate {op : Calculation} {around : Number → List Number} (h : op.Indexes around) :
      Indexes font (.calculate op) around
  | storeWeights (below : List Number) (h : font.masters ≤ Storage.maxMasters) :
      Indexes font .storeWeights (below ++ [·])

/-- The same for an operator, with its error for an operand that is none. -/
inductive Operator.Indexes (font : Font) : Operator → (Number → List Number) → Error → Prop where
  | calculate {op : Calculation} {around : Number → List Number} (h : op.Indexes around) :
      Indexes font (.calculate op) around .boundsCheck
  | blend (below : List Number) : Indexes font .blend (below ++ [·]) .boundsCheck
  | arguments (below : List Number) (selector : Number) :
      Indexes font .callothersubr (below ++ [·, selector]) .boundsCheck
  | called {subr : OtherSubr} {around : Number → List Number} {count selector : Number} {n : Nat}
      (h : subr.Indexes font around) (hcount : count.toIndex? = some n)
      (hn : ∀ v, n ≤ (around v).length)
      (hselector : selector.truncate?.bind OtherSubr.ofSelector? = some subr) :
      Indexes font .callothersubr (fun v => around v ++ [count, selector]) .boundsCheck
  | callsubr (below : List Number) : Indexes font .callsubr (below ++ [·]) .invalidSubr
  | base (bearing x y accent : Number) (above : List Number) :
      Indexes font .seac ([bearing, x, y, ·, accent] ++ above) .badSeac
  | accent (bearing x y base : Number) (above : List Number) :
      Indexes font .seac ([bearing, x, y, base, ·] ++ above) .badSeac

/-- A called subroutine that reads an index has as many operands as it needs. -/
theorem OtherSubr.Indexes.arity_le {font : Font} {subr : OtherSubr} {around : Number → List Number}
    (h : subr.Indexes font around) (n : Nat) (v : Number) : subr.arity n ≤ (around v).length := by
  cases h with
  | calculate h => cases h <;> exact List.length_append ▸ Nat.le_add_left _ _
  | storeWeights below => exact List.length_append ▸ Nat.le_add_left _ _

/-! ## What is made of an operand -/

namespace Number

variable {v w start count start' count' : Number} {capacity : Nat}

theorem range?_congr (hstart : start'.toIndex? = start.toIndex?)
    (hcount : count'.toIndex? = count.toIndex?) :
    range? start' count' capacity = range? start count capacity := by
  rw [range?, range?, hstart, hcount]

theorem toByte?_congr (h : w.toIndex? = v.toIndex?) : w.toByte? = v.toByte? := by
  rw [toByte?, toByte?, h]

theorem toByte?_none (h : v.toIndex? = none) : v.toByte? = none := by
  rw [toByte?, h]

end Number

namespace Operands

variable {o : Operands}

/-- What lies below operands fits on the stack. -/
theorem length_below_le {below top : List Number} (h : o.toList = below ++ top) :
    below.length ≤ capacity := by
  have hfits := o.length_le
  rw [h, List.length_append] at hfits
  exact Nat.le_trans (Nat.le_add_right _ _) hfits

theorem bottom?_eq {n : Nat} {bottom : Vector Number n} {above : List Number}
    (h : o.toList = bottom.toList ++ above) : o.bottom? n = some bottom := by
  have hle : n ≤ o.size := by
    rw [size, h, List.length_append, bottom.length_toList]
    exact Nat.le_add_right _ _
  rw [bottom?, dif_pos hle]
  refine congrArg some (Vector.toArray_inj.1 ?_)
  show (o.toList.take n).toArray = bottom.toArray
  rw [h, List.take_left' bottom.length_toList]
  rfl

end Operands

namespace Decode

variable {α β : Type} {around : Number → List Number} {y : Error} {setup : Setup}

/-- Of the operand in this place, the computation knows no more than the index that it is read as;
without one it fails and has taken operands off at most. -/
structure KnowsIndex (around : Number → List Number) (y : Error) (x : Decode α) : Prop where
  refused : ∀ (d : Decoder) (v : Number), d.operands.toList = around v → v.toIndex? = none →
    ∃ operands, x d = .error y { d with operands }
  same : ∀ (d : Decoder) (v w : Number) (operands : Operands), d.operands.toList = around v →
    operands.toList = around w → w.toIndex? = v.toIndex? → x { d with operands } = x d

theorem KnowsIndex.bind {x : Decode α} (h : KnowsIndex around y x) (k : α → Decode β) :
    KnowsIndex around y (x >>= k) where
  refused d v hd hv := by
    obtain ⟨operands, hx⟩ := h.refused d v hd hv
    exact ⟨operands, bind_run_error hx⟩
  same d v w operands hd hw hvw := by
    show EStateM.bind x k _ = EStateM.bind x k d
    rw [EStateM.bind, EStateM.bind, h.same d v w operands hd hw hvw]

theorem take_top {n : Nat} {below : List Number} {top : Vector Number n}
    {k : Vector Number n → Decode α} {d : Decoder} (h : d.operands.toList = below ++ top.toList) :
    (take n >>= k) d = k top { d with operands := ⟨below, Operands.length_below_le h⟩ } :=
  bind_run (take_run (Checked.split?_eq h top.length_toList _))

/-- A computation that takes its operands off the top, and reads one of them as an index. -/
theorem knowsIndex_take {n : Nat} {below : List Number} {t : Number → Vector Number n}
    {k : Vector Number n → Decode α}
    (hrefused : ∀ v, v.toIndex? = none → ∀ d, k (t v) d = .error y d)
    (hsame : ∀ v w, w.toIndex? = v.toIndex? → k (t w) = k (t v)) :
    KnowsIndex (fun v => below ++ (t v).toList) y (take n >>= k) where
  refused d v hd hv := ⟨_, (take_top hd).trans (hrefused v hv _)⟩
  same d v w operands hd hw hvw := by
    rw [take_top hd, take_top (show { d with operands }.operands.toList = _ from hw), hsame v w hvw]

/-- The value of an option is not gone on with, if that fails as well. -/
theorem orFail_refused {o : Option α} {k : α → Decode β} {d : Decoder}
    (h : ∀ a, o = some a → k a d = .error y d) : (orFail y o >>= k) d = .error y d := by
  cases o with
  | none => rfl
  | some a => exact h a rfl

/-- A computation that takes its operands off the top, and goes on with the index that one of them
is read as. -/
theorem knowsIndex_toIndex {n : Nat} {below : List Number} {t : Number → Vector Number n}
    {i : Vector Number n → Number} {k : Vector Number n → Nat → Decode α} (hi : ∀ v, i (t v) = v)
    (hk : ∀ v w, k (t w) = k (t v)) :
    KnowsIndex (fun v => below ++ (t v).toList) .boundsCheck
      (take n >>= fun v => toIndex (i v) >>= k v) := by
  refine knowsIndex_take (fun v hv d => ?_) fun v w h => ?_
  · rw [hi]
    exact orFail_refused fun n hn => by cases hv.symm.trans hn
  · rw [hi, hi, hk v w, toIndex, toIndex, h]

theorem store_refused {v : Vector Number 4} (h : v.second.toIndex? = none ∨
    v.third.toIndex? = none ∨ v.fourth.toIndex? = none) (d : Decoder) :
    store v d = .error .boundsCheck d := by
  refine orFail_refused fun r _ => orFail_refused fun (cell, n) hcells =>
    orFail_refused fun (start, _) hplaces => ?_
  obtain ⟨hthird, hfourth, -⟩ := Number.range?_eq_some_iff.1 hcells
  obtain ⟨hsecond, -, -⟩ := Number.range?_eq_some_iff.1 hplaces
  rw [hsecond, hthird, hfourth] at h
  simp only [reduceCtorEq, or_self] at h

theorem store_congr {v w : Vector Number 4} (hfirst : w.first = v.first)
    (hsecond : w.second.toIndex? = v.second.toIndex?)
    (hthird : w.third.toIndex? = v.third.toIndex?)
    (hfourth : w.fourth.toIndex? = v.fourth.toIndex?) : store w = store v := by
  simp only [store, hfirst, Number.range?_congr hsecond hfourth, Number.range?_congr hthird hfourth]

theorem load_refused {v : Vector Number 3} (h : v.second.toIndex? = none ∨
    v.third.toIndex? = none) (d : Decoder) : load v d = .error .boundsCheck d := by
  refine orFail_refused fun r _ => orFail_refused fun (cell, n) hcells => ?_
  obtain ⟨hsecond, hthird, -⟩ := Number.range?_eq_some_iff.1 hcells
  rw [hsecond, hthird] at h
  simp only [reduceCtorEq, or_self] at h

theorem load_congr {v w : Vector Number 3} (hfirst : w.first = v.first)
    (hsecond : w.second.toIndex? = v.second.toIndex?)
    (hthird : w.third.toIndex? = v.third.toIndex?) : load w = load v := by
  simp only [load, hfirst, Number.range?_congr hsecond hthird, Number.range?_congr rfl hthird]

theorem knowsIndex_calculate {op : Calculation} (h : op.Indexes around) :
    KnowsIndex around .boundsCheck (calculate op) := by
  cases h with
  | put below x =>
    exact knowsIndex_toIndex (t := fun v => #v[x, v]) (fun _ => rfl) fun _ _ => rfl
  | get below =>
    exact knowsIndex_toIndex (t := fun v => #v[v]) (fun _ => rfl) fun _ _ => rfl
  | storeStart below register cell count =>
    exact knowsIndex_take (t := fun v => #v[register, v, cell, count])
      (fun v hv => store_refused (.inl hv)) fun v w h => store_congr rfl h rfl rfl
  | storeCell below register start count =>
    exact knowsIndex_take (t := fun v => #v[register, start, v, count])
      (fun v hv => store_refused (.inr (.inl hv))) fun v w h => store_congr rfl rfl h rfl
  | storeCount below register start cell =>
    exact knowsIndex_take (t := fun v => #v[register, start, cell, v])
      (fun v hv => store_refused (.inr (.inr hv))) fun v w h => store_congr rfl rfl rfl h
  | loadCell below register count =>
    exact knowsIndex_take (t := fun v => #v[register, v, count])
      (fun v hv => load_refused (.inl hv)) fun v w h => load_congr rfl h rfl
  | loadCount below register cell =>
    exact knowsIndex_take (t := fun v => #v[register, cell, v])
      (fun v hv => load_refused (.inr hv)) fun v w h => load_congr rfl rfl h

theorem knowsIndex_performOtherSubr {subr : OtherSubr} (h : subr.Indexes setup.font around)
    (n : Nat) : KnowsIndex around .boundsCheck (performOtherSubr setup n subr) := by
  cases h with
  | calculate h => exact knowsIndex_calculate h
  | storeWeights below h =>
    show KnowsIndex _ _ (storeWeights setup)
    unfold storeWeights
    dsimp only
    rw [if_neg (Nat.not_lt.2 h)]
    exact knowsIndex_toIndex (t := fun v => #v[v]) (fun _ => rfl) fun _ _ => rfl

/-- A call whose count and selector name a subroutine knows what that knows. -/
theorem knowsIndex_called {subr : OtherSubr} {count selector : Number} {n : Nat}
    (h : subr.Indexes setup.font around) (hcount : count.toIndex? = some n)
    (hn : ∀ v, n ≤ (around v).length)
    (hselector : selector.truncate?.bind OtherSubr.ofSelector? = some subr) :
    KnowsIndex (fun v => around v ++ [count, selector]) .boundsCheck (callOtherSubr setup) := by
  have hknows := knowsIndex_performOtherSubr h n
  have hcall {d : Decoder} {v : Number}
      (hd : d.operands.toList = around v ++ [count, selector]) :
      ∃ below : Operands, below.toList = around v ∧
        callOtherSubr setup d = performOtherSubr setup n subr { d with operands := below } := by
    have hsplit := Checked.split?_eq (n := 2) hd rfl (Operands.length_below_le hd)
    exact ⟨_, rfl, callOtherSubr_of_called
      ⟨⟨_, hsplit, hcount, hselector⟩, hn v, h.arity_le n v⟩⟩
  constructor
  · intro d v hd hv
    obtain ⟨below, hbelow, hrun⟩ := hcall hd
    obtain ⟨operands, hrefused⟩ := hknows.refused { d with operands := below } v hbelow hv
    exact ⟨operands, hrun.trans hrefused⟩
  · intro d v w operands hd hw hvw
    obtain ⟨below, hbelow, hrun⟩ := hcall hd
    obtain ⟨below', hbelow', hrun'⟩ := hcall (d := { d with operands }) hw
    rw [hrun, hrun']
    exact hknows.same { d with operands := below } v w below' hbelow hbelow' hvw

/-- A computation that reads its operands from the bottom and clears the stack. -/
theorem knowsIndex_arguments {n : Nat} {above : List Number} {t : Number → Vector Number n}
    {k : Vector Number n → Decode α}
    (hrefused : ∀ v, v.toIndex? = none → ∀ d, k (t v) d = .error y d)
    (hsame : ∀ v w, w.toIndex? = v.toIndex? → k (t w) = k (t v)) :
    KnowsIndex (fun v => (t v).toList ++ above) y (do
      let v ← arguments n
      clear
      k v) := by
  have hrun {d : Decoder} {v : Number} (hd : d.operands.toList = (t v).toList ++ above) :
      (do
        let v ← arguments n
        clear
        k v : Decode α) d = k (t v) { d with operands := .empty } :=
    bind_run (arguments_run (Operands.bottom?_eq hd))
  constructor
  · intro d v hd hv
    exact ⟨.empty, (hrun hd).trans (hrefused v hv _)⟩
  · intro d v w operands hd hw hvw
    rw [hrun hd, hrun (d := { d with operands }) hw, hsame v w hvw]

theorem accented_refused {v : Vector Number 5} (h : v.fourth.toIndex? = none ∨
    v.fifth.toIndex? = none) (d : Decoder) : accented setup v d = .error .badSeac d := by
  refine orFail_refused fun base hbase => orFail_refused fun accent haccent => ?_
  rcases h with h | h
  · cases (Number.toByte?_none h).symm.trans hbase
  · cases (Number.toByte?_none h).symm.trans haccent

theorem accented_congr {v w : Vector Number 5} (hfirst : w.first = v.first)
    (hsecond : w.second = v.second) (hthird : w.third = v.third)
    (hfourth : w.fourth.toIndex? = v.fourth.toIndex?)
    (hfifth : w.fifth.toIndex? = v.fifth.toIndex?) : accented setup w = accented setup v := by
  simp only [accented, hfirst, hsecond, hthird, Number.toByte?_congr hfourth,
    Number.toByte?_congr hfifth]

/-- An operator knows an operand in such a place by the index that it is read as, and fails if there
is none. -/
theorem knowsIndex_perform {op : Operator} (h : op.Indexes setup.font around y) :
    KnowsIndex around y (perform setup op) := by
  cases h with
  | calculate h => exact (knowsIndex_calculate h).bind _
  | blend below =>
    exact knowsIndex_toIndex (t := fun v => #v[v]) (fun _ => rfl) fun _ _ => rfl
  | arguments below selector =>
    exact KnowsIndex.bind (knowsIndex_toIndex (t := fun v => #v[v, selector]) (fun _ => rfl)
      fun _ _ => rfl) _
  | called h hcount hn hselector => exact (knowsIndex_called h hcount hn hselector).bind _
  | callsubr below =>
    -- An index without a subroutine is refused like no index, so the option is looked at as one.
    refine knowsIndex_take (t := fun v => #v[v]) (fun v hv d => ?_) fun v w h => ?_
    · show (orFail .invalidSubr (v.toIndex?.bind _) >>= _) d = _
      rw [hv]
      rfl
    · show (orFail .invalidSubr (w.toIndex?.bind _) >>= _) =
        (orFail .invalidSubr (v.toIndex?.bind _) >>= _)
      rw [h]
  | base bearing x y accent above =>
    exact knowsIndex_arguments (t := fun v => #v[bearing, x, y, v, accent])
      (fun v hv => accented_refused (.inl hv)) fun v w h => accented_congr rfl rfl rfl h rfl
  | accent bearing x y base above =>
    exact knowsIndex_arguments (t := fun v => #v[bearing, x, y, base, v])
      (fun v hv => accented_refused (.inr hv)) fun v w h => accented_congr rfl rfl rfl rfl h

theorem execute_refused {op : Operator} {d : Decoder} {v : Number}
    (h : op.Indexes setup.font around y) (hd : d.operands.toList = around v)
    (hv : v.toIndex? = none) : ∃ operands, execute setup (.operator op) d =
      .error y { (Instruction.operator op).begin d with operands } :=
  (knowsIndex_perform h).refused ((Instruction.operator op).begin d) v hd hv

end Decode

/-- A run ends where an instruction fails, with the state that this leaves. -/
theorem Run.step_of_error {s : Source} {setup : Setup} {m : Moment s} {i : Instruction}
    {d e : Decoder} {y : Error} (hi : m.Executes i d)
    (hx : Decode.execute setup i d = .error y e) :
    ∃ st, step s setup m = .ended (.error y ⟨st, e⟩) := by
  obtain ⟨next, calls, hread, rfl⟩ := hi
  exact ⟨next.state, by simp only [step, stepWith, hread, hx]⟩

/-- At any moment of a run, an operand below zero that is read as an index, a count or a code is
refused, unless it is above -1: the operator fails with the error for it, has changed nothing but
the operands, and has given a receiver nothing. An operand between -1 and 0 is the index 0: the
operator does what it does with 0 in its place. -/
theorem negative_indices (s : Source) (font : Font) (settings : Settings) (takes : Capabilities)
    (offset : Nat) (st : Source.State) :
    let setup := Setup.of font settings takes
    let run := Run.after s setup offset st
    let given k := Run.given settings takes (run k)
    ∀ n m op d around y v, run n = .running m → m.Executes (.operator op) d →
      op.Indexes font around y → m.decoder.operands.toList = around v → v < 0 →
      (¬ -1 < v → ∃ session operands history, run (n + 1) = .ended (.error y session) ∧
        session.decoder = { m.decoder with operands, history } ∧ given (n + 1) = given n ∧
        (parse s font settings takes offset st).1.result = .error y) ∧
      (-1 < v → ∀ operands, operands.toList = around 0 →
        Decode.execute setup (.operator op) d =
          Decode.perform setup op { (Instruction.operator op).begin d with operands }) := by
  intro setup run given n m op d around y v hm hi hindexes hoperands hv
  have hindex := Number.toIndex?_of_neg hv
  have hd : d.operands.toList = around v := by
    obtain ⟨history, rfl⟩ := hi.eq_history
    exact hoperands
  constructor
  · intro hone
    rw [if_neg hone] at hindex
    let begun := (Instruction.operator op).begin d
    -- Each operator reads the index before it does anything else than to take operands, so that the
    -- refusal ends it there.
    obtain ⟨operands, hrefused⟩ : ∃ operands, Decode.execute setup (.operator op) d =
        .error y { begun with operands } := Decode.execute_refused hindexes hd hindex
    obtain ⟨st', hstep⟩ := Run.step_of_error hi hrefused
    have hend : run (n + 1) = .ended (.error y ⟨st', { begun with operands }⟩) :=
      (Run.after_succ hm).trans hstep
    refine ⟨_, operands, begun.history, hend, ?_, ?_, ?_⟩
    · obtain ⟨history, rfl⟩ := hi.eq_history
      rfl
    · have helements : begun.elements = m.decoder.elements :=
        (Decoder.elements_begin (.operator op) d).trans hi.elements
      show Run.given settings takes (run (n + 1)) = Run.given settings takes (run n)
      rw [hend, hm]
      exact Decoder.given_of_elements helements
    · rw [Run.parse_eq_conclude hend]
      rfl
  · intro hone operands hzero
    rw [if_pos hone] at hindex
    -- What an operator does depends on such an operand through the index alone.
    have hsame : (0 : Number).toIndex? = v.toIndex? := by
      rw [hindex]
      decide +kernel
    have hknows : Decode.KnowsIndex around y (Decode.perform setup op) :=
      Decode.knowsIndex_perform hindexes
    exact (hknows.same ((Instruction.operator op).begin d) v 0 operands hd hzero hsame).symm

namespace NegativeIndices

variable {data : List UInt8} {font : Font} {n : Nat} {op : Operator} {operands : List Number}

/-- The status of a charstring after so many steps. -/
def run (data : List UInt8) (font : Font) : Nat → Status (.memory data none) :=
  Run.after (.memory data none) (.of font {} {}) 0 {}

theorem executes (h : (run data font n).moment?.map
    (fun m => (m.instruction?, m.decoder.operands.toList)) = some (some (.operator op), operands)) :
    ∃ m d, run data font n = .running m ∧ m.Executes (.operator op) d ∧
      m.decoder.operands.toList = operands := by
  obtain ⟨m, hm, hstate⟩ := Option.map_eq_some_iff.1 h
  obtain ⟨hinstruction, hoperands⟩ := Prod.mk.inj hstate
  obtain ⟨d, hi⟩ := Moment.executes_of_instruction? hinstruction
  exact ⟨m, d, Status.eq_running_of_moment? hm, hi, hoperands⟩

/-- The operator is executed with the operands, one of them -1/2 in a place for an index, and the
charstring is decoded. -/
def Accepts (data : List UInt8) (font : Font) (n : Nat) (op : Operator) (operands : List Number)
    (glyph : Glyph) : Prop :=
  (∃ m d, run data font n = .running m ∧ m.Executes (.operator op) d ∧
    m.decoder.operands.toList = operands) ∧
  (∃ around y, op.Indexes font around y ∧ operands = around (-0.5)) ∧
  (parse (.memory data none) font {} {} 0 {}).1.result = .ok glyph

end NegativeIndices

open NegativeIndices in
/-- A cell with the index -1 is not fetched. -/
theorem negative_indices_get : ∃ m session operands history,
    run [138, 12, 21, 14] {} 1 = .running m ∧ m.decoder.operands.toList = [-1] ∧
      (-1 : Number) < 0 ∧ ¬ (-1 : Number) < -1 ∧
      run [138, 12, 21, 14] {} 2 = .ended (.error .boundsCheck session) ∧
      session.decoder = { m.decoder with operands, history } := by
  obtain ⟨m, d, hm, hi, hoperands⟩ : ∃ m d, run [138, 12, 21, 14] {} 1 = .running m ∧
      m.Executes (.operator (.calculate .get)) d ∧ m.decoder.operands.toList = [-1] :=
    executes (by decide +kernel)
  have hneg : (-1 : Number) < 0 := by decide +kernel
  have hone : ¬ (-1 : Number) < -1 := by decide +kernel
  obtain ⟨session, operands, history, hend, hsame, -, -⟩ :=
    (negative_indices (.memory [138, 12, 21, 14] none) {} {} {} 0 {} 1 m (.calculate .get) d _ _ _
      hm hi (.calculate (.get [])) hoperands hneg).1 hone
  exact ⟨m, session, operands, history, hm, hoperands, hneg, hone, hend, hsame⟩

open NegativeIndices in
/-- Operands of -1/2 are accepted: the cell with the index 0 is fetched, the subroutine 0 is
executed, and 0 is the code of a base character. -/
theorem negative_indices_accepted :
    (-0.5 : Number) < 0 ∧
    Accepts [138, 141, 12, 12, 12, 21, 14] {} 3 (.calculate .get) [-0.5] ⟨none, none⟩ ∧
    Accepts [138, 141, 12, 12, 10, 14, 11] { subrs := [6] } 3 .callsubr [-0.5] ⟨none, none⟩ ∧
    Accepts [139, 139, 139, 138, 141, 12, 12, 204, 12, 6] {} 7 .seac [0, 0, 0, -0.5, 65]
      ⟨none, some ⟨0, 65⟩⟩ := by
  refine ⟨by decide +kernel, ⟨executes ?_, ⟨_, _, .calculate (.get []), rfl⟩, ?_⟩,
    ⟨executes ?_, ⟨_, _, .callsubr [], rfl⟩, ?_⟩,
    ⟨executes ?_, ⟨_, _, .base 0 0 0 65 [], rfl⟩, ?_⟩⟩ <;> decide +kernel

end Type1
