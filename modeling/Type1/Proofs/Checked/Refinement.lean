import Type1.Proofs.Checked.Program
import Type1.Proofs.History

/-!
# Refinement

A computation on arrays refines one on the state if it has no fault and does the same: it gives the
same value and leaves arrays that hold what the state has, or it fails with the same error and
leaves the same history.

* `Machine.Shows`: the arrays and the rest of a machine are those of a state.
* `Refines P x y`: `x` refines `y`, with values related by `P`. Closed under `>>=` (`Refines.bind`).
* `refines_aside`: what needs none of the arrays refines itself.
* `refines_pop`, `refines_popAll`, `refines_arguments`, …: the stack.
-/

namespace Type1

/-- The coordinates of the collected points. -/
def Flex.values (f : Flex) : List Number := f.points.flatMap fun p => [p.x, p.y]

/-- The change that makes what arrays hold empty. -/
def Aside.empty : Aside where
  operands _ := .empty
  points _ := []
  counters _ := []

/-- The change that makes what arrays hold as it is in a state. -/
def Aside.like (d : Decoder) : Aside where
  operands _ := d.operands
  points _ := d.flex.points
  counters _ := d.counters

/-- The state without what arrays hold. -/
def Decoder.bare : Decoder → Decoder := .adjust .empty

/-- The arrays hold what the state has, and the rest is as in the state. -/
structure Machine.Shows (m : Machine) (d : Decoder) : Prop where
  stack : m.stack.Holds d.operands.toList
  flex : m.flex.Holds d.flex.values
  counters : m.counters.Holds d.counters
  rest : m.rest = d.bare

namespace Machine.Shows

variable {m : Machine} {d : Decoder}

theorem history (h : m.Shows d) : m.rest.history = d.history := by
  rw [h.rest]
  simp [Decoder.bare, Decoder.adjust, Aside.empty]

theorem storage (h : m.Shows d) : m.rest.storage = d.storage := by
  rw [h.rest]
  rfl

theorem seed (h : m.Shows d) : m.rest.seed = d.seed := by
  rw [h.rest]
  rfl

theorem record (h : m.Shows d) (e : Event) :
    { m with rest := m.rest.record e }.Shows (d.record e) :=
  ⟨h.stack, h.flex, h.counters, by rw [h.rest]; exact d.record_adjust .empty e⟩

theorem rest_flex (h : m.Shows d) : m.rest.flex = { d.flex with points := [] } := by
  rw [h.rest]
  rfl

theorem setStack (h : m.Shows d) {stack : Buffer Operands.capacity} {operands : Operands}
    (hs : stack.Holds operands.toList) : { m with stack }.Shows { d with operands } :=
  ⟨hs, h.flex, h.counters, h.rest⟩

theorem setCounters (h : m.Shows d) {buffer : Buffer counterCapacity} {counters : List Number}
    (hc : buffer.Holds counters) :
    { m with counters := buffer }.Shows { d with counters } :=
  ⟨h.stack, h.flex, hc, h.rest⟩

end Machine.Shows

theorem Decode.orFail_run {α : Type} {e : Error} {a : α} {d : Decoder} :
    Decode.orFail e (some a) d = .ok a d := rfl

namespace Checked

open Guarded

variable {α β γ δ : Type}

/-- The outcomes are of the same kind: a related value and arrays that hold what the state has, or
the same error after the same history. -/
inductive Follows (P : α → β → Prop) :
    EStateM.Result Stop Machine α → EStateM.Result Error Decoder β → Prop where
  | ok {a : α} {b : β} {m : Machine} {d : Decoder} :
      P a b → m.Shows d → Follows P (.ok a m) (.ok b d)
  | error {e : Error} {m : Machine} {d : Decoder} :
      m.rest.history = d.history → Follows P (.error (.failed e) m) (.error e d)

/-- From arrays that hold what a state has, the outcome follows that from the state. -/
def Refines (P : α → β → Prop) (x : Checked α) (y : Decode β) : Prop :=
  ∀ m d, m.Shows d → Follows P (x m) (y d)

section Rules

variable {P : α → β → Prop} {Q : γ → δ → Prop}

theorem refines_pure {a : α} {b : β} (h : P a b) : Refines P (pure a) (pure b) :=
  fun _ _ hs => .ok h hs

theorem refines_fail (e : Error) : Refines P (fail e) (throw e) :=
  fun _ _ hs => .error hs.history

theorem refines_fail_bind (e : Error) {k : α → Checked γ} {l : β → Decode δ} :
    Refines Q (fail e >>= k) (throw e >>= l) :=
  fun _ _ hs => .error hs.history

theorem refines_orFail (e : Error) (o : Option α) :
    Refines Eq (Guarded.orFail e o) (Decode.orFail e o) := by
  cases o with
  | none => exact refines_fail e
  | some a => exact refines_pure rfl

/-- A computation goes on from a value and a state that the other one has reached. -/
theorem Follows.bind_of_run {x : Checked α} {y : Decode β} {k : α → Checked γ} {l : β → Decode δ}
    {m : Machine} {d : Decoder} (hx : Follows P (x m) (y d))
    (hk : ∀ a b n e, y d = .ok b e → P a b → n.Shows e → Follows Q (k a n) (l b e)) :
    Follows Q ((x >>= k) m) ((y >>= l) d) := by
  show Follows Q (EStateM.bind x k m) (EStateM.bind y l d)
  unfold EStateM.bind
  generalize hy : y d = r at hx hk
  revert hx
  generalize x m = r'
  rintro (⟨hab, hs⟩ | hh)
  · exact hk _ _ _ _ rfl hab hs
  · exact .error hh

theorem Follows.bind {x : Checked α} {y : Decode β} {k : α → Checked γ} {l : β → Decode δ}
    {m : Machine} {d : Decoder} (hx : Follows P (x m) (y d))
    (hk : ∀ a b, P a b → Refines Q (k a) (l b)) : Follows Q ((x >>= k) m) ((y >>= l) d) :=
  hx.bind_of_run fun a b _ _ _ hab hs => hk a b hab _ _ hs

/-- What follows a value that is known. -/
theorem Follows.bind_of_ok {x : Checked α} {k : α → Checked γ} {m : Machine} {b : β} {d : Decoder}
    {r : EStateM.Result Error Decoder δ} (hx : Follows P (x m) (.ok b d))
    (hk : ∀ a m, P a b → m.Shows d → Follows Q (k a m) r) : Follows Q ((x >>= k) m) r := by
  cases hr : x m with
  | ok a m' =>
    rw [hr] at hx
    rw [bind_ok hr]
    cases hx with
    | ok hab hs => exact hk a m' hab hs
  | error e m' =>
    rw [hr] at hx
    cases hx

/-- Nothing follows an error. -/
theorem Follows.bind_of_error {x : Checked α} {k : α → Checked γ} {m : Machine} {e : Error}
    {d d' : Decoder} (hx : Follows P (x m) (.error e d : EStateM.Result Error Decoder β))
    (hd : d.history = d'.history) :
    Follows Q ((x >>= k) m) (.error e d' : EStateM.Result Error Decoder δ) := by
  cases hr : x m with
  | ok a m' =>
    rw [hr] at hx
    cases hx
  | error e' m' =>
    rw [hr] at hx
    rw [bind_error hr]
    cases hx with
    | error hh => exact .error (hh.trans hd)

theorem Refines.bind {x : Checked α} {y : Decode β} {k : α → Checked γ} {l : β → Decode δ}
    (hx : Refines P x y) (hk : ∀ a b, P a b → Refines Q (k a) (l b)) :
    Refines Q (x >>= k) (y >>= l) :=
  fun m d hs => (hx m d hs).bind hk

/-- Related values of a computation whose value is not related otherwise. -/
theorem Refines.seq {x : Checked α} {y : Decode α} {k : α → Checked γ} {l : α → Decode δ}
    (hx : Refines Eq x y) (hk : ∀ a, Refines Q (k a) (l a)) : Refines Q (x >>= k) (y >>= l) :=
  hx.bind fun a _ h => h ▸ hk a

theorem refines_ite {p q : Prop} [Decidable p] [Decidable q] {x x' : Checked α} {y y' : Decode β}
    (h : p ↔ q) (hx : q → Refines P x y) (hy : ¬q → Refines P x' y') :
    Refines P (if p then x else x') (if q then y else y') := by
  by_cases hq : q
  · rw [if_pos (h.2 hq), if_pos hq]
    exact hx hq
  · rw [if_neg fun hp => hq (h.1 hp), if_neg hq]
    exact hy hq

/-- What is taken from the state is the same if it is part of the rest. -/
theorem refines_get {k : Machine → Checked α} {l : Decoder → Decode β}
    (h : ∀ m d, m.Shows d → Follows P (k m m) (l d d)) : Refines P (get >>= k) (get >>= l) :=
  h

/-- A condition that is checked and always holds. -/
theorem refines_ensure_bind {f : Fault} {p : Prop} [Decidable p] {k : Unit → Checked α}
    {y : Decode β} (hp : p) (hk : Refines P (k ()) y) : Refines P (ensure f p >>= k) y := by
  intro m d hs
  rw [bind_ok (ensure_run hp)]
  exact hk m d hs

/-- What a computation leaves aside is afterwards as before. -/
theorem aside_eq {y : Decode α} (hy : ∀ a, y.Commutes (.adjust a)) {d e : Decoder} {b : α}
    (h : y d = .ok b e) :
    e.operands = d.operands ∧ e.flex.points = d.flex.points ∧ e.counters = d.counters := by
  have hd : d.adjust (.like d) = d := by
    simp [Decoder.adjust, Aside.like]
  have he := hy (.like d) d
  rw [hd, h] at he
  simp only [Decode.onState, EStateM.Result.ok.injEq, true_and] at he
  have ho : e.operands = (e.adjust (.like d)).operands := congrArg Decoder.operands he
  have hp : e.flex.points = (e.adjust (.like d)).flex.points :=
    congrArg (fun c => c.flex.points) he
  have hc : e.counters = (e.adjust (.like d)).counters := congrArg Decoder.counters he
  exact ⟨ho, hp, hc⟩

/-- What needs none of the arrays refines itself. -/
theorem refines_aside {y : Decode α} (hy : ∀ a, y.Commutes (.adjust a)) :
    Refines Eq (aside y) y := by
  intro m d hs
  have hrest : y m.rest = Decode.onState Decoder.bare (y d) := by
    rw [hs.rest]
    exact hy .empty d
  unfold aside
  rw [hrest]
  cases hyd : y d with
  | ok b e =>
    obtain ⟨ho, hp, hc⟩ := aside_eq hy hyd
    have hv : e.flex.values = d.flex.values := by rw [Flex.values, hp]; rfl
    exact .ok rfl ⟨ho ▸ hs.stack, hv ▸ hs.flex, hc ▸ hs.counters, rfl⟩
  | error x e =>
    refine .error ?_
    simp [Decoder.bare, Decoder.adjust, Aside.empty]

theorem refines_modify {f : Decoder → Decoder}
    (hf : ∀ a d, f (d.adjust a) = (f d).adjust a) : Refines Eq (aside (modify f)) (modify f) :=
  refines_aside fun a => Decode.commutes_modify (hf a)

theorem aside_modify_run {f : Decoder → Decoder} {m : Machine} :
    aside (modify f) m = .ok () { m with rest := f m.rest } := rfl

theorem refines_refuse (n : Note) (e : Error) :
    Refines P (aside (Decode.refuse n e)) (Decode.refuse n e) := by
  intro m d hs
  refine .error ?_
  show m.rest.history.push _ = d.history.push _
  rw [hs.history]

end Rules

/-! ## The stack -/

section Stack

variable {m : Machine} {d : Decoder} {P : α → β → Prop}

theorem append?_eq {s : Operands} {l values : List Number} (hs : s.toList = l)
    (h : (l ++ values).length ≤ Operands.capacity) :
    s.append? values = some ⟨l ++ values, h⟩ := by
  subst hs
  rw [Operands.append?, dif_pos (by rw [Operands.size, ← List.length_append]; exact h)]

theorem split?_eq {s : Operands} {l values : List Number} (hs : s.toList = l ++ values) {n : Nat}
    (hn : values.length = n) (h : l.length ≤ Operands.capacity) :
    s.split? n = some (⟨l, h⟩, ⟨values.toArray, by rw [List.size_toArray, hn]⟩) := by
  subst hn
  have hsize : s.size = l.length + values.length := by
    rw [Operands.size, hs, List.length_append]
  have hfront : s.size - values.length = l.length := by omega
  rw [Operands.split?, dif_pos (by omega)]
  congr 2
  · refine Operands.ext ?_
    show s.toList.take (s.size - values.length) = l
    rw [hfront, hs, List.take_left]
  · refine Vector.toArray_inj.1 ?_
    show (s.toList.drop (s.size - values.length)).toArray = values.toArray
    rw [hfront, hs, List.drop_left]

/-- The top `n` operands, and those below. -/
theorem exists_top {n : Nat} (h : n ≤ d.operands.size) :
    ∃ l values, d.operands.toList = l ++ values ∧ values.length = n ∧
      l.length ≤ Operands.capacity := by
  have hle := d.operands.length_le
  refine ⟨d.operands.toList.take (d.operands.size - n),
    d.operands.toList.drop (d.operands.size - n), (List.take_append_drop _ _).symm, ?_, ?_⟩
  · rw [List.length_drop, ← Operands.size]
    omega
  · rw [List.length_take]
    omega

theorem exists_top_two (h : 2 ≤ d.operands.size) :
    ∃ l v w, d.operands.toList = l ++ [v, w] ∧ l.length ≤ Operands.capacity ∧
      (l ++ [v]).length ≤ Operands.capacity := by
  obtain ⟨l, values, hd, hv, hl⟩ := exists_top h
  have hle := d.operands.length_le
  rw [hd, List.length_append, hv] at hle
  match values, hv with
  | [v, w], _ =>
    refine ⟨l, v, w, hd, hl, ?_⟩
    rw [List.length_append, List.length_singleton]
    omega

theorem push_run (hs : m.Shows d) {l : List Number} (hd : d.operands.toList = l) (v : Number)
    (hl : (l ++ [v]).length ≤ Operands.capacity) :
    ∃ stack, push v m = .ok () { m with stack } ∧
      { m with stack }.Shows { d with operands := ⟨l ++ [v], hl⟩ } := by
  have hlt : l.length < Operands.capacity := by
    rw [List.length_append] at hl
    exact hl
  obtain ⟨stack, hp, hh⟩ := Buffer.push_run (s := m) (hd ▸ hs.stack) (by decide) hlt v
  refine ⟨stack, ?_, hs.setStack hh⟩
  rw [push, get_bind, bind_ok hp]
  rfl

theorem push_run_full (hs : m.Shows d) (hd : d.operands.toList.length = Operands.capacity)
    (v : Number) : push v m = .error (.failed .stackOverflow) m := by
  rw [push, get_bind, bind_error (Buffer.push_run_full hs.stack hd v)]

theorem pop_run (hs : m.Shows d) {l : List Number} {v : Number}
    (hd : d.operands.toList = l ++ [v]) (hl : l.length ≤ Operands.capacity) :
    ∃ stack, pop m = .ok v { m with stack } ∧
      { m with stack }.Shows { d with operands := ⟨l, hl⟩ } := by
  obtain ⟨stack, hp, hh⟩ := Buffer.pop_run (s := m) (hd ▸ hs.stack)
  refine ⟨stack, ?_, hs.setStack hh⟩
  rw [pop, get_bind, bind_ok hp]
  rfl

theorem pop_run_empty (hs : m.Shows d) (hd : d.operands.toList = []) :
    pop m = .error (.failed .stackUnderflow) m := by
  rw [pop, get_bind, bind_error (Buffer.pop_run_empty (hd ▸ hs.stack))]

theorem require_run (hs : m.Shows d) {n : Nat} (h : n ≤ d.operands.size) :
    require n m = .ok () m := by
  rw [require, get_bind, Buffer.require_run hs.stack h]

theorem require_run_short (hs : m.Shows d) {n : Nat} (h : d.operands.size < n) :
    require n m = .error (.failed .stackUnderflow) m := by
  rw [require, get_bind, Buffer.require_run_short hs.stack h]

theorem operand_run {l : List Number} (hl : m.stack.Holds l) {i : Nat} (h : i < l.length) :
    operand i m = .ok l[i] m := by
  rw [operand, get_bind, Buffer.get_run hl h]

theorem operand_run_append {front back : List Number} {v : Number}
    (hl : m.stack.Holds (front ++ v :: back)) : operand front.length m = .ok v m := by
  have h : front.length < (front ++ v :: back).length := by simp
  rw [operand_run hl h]
  simp

theorem setOperand_run {front back : List Number} {v : Number}
    (hl : m.stack.Holds (front ++ v :: back)) (w : Number) :
    ∃ stack, setOperand front.length w m = .ok () { m with stack } ∧
      stack.Holds (front ++ w :: back) := by
  obtain ⟨stack, hx, hh⟩ := Buffer.set_run (s := m) hl w
  refine ⟨stack, ?_, hh⟩
  rw [setOperand, get_bind, bind_ok hx]
  rfl

theorem clear_run : clear m = .ok () { m with stack := m.stack.clear } := rfl

theorem refines_clear : Refines Eq clear Decode.clear :=
  fun _ _ hs => .ok rfl (hs.setStack Buffer.holds_clear)

/-- After a check of the stack, the operands that the check is for are there. -/
theorem follows_require_bind (hs : m.Shows d) {n : Nat} {k : Unit → Checked α}
    {r : EStateM.Result Error Decoder β}
    (hshort : d.operands.size < n → r = .error .stackUnderflow d)
    (h : n ≤ d.operands.size → Follows P (k () m) r) : Follows P ((require n >>= k) m) r := by
  by_cases hn : n ≤ d.operands.size
  · rw [bind_ok (require_run hs hn)]
    exact h hn
  · rw [bind_error (require_run_short hs (Nat.not_le.1 hn)), hshort (Nat.not_le.1 hn)]
    exact .error hs.history

theorem refines_push (v : Number) : Refines Eq (push v) (Decode.push v) := by
  intro m d hs
  have hle := d.operands.length_le
  by_cases h : d.operands.toList.length = Operands.capacity
  · rw [push_run_full hs h, Decode.push,
      Decode.pushAll_run_full (by rw [Operands.size]; simp; omega)]
    exact .error hs.history
  · obtain ⟨stack, hp, hh⟩ := push_run hs rfl v (by simp; omega)
    rw [hp, Decode.push, Decode.pushAll_run (append?_eq rfl (by simp; omega))]
    exact .ok rfl hh

/-- One more operand is taken off the stack if the top one is taken before the others. -/
theorem split?_succ {s t : Operands} {l : List Number} {v : Number} {n : Nat}
    {values : Vector Number n} (hs : s.toList = l ++ [v]) (hl : l.length ≤ Operands.capacity)
    (h : (⟨l, hl⟩ : Operands).split? n = some (t, values)) :
    s.split? (n + 1) = some (t, values.push v) := by
  have hn : n ≤ l.length := Nat.le_of_not_lt fun hlt => by
    rw [Operands.split?_eq_none_iff.2 hlt] at h
    cases h
  obtain ⟨front, back, rfl, hb⟩ : ∃ front back, l = front ++ back ∧ back.length = n :=
    ⟨l.take (l.length - n), l.drop (l.length - n), (List.take_append_drop _ _).symm, by
      rw [List.length_drop]; omega⟩
  have hf : front.length ≤ Operands.capacity := by
    rw [List.length_append] at hl
    omega
  rw [split?_eq rfl hb hf] at h
  cases h
  rw [split?_eq (hs.trans (List.append_assoc front back [v]))
    (by rw [List.length_append, hb]; rfl) hf]
  simp

/-- The top `n` operands, taken one after the other. -/
theorem refines_popAll (n : Nat) : Refines Eq (popAll n) (Decode.take n) := by
  induction n with
  | zero =>
    intro m d hs
    have hsplit := split?_eq (n := 0) (List.append_nil d.operands.toList).symm rfl
      d.operands.length_le
    rw [Decode.take_run hsplit]
    exact .ok rfl hs
  | succ n ih =>
    intro m d hs
    rw [popAll]
    by_cases h : d.operands.toList = []
    · rw [bind_error (pop_run_empty hs h),
        Decode.take_run_short (by rw [Operands.size, h]; exact Nat.succ_pos n)]
      exact .error hs.history
    -- The last operand is popped, and those below are popped by the induction.
    obtain ⟨l, v, hd⟩ : ∃ l v, d.operands.toList = l ++ [v] :=
      ⟨_, _, (List.dropLast_concat_getLast h).symm⟩
    have hlen := congrArg List.length hd
    have hle := d.operands.length_le
    rw [List.length_append, List.length_singleton] at hlen
    obtain ⟨stack, hp, hs'⟩ := pop_run hs hd (by omega)
    have hrest := ih _ _ hs'
    rw [bind_ok hp]
    cases hsplit : (⟨l, by omega⟩ : Operands).split? n with
    | none =>
      have hlt : l.length < n := Operands.split?_eq_none_iff.1 hsplit
      rw [Decode.take_run_short hlt] at hrest
      rw [Decode.take_run_short (by rw [Operands.size]; omega)]
      exact hrest.bind_of_error rfl
    | some p =>
      rw [Decode.take_run hsplit] at hrest
      rw [Decode.take_run (split?_succ hd (by omega) hsplit)]
      refine hrest.bind_of_ok fun values m hv hs => ?_
      rw [hv]
      exact .ok rfl hs

/-- After a check of the stack, the top `n` operands are there. -/
theorem refines_take_bind {n : Nat} {k : Vector Number n → Checked α}
    {l : Vector Number n → Decode β} (h : ∀ v, Refines P (k v) (l v)) :
    Refines P (require n >>= fun _ => popAll n >>= k) (Decode.take n >>= l) := by
  intro m d hs
  exact follows_require_bind hs (fun hn => bind_error (Decode.take_run_short hn)) fun _ =>
    (refines_popAll n).seq h m d hs

/-- The operand on top, taken alone. -/
theorem refines_pop : Refines (fun a v => v = #v[a]) pop (Decode.take 1) := by
  intro m d hs
  have h : popAll 1 m = (pop >>= fun a => pure #v[a]) m := rfl
  have hone := refines_popAll 1 m d hs
  rw [h] at hone
  cases hp : pop m with
  | ok a m' =>
    rw [bind_ok hp] at hone
    revert hone
    generalize Decode.take 1 d = r
    rintro (⟨hab, hs⟩ | -)
    exact .ok hab.symm hs
  | error e m' =>
    rw [bind_error hp] at hone
    revert hone
    generalize Decode.take 1 d = r
    rintro (- | hh)
    exact .error hh

theorem refines_pop_bind {k : Number → Checked α} {l : Vector Number 1 → Decode β}
    (h : ∀ a, Refines P (k a) (l #v[a])) : Refines P (pop >>= k) (Decode.take 1 >>= l) :=
  refines_pop.bind fun a _ hv => hv ▸ h a

/-- Two operands put on the stack one after the other. -/
theorem refines_push_push (a b : Number) :
    Refines Eq (push a >>= fun _ => push b) (Decode.pushAll [a, b]) := by
  intro m d hs
  have hle := d.operands.length_le
  by_cases h : d.operands.toList.length + 2 ≤ Operands.capacity
  · obtain ⟨stack, hp, hs'⟩ := push_run hs rfl a (by simp; omega)
    obtain ⟨stack', hp', hs''⟩ := push_run hs' rfl b (by simp; omega)
    rw [bind_ok hp, hp', Decode.pushAll_run (append?_eq rfl (by simp; omega))]
    refine .ok rfl ?_
    simpa using hs''
  rw [Decode.pushAll_run_full (by rw [Operands.size]; simp; omega)]
  by_cases hfull : d.operands.toList.length = Operands.capacity
  · rw [bind_error (push_run_full hs hfull a)]
    exact .error hs.history
  · obtain ⟨stack, hp, hs'⟩ := push_run hs rfl a (by simp; omega)
    rw [bind_ok hp, push_run_full hs' (by simp; omega)]
    exact .error hs.history

theorem lowest_run (hs : m.Shows d) {n : Nat} (h : n ≤ d.operands.size) :
    ∃ v, lowest n m = .ok v m ∧ v.toList = d.operands.toList.take n := by
  induction n with
  | zero => exact ⟨#v[], rfl, rfl⟩
  | succ n ih =>
    obtain ⟨v, hv, hl⟩ := ih (by omega)
    refine ⟨v.push d.operands.toList[n], ?_, ?_⟩
    · rw [lowest, bind_ok hv, bind_ok (operand_run hs.stack h)]
      rfl
    · rw [Vector.toList_push, hl]
      exact List.take_append_getElem h

/-- The lowest `n` operands, read one after the other. -/
theorem refines_arguments (n : Nat) : Refines Eq (arguments n) (Decode.arguments n) := by
  intro m d hs
  refine follows_require_bind hs Decode.arguments_run_short fun hn => ?_
  obtain ⟨v, hv, hl⟩ := lowest_run hs hn
  have hb : d.operands.bottom? n = some v := by
    rw [Operands.bottom?, dif_pos hn]
    refine congrArg some (Vector.toArray_inj.1 ?_)
    show (d.operands.toList.take n).toArray = v.toArray
    rw [← hl]
    rfl
  rw [hv, Decode.arguments_run hb]
  exact .ok rfl hs

end Stack

end Checked

end Type1
