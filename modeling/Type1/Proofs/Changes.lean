import Mathlib.Logic.Relation
import Type1.Proofs.Lockstep

/-!
# What an instruction changes

An instruction changes the state step by step, and which changes there can be depends on what the
instruction is for.

* `Activity`, `Instruction.activity`: what an instruction is for. It depends on the state, as moves
  collect points within a flex, and as operands select an other subroutine.
* `Change`: the changes of each activity.
* `changes_execute`: whatever comes of an instruction, the state after it is reached by changes of
  its activity. What each change keeps is kept by the instruction (`Changes.keeps`).
* `Decoder.placeAccent_eq`, `Decoder.startContour_eq`, `Decoder.hintStem_eq`: what parts of the
  changes leave alone.
* `callOtherSubr_called`, `callOtherSubr_cases`, `execute_renews`: a call of an other subroutine
  fails, or it performs the one that is called (`OtherSubr.Called`).
-/

namespace Type1

/-- What an instruction is for. -/
inductive Activity where
  /-- It calculates, collects, closes a contour, or leads elsewhere. -/
  | quiet
  /-- It gives side bearing and width. -/
  | measures
  /-- It moves the current point, outside of a flex or to absolute coordinates. -/
  | moves
  /-- It draws a line or a curve, or it starts or ends a flex. -/
  | draws
  /-- It gives stems. -/
  | hints
  /-- It asks for a new set of hints. -/
  | renews
  /-- It turns the glyph into an accented character. -/
  | composes
deriving DecidableEq, Repr

/-- What an other subroutine is for. -/
def OtherSubr.activity : OtherSubr → Activity
  | startFlex | endFlex => .draws
  | renewHints => .renews
  | counterHints _ => .hints
  | flexPoint | blend _ | storeWeights | calculate _ => .quiet

/-- The operands name the other subroutine and state `n` arguments, and below there are as many as
it needs. -/
structure OtherSubr.Called (subr : OtherSubr) (operands below : Operands) (n : Nat) : Prop where
  named : ∃ v : Vector Number 2, operands.split? 2 = some (below, v) ∧ v.first.toIndex? = some n ∧
    v.second.truncate?.bind ofSelector? = some subr
  count : n ≤ below.size
  arity : subr.arity n ≤ below.size

/-- The other subroutine that is called is the one that the last operand selects. -/
theorem OtherSubr.Called.selected {subr : OtherSubr} {operands below : Operands} {n : Nat}
    (h : subr.Called operands below n) : selected? operands.toList = some subr := by
  obtain ⟨v, hsplit, -, hsubr⟩ := h.named
  rw [selected?, Operands.getLast?_of_split? hsplit]
  exact hsubr

/-- The other subroutine that operands call, with the operands below and the number of arguments. -/
def Operands.called? (operands : Operands) : Option (OtherSubr × Operands × Nat) := do
  let (below, v) ← operands.split? 2
  let n ← v.first.toIndex?
  let subr ← v.second.truncate?.bind OtherSubr.ofSelector?
  if n ≤ below.size ∧ subr.arity n ≤ below.size then some (subr, below, n) else none

theorem Operands.called?_eq_some_iff {operands below : Operands} {n : Nat} {subr : OtherSubr} :
    operands.called? = some (subr, below, n) ↔ subr.Called operands below n := by
  constructor
  · intro h
    obtain ⟨⟨below', v⟩, hsplit, h⟩ := Option.bind_eq_some_iff.1 h
    obtain ⟨n', hn, h⟩ := Option.bind_eq_some_iff.1 h
    obtain ⟨subr', hsubr, h⟩ := Option.bind_eq_some_iff.1 h
    split at h
    · next hle =>
      cases h
      exact ⟨⟨v, hsplit, hn, hsubr⟩, hle.1, hle.2⟩
    · cases h
  · rintro ⟨⟨v, hsplit, hn, hsubr⟩, hcount, harity⟩
    simp only [called?, hsplit, hn, hsubr, Option.bind_eq_bind, Option.bind_some]
    exact if_pos ⟨hcount, harity⟩

/-- What an operator is for in a state. -/
def Operator.activity (op : Operator) (d : Decoder) : Activity :=
  match op with
  | rmoveto | hmoveto | vmoveto => if d.flex.active then .quiet else .moves
  | setcurrentpoint => .moves
  | rlineto | hlineto | vlineto | rrcurveto | vhcurveto | hvcurveto => .draws
  | hstem | vstem | hstem3 | vstem3 => .hints
  | hsbw | sbw => .measures
  | seac => .composes
  | callothersubr =>
    match OtherSubr.selected? d.operands.toList with
    | some subr => subr.activity
    | none => .quiet
  | closepath | callsubr | returnToCaller | endchar | blend | dotsection | pop | calculate _
  | unknown _ => .quiet

/-- What an instruction is for in a state. -/
def Instruction.activity (i : Instruction) (d : Decoder) : Activity :=
  match i with
  | operator op => op.activity d
  | number _ | reserved _ => .quiet

/-- The state in which an operator has entered the history. -/
def Instruction.begin (i : Instruction) (d : Decoder) : Decoder :=
  match i with
  | operator op => d.record (.began op d.operands.toList)
  | number _ | reserved _ => d

/-- What is being decoded, with another side bearing if it is a part. -/
def Part.withBearing (bearing : Point) : Part → Part
  | glyph => glyph
  | base _ => base bearing
  | accent _ shift placed => accent bearing shift placed

/-- A change of the state by an instruction. -/
inductive Change (setup : Setup) : Activity → Decoder → Decoder → Prop where
  /-- The operands are replaced. -/
  | operands {a : Activity} {d : Decoder} (operands : Operands) :
      Change setup a d { d with operands }
  /-- Cells or a register are written. -/
  | storage {a : Activity} {d : Decoder} (storage : Storage) : Change setup a d { d with storage }
  /-- A random number is drawn. -/
  | seed {a : Activity} {d : Decoder} (seed : UInt32) : Change setup a d { d with seed }
  /-- Values are blended. -/
  | blended {a : Activity} {d : Decoder} : Change setup a d { d with blended := true }
  /-- Counter hints are collected. -/
  | counters {a : Activity} {d : Decoder} (counters : List Number) :
    Change setup a d { d with counters }
  /-- Points of a flex are collected, or the flex ends. -/
  | flex {a : Activity} {d : Decoder} (flex : Flex) : Change setup a d { d with flex }
  /-- A contour is closed. -/
  | closed {a : Activity} {d : Decoder} : Change setup a d { d with moveDue := true }
  /-- A remark is made. -/
  | note {a : Activity} {d : Decoder} (n : Note) : Change setup a d (d.record (.noted n))
  /-- An operator that draws nothing is reported. -/
  | operator {a : Activity} {d : Decoder} (code : Nat) (operands : List Number) :
    Change setup a d (d.report (.operator code operands))
  /-- The current point becomes the side bearing. -/
  | point {d : Decoder} (bearing : Point) :
    Change setup .measures d { d with point := bearing.round }
  /-- A part has another side bearing. -/
  | bearing {d : Decoder} (bearing : Point) :
    Change setup .measures d { d with part := d.part.withBearing bearing }
  /-- The glyph gets its side bearing and its width. -/
  | width {d : Decoder} (bearing : Point) (width : Number) (hpart : d.part = .glyph)
      (hwidth : d.width = none) :
    Change setup .measures d (.report (.width width) { d with bearing, width := some width })
  /-- A contour is started. -/
  | move {d : Decoder} (delta : Point) : Change setup .moves d (d.moveBy delta)
  /-- The current point becomes absolute coordinates. -/
  | set {d : Decoder} (p : Point) : Change setup .moves d (d.setPoint p)
  /-- A line is drawn. -/
  | line {d : Decoder} (delta : Point) : Change setup .draws d (d.lineBy delta)
  /-- A curve is drawn. -/
  | curve {d : Decoder} (delta₁ delta₂ delta₃ : Point) :
    Change setup .draws d (d.curveBy setup delta₁ delta₂ delta₃)
  /-- A flex is started. -/
  | startFlex {d : Decoder} : Change setup .draws d d.startFlex
  /-- A flex is drawn. -/
  | flexTo {d : Decoder} (depth : Number) (left right : Curve) :
    Change setup .draws d (d.flexTo setup depth left right)
  /-- A stem is given. -/
  | stem {d : Decoder} (kind : StemKind) (position extent : Number) (hkind : kind.counter = false) :
    Change setup .hints d (d.hintStem setup kind position extent)
  /-- A stem of a counter group is given. -/
  | counterStem {d : Decoder} (vertical : Bool) (near far : Number) :
    Change setup .hints d (d.addStem setup { vertical, counter := true } near far)
  /-- A counter group is started. -/
  | group {d : Decoder} : Change setup .hints d { d with groupDue := true }
  /-- New hints are asked for. -/
  | renew {d : Decoder} : Change setup .renews d d.renewHints
  /-- The codes of the parts are known. -/
  | components {d : Decoder} (components : Components) (hpart : d.part = .glyph) :
    Change setup .composes d { d with components := some components }
  /-- The accented character is reported as such. -/
  | accented {d : Decoder} (shift : Point) (parts : Components) :
    Change setup .composes d (d.report (.accented shift parts))
  /-- A glyph is looked up. -/
  | lookedUp {d : Decoder} (code : UInt8) (offset : Option Nat) :
    Change setup .composes d (d.record (.lookedUp code offset))

/-- One change after the other. -/
abbrev Changes (setup : Setup) (a : Activity) : Decoder → Decoder → Prop :=
  Relation.ReflTransGen (Change setup a)

/-- What each change keeps is kept by all of them together. -/
theorem Changes.keeps {setup : Setup} {a : Activity} {P : Decoder → Prop} {d e : Decoder}
    (h : Changes setup a d e) (hP : ∀ d e, Change setup a d e → P d → P e) (hd : P d) : P e := by
  induction h with
  | refl => exact hd
  | tail _ hc ih => exact hP _ _ hc ih

/-- Changes of the quiet kind are changes of every activity. -/
theorem Changes.of_quiet {setup : Setup} {a : Activity} {d e : Decoder}
    (h : Changes setup .quiet d e) : Changes setup a d e := by
  refine h.lift id fun d e hc => ?_
  cases hc with
  | operands => exact .operands _
  | storage => exact .storage _
  | seed => exact .seed _
  | blended => exact .blended
  | counters => exact .counters _
  | flex => exact .flex _
  | closed => exact .closed
  | note => exact .note _
  | operator => exact .operator _ _

namespace Decoder

/-! ## What is left alone -/

variable (d : Decoder)

/-- Placing the accent leaves all but the current point and the part alone. -/
theorem placeAccent_eq : ∃ point part, d.placeAccent = { d with point, part } := by
  unfold placeAccent
  split
  · exact ⟨_, _, rfl⟩
  · exact ⟨d.point, d.part, rfl⟩

/-- Apart from placing the accent, starting a contour leaves all but the contours alone. -/
theorem startContour_eq :
    ∃ moveDue moved history, d.startContour = { d.placeAccent with moveDue, moved, history } := by
  unfold startContour
  dsimp only
  split
  · exact ⟨_, _, _, rfl⟩
  · exact ⟨_, _, d.placeAccent.history, rfl⟩

/-- A stem leaves all but what is due to stems alone. -/
theorem hintStem_eq (setup : Setup) (kind : StemKind) (position extent : Number) :
    ∃ hintsDue hintsRenewed groupDue history, d.hintStem setup kind position extent =
      { d with hintsDue, hintsRenewed, groupDue, history } := by
  unfold hintStem
  dsimp only
  split <;> exact ⟨_, _, _, _, rfl⟩

end Decoder

namespace Decode

/-! ## Computations -/

/-- Whatever comes of the computation, the state after it is reached by changes of an activity. -/
def Makes {α : Type} (setup : Setup) (a : Activity) (x : Decode α) : Prop :=
  ∀ d, Changes setup a d (final (x d))

section Rules

variable {α β : Type} {setup : Setup} {a : Activity}

theorem makes_pure (v : α) : Makes setup a (pure v) := fun _ => .refl

theorem makes_throw (x : Error) : Makes setup a (throw x : Decode α) := fun _ => .refl

/-- Of two computations, the first one fails, or the second one follows it. -/
theorem bind_cases (x : Decode α) (k : α → Decode β) (d : Decoder) :
    (∃ y e, x d = .error y e ∧ (x >>= k) d = .error y e) ∨
      ∃ v e, x d = .ok v e ∧ (x >>= k) d = k v e := by
  cases h : x d with
  | error y e => exact .inl ⟨y, e, rfl, bind_run_error h⟩
  | ok v e => exact .inr ⟨v, e, rfl, bind_run h⟩

/-- What follows computations that end alike. -/
theorem bind_congr_left {x y : Decode α} {k : α → Decode β} {d e : Decoder}
    (h : x d = y e) : (x >>= k) d = (y >>= k) e := by
  show EStateM.bind x k d = EStateM.bind y k e
  unfold EStateM.bind
  rw [h]

/-- An answer makes no difference to the state. -/
theorem final_bind_pure {x : Decode α} {b : β} {d : Decoder} :
    final ((x >>= fun _ => pure b) d) = final (x d) := by
  rcases bind_cases x (fun _ => pure b) d with ⟨y, e, h, hbind⟩ | ⟨v, e, h, hbind⟩ <;>
    rw [hbind, h] <;> rfl

/-- What follows a computation in a state. -/
theorem changes_bind {x : Decode α} {k : α → Decode β} {d : Decoder}
    (hx : Changes setup a d (final (x d))) (hk : ∀ v, Makes setup a (k v)) :
    Changes setup a d (final ((x >>= k) d)) := by
  rcases bind_cases x k d with ⟨y, e, h, hbind⟩ | ⟨v, e, h, hbind⟩
  · rw [h] at hx
    rw [hbind]
    exact hx
  · rw [h] at hx
    rw [hbind]
    exact hx.trans (hk v e)

theorem Makes.bind {x : Decode α} {k : α → Decode β} (hx : Makes setup a x)
    (hk : ∀ v, Makes setup a (k v)) : Makes setup a (x >>= k) :=
  fun d => changes_bind (hx d) hk

theorem makes_get_bind {k : Decoder → Decode β} (hk : ∀ d, Makes setup a (k d)) :
    Makes setup a (get >>= k) :=
  fun d => hk d d

theorem makes_modify {f : Decoder → Decoder} (h : ∀ d, Change setup a d (f d)) :
    Makes setup a (modify f) :=
  fun d => .single (h d)

theorem makes_orFail (x : Error) (o : Option α) : Makes setup a (orFail x o) := by
  cases o with
  | none => exact makes_throw x
  | some v => exact makes_pure v

theorem makes_ite {p : Prop} [Decidable p] {x y : Decode α} (hx : Makes setup a x)
    (hy : Makes setup a y) : Makes setup a (if p then x else y) := by
  split
  · exact hx
  · exact hy

end Rules

/-! ## The operand stack and the calculations -/

section Stack

variable {α : Type} {setup : Setup} {a : Activity}

theorem makes_refuse (n : Note) (x : Error) : Makes setup a (refuse n x : Decode α) :=
  (makes_modify fun _ => .note n).bind fun _ => makes_throw x

theorem makes_require (n : Nat) : Makes setup a (require n) :=
  makes_get_bind fun _ => makes_ite (makes_throw _) (makes_pure _)

theorem makes_pushAll (values : List Number) : Makes setup a (pushAll values) :=
  makes_get_bind fun _ => (makes_orFail _ _).bind fun _ => makes_modify fun _ => .operands _

theorem makes_take (n : Nat) : Makes setup a (take n) :=
  makes_get_bind fun _ => (makes_orFail _ _).bind fun _ =>
    (makes_modify fun _ => .operands _).bind fun _ => makes_pure _

theorem makes_arguments (n : Nat) : Makes setup a (arguments n) :=
  makes_get_bind fun _ => makes_orFail _ _

theorem makes_clear : Makes setup a clear := makes_modify fun _ => .operands _

theorem makes_unary (f : Number → Number) : Makes setup a (unary f) :=
  (makes_take 1).bind fun _ => makes_pushAll _

theorem makes_binary (f : Number → Number → Number) : Makes setup a (binary f) :=
  (makes_take 2).bind fun _ => makes_pushAll _

theorem makes_modifyStorage (f : Decoder → Storage) :
    Makes setup a (modify fun d => { d with storage := f d }) :=
  makes_modify fun _ => .storage _

theorem makes_store (v : Vector Number 4) : Makes setup a (store v) :=
  (makes_orFail _ _).bind fun _ => (makes_orFail _ _).bind fun _ => (makes_orFail _ _).bind
    fun _ => makes_modifyStorage _

theorem makes_load (v : Vector Number 3) : Makes setup a (load v) :=
  (makes_orFail _ _).bind fun _ => (makes_orFail _ _).bind fun _ => (makes_orFail _ _).bind
    fun _ => makes_modifyStorage _

theorem makes_calculate (op : Calculation) : Makes setup a (calculate op) := by
  cases op with
  | and | or | eq | add | sub | mul | div => rw [calculate]; exact makes_binary _
  | not | abs | neg => rw [calculate]; exact makes_unary _
  | sqrt =>
    refine (makes_take 1).bind fun v => ?_
    dsimp only
    split
    · exact (makes_throw _).bind fun _ => makes_pushAll _
    · exact makes_pushAll _
  | drop => exact (makes_take 1).bind fun _ => makes_pure _
  | dup => exact (makes_take 1).bind fun _ => makes_pushAll _
  | exch => exact (makes_take 2).bind fun _ => makes_pushAll _
  | index =>
    exact (makes_require 2).bind fun _ => (makes_take 1).bind fun _ => (makes_orFail _ _).bind
      fun _ => makes_get_bind fun _ => (makes_orFail _ _).bind fun _ => makes_pushAll _
  | roll =>
    exact (makes_take 2).bind fun _ => (makes_orFail _ _).bind fun _ => (makes_orFail _ _).bind
      fun _ => makes_get_bind fun _ => makes_ite ((makes_take _).bind fun _ => makes_pushAll _)
        (makes_throw _)
  | put =>
    exact (makes_take 2).bind fun _ => (makes_orFail _ _).bind fun _ =>
      makes_ite (makes_modifyStorage _) (makes_throw _)
  | get =>
    exact (makes_take 1).bind fun _ => (makes_orFail _ _).bind fun _ => makes_get_bind
      fun _ => (makes_orFail _ _).bind fun _ => makes_pushAll _
  | ifelse => exact (makes_take 4).bind fun _ => makes_pushAll _
  | random =>
    exact makes_get_bind fun _ => (makes_modify fun _ => .seed _).bind fun _ => makes_pushAll _
  | store => exact (makes_take 4).bind fun _ => makes_store _
  | load => exact (makes_take 3).bind fun _ => makes_load _

theorem makes_blend (n : Nat) : Makes setup a (blend setup n) := by
  unfold blend
  dsimp only
  split
  · exact makes_throw _
  · exact (makes_take _).bind fun _ => makes_get_bind fun _ => (makes_pushAll _).bind fun _ =>
      makes_modify fun _ => .blended

theorem makes_storeWeights : Makes setup a (storeWeights setup) := by
  unfold storeWeights
  dsimp only
  split
  · exact makes_throw _
  · exact (makes_take 1).bind fun _ => (makes_orFail _ _).bind fun _ =>
      makes_ite (makes_modifyStorage _) (makes_throw _)

end Stack

/-! ## Flexes, counter hints and the other subroutines -/

section Operators

variable {setup : Setup}

/-- A move collects a point within a flex, and starts a contour otherwise. -/
theorem changes_move (delta : Point) (d : Decoder) :
    Changes setup (if d.flex.active then .quiet else .moves) d (final (move delta d)) := by
  unfold move
  rw [get_bind_run]
  dsimp only
  cases d.flex.active with
  | true =>
    rw [if_pos rfl, if_pos rfl]
    exact makes_ite (makes_modify fun _ => .flex _) (makes_throw _) d
  | false => exact .single (.move delta)

theorem makes_endFlex (n : Nat) : Makes setup .draws (endFlex setup n) := by
  refine makes_get_bind fun d => ?_
  dsimp only
  split
  · exact (makes_modify fun _ => .flex _).bind fun _ => (makes_take 3).bind fun _ =>
      makes_get_bind fun _ => (makes_modify fun _ => .flexTo _ _ _).bind fun _ => makes_pushAll _
  · exact makes_refuse _ _

theorem makes_counterStems (vertical : Bool) (edge : Number) (values : List Number) :
    Makes setup .hints (counterStems setup vertical edge values) := by
  fun_induction counterStems setup vertical edge values with
  | case1 vertical edge gap width rest near far last next =>
    refine (makes_modify fun _ => .counterStem vertical _ _).bind fun _ => makes_ite ?_ next
    split
    · exact makes_pure _
    · exact (makes_modify fun _ => .group).bind fun _ => makes_get_bind fun e => last e
  | case2 => exact makes_refuse _ _

theorem makes_counterHints (n : Nat) (complete : Bool) :
    Makes setup .hints (counterHints setup n complete) := by
  refine makes_get_bind fun _ => (makes_take n).bind fun v => ?_
  dsimp only
  split
  · exact fun _ => .refl
  · refine (makes_modify fun _ => .counters _).bind fun _ => makes_ite ?_ (makes_pure _)
    refine (makes_modify fun _ => .counters _).bind fun _ => ?_
    split
    · exact makes_pure _
    · exact (makes_modify fun _ => .group).bind fun _ => makes_get_bind fun _ =>
        makes_counterStems _ _ _

theorem makes_performOtherSubr (n : Nat) (subr : OtherSubr) :
    Makes setup subr.activity (performOtherSubr setup n subr) := by
  cases subr with
  | endFlex => exact makes_endFlex n
  | startFlex => exact makes_modify fun _ => .startFlex
  | flexPoint => exact makes_pure ()
  | renewHints => exact makes_modify fun _ => .renew
  | counterHints complete => exact makes_counterHints n complete
  | blend k => exact makes_blend k
  | storeWeights => exact makes_storeWeights
  | calculate op => exact makes_calculate op

theorem require_eq_ok {n : Nat} {d e : Decoder} {u : Unit} (h : require n d = .ok u e) :
    d = e ∧ n ≤ d.operands.size := by
  rcases Nat.lt_or_ge d.operands.size n with hlt | hle
  · rw [require_run_short hlt] at h
    cases h
  · rw [require_run hle] at h
    cases h
    exact ⟨rfl, hle⟩

/-- Operands that are taken off leave the rest of the state as it is. -/
theorem take_cases {n : Nat} {d e : Decoder} {v : Vector Number n} (h : take n d = .ok v e) :
    ∃ operands, d.operands.split? n = some (operands, v) ∧ e = { d with operands } := by
  have hsplit := take_eq_ok h
  exact ⟨e.operands, hsplit, (EStateM.Result.ok.inj ((take_run hsplit).symm.trans h)).2.symm⟩

/-- A call goes on with the other subroutine that the operands select, without the operands that
select it. -/
theorem callOtherSubr_selected {d : Decoder} {operands : Operands} {v : Vector Number 2} {n : Nat}
    {selector : Int} {subr : OtherSubr} (hsplit : d.operands.split? 2 = some (operands, v))
    (hcount : v.first.toIndex? = some n) (hle : n ≤ operands.size)
    (hselector : v.second.truncate? = some selector)
    (hsubr : OtherSubr.ofSelector? selector = some subr) :
    callOtherSubr setup d =
      (require (subr.arity n) >>= fun _ => performOtherSubr setup n subr) { d with operands } := by
  have hn : toIndex v.first { d with operands } = .ok n { d with operands } := by
    rw [toIndex, hcount]
    rfl
  rw [callOtherSubr, bind_run (take_run hsplit), bind_run hn, bind_run (require_run hle), hselector]
  show (match OtherSubr.ofSelector? selector with
    | some subr => do
      require (subr.arity n)
      performOtherSubr setup n subr
    | none => refuse (.unknownOtherSubr selector) .invalidOtherSubr : Decode Unit) _ = _
  rw [hsubr]

/-- A call performs the other subroutine that the operands select, if these are as many as it
needs. -/
theorem callOtherSubr_run {d : Decoder} {operands : Operands} {v : Vector Number 2} {n : Nat}
    {selector : Int} {subr : OtherSubr} (hsplit : d.operands.split? 2 = some (operands, v))
    (hcount : v.first.toIndex? = some n) (hle : n ≤ operands.size)
    (hselector : v.second.truncate? = some selector)
    (hsubr : OtherSubr.ofSelector? selector = some subr) (harity : subr.arity n ≤ operands.size) :
    callOtherSubr setup d = performOtherSubr setup n subr { d with operands } :=
  (callOtherSubr_selected hsplit hcount hle hselector hsubr).trans (bind_run (require_run harity))

/-- A call performs the other subroutine that is called. -/
theorem callOtherSubr_of_called {d : Decoder} {below : Operands} {n : Nat} {subr : OtherSubr}
    (h : subr.Called d.operands below n) :
    callOtherSubr setup d = performOtherSubr setup n subr { d with operands := below } := by
  obtain ⟨v, hsplit, hcount, hnamed⟩ := h.named
  obtain ⟨selector, hselector, hsubr⟩ := Option.bind_eq_some_iff.1 hnamed
  exact callOtherSubr_run hsplit hcount h.count hselector hsubr h.arity

/-- An other subroutine is called, or the call fails after it has taken operands off and made a
remark at most. -/
theorem callOtherSubr_called (setup : Setup) (d : Decoder) :
    (∃ subr below n, OtherSubr.Called subr d.operands below n) ∨
      ∃ x e below, callOtherSubr setup d = .error x e ∧ (e = { d with operands := below } ∨
        ∃ n, e = { d with operands := below }.record (.noted n)) := by
  rcases Nat.lt_or_ge d.operands.size 2 with hshort | htwo
  · exact .inr ⟨_, d, d.operands, bind_run_error (take_run_short hshort), .inl rfl⟩
  -- The checks in the order of the call: the count, the operands that it counts, the selector, and
  -- those that the other subroutine needs. Only an unknown selector is remarked.
  obtain ⟨below, v, hsplit⟩ : ∃ below v, d.operands.split? 2 = some (below, v) :=
    ⟨_, _, dif_pos htwo⟩
  cases hcount : v.first.toIndex? with
  | none =>
    refine .inr ⟨.boundsCheck, _, below, ?_, .inl rfl⟩
    rw [callOtherSubr, bind_run (take_run hsplit), toIndex, hcount]
    rfl
  | some n =>
    have hn : toIndex v.first { d with operands := below } =
        .ok n { d with operands := below } := by
      rw [toIndex, hcount]
      rfl
    rcases Nat.lt_or_ge below.size n with hlt | hle
    · refine .inr ⟨.stackUnderflow, _, below, ?_, .inl rfl⟩
      rw [callOtherSubr, bind_run (take_run hsplit), bind_run hn,
        bind_run_error (require_run_short hlt)]
    · cases hselector : v.second.truncate? with
      | none =>
        refine .inr ⟨.invalidOtherSubr, _, below, ?_, .inl rfl⟩
        rw [callOtherSubr, bind_run (take_run hsplit), bind_run hn, bind_run (require_run hle),
          hselector]
        rfl
      | some selector =>
        cases hsubr : OtherSubr.ofSelector? selector with
        | none =>
          refine .inr ⟨.invalidOtherSubr, _, below, ?_, .inr ⟨.unknownOtherSubr selector, rfl⟩⟩
          rw [callOtherSubr, bind_run (take_run hsplit), bind_run hn, bind_run (require_run hle),
            hselector]
          show (match OtherSubr.ofSelector? selector with
            | some subr => do
              require (subr.arity n)
              performOtherSubr setup n subr
            | none => refuse (.unknownOtherSubr selector) .invalidOtherSubr : Decode Unit) _ = _
          rw [hsubr]
          rfl
        | some subr =>
          rcases Nat.lt_or_ge below.size (subr.arity n) with hshort | harity
          · refine .inr ⟨.stackUnderflow, _, below, ?_, .inl rfl⟩
            rw [callOtherSubr_selected hsplit hcount hle hselector hsubr,
              bind_run_error (require_run_short hshort)]
          · refine .inl ⟨subr, below, n, ⟨v, hsplit, hcount, ?_⟩, hle, harity⟩
            rw [hselector, Option.bind_some, hsubr]

theorem callOtherSubr_of_uncalled (setup : Setup) {d : Decoder} (h : d.operands.called? = none) :
    ∃ x e below, callOtherSubr setup d = .error x e ∧ (e = { d with operands := below } ∨
      ∃ n, e = { d with operands := below }.record (.noted n)) := by
  refine (callOtherSubr_called setup d).resolve_left ?_
  rintro ⟨subr, below, n, hcalled⟩
  cases h.symm.trans (Operands.called?_eq_some_iff.2 hcalled)

/-- A call of an other subroutine fails before it performs one, or it performs the one that is
selected, whatever else the state has than its operands. -/
theorem callOtherSubr_cases (setup : Setup) (d : Decoder) :
    (∃ n subr operands, OtherSubr.selected? d.operands.toList = some subr ∧
      ∀ e : Decoder, e.operands = d.operands →
        callOtherSubr setup e = performOtherSubr setup n subr { e with operands }) ∨
    ∃ x e, callOtherSubr setup d = .error x e ∧ Changes setup .quiet d e := by
  rcases callOtherSubr_called setup d with ⟨subr, below, n, h⟩ | ⟨x, e, below, hx, he⟩
  · exact .inl ⟨n, subr, below, h.selected, fun e he => callOtherSubr_of_called (he ▸ h)⟩
  · refine .inr ⟨x, e, hx, ?_⟩
    have htaken : Changes setup .quiet d { d with operands := below } := .single (.operands below)
    rcases he with rfl | ⟨n, rfl⟩
    · exact htaken
    · exact htaken.tail (.note n)

theorem changes_callOtherSubr (d : Decoder) :
    Changes setup (Operator.callothersubr.activity d) d (final (callOtherSubr setup d)) := by
  rcases callOtherSubr_cases setup d with ⟨n, subr, operands, hsubr, hrun⟩ | ⟨x, e, hrun, he⟩
  · rw [Operator.activity, hsubr, hrun d rfl]
    exact .head (.operands operands) (makes_performOtherSubr n subr _)
  · rw [hrun]
    exact he.of_quiet

/-! ## Operators -/

theorem changes_moveWith (n : Nat) (delta : Vector Number n → Point) (d : Decoder) :
    Changes setup (if d.flex.active then .quiet else .moves) d (final (moveWith n delta d)) := by
  rcases bind_cases (arguments n) _ d with ⟨y, e, h, hbind⟩ | ⟨v, e, h, hbind⟩
  · have he : Changes setup .quiet d _ := makes_arguments n d
    rw [h] at he
    rw [moveWith, hbind]
    exact he.of_quiet
  · obtain ⟨-, rfl⟩ := arguments_eq_ok h
    rw [moveWith, hbind]
    exact changes_bind (changes_move (delta v) d) fun _ => makes_clear.bind fun _ => makes_pure _

theorem makes_draw {a : Activity} (n : Nat) {f : Vector Number n → Decoder → Decoder}
    (hf : ∀ v d, Changes setup a d (f v d)) : Makes setup a (draw n f) :=
  (makes_arguments n).bind fun v => .bind (fun d => hf v d) fun _ =>
    makes_clear.bind fun _ => makes_pure _

/-- A side bearing of a part. -/
theorem changes_bearing {d : Decoder} (bearing : Point) (part : Part)
    (hpart : d.part.withBearing bearing = part) : Changes setup .measures d { d with part } :=
  hpart ▸ .single (.bearing bearing)

theorem makes_metrics (bearing : Point) (advance : Number) :
    Makes setup .measures (metrics setup bearing advance) := by
  intro d
  rw [metrics, modify_bind_run, get_bind_run]
  refine .head (.point bearing) ?_
  generalize { d with point := bearing.round } = d
  cases hpart : d.part with
  | base b => exact changes_bearing bearing _ (by rw [hpart]; rfl)
  | accent b shift placed => exact changes_bearing bearing _ (by rw [hpart]; rfl)
  | glyph =>
    dsimp only
    rw [get_bind_run]
    cases hwidth : d.width with
    | some w => exact .single (.note _)
    | none =>
      have h := @Change.width setup d bearing
        (d.control setup (if advance.abs > 32000 then advance / 65536 else advance)) hpart hwidth
      refine .head h ?_
      cases setup.widthOnly with
      | true => exact .refl
      | false => exact .refl

theorem makes_lookUp (glyphs : UInt8 → Option Nat) (code : UInt8) :
    Makes setup .composes (lookUp glyphs code) :=
  (makes_modify fun _ => .lookedUp _ _).bind fun _ => makes_orFail _ _

theorem makes_accented (v : Vector Number 5) : Makes setup .composes (accented setup v) := by
  refine (makes_orFail _ _).bind fun base => (makes_orFail _ _).bind fun accent => fun d => ?_
  rw [get_bind_run]
  cases hpart : d.part with
  | base | accent => exact .single (.note _)
  | glyph =>
    dsimp only
    rw [modify_bind_run]
    refine .head (.components ⟨base, accent⟩ hpart) (makes_ite ?_ ?_ _)
    · exact (makes_modify fun _ => .accented _ _).bind fun _ => makes_pure _
    · exact (makes_orFail _ _).bind fun glyphs => (makes_lookUp glyphs base).bind fun _ =>
        (makes_lookUp glyphs accent).bind fun _ => makes_pure _

/-- Whatever comes of an operator, the state after it is reached by changes of its activity. -/
theorem changes_perform (op : Operator) (d : Decoder) :
    Changes setup (op.activity d) d (final (perform setup op d)) := by
  have drawn {a : Activity} {n : Nat} {f : Vector Number n → Decoder → Decoder}
      (hf : ∀ v d, Change setup a d (f v d)) : Makes setup a (draw n f) :=
    makes_draw n fun v d => .single (hf v d)
  cases op with
  | hstem | vstem => exact drawn (fun v _ => .stem _ _ _ rfl) d
  | hstem3 | vstem3 =>
    exact makes_draw 6 (fun v d => .head (.stem _ _ _ rfl) (.head (.stem _ _ _ rfl)
      (.single (.stem _ _ _ rfl)))) d
  | rlineto | hlineto | vlineto => exact drawn (fun v _ => .line _) d
  | rrcurveto | vhcurveto | hvcurveto => exact drawn (fun v _ => .curve _ _ _) d
  | setcurrentpoint => exact drawn (fun v _ => .set _) d
  | closepath => exact drawn (fun v _ => .closed) d
  | dotsection => exact drawn (fun v _ => .operator _ _) d
  | rmoveto | hmoveto | vmoveto => exact changes_moveWith _ _ d
  | hsbw =>
    exact ((makes_arguments 2).bind fun v => makes_clear.bind fun _ => makes_metrics _ _) d
  | sbw =>
    exact ((makes_arguments 4).bind fun v => makes_clear.bind fun _ => makes_metrics _ _) d
  | seac => exact ((makes_arguments 5).bind fun v => makes_clear.bind fun _ => makes_accented v) d
  | callsubr =>
    exact ((makes_take 1).bind fun _ => (makes_orFail _ _).bind fun _ => makes_pure _) d
  | returnToCaller => exact .refl
  | endchar => exact (makes_clear.bind fun _ => makes_pure _) d
  | blend =>
    exact ((makes_take 1).bind fun _ => (makes_orFail _ _).bind fun n => (makes_blend n).bind
      fun _ => makes_pure _) d
  | callothersubr => exact changes_bind (changes_callOtherSubr d) fun _ => makes_pure _
  | pop => exact .refl
  | calculate op => exact ((makes_calculate op).bind fun _ => makes_pure _) d
  | unknown code => exact makes_refuse _ _ d

end Operators

/-! ## Instructions -/

section Instructions

variable {setup : Setup} {i : Instruction} {d : Decoder}

/-- Whatever comes of an instruction, the state after it is reached by changes of its activity. -/
theorem changes_execute (setup : Setup) (i : Instruction) (d : Decoder) :
    Changes setup (i.activity d) (i.begin d) (final (execute setup i d)) := by
  cases i with
  | number value => exact ((makes_pushAll _).bind fun _ => makes_pure _) d
  | operator op => exact changes_perform op (d.record (.began op d.operands.toList))
  | reserved byte => exact makes_refuse _ _ d

/-- A call that is not quiet selects an other subroutine, and is for what that is for. -/
theorem activity_callothersubr {a : Activity} (h : Operator.callothersubr.activity d = a)
    (ha : a ≠ .quiet) :
    ∃ subr, OtherSubr.selected? d.operands.toList = some subr ∧ subr.activity = a := by
  unfold Operator.activity at h
  dsimp only at h
  split at h
  · next subr hsubr => exact ⟨subr, hsubr, h⟩
  · exact absurd h.symm ha

/-- New hints are asked for by a call of the other subroutine that does so. -/
theorem eq_of_renews (h : i.activity d = .renews) : i = .operator .callothersubr ∧
    OtherSubr.selected? d.operands.toList = some .renewHints := by
  cases i with
  | operator op =>
    cases op with
    | callothersubr =>
      obtain ⟨subr, hsubr, hrenews⟩ := activity_callothersubr h nofun
      cases subr with
      | renewHints => exact ⟨rfl, hsubr⟩
      | _ => cases hrenews
    | rmoveto | hmoveto | vmoveto =>
      simp only [Instruction.activity, Operator.activity] at h
      split at h <;> cases h
    | _ => cases h
  | _ => cases h

/-- Side bearing and width are given by two operators. -/
theorem eq_of_measures (h : i.activity d = .measures) :
    i = .operator .hsbw ∨ i = .operator .sbw := by
  cases i with
  | operator op =>
    cases op with
    | hsbw => exact .inl rfl
    | sbw => exact .inr rfl
    | callothersubr =>
      obtain ⟨subr, -, hmeasures⟩ := activity_callothersubr h nofun
      cases subr <;> cases hmeasures
    | rmoveto | hmoveto | vmoveto =>
      simp only [Instruction.activity, Operator.activity] at h
      split at h <;> cases h
    | _ => cases h
  | _ => cases h

/-- New hints are asked for by the last change of an instruction that succeeds; one that fails has
not asked for them. -/
theorem execute_renews (setup : Setup) (h : i.activity d = .renews) :
    (∃ operands, execute setup i d = .ok .next { i.begin d with operands }.renewHints) ∨
      ∃ x e, execute setup i d = .error x e ∧ Changes setup .quiet (i.begin d) e := by
  obtain ⟨rfl, hselected⟩ := eq_of_renews h
  let begun := d.record (.began .callothersubr d.operands.toList)
  have hexecute : execute setup (.operator .callothersubr) d =
      (callOtherSubr setup >>= fun _ => pure Control.next) begun := rfl
  rcases callOtherSubr_cases setup begun with ⟨n, subr, operands, hsubr, hrun⟩ | ⟨x, e, hrun, he⟩
  · obtain rfl : subr = .renewHints := Option.some.inj (hsubr.symm.trans hselected)
    exact .inl ⟨operands, hexecute.trans (bind_run (hrun begun rfl))⟩
  · exact .inr ⟨x, e, hexecute.trans (bind_run_error hrun), he⟩

end Instructions

end Decode

end Type1
