import Type1.Proofs.Control

/-!
# Relations of states that the operators keep

Two runs that start from related states stay related if no operator breaks the relation. What an
operator needs of a relation for that is little, and the same for all operators of a kind.

`Decode.Relates R E x y`: from states that `R` relates, `x` and `y` come to outcomes of the same
kind, with the same answer, and to states that `R` relates, or `E` if they fail.

* `Congruence R`: what the operand stack and the calculations that only read the storage need of
  `R`. `Reporting R`: what the other operators need that do not draw.
* `Storing R`: what those need that write the storage, the seed, or the mark of blending.
* `Drawing setup R`: what contours, flexes and stems need; `Counting setup R`: counter hints.

`related_perform` puts them together. Side bearing and width, accented characters and other
subroutines are not the same for all relations and are left to the user of the theorem.

An invariant is such a relation as well: `fun d e => d = e ∧ P d`.
-/

namespace Type1

/-! ## Kinds of operators and elements -/

/-- Neither a width, nor a stem, nor an accented character. -/
def Element.isPlain : Element → Bool
  | moveTo _ | lineTo _ | curveTo _ | flex .. | operator .. => true
  | width _ | stem .. | accented .. => false

/-- Whether a calculation writes cells, a register or the seed. -/
def Calculation.stores : Calculation → Bool
  | put | store | load | random => true
  | _ => false

namespace Operator

/-- Whether the operator gives side bearing and width. -/
def isMetrics : Operator → Bool
  | hsbw | sbw => true
  | _ => false

/-- Whether the operator neither draws nor hints, neither moves the current point nor depends on
it, and calls no other subroutine. -/
def isQuiet : Operator → Bool
  | closepath | callsubr | returnToCaller | endchar | blend | dotsection | pop | calculate _
  | unknown _ => true
  | _ => false

/-- Whether the operator blends, or writes cells, a register or the seed by itself. -/
def stores : Operator → Bool
  | blend => true
  | calculate op => op.stores
  | _ => false

end Operator

/-- Whether an other subroutine blends, or writes cells, a register or the seed. -/
def OtherSubr.stores : OtherSubr → Bool
  | blend _ | storeWeights => true
  | calculate op => op.stores
  | _ => false

/-- The other subroutine that operands select, with their last one. -/
def OtherSubr.selected? (operands : List Number) : Option OtherSubr :=
  (operands.getLast?.bind Number.truncate?).bind ofSelector?

/-- The last operand is the second of the top two. -/
theorem Operands.getLast?_of_split? {s t : Operands} {v : Vector Number 2}
    (h : s.split? 2 = some (t, v)) : s.toList.getLast? = some v.second := by
  unfold split? at h
  split at h
  · next hle =>
    obtain ⟨-, rfl⟩ := Prod.mk.inj (Option.some.inj h)
    unfold size at hle
    rw [List.getLast?_eq_getElem?, List.getElem?_eq_getElem (by omega)]
    simp only [Vector.second, Vector.getElem_mk, List.getElem_toArray, List.getElem_drop, size]
    congr 2
    omega
  · cases h

/-! ## Related outcomes -/

namespace Decode

variable {α β : Type} {R E : Decoder → Decoder → Prop}

/-- The outcomes are of the same kind, with the same answer, and leave states that `R` relates, or
`E` if they are failures. -/
inductive Related (R E : Decoder → Decoder → Prop) :
    EStateM.Result Error Decoder α → EStateM.Result Error Decoder α → Prop where
  | ok {a : α} {d e : Decoder} : R d e → Related R E (.ok a d) (.ok a e)
  | error {x : Error} {d e : Decoder} : E d e → Related R E (.error x d) (.error x e)

/-- Related states are taken to related outcomes. -/
def Relates (R E : Decoder → Decoder → Prop) (x y : Decode α) : Prop :=
  ∀ d e, R d e → Related R E (x d) (y e)

theorem relates_pure (a : α) : Relates R E (pure a) (pure a) := fun _ _ h => .ok h

theorem relates_throw (x : Error) : Relates R R (throw x : Decode α) (throw x) :=
  fun _ _ h => .error h

/-- What follows answers that are the same, if it is related for the states that come with them. -/
theorem Related.bind {x y : Decode α} {k l : α → Decode β} {d e : Decoder}
    (hx : Related R E (x d) (y e))
    (hk : ∀ a d' e', x d = .ok a d' → R d' e' → Related R E (k a d') (l a e')) :
    Related R E ((x >>= k) d) ((y >>= l) e) := by
  show Related R E (EStateM.bind x k d) (EStateM.bind y l e)
  unfold EStateM.bind
  generalize hd : x d = r at hx hk
  revert hx
  generalize y e = r'
  rintro (h | h)
  · exact hk _ _ _ rfl h
  · exact .error h

theorem Related.mono {E' : Decoder → Decoder → Prop} {o o' : EStateM.Result Error Decoder α}
    (h : Related R E o o') (hE : ∀ d e, E d e → E' d e) : Related R E' o o' := by
  cases h with
  | ok h => exact .ok h
  | error h => exact .error (hE _ _ h)

theorem Related.imp {R' : Decoder → Decoder → Prop} {o o' : EStateM.Result Error Decoder α}
    (h : Related R E o o') (hR : ∀ d e, R d e → R' d e) : Related R' E o o' := by
  cases h with
  | ok h => exact .ok (hR _ _ h)
  | error h => exact .error h

theorem Relates.mono {E' : Decoder → Decoder → Prop} {x y : Decode α} (h : Relates R E x y)
    (hE : ∀ d e, E d e → E' d e) : Relates R E' x y :=
  fun d e hde => (h d e hde).mono hE

theorem Relates.bind {x y : Decode α} {k l : α → Decode β} (hx : Relates R E x y)
    (hk : ∀ a, Relates R E (k a) (l a)) : Relates R E (x >>= k) (y >>= l) :=
  fun d e h => (hx d e h).bind fun a _ _ _ h => hk a _ _ h

theorem relates_get_bind {k l : Decoder → Decode β}
    (hk : ∀ d e, R d e → Relates R E (k d) (l e)) : Relates R E (get >>= k) (get >>= l) :=
  fun d e h => hk d e h d e h

theorem Related.get_bind {k l : Decoder → Decode β} {d e : Decoder}
    (h : Related R E (k d d) (l e e)) : Related R E ((get >>= k) d) ((get >>= l) e) := h

theorem relates_modify {f g : Decoder → Decoder} (hf : ∀ d e, R d e → R (f d) (g e)) :
    Relates R E (modify f) (modify g) :=
  fun d e h => .ok (hf d e h)

theorem relates_orFail (x : Error) (o : Option α) : Relates R R (orFail x o) (orFail x o) := by
  cases o with
  | none => exact relates_throw x
  | some a => exact relates_pure a

theorem relates_ite {p : Prop} [Decidable p] {x x' y y' : Decode α} (hx : Relates R E x y)
    (hy : Relates R E x' y') : Relates R E (if p then x else x') (if p then y else y') := by
  split
  · exact hx
  · exact hy

end Decode

/-! ## What a relation has to keep -/

/-- What calculations work on. -/
structure Workspace where
  /-- The operand stack. -/
  operands : Operands
  /-- The cells and registers. -/
  storage : Storage
  /-- The seed of the next random number. -/
  seed : UInt32
  /-- Values were blended. -/
  blended : Bool

/-- What the calculations on a state work on. -/
def Decoder.workspace (d : Decoder) : Workspace := ⟨d.operands, d.storage, d.seed, d.blended⟩

variable {R E : Decoder → Decoder → Prop} {setup : Setup}

/-- What calculations need. -/
structure Congruence (R : Decoder → Decoder → Prop) : Prop where
  /-- Related states calculate with the same. -/
  workspace {d e : Decoder} : R d e → d.workspace = e.workspace
  /-- The operands can be replaced. -/
  setOperands {d e : Decoder} : R d e → ∀ operands, R { d with operands } { e with operands }
  /-- A remark can be made. -/
  note {d e : Decoder} : R d e → ∀ n, R (d.record (.noted n)) (e.record (.noted n))

/-- What operators need that do not draw. -/
structure Reporting (R : Decoder → Decoder → Prop) : Prop extends Congruence R where
  /-- A contour can be closed. -/
  closed {d e : Decoder} : R d e → R { d with moveDue := true } { e with moveDue := true }
  /-- The glyph can get an element. -/
  report {d e : Decoder} : R d e → ∀ x : Element, x.isPlain → R (d.report x) (e.report x)

/-- What operators need that write what later calculations read. -/
structure Storing (R : Decoder → Decoder → Prop) : Prop where
  /-- The storage can be replaced. -/
  setStorage {d e : Decoder} : R d e → ∀ storage, R { d with storage } { e with storage }
  /-- The seed can be replaced. -/
  setSeed {d e : Decoder} : R d e → ∀ seed, R { d with seed } { e with seed }
  /-- Values can be blended. -/
  blended {d e : Decoder} : R d e → R { d with blended := true } { e with blended := true }

/-- What operators need that draw or hint. -/
structure Drawing (setup : Setup) (R : Decoder → Decoder → Prop) : Prop extends Reporting R where
  /-- The current point is the same. -/
  point {d e : Decoder} : R d e → d.point = e.point
  /-- The current point can be replaced. -/
  setPoint {d e : Decoder} : R d e → ∀ point, R { d with point } { e with point }
  /-- A contour is due in both states or in none. -/
  moveDue {d e : Decoder} : R d e → d.moveDue = e.moveDue
  /-- A contour can be started. -/
  opened {d e : Decoder} : R d e →
    R { d with moveDue := false, moved := true } { e with moveDue := false, moved := true }
  /-- An accent can be placed. -/
  placeAccent {d e : Decoder} : R d e → R d.placeAccent e.placeAccent
  /-- Absolute coordinates stand for the same point. -/
  absolute {d e : Decoder} : R d e → ∀ p, d.absolute p = e.absolute p
  /-- New hints can be asked for. -/
  renewHints {d e : Decoder} : R d e → R d.renewHints e.renewHints
  /-- A stem can be reported. -/
  hintStem {d e : Decoder} : R d e → ∀ kind position extent,
    R (d.hintStem setup kind position extent) (e.hintStem setup kind position extent)
  /-- Moves collect points in both states or in none. -/
  active {d e : Decoder} : R d e → d.flex.active = e.flex.active
  /-- The same points were collected. -/
  flex {d e : Decoder} : R d e → d.flex.active = true → d.flex = e.flex
  /-- The flex can be replaced. -/
  setFlex {d e : Decoder} : R d e → ∀ flex, R { d with flex } { e with flex }
  /-- The end of a flex can be refused. -/
  malformed {d e : Decoder} : R d e → ∀ n,
    R (d.record (.noted (.malformedFlex n d.flex.coordinates)))
      (e.record (.noted (.malformedFlex n e.flex.coordinates)))

/-- What counter hints need. -/
structure Counting (setup : Setup) (R : Decoder → Decoder → Prop) : Prop where
  /-- The same counter hints were collected. -/
  counters {d e : Decoder} : R d e → d.counters = e.counters
  /-- The counter hints can be replaced. -/
  setCounters {d e : Decoder} : R d e → ∀ counters, R { d with counters } { e with counters }
  /-- A counter group can be started. -/
  openGroup {d e : Decoder} : R d e → R { d with groupDue := true } { e with groupDue := true }
  /-- Stems are relative to the same point. -/
  stemOrigin {d e : Decoder} : R d e → d.stemOrigin = e.stemOrigin
  /-- A stem of a counter group can be reported. -/
  counterStem {d e : Decoder} : R d e → ∀ vertical near far,
    R (d.addStem setup { vertical, counter := true } near far)
      (e.addStem setup { vertical, counter := true } near far)

/-- What states are like in which a part of an accented character is decoded. -/
structure PartOf (R : Decoder → Decoder → Prop) : Prop where
  /-- The same part is decoded, not the glyph itself. -/
  part {d e : Decoder} : R d e → d.part = e.part ∧ d.part ≠ .glyph
  /-- What is known of the part can be replaced. -/
  setPart {d e : Decoder} : R d e → ∀ part, part ≠ .glyph → R { d with part } { e with part }
  /-- An operator can begin. -/
  began {d e : Decoder} : R d e → ∀ op operands,
    R (d.record (.began op operands)) (e.record (.began op operands))

/-! ## Invariants -/

/-- What drawing and hinting need of a predicate that they keep. -/
structure Kept (setup : Setup) (P : Decoder → Prop) : Prop where
  setOperands {d : Decoder} : P d → ∀ operands, P { d with operands }
  closed {d : Decoder} : P d → P { d with moveDue := true }
  note {d : Decoder} : P d → ∀ n, P (d.record (.noted n))
  report {d : Decoder} : P d → ∀ x : Element, x.isPlain → P (d.report x)
  setPoint {d : Decoder} : P d → ∀ point, P { d with point }
  opened {d : Decoder} : P d → P { d with moveDue := false, moved := true }
  placeAccent {d : Decoder} : P d → P d.placeAccent
  renewHints {d : Decoder} : P d → P d.renewHints
  hintStem {d : Decoder} : P d → ∀ kind position extent,
    P (d.hintStem setup kind position extent)
  setFlex {d : Decoder} : P d → ∀ flex, P { d with flex }

/-- An invariant is a relation that relates states to themselves. -/
theorem Kept.drawing {P : Decoder → Prop} (h : Kept setup P) :
    Drawing setup fun d e => d = e ∧ P d where
  workspace := by rintro d _ ⟨rfl, -⟩; rfl
  setOperands := by rintro d _ ⟨rfl, hd⟩ _; exact ⟨rfl, h.setOperands hd _⟩
  closed := by rintro d _ ⟨rfl, hd⟩; exact ⟨rfl, h.closed hd⟩
  note := by rintro d _ ⟨rfl, hd⟩ _; exact ⟨rfl, h.note hd _⟩
  report := by rintro d _ ⟨rfl, hd⟩ x hx; exact ⟨rfl, h.report hd x hx⟩
  point := by rintro d _ ⟨rfl, -⟩; rfl
  setPoint := by rintro d _ ⟨rfl, hd⟩ _; exact ⟨rfl, h.setPoint hd _⟩
  moveDue := by rintro d _ ⟨rfl, -⟩; rfl
  opened := by rintro d _ ⟨rfl, hd⟩; exact ⟨rfl, h.opened hd⟩
  placeAccent := by rintro d _ ⟨rfl, hd⟩; exact ⟨rfl, h.placeAccent hd⟩
  absolute := by rintro d _ ⟨rfl, -⟩ _; rfl
  renewHints := by rintro d _ ⟨rfl, hd⟩; exact ⟨rfl, h.renewHints hd⟩
  hintStem := by rintro d _ ⟨rfl, hd⟩ _ _ _; exact ⟨rfl, h.hintStem hd _ _ _⟩
  active := by rintro d _ ⟨rfl, -⟩; rfl
  flex := by rintro d _ ⟨rfl, -⟩ _; rfl
  setFlex := by rintro d _ ⟨rfl, hd⟩ _; exact ⟨rfl, h.setFlex hd _⟩
  malformed := by rintro d _ ⟨rfl, hd⟩ _; exact ⟨rfl, h.note hd _⟩

namespace Congruence

variable {d e : Decoder}

theorem operands (h : Congruence R) (hde : R d e) : d.operands = e.operands :=
  congrArg Workspace.operands (h.workspace hde)

theorem storage (h : Congruence R) (hde : R d e) : d.storage = e.storage :=
  congrArg Workspace.storage (h.workspace hde)

theorem seed (h : Congruence R) (hde : R d e) : d.seed = e.seed :=
  congrArg Workspace.seed (h.workspace hde)

theorem control (h : Congruence R) (hde : R d e) (setup : Setup) :
    d.control setup = e.control setup := by
  have hb : d.blended = e.blended := congrArg Workspace.blended (h.workspace hde)
  unfold Decoder.control
  rw [hb]

end Congruence

theorem Reporting.reportSame (h : Reporting R) {d e : Decoder} (hde : R d e) {x y : Element}
    (hxy : x = y) (hx : x.isPlain) : R (d.report x) (e.report y) :=
  hxy ▸ h.report hde x hx

theorem Drawing.setFlexSame (h : Drawing setup R) {d e : Decoder} (hde : R d e) {f g : Flex}
    (hfg : f = g) : R { d with flex := f } { e with flex := g } := by
  subst hfg
  exact h.setFlex hde f

/-! ## Contours and stems -/

namespace Drawing

variable {d e : Decoder}

theorem openContour (h : Drawing setup R) (hde : R d e) : R d.openContour e.openContour :=
  h.reportSame (h.opened hde) (congrArg Element.moveTo (h.point hde)) rfl

theorem startContour (h : Drawing setup R) (hde : R d e) : R d.startContour e.startContour := by
  have hp := h.placeAccent hde
  unfold Decoder.startContour
  dsimp only
  rw [h.moveDue hp]
  split
  · exact h.openContour hp
  · exact hp

theorem moveBy (h : Drawing setup R) (hde : R d e) (delta : Point) :
    R (d.moveBy delta) (e.moveBy delta) := by
  have hp := h.placeAccent hde
  unfold Decoder.moveBy
  dsimp only
  rw [h.point hp]
  exact h.openContour (h.setPoint hp _)

theorem lineBy (h : Drawing setup R) (hde : R d e) (delta : Point) :
    R (d.lineBy delta) (e.lineBy delta) := by
  have hs := h.startContour hde
  unfold Decoder.lineBy
  dsimp only
  rw [h.point hs]
  exact h.report (h.setPoint hs _) _ rfl

theorem curveBy (h : Drawing setup R) (hde : R d e) (p q r : Point) :
    R (d.curveBy setup p q r) (e.curveBy setup p q r) := by
  have hs := h.startContour hde
  unfold Decoder.curveBy Decoder.controlPoint
  dsimp only
  rw [h.point hs, h.control hs]
  exact h.report (h.setPoint hs _) _ rfl

theorem flexTo (h : Drawing setup R) (hde : R d e) (depth : Number) (left right : Curve) :
    R (d.flexTo setup depth left right) (e.flexTo setup depth left right) := by
  have hs := h.startContour hde
  unfold Decoder.flexTo Decoder.controlPoint
  dsimp only
  rw [h.control hs]
  exact h.report (h.setPoint hs _) _ rfl

theorem setPoint' (h : Drawing setup R) (hde : R d e) (p : Point) :
    R (d.setPoint p) (e.setPoint p) := by
  have hp := h.placeAccent hde
  unfold Decoder.setPoint
  dsimp only
  rw [h.absolute hp]
  exact h.setPoint hp _

theorem startFlex (h : Drawing setup R) (hde : R d e) : R d.startFlex e.startFlex := by
  have hp := h.placeAccent hde
  have hf : (⟨true, d.placeAccent.point, []⟩ : Flex) = ⟨true, e.placeAccent.point, []⟩ := by
    rw [h.point hp]
  exact h.setFlexSame hp hf

theorem hintStems (h : Drawing setup R) (hde : R d e) (kind : StemKind) (v : Vector Number 6) :
    R (d.hintStems setup kind v) (e.hintStems setup kind v) :=
  h.hintStem (h.hintStem (h.hintStem hde kind v.first v.second) kind v.third v.fourth) kind
    v.fifth v.sixth

end Drawing

namespace Decode

/-! ## The operand stack and the calculations -/

section Stack

variable {α : Type}

theorem relates_refuse (h : Congruence R) (n : Note) (x : Error) :
    Relates R R (refuse n x : Decode α) (refuse n x) :=
  (relates_modify fun _ _ hde => h.note hde n).bind fun _ => relates_throw x

theorem relates_require (h : Congruence R) (n : Nat) : Relates R R (require n) (require n) := by
  refine relates_get_bind fun d e hde => ?_
  rw [h.operands hde]
  exact relates_ite (relates_throw _) (relates_pure _)

theorem relates_pushAll (h : Congruence R) (values : List Number) :
    Relates R R (pushAll values) (pushAll values) := by
  refine relates_get_bind fun d e hde => ?_
  rw [h.operands hde]
  exact (relates_orFail _ _).bind fun _ => relates_modify fun _ _ hde => h.setOperands hde _

theorem relates_push (h : Congruence R) (v : Number) : Relates R R (push v) (push v) :=
  relates_pushAll h [v]

theorem relates_take (h : Congruence R) (n : Nat) : Relates R R (take n) (take n) := by
  refine relates_get_bind fun d e hde => ?_
  rw [h.operands hde]
  exact (relates_orFail _ _).bind fun _ =>
    (relates_modify fun _ _ hde => h.setOperands hde _).bind fun _ => relates_pure _

theorem relates_arguments (h : Congruence R) (n : Nat) :
    Relates R R (arguments n) (arguments n) := by
  refine relates_get_bind fun d e hde => ?_
  rw [h.operands hde]
  exact relates_orFail _ _

theorem relates_clear (h : Congruence R) : Relates R R clear clear :=
  relates_modify fun _ _ hde => h.setOperands hde _

theorem relates_unary (h : Congruence R) (f : Number → Number) : Relates R R (unary f) (unary f) :=
  (relates_take h 1).bind fun _ => relates_push h _

theorem relates_binary (h : Congruence R) (f : Number → Number → Number) :
    Relates R R (binary f) (binary f) :=
  (relates_take h 2).bind fun _ => relates_push h _

theorem relates_index (h : Congruence R) (i : Int) : Relates R R (index i) (index i) := by
  refine relates_get_bind fun d e hde => ?_
  rw [h.operands hde]
  exact (relates_orFail _ _).bind fun _ => relates_push h _

theorem relates_roll (h : Congruence R) (n j : Int) : Relates R R (roll n j) (roll n j) := by
  refine relates_get_bind fun d e hde => ?_
  rw [h.operands hde]
  exact relates_ite ((relates_take h _).bind fun _ => relates_pushAll h _) (relates_throw _)

/-- A change of the storage that depends on the storage alone. -/
theorem relates_modifyStorage (h : Congruence R) (hs : Storing R) (f : Storage → Storage) :
    Relates R R (modify fun d => { d with storage := f d.storage })
      (modify fun d => { d with storage := f d.storage }) := by
  refine relates_modify fun d e hde => ?_
  rw [h.storage hde]
  exact hs.setStorage hde _

theorem relates_store (h : Congruence R) (hs : Storing R) (v : Vector Number 4) :
    Relates R R (store v) (store v) :=
  (relates_orFail _ _).bind fun register => (relates_orFail _ _).bind fun (cell, n) =>
    (relates_orFail _ _).bind fun (start, _) => relates_modifyStorage h hs fun m =>
      m.writeRegister register start (segment m.cells cell n)

theorem relates_load (h : Congruence R) (hs : Storing R) (v : Vector Number 3) :
    Relates R R (load v) (load v) :=
  (relates_orFail _ _).bind fun register => (relates_orFail _ _).bind fun (cell, n) =>
    (relates_orFail _ _).bind fun _ => relates_modifyStorage h hs fun m =>
      m.writeCells cell (segment (m.register register) 0 n)

theorem relates_calculate (h : Congruence R) {op : Calculation} (hs : op.stores → Storing R) :
    Relates R R (calculate op) (calculate op) := by
  cases op with
  | and | or | eq | add | sub | mul | div => rw [calculate]; exact relates_binary h _
  | not | abs | neg => rw [calculate]; exact relates_unary h _
  | sqrt =>
    refine (relates_take h 1).bind fun v => ?_
    dsimp only
    split
    · exact (relates_throw _).bind fun _ => relates_push h _
    · exact relates_push h _
  | drop => exact (relates_take h 1).bind fun _ => relates_pure _
  | dup => exact (relates_take h 1).bind fun _ => relates_pushAll h _
  | exch => exact (relates_take h 2).bind fun _ => relates_pushAll h _
  | index =>
    exact (relates_require h 2).bind fun _ => (relates_take h 1).bind fun _ =>
      (relates_orFail _ _).bind fun _ => relates_index h _
  | roll =>
    exact (relates_take h 2).bind fun _ => (relates_orFail _ _).bind fun _ =>
      (relates_orFail _ _).bind fun _ => relates_roll h _ _
  | put =>
    exact (relates_take h 2).bind fun v => (relates_orFail _ _).bind fun i =>
      relates_ite (relates_modifyStorage h (hs rfl) (·.writeCells i [v.first])) (relates_throw _)
  | get =>
    refine (relates_take h 1).bind fun _ => (relates_orFail _ _).bind fun _ =>
      relates_get_bind fun d e hde => ?_
    rw [h.storage hde]
    exact (relates_orFail _ _).bind fun _ => relates_push h _
  | ifelse => exact (relates_take h 4).bind fun _ => relates_push h _
  | random =>
    refine relates_get_bind fun d e hde => ?_
    rw [h.seed hde]
    exact (relates_modify fun _ _ hde => (hs rfl).setSeed hde _).bind fun _ => relates_push h _
  | store => exact (relates_take h 4).bind fun _ => relates_store h (hs rfl) _
  | load => exact (relates_take h 3).bind fun _ => relates_load h (hs rfl) _

theorem relates_blend (h : Congruence R) (hs : Storing R) (setup : Setup) (n : Nat) :
    Relates R R (blend setup n) (blend setup n) := by
  unfold blend
  dsimp only
  split
  · exact relates_throw _
  · refine (relates_take h _).bind fun _ => relates_get_bind fun d e hde => ?_
    rw [h.storage hde]
    exact (relates_pushAll h _).bind fun _ => relates_modify fun _ _ hde => hs.blended hde

theorem relates_storeWeights (h : Congruence R) (hs : Storing R) (setup : Setup) :
    Relates R R (storeWeights setup) (storeWeights setup) := by
  unfold storeWeights
  dsimp only
  split
  · exact relates_throw _
  · exact (relates_take h 1).bind fun _ => (relates_orFail _ _).bind fun cell =>
      relates_ite (relates_modifyStorage h hs fun m =>
        m.writeCells cell (segment m.weights 0 setup.font.masters)) (relates_throw _)

end Stack

/-! ## Flexes, counter hints and the other subroutines -/

theorem relates_move (h : Drawing setup R) (delta : Point) :
    Relates R R (move delta) (move delta) := by
  refine relates_get_bind fun d e hde => ?_
  dsimp only
  rw [← h.active hde]
  split
  · next hactive =>
    rw [← h.flex hde hactive]
    exact relates_ite (relates_modify fun _ _ hde => h.setFlex hde _) (relates_throw _)
  · exact relates_modify fun _ _ hde => h.moveBy hde delta

/-- A flex does not end unless it is under way with seven points. -/
theorem endFlex_refused (setup : Setup) {d : Decoder} {n : Nat}
    (h : ∀ r p₁ p₂ p₃ p₄ p₅ q, n = 3 → d.flex.active = true →
      d.flex.points = [r, p₁, p₂, p₃, p₄, p₅, q] → False) :
    endFlex setup n d = refuse (.malformedFlex n d.flex.coordinates) .badFlex d := by
  rw [endFlex, get_bind_run]
  refine congrFun ?_ d
  dsimp only
  split
  · next hactive hpoints => exact (h _ _ _ _ _ _ _ rfl hactive hpoints).elim
  · rfl

theorem endFlex_of_inactive {d : Decoder} (h : d.flex.active = false) (n : Nat) :
    endFlex setup n d = refuse (.malformedFlex n d.flex.coordinates) .badFlex d :=
  endFlex_refused setup fun _ _ _ _ _ _ _ _ hactive _ =>
    Bool.false_ne_true (h.symm.trans hactive)

theorem relates_endFlex (h : Drawing setup R) (n : Nat) :
    Relates R R (endFlex setup n) (endFlex setup n) := by
  intro d e hde
  cases hactive : d.flex.active with
  | false =>
    rw [endFlex_of_inactive hactive, endFlex_of_inactive (h.active hde ▸ hactive)]
    exact .error (h.malformed hde n)
  | true =>
    refine Related.get_bind ?_
    dsimp only
    rw [← h.flex hde hactive, hactive]
    refine (?_ : Relates R R _ _) d e hde
    split
    · refine (relates_modify fun _ _ hde => h.setFlex hde _).bind fun _ =>
        (relates_take h.toCongruence 3).bind fun v => relates_get_bind fun d e hde => ?_
      rw [h.absolute hde]
      exact (relates_modify fun _ _ hde => h.flexTo hde _ _ _).bind fun _ =>
        relates_pushAll h.toCongruence _
    · exact relates_refuse h.toCongruence _ _

theorem relates_counterStems (h : Congruence R) (hc : Counting setup R) (vertical : Bool)
    (edge : Number) (values : List Number) :
    Relates R R (counterStems setup vertical edge values)
      (counterStems setup vertical edge values) := by
  fun_induction counterStems setup vertical edge values with
  | case1 vertical edge gap width rest near far last next =>
    refine (relates_modify fun _ _ hde => hc.counterStem hde vertical _ _).bind fun _ => ?_
    refine relates_ite ?_ next
    split
    · exact relates_pure _
    · refine (relates_modify fun _ _ hde => hc.openGroup hde).bind fun _ =>
        relates_get_bind fun d e hde => ?_
      rw [hc.stemOrigin hde]
      exact last e
  | case2 => exact relates_refuse h _ _

theorem relates_counterHints (h : Congruence R) (hc : Counting setup R) (n : Nat)
    (complete : Bool) :
    Relates R R (counterHints setup n complete) (counterHints setup n complete) := by
  refine relates_get_bind fun d e hde => ?_
  rw [hc.counters hde]
  refine (relates_take h n).bind fun v => ?_
  dsimp only
  split
  · exact relates_throw _
  · refine (relates_modify fun _ _ hde => hc.setCounters hde _).bind fun _ =>
      relates_ite ?_ (relates_pure _)
    refine (relates_modify fun _ _ hde => hc.setCounters hde _).bind fun _ => ?_
    split
    · exact relates_pure _
    · refine (relates_modify fun _ _ hde => hc.openGroup hde).bind fun _ =>
        relates_get_bind fun d e hde => ?_
      rw [hc.stemOrigin hde]
      exact relates_counterStems h hc _ _ _

theorem relates_performOtherSubr (h : Drawing setup R) (n : Nat) {subr : OtherSubr}
    (hc : ∀ complete, subr = .counterHints complete → Counting setup R)
    (hs : subr.stores → Storing R) :
    Relates R R (performOtherSubr setup n subr) (performOtherSubr setup n subr) := by
  cases subr with
  | endFlex => exact relates_endFlex h n
  | startFlex => exact relates_modify fun _ _ hde => h.startFlex hde
  | flexPoint => exact relates_pure ()
  | renewHints => exact relates_modify fun _ _ hde => h.renewHints hde
  | counterHints complete => exact relates_counterHints h.toCongruence (hc _ rfl) n complete
  | blend k => exact relates_blend h.toCongruence (hs rfl) setup k
  | storeWeights => exact relates_storeWeights h.toCongruence (hs rfl) setup
  | calculate op => exact relates_calculate h.toCongruence hs

/-- A call is related if the other subroutine that the operands select is. -/
theorem related_callOtherSubr (h : Congruence R) (hE : ∀ d e, R d e → E d e) {d e : Decoder}
    (hde : R d e) (hp : ∀ n subr, OtherSubr.selected? d.operands.toList = some subr →
      Relates R E (performOtherSubr setup n subr) (performOtherSubr setup n subr)) :
    Related R E (callOtherSubr setup d) (callOtherSubr setup e) := by
  refine ((relates_take h 2).mono hE d e hde).bind fun v d' e' htake hde => ?_
  refine ((relates_orFail _ _).mono hE d' e' hde).bind fun n d' e' _ hde => ?_
  refine ((relates_require h n).mono hE d' e' hde).bind fun _ d' e' _ hde => ?_
  refine ((relates_orFail _ _).mono hE d' e' hde).bind fun selector d' e' hselector hde => ?_
  have hlast : OtherSubr.selected? d.operands.toList = OtherSubr.ofSelector? selector := by
    obtain ⟨hs, -⟩ := orFail_eq_ok hselector
    rw [OtherSubr.selected?, Operands.getLast?_of_split? (take_eq_ok htake), Option.bind_some, hs,
      Option.bind_some]
  cases hsubr : OtherSubr.ofSelector? selector with
  | some subr =>
    exact (((relates_require h _).mono hE).bind fun _ => hp n subr (hlast.trans hsubr)) d' e' hde
  | none => exact (relates_refuse h _ _).mono hE d' e' hde

/-! ## Operators -/

theorem relates_draw (h : Congruence R) {n : Nat} {f g : Vector Number n → Decoder → Decoder}
    (hf : ∀ v d e, R d e → R (f v d) (g v e)) : Relates R R (draw n f) (draw n g) :=
  (relates_arguments h n).bind fun v => (relates_modify (hf v)).bind fun _ =>
    (relates_clear h).bind fun _ => relates_pure _

theorem relates_moveWith (h : Drawing setup R) (n : Nat) (delta : Vector Number n → Point) :
    Relates R R (moveWith n delta) (moveWith n delta) :=
  (relates_arguments h.toCongruence n).bind fun _ => (relates_move h _).bind fun _ =>
    (relates_clear h.toCongruence).bind fun _ => relates_pure _

/-- The quiet operators by which the glyph gets nothing. -/
theorem relates_silent (h : Congruence R) {op : Operator} (hq : op.isQuiet)
    (hsilent : op ≠ .dotsection) (hs : op.stores → Storing R)
    (hclosed : op = .closepath → ∀ d e, R d e →
      R { d with moveDue := true } { e with moveDue := true }) :
    Relates R R (perform setup op) (perform setup op) := by
  cases op with
  | closepath => exact relates_draw h fun _ _ _ hde => hclosed rfl _ _ hde
  | callsubr =>
    exact (relates_take h 1).bind fun _ => (relates_orFail _ _).bind fun _ => relates_pure _
  | returnToCaller => exact relates_pure _
  | endchar => exact (relates_clear h).bind fun _ => relates_pure _
  | blend =>
    exact (relates_take h 1).bind fun _ => (relates_orFail _ _).bind fun n =>
      (relates_blend h (hs rfl) setup n).bind fun _ => relates_pure _
  | pop => exact relates_pure _
  | calculate op => exact (relates_calculate h hs).bind fun _ => relates_pure _
  | unknown code => exact relates_refuse h _ _
  | dotsection => exact absurd rfl hsilent
  | _ => cases hq

/-- The quiet operators are related by much less than the others need. -/
theorem relates_quiet (h : Reporting R) {op : Operator} (hq : op.isQuiet)
    (hs : op.stores → Storing R) : Relates R R (perform setup op) (perform setup op) := by
  by_cases hop : op = .dotsection
  · subst hop
    exact relates_draw h.toCongruence fun _ _ _ hde => h.report hde _ rfl
  · exact relates_silent h.toCongruence hq hop hs fun _ _ _ hde => h.closed hde

/-- All operators are related if those are that give side bearing and width, compose an accented
character, or call an other subroutine. -/
theorem related_perform (h : Drawing setup R) (hE : ∀ d e, R d e → E d e) {op : Operator}
    (hs : op.stores → Storing R)
    (hm : op.isMetrics → ∀ bearing advance, Relates R E (metrics setup bearing advance)
      (metrics setup bearing advance))
    (ha : op = .seac → ∀ v, Relates R E (accented setup v) (accented setup v)) {d e : Decoder}
    (ho : op = .callothersubr → Related R E (callOtherSubr setup d) (callOtherSubr setup e))
    (hde : R d e) : Related R E (perform setup op d) (perform setup op e) := by
  have hcong := h.toCongruence
  have drawn {n : Nat} {f : Vector Number n → Decoder → Decoder}
      (hf : ∀ v d e, R d e → R (f v d) (f v e)) : Related R E (draw n f d) (draw n f e) :=
    (relates_draw hcong hf).mono hE d e hde
  have bearing (hop : op.isMetrics) (n : Nat) (p : Vector Number n → Point)
      (w : Vector Number n → Number) :
      Relates R E (do let v ← arguments n; clear; metrics setup (p v) (w v))
        (do let v ← arguments n; clear; metrics setup (p v) (w v)) :=
    ((relates_arguments hcong n).mono hE).bind fun _ =>
      ((relates_clear hcong).mono hE).bind fun _ => hm hop _ _
  cases op with
  | hstem | vstem => exact drawn fun v _ _ hde => h.hintStem hde _ _ _
  | hstem3 | vstem3 => exact drawn fun v _ _ hde => h.hintStems hde _ v
  | rlineto | hlineto | vlineto => exact drawn fun v _ _ hde => h.lineBy hde _
  | rrcurveto | vhcurveto | hvcurveto => exact drawn fun v _ _ hde => h.curveBy hde _ _ _
  | setcurrentpoint => exact drawn fun v _ _ hde => h.setPoint' hde _
  | rmoveto | hmoveto | vmoveto => exact (relates_moveWith h _ _).mono hE d e hde
  | hsbw => exact bearing rfl 2 _ _ d e hde
  | sbw => exact bearing rfl 4 _ _ d e hde
  | seac =>
    exact (((relates_arguments hcong 5).mono hE).bind fun v =>
      ((relates_clear hcong).mono hE).bind fun _ => ha rfl v) d e hde
  | callothersubr => exact (ho rfl).bind fun _ d e _ hde => relates_pure _ d e hde
  | _ => exact (relates_quiet h.toReporting rfl hs).mono hE d e hde

/-! ## Parts of accented characters -/

theorem relates_metrics_part (h : Drawing setup R) (hp : PartOf R) (bearing : Point)
    (advance : Number) :
    Relates R R (metrics setup bearing advance) (metrics setup bearing advance) := by
  refine (relates_modify fun _ _ hde => h.setPoint hde _).bind fun _ =>
    relates_get_bind fun d e hde => ?_
  obtain ⟨hpart, hne⟩ := hp.part hde
  rw [← hpart]
  cases hd : d.part with
  | glyph => exact absurd hd hne
  | base b =>
    exact (relates_modify fun _ _ hde => hp.setPart hde (.base bearing) nofun).bind fun _ =>
      relates_pure _
  | accent b shift placed =>
    exact (relates_modify fun _ _ hde => hp.setPart hde (.accent bearing shift placed) nofun).bind
      fun _ => relates_pure _

theorem relates_accented_part (h : Congruence R) (hp : PartOf R) (v : Vector Number 5) :
    Relates R R (accented setup v) (accented setup v) := by
  refine (relates_orFail _ _).bind fun base => (relates_orFail _ _).bind fun accent =>
    relates_get_bind fun d e hde => ?_
  obtain ⟨hpart, hne⟩ := hp.part hde
  rw [← hpart]
  cases hd : d.part with
  | glyph => exact absurd hd hne
  | base b => exact fun _ _ hde => .error (h.note hde _)
  | accent b shift placed => exact fun _ _ hde => .error (h.note hde _)

/-- An instruction of a part. -/
theorem related_execute_part (h : Drawing setup R) (hE : ∀ d e, R d e → E d e) (hp : PartOf R)
    {i : Instruction} {d e : Decoder} (hde : R d e)
    (hs : ∀ op, i = .operator op → op.stores → Storing R)
    (ho : i = .operator .callothersubr →
      ∀ n subr, OtherSubr.selected? d.operands.toList = some subr →
        Relates R E (performOtherSubr setup n subr) (performOtherSubr setup n subr)) :
    Related R E (execute setup i d) (execute setup i e) := by
  have hcong := h.toCongruence
  cases i with
  | number value =>
    exact (((relates_push hcong value).bind fun _ => relates_pure _).mono hE) d e hde
  | reserved byte => exact (relates_refuse hcong _ _).mono hE d e hde
  | operator op =>
    have hbegan : R (d.record (.began op d.operands.toList))
        (e.record (.began op e.operands.toList)) :=
      hcong.operands hde ▸ hp.began hde _ _
    refine related_perform h hE (hs op rfl)
      (fun _ _ _ => (relates_metrics_part h hp _ _).mono hE)
      (fun _ v => (relates_accented_part hcong hp v).mono hE) (fun hop => ?_) hbegan
    exact related_callOtherSubr hcong hE hbegan (ho (hop ▸ rfl))

end Decode

end Type1
