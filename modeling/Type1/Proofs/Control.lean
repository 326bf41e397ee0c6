import Type1.Delivery

/-!
# What instructions lead to

* `Instruction.leadsTo`: what can be read after an instruction (`yields_execute`). Only `return`
  makes its level return, only `callsubr` calls, and only `seac` composes.
* `execute_eq_compose`: when an accented character is composed, and of what.
-/

namespace Type1

/-- Whether an operator can be followed so. -/
def Operator.leadsTo : Operator → Control → Bool
  | callsubr, .call _ => true
  | returnToCaller, .leave .returned => true
  | endchar, .leave .finished => true
  | hsbw, .leave .finished => true
  | sbw, .leave .finished => true
  | seac, .leave .finished => true
  | seac, .compose .. => true
  | callsubr, _ => false
  | returnToCaller, _ => false
  | endchar, _ => false
  | seac, _ => false
  | _, .next => true
  | _, _ => false

/-- Whether an instruction can be followed so. -/
def Instruction.leadsTo : Instruction → Control → Bool
  | .operator op, control => op.leadsTo control
  | .number _, .next => true
  | _, _ => false

/-- Only `seac` composes. -/
theorem Instruction.eq_seac {i : Instruction} {base accent : Nat} {shift : Point}
    (h : i.leadsTo (.compose base accent shift)) : i = .operator .seac := by
  cases i with
  | operator op =>
    cases op with
    | seac => rfl
    | _ => cases h
  | _ => cases h

/-- Only `callsubr` calls. -/
theorem Instruction.eq_callsubr {i : Instruction} {offset : Nat} (h : i.leadsTo (.call offset)) :
    i = .operator .callsubr := by
  cases i with
  | operator op =>
    cases op with
    | callsubr => rfl
    | _ => cases h
  | _ => cases h

/-- Only `return` makes its level return. -/
theorem Instruction.eq_return {i : Instruction} (h : i.leadsTo (.leave .returned)) :
    i = .operator .returnToCaller := by
  cases i with
  | operator op =>
    cases op with
    | returnToCaller => rfl
    | _ => cases h
  | _ => cases h

namespace Decode

variable {α β : Type}

/-- A computation that succeeds gives a value as `P` says. -/
def Yields (x : Decode α) (P : α → Prop) : Prop := ∀ d a e, x d = .ok a e → P a

variable {P : α → Prop}

theorem yields_pure {a : α} (h : P a) : Yields (pure a) P := by
  intro d b e he
  cases he
  exact h

theorem yields_throw (e : Error) : Yields (throw e) P := fun _ _ _ he => by cases he

/-- Of two computations that succeed one after the other, both do. -/
theorem bind_eq_ok {x : Decode β} {k : β → Decode α} {d e : Decoder} {a : α}
    (h : (x >>= k) d = .ok a e) : ∃ b c, x d = .ok b c ∧ k b c = .ok a e := by
  change EStateM.bind x k d = _ at h
  unfold EStateM.bind at h
  split at h
  · next b c hx => exact ⟨b, c, hx, h⟩
  · cases h

/-- What follows a computation only matters where that succeeds. -/
theorem bind_congr_run {x : Decode β} {k l : β → Decode α} {d : Decoder}
    (h : ∀ b e, x d = .ok b e → k b e = l b e) : (x >>= k) d = (x >>= l) d := by
  show EStateM.bind x k d = EStateM.bind x l d
  unfold EStateM.bind
  cases hx : x d with
  | ok b e => exact h b e hx
  | error y e => rfl

theorem Yields.bind {x : Decode β} {k : β → Decode α} (hk : ∀ b, Yields (k b) P) :
    Yields (x >>= k) P := by
  intro d a e he
  obtain ⟨b, c, -, hb⟩ := bind_eq_ok he
  exact hk b c a e hb

theorem yields_refuse (n : Note) (e : Error) : Yields (refuse n e) P :=
  .bind fun _ => yields_throw e

theorem yields_draw {P : Control → Prop} (n : Nat) (f : Vector Number n → Decoder → Decoder)
    (h : P .next) : Yields (draw n f) P :=
  .bind fun _ => .bind fun _ => .bind fun _ => yields_pure h

theorem yields_moveWith {P : Control → Prop} (n : Nat) (delta : Vector Number n → Point)
    (h : P .next) : Yields (moveWith n delta) P :=
  .bind fun _ => .bind fun _ => .bind fun _ => yields_pure h

theorem yields_metrics {P : Control → Prop} (setup : Setup) (bearing : Point) (advance : Number)
    (hnext : P .next) (hleave : P (.leave .finished)) :
    Yields (metrics setup bearing advance) P := by
  refine .bind fun _ => .bind fun d => ?_
  dsimp only
  split
  · exact .bind fun _ => yields_pure hnext
  · exact .bind fun _ => yields_pure hnext
  · refine .bind fun d => ?_
    split
    · exact .bind fun _ => yields_pure hnext
    · refine .bind fun d => .bind fun _ => ?_
      split
      · exact yields_pure hleave
      · exact yields_pure hnext

theorem yields_accented {P : Control → Prop} (setup : Setup) (v : Vector Number 5)
    (hleave : P (.leave .finished))
    (hcompose : ∀ base accent shift, P (.compose base accent shift)) :
    Yields (accented setup v) P := by
  refine .bind fun base => .bind fun accent => .bind fun d => ?_
  dsimp only
  split
  · refine .bind fun _ => ?_
    split
    · exact .bind fun _ => yields_pure hleave
    · exact .bind fun _ => .bind fun _ => .bind fun _ => yields_pure (hcompose _ _ _)
  · exact yields_refuse _ _

/-- An instruction that succeeds is followed as it can be. -/
theorem yields_execute (setup : Setup) (i : Instruction) :
    Yields (execute setup i) (i.leadsTo ·) := by
  cases i with
  | number value => exact .bind fun _ => yields_pure rfl
  | reserved byte => exact yields_refuse _ _
  | operator op =>
    refine .bind fun _ => ?_
    cases op with
    | hstem | vstem | hstem3 | vstem3 | rlineto | hlineto | vlineto | rrcurveto | vhcurveto
    | hvcurveto | closepath | setcurrentpoint | dotsection => exact yields_draw _ _ rfl
    | rmoveto | hmoveto | vmoveto => exact yields_moveWith _ _ rfl
    | hsbw | sbw => exact .bind fun _ => .bind fun _ => yields_metrics _ _ _ rfl rfl
    | seac => exact .bind fun _ => .bind fun _ => yields_accented _ _ rfl fun _ _ _ => rfl
    | callsubr => exact .bind fun _ => .bind fun _ => yields_pure rfl
    | returnToCaller => exact yields_pure rfl
    | endchar => exact .bind fun _ => yields_pure rfl
    | blend => exact .bind fun _ => .bind fun _ => .bind fun _ => yields_pure rfl
    | callothersubr => exact .bind fun _ => yields_pure rfl
    | pop => exact yields_pure rfl
    | calculate op => exact .bind fun _ => yields_pure rfl
    | unknown code => exact yields_refuse _ _

/-! ## Composing an accented character -/

theorem orFail_eq_ok {x : Error} {o : Option α} {d e : Decoder} {a : α}
    (h : orFail x o d = .ok a e) : o = some a ∧ d = e := by
  cases o with
  | none => cases h
  | some b =>
    cases h
    exact ⟨rfl, rfl⟩

theorem arguments_eq_ok {n : Nat} {d e : Decoder} {v : Vector Number n}
    (h : arguments n d = .ok v e) : d.operands.bottom? n = some v ∧ d = e :=
  orFail_eq_ok h

theorem take_eq_ok {n : Nat} {d e : Decoder} {v : Vector Number n} (h : take n d = .ok v e) :
    d.operands.split? n = some (e.operands, v) := by
  obtain ⟨_, _, hget, h₁⟩ := bind_eq_ok h
  cases hget
  obtain ⟨⟨operands, w⟩, _, hs, h₂⟩ := bind_eq_ok h₁
  obtain ⟨hsplit, rfl⟩ := orFail_eq_ok hs
  cases h₂
  exact hsplit

theorem lookUp_eq_ok {glyphs : UInt8 → Option Nat} {code : UInt8} {d e : Decoder} {offset : Nat}
    (h : lookUp glyphs code d = .ok offset e) :
    glyphs code = some offset ∧ e = d.record (.lookedUp code (some offset)) := by
  obtain ⟨_, c, hm, h⟩ := bind_eq_ok h
  obtain ⟨hg, rfl⟩ := orFail_eq_ok h
  cases hm
  exact ⟨hg, by rw [hg]⟩

theorem accented_eq_compose {setup : Setup} {v : Vector Number 5} {d c : Decoder}
    {base accent : Nat} {shift : Point}
    (h : accented setup v d = .ok (.compose base accent shift) c) :
    d.part = .glyph ∧ setup.keepsAccented = false ∧ ∃ codes glyphs,
      v.fourth.toByte? = some codes.base ∧ v.fifth.toByte? = some codes.accent ∧
      setup.font.lookup = some glyphs ∧ glyphs codes.base = some base ∧
      glyphs codes.accent = some accent ∧ shift = ⟨v.second - v.first, v.third⟩ ∧
      c = ({ d with components := some codes }
        |>.record (.lookedUp codes.base (some base))
        |>.record (.lookedUp codes.accent (some accent))) := by
  obtain ⟨b, _, hb, h₁⟩ := bind_eq_ok h
  obtain ⟨hcode, rfl⟩ := orFail_eq_ok hb
  obtain ⟨a, _, ha, h₂⟩ := bind_eq_ok h₁
  obtain ⟨hcode', rfl⟩ := orFail_eq_ok ha
  obtain ⟨_, _, hget, h₃⟩ := bind_eq_ok h₂
  cases hget
  have hpart : d.part = .glyph := by
    cases hp : d.part with
    | glyph => rfl
    | _ =>
      simp only [hp] at h₃
      cases h₃
  simp only [hpart] at h₃
  obtain ⟨_, _, hm, h₄⟩ := bind_eq_ok h₃
  cases hm
  split at h₄
  · obtain ⟨_, _, _, h₅⟩ := bind_eq_ok h₄
    cases h₅
  · next hkeeps =>
    obtain ⟨glyphs, _, hg, h₅⟩ := bind_eq_ok h₄
    obtain ⟨hglyphs, rfl⟩ := orFail_eq_ok hg
    obtain ⟨_, _, hl, h₆⟩ := bind_eq_ok h₅
    obtain ⟨hbase, rfl⟩ := lookUp_eq_ok hl
    obtain ⟨_, _, hl', h₇⟩ := bind_eq_ok h₆
    obtain ⟨haccent, rfl⟩ := lookUp_eq_ok hl'
    cases h₇
    exact ⟨hpart, Bool.eq_false_iff.2 hkeeps, ⟨b, a⟩, glyphs, hcode, hcode', hglyphs, hbase,
      haccent, rfl, rfl⟩

end Decode

/-- The state in which an accented character is composed of glyphs at offsets. -/
def Decoder.composed (codes : Components) (base accent : Nat) (d : Decoder) : Decoder :=
  { d.record (.began .seac d.operands.toList) with
    operands := .empty, components := some codes }
    |>.record (.lookedUp codes.base (some base))
    |>.record (.lookedUp codes.accent (some accent))

/-- An accented character is composed by `seac` alone, at the glyph itself, of the glyphs at the
codes that it gives. -/
theorem Decode.execute_eq_compose {setup : Setup} {i : Instruction} {d c : Decoder}
    {base accent : Nat} {shift : Point}
    (h : execute setup i d = .ok (.compose base accent shift) c) :
    i = .operator .seac ∧ d.part = .glyph ∧ setup.keepsAccented = false ∧
      ∃ v codes glyphs, d.operands.bottom? 5 = some v ∧
        v.fourth.toByte? = some codes.base ∧ v.fifth.toByte? = some codes.accent ∧
        setup.font.lookup = some glyphs ∧ glyphs codes.base = some base ∧
        glyphs codes.accent = some accent ∧ shift = ⟨v.second - v.first, v.third⟩ ∧
        c = d.composed codes base accent := by
  have hi : i.leadsTo (.compose base accent shift) = true := yields_execute setup i _ _ _ h
  obtain rfl := Instruction.eq_seac hi
  obtain ⟨_, _, hbegan, h₁⟩ := bind_eq_ok h
  cases hbegan
  obtain ⟨v, _, hv, h₂⟩ := bind_eq_ok h₁
  obtain ⟨hargs, rfl⟩ := arguments_eq_ok hv
  obtain ⟨_, _, hclear, h₃⟩ := bind_eq_ok h₂
  cases hclear
  obtain ⟨hpart, hkeeps, codes, glyphs, hb, ha, hglyphs, hbase, haccent, hshift, hc⟩ :=
    accented_eq_compose h₃
  exact ⟨rfl, hpart, hkeeps, v, codes, glyphs, hargs, hb, ha, hglyphs, hbase, haccent, hshift, hc⟩

end Type1
