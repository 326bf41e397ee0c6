import Type1.Proofs.Chunking
import Type1.Proofs.Control
import Type1.Proofs.Lockstep

/-!
# Accented characters that are composed

* `Composition`: an accented character that is composed of two glyphs, with the state in which its
  parts begin; `Composition.Reached`: a charstring, or a subroutine that it calls, comes to it.
* `Composition.decode_of_reached`: what a charstring that comes to it leaves is what its parts
  leave.
* `Composition.answer`: what a receiver is given, once the base has come to its end.
* `Composition.before_of_lookup`: where the glyphs of the codes are makes no difference up to there.
-/

namespace Type1

/-- An accented character that is composed. -/
structure Composition where
  /-- The number of levels that can lie above the one at which it is composed. -/
  levels : Nat
  /-- The offset of the base. -/
  base : Nat
  /-- The offset of the accent. -/
  accent : Nat
  /-- The shift of the accent. -/
  shift : Point
  /-- The state before its parts. -/
  before : Decoder

/-- An accented character is complete after its parts. -/
theorem Direct.compose_ne_returned (nested : Nat → Decoder → Direct.Outcome) (base accent : Nat)
    (shift : Point) (d e : Decoder) :
    Direct.compose nested base accent shift d ≠ .ok .returned e := by
  unfold Direct.compose
  split
  · nofun
  · split <;> nofun

namespace Composition

/-- A level with a number of levels above it comes to the accented character, from a position and
in a state: at an instruction of its own, or in a subroutine that it calls. -/
inductive Reached (data : List UInt8) (setup : Setup) (c : Composition) :
    Nat → Nat → Decoder → Prop where
  /-- The instruction composes it. -/
  | here {levels p n : Nat} {i : Instruction} {d : Decoder} :
    Instruction.first? (data.drop p) = some (i, n) →
    Decode.execute setup i d = .ok (.compose c.base c.accent c.shift) c.before →
    levels = c.levels →
    Reached data setup c levels p d
  /-- It comes after the instruction. -/
  | next {levels p n : Nat} {i : Instruction} {d e : Decoder} :
    Instruction.first? (data.drop p) = some (i, n) →
    Direct.effect setup (Direct.nested data setup levels) i d = .goesOn e →
    Reached data setup c levels (p + n) e →
    Reached data setup c levels p d
  /-- It comes in the subroutine that the instruction calls. -/
  | call {levels p n offset : Nat} {i : Instruction} {d e : Decoder} :
    Instruction.first? (data.drop p) = some (i, n) →
    Decode.execute setup i d = .ok (.call offset) e →
    offset ≤ data.length →
    Reached data setup c levels offset e →
    Reached data setup c (levels + 1) p d

/-- The charstring at an offset comes to the accented character. -/
def Of (c : Composition) (data : List UInt8) (setup : Setup) (offset : Nat) : Prop :=
  offset ≤ data.length ∧ c.Reached data setup maxDepth offset (.start setup.font)

/-- How the base ends. -/
def baseOutcome (c : Composition) (data : List UInt8) (setup : Setup) : Direct.Outcome :=
  Direct.nested data setup c.levels c.base c.before.beginBase

/-- How the accent ends after a base that leaves a state. -/
def accentOutcome (c : Composition) (data : List UInt8) (setup : Setup) (after : Decoder) :
    Direct.Outcome :=
  Direct.nested data setup c.levels c.accent (after.beginAccent c.shift)

variable {c : Composition} {data : List UInt8} {setup : Setup}

/-- A level that comes to an accented character ends as its parts do. -/
theorem decode_of_reached {levels p : Nat} {d : Decoder} (h : c.Reached data setup levels p d) :
    Direct.decode data setup (Direct.nested data setup levels) p d =
      Direct.compose (Direct.nested data setup c.levels) c.base c.accent c.shift c.before := by
  induction h with
  | here hread hx hlevels =>
    rw [Direct.decode_of_some hread, Direct.effect, hx, hlevels]
  | next hread he _ ih =>
    rw [Direct.decode_of_some hread, he]
    exact ih
  | @call levels p n offset i d e hread hx hle _ ih =>
    rw [Direct.decode_of_some hread, Direct.effect, hx]
    dsimp only
    rw [Direct.nested, Direct.decodeAt, if_pos hle, ih]
    cases ho : Direct.compose (Direct.nested data setup c.levels) c.base c.accent c.shift
      c.before with
    | error x e => rfl
    | ok flow e =>
      cases flow with
      | finished => rfl
      | returned => exact absurd ho (Direct.compose_ne_returned _ _ _ _ _ _)

/-- What came about on the way to an accented character has. -/
theorem Reached.grows {levels p : Nat} {d : Decoder} (h : c.Reached data setup levels p d) :
    d.events <+: c.before.events := by
  induction h with
  | @here levels p n i d _ hx _ =>
    have hg := (Decode.blind_execute setup i).grows d
    rw [hx] at hg
    exact hg
  | @next levels p n i d e _ he _ ih =>
    have hn : Direct.Grows (Direct.nested data setup levels) := Direct.nested_grows levels
    have hg := Direct.effect_grows setup hn i d
    rw [he] at hg
    exact (hg.1.trans hg.2).trans ih
  | @call levels p n offset i d e _ hx _ _ ih =>
    have hg := (Decode.blind_execute setup i).grows d
    rw [hx] at hg
    exact hg.trans ih

/-- The accented character to which a level comes after a number of instructions of its own, if it
comes to one there. -/
def at? (data : List UInt8) (setup : Setup) (levels p : Nat) (d : Decoder) (k : Nat) :
    Option Composition :=
  (Direct.walk data setup (Direct.nested data setup levels) k p d).bind fun (q, e) =>
    (Instruction.first? (data.drop q)).bind fun (i, _) =>
      match Decode.execute setup i e with
      | .ok (.compose base accent shift) before => some ⟨levels, base, accent, shift, before⟩
      | _ => none

theorem reached_of_at? {levels p k : Nat} {d : Decoder}
    (h : at? data setup levels p d k = some c) : c.Reached data setup levels p d := by
  induction k generalizing p d with
  | zero =>
    unfold at? at h
    rw [Direct.walk, Option.bind_some] at h
    obtain ⟨⟨i, n⟩, hread, hx⟩ := Option.bind_eq_some_iff.1 h
    dsimp only at hx
    split at hx
    · next hcompose =>
      cases hx
      exact .here hread hcompose rfl
    · cases hx
  | succ k ih =>
    unfold at? at h
    rw [Direct.walk] at h
    split at h
    · cases h
    · next hread =>
      split at h
      · next he => exact .next hread he (ih h)
      · cases h

/-- The accented character to which a charstring comes after a number of instructions, and the state
that its base leaves, if there are these. -/
def parts? (data : List UInt8) (setup : Setup) (offset k : Nat) : Option (Composition × Decoder) :=
  if offset ≤ data.length then
    (at? data setup maxDepth offset (.start setup.font) k).bind fun c =>
      match c.baseOutcome data setup with
      | .ok .finished after => some (c, after)
      | _ => none
  else
    none

theorem of_parts? {offset k : Nat} {after : Decoder}
    (h : parts? data setup offset k = some (c, after)) :
    c.Of data setup offset ∧ c.baseOutcome data setup = .ok .finished after := by
  unfold parts? at h
  split at h
  · next hle =>
    obtain ⟨c', hc, hbase⟩ := Option.bind_eq_some_iff.1 h
    split at hbase
    · next ho =>
      cases hbase
      exact ⟨⟨hle, reached_of_at? hc⟩, ho⟩
    · cases hbase
  · cases h

/-! ## What a receiver is given -/

section Answer

variable {font : Font} {settings : Settings} {takes : Capabilities} {offset : Nat}
  {after : Decoder} {flow : Flow}

/-- What a receiver is given of an accented character whose base has come to its end: the elements
up to the end of the accent. -/
theorem answer (h : c.Of data (.of font settings takes) offset)
    (hbase : c.baseOutcome data (.of font settings takes) = .ok flow after)
    (chunk : Option Nat) (st : Source.State) :
    (parse (.memory data chunk) font settings takes offset st).1.answer =
      ((Decode.final (c.accentOutcome data (.of font settings takes) after)).elements.flatMap
          (Element.deliver settings takes),
        match c.accentOutcome data (.of font settings takes) after with
        | .ok _ d => .ok (d.glyph settings)
        | .error x _ => .error x) := by
  have hd : Direct.decode data (.of font settings takes)
      (Direct.nested data (.of font settings takes) maxDepth) offset (.start font) = _ :=
    decode_of_reached h.2
  unfold baseOutcome at hbase
  rw [answer_parse Source.reliable_memory, Source.memory_data, Direct.parse, Direct.decodeAt,
    if_pos h.1, hd, Direct.compose, hbase, Direct.report_answer]
  unfold accentOutcome
  dsimp only
  cases Direct.nested data (.of font settings takes) c.levels c.accent
    (after.beginAccent c.shift) <;> rfl

end Answer

end Composition

/-! ## An accented character at hand -/

namespace Aacute

/-- The accented character: its base has the code 65, its accent the code 194 and a shift. -/
def charstring : List UInt8 := [139, 248, 136, 13, 139, 169, 179, 204, 247, 86, 12, 6]

/-- A font with the base and the accent at offsets. -/
def font (base accent : Nat) : Font where
  lookup := some fun code =>
    if code = 65 then some base else if code = 194 then some accent else none

/-- The parts are decoded in place of the accented character. -/
def settings : Settings := { updateOperators := true }

/-- The accented character at the beginning of the data, and the state that its base leaves. -/
def parts? (data : List UInt8) (base accent : Nat) : Option (Composition × Decoder) :=
  Composition.parts? data (.of (font base accent) settings {}) 0 8

/-- What a receiver is given of the accented character at the beginning of the data. -/
def elements (data : List UInt8) (base accent : Nat) : List Element :=
  (parse (.memory data none) (font base accent) settings {} 0 {}).1.elements

end Aacute

/-! ## Where the glyphs are -/

/-- The setup with the glyphs of the codes elsewhere. -/
def Setup.withLookup (setup : Setup) (lookup : Option (UInt8 → Option Nat)) : Setup :=
  { setup with font := { setup.font with lookup } }

/-- A stem depends on the setup only in that a matrix acts or none does. -/
theorem Decoder.addStem_congr {setup setup' : Setup} (h : setup'.mapped = setup.mapped) :
    addStem setup' = addStem setup := by
  funext kind near far d
  simp only [addStem, control, h]

namespace Decode

/-- Counter hints depend on the setup as their stems do. -/
theorem counterStems_congr (setup setup' : Setup) (h : setup'.mapped = setup.mapped)
    (vertical : Bool) (edge : Number) (values : List Number) :
    counterStems setup' vertical edge values = counterStems setup vertical edge values := by
  fun_induction counterStems setup vertical edge values with
  | case1 vertical edge gap width rest near far last next =>
    have hrest : counterStems setup' vertical edge (gap :: width :: rest) =
        counterStems setup vertical edge (gap :: width :: rest) := by
      cases rest with
      | nil =>
        rw [counterStems, counterStems, next, Decoder.addStem_congr h]
      | cons value rest =>
        rw [counterStems, counterStems, next, Decoder.addStem_congr h]
        · simp only [last]
          rfl
        · exact List.cons_ne_nil value rest
        · exact List.cons_ne_nil value rest
    exact hrest
  | case2 vertical edge values hcut =>
    rw [counterStems]
    exact hcut

theorem counterHints_congr (setup setup' : Setup) (h : setup'.mapped = setup.mapped) (n : Nat)
    (complete : Bool) : counterHints setup' n complete = counterHints setup n complete := by
  unfold counterHints
  simp only [counterStems_congr setup setup' h]

variable (setup : Setup) (lookup : Option (UInt8 → Option Nat))

/-- Only `seac` looks up glyphs, and only `hsbw` and `sbw` can end the decoding with the width. -/
theorem perform_congr (widthOnly : Bool) {op : Operator} (hseac : op ≠ .seac) (hhsbw : op ≠ .hsbw)
    (hsbw : op ≠ .sbw) :
    perform { setup.withLookup lookup with widthOnly } op = perform setup op := by
  have hsubr (n : Nat) (subr : OtherSubr) :
      performOtherSubr { setup.withLookup lookup with widthOnly } n subr =
        performOtherSubr setup n subr := by
    cases subr with
    | counterHints complete =>
      exact counterHints_congr setup { setup.withLookup lookup with widthOnly } rfl n complete
    | _ => rfl
  cases op with
  | seac => exact absurd rfl hseac
  | hsbw => exact absurd rfl hhsbw
  | sbw => exact absurd rfl hsbw
  | callothersubr =>
    rw [perform, perform, callOtherSubr, callOtherSubr]
    simp only [hsubr]
  | _ => rfl

/-- Only `seac` looks up glyphs. -/
theorem perform_withLookup {op : Operator} (hop : op ≠ .seac) :
    perform (setup.withLookup lookup) op = perform setup op := by
  cases op with
  | hsbw | sbw => rfl
  | _ => exact perform_congr setup lookup setup.widthOnly hop nofun nofun

theorem execute_withLookup {i : Instruction} (hi : i ≠ .operator .seac) :
    execute (setup.withLookup lookup) i = execute setup i := by
  cases i with
  | operator op =>
    rw [execute, execute, perform_withLookup setup lookup fun h => hi (h ▸ rfl)]
  | _ => rfl

theorem accented_withLookup_part (v : Vector Number 5) {d : Decoder} (hd : d.part ≠ .glyph) :
    accented (setup.withLookup lookup) v d = accented setup v d := by
  refine bind_congr_run fun b e hb => ?_
  obtain ⟨-, rfl⟩ := orFail_eq_ok hb
  refine bind_congr_run fun a e ha => ?_
  obtain ⟨-, rfl⟩ := orFail_eq_ok ha
  refine bind_congr_run fun s e hs => ?_
  cases hs
  cases hp : d.part with
  | glyph => exact absurd hp hd
  | _ =>
    dsimp only
    rfl

/-- A part looks up no glyphs: `seac` is refused there. -/
theorem execute_withLookup_part (i : Instruction) {d : Decoder} (hd : d.part ≠ .glyph) :
    execute (setup.withLookup lookup) i d = execute setup i d := by
  by_cases hi : i = .operator .seac
  · subst hi
    refine bind_congr_run fun _ e hbegan => ?_
    cases hbegan
    refine bind_congr_run fun v e hv => ?_
    obtain ⟨-, rfl⟩ := arguments_eq_ok hv
    refine bind_congr_run fun _ e hclear => ?_
    cases hclear
    exact accented_withLookup_part setup lookup v hd
  · rw [execute_withLookup setup lookup hi]

end Decode

namespace Direct

variable {data : List UInt8} {setup : Setup} {nested nested' : Nat → Decoder → Outcome}

/-- Whether the level goes on, or its caller does. -/
def Effect.isOpen : Effect → Bool
  | .goesOn _ => true
  | .ends (.ok .returned _) => true
  | _ => false

/-- Levels of which those that return do the same. -/
def SameReturns (nested nested' : Nat → Decoder → Outcome) : Prop :=
  ∀ offset d e, nested offset d = .ok .returned e → nested' offset d = .ok .returned e

/-- `seac` ends its level, and the levels of its callers. -/
theorem ne_seac {i : Instruction} {d : Decoder} (h : (effect setup nested i d).isOpen) :
    i ≠ .operator .seac := by
  rintro rfl
  unfold effect at h
  cases hx : Decode.execute setup (.operator .seac) d with
  | error x e =>
    rw [hx] at h
    cases h
  | ok control e =>
    rw [hx] at h
    have hlead := Decode.yields_execute setup _ _ _ _ hx
    cases control with
    | leave flow =>
      cases flow with
      | finished => cases h
      | returned => cases hlead
    | compose base accent shift =>
      dsimp only at h
      cases ho : compose nested base accent shift e with
      | error x e =>
        rw [ho] at h
        cases h
      | ok flow e =>
        rw [ho] at h
        cases flow with
        | finished => cases h
        | returned => exact compose_ne_returned _ _ _ _ _ _ ho
    | _ => cases hlead

/-- An instruction does the same wherever the glyphs are, if its level or its caller goes on. -/
theorem effect_withLookup (lookup : Option (UInt8 → Option Nat))
    (hn : SameReturns nested nested') {i : Instruction} {d : Decoder}
    (h : (effect setup nested i d).isOpen) :
    effect (setup.withLookup lookup) nested' i d = effect setup nested i d := by
  have hi := ne_seac h
  unfold effect at h ⊢
  rw [Decode.execute_withLookup setup lookup hi]
  cases hx : Decode.execute setup i d with
  | error x e => rfl
  | ok control e =>
    rw [hx] at h
    cases control with
    | next => rfl
    | leave flow => rfl
    | call offset =>
      dsimp only at h ⊢
      cases ho : nested offset e with
      | error x c =>
        rw [ho] at h
        cases h
      | ok flow c =>
        rw [ho] at h
        cases flow with
        | finished => cases h
        | returned => rw [hn offset e c ho]
    | compose base accent shift =>
      exact absurd (Instruction.eq_seac (Decode.yields_execute setup i _ _ _ hx)) hi

theorem decode_withLookup (lookup : Option (UInt8 → Option Nat))
    (hn : SameReturns nested nested') :
    SameReturns (decode data setup nested) (decode data (setup.withLookup lookup) nested') := by
  intro p d c h
  induction hp : data.length - p using Nat.strongRecOn generalizing p d with
  | ind r ih =>
    cases hread : Instruction.first? (data.drop p) with
    | none =>
      rw [decode_of_none hread] at h
      cases h
    | some x =>
      have hlt := Instruction.first?_drop hread
      have heffect (h : (effect setup nested x.1 d).isOpen) := effect_withLookup lookup hn h
      rw [decode_of_some hread] at h ⊢
      revert heffect h
      cases effect setup nested x.1 d with
      | goesOn e =>
        intro h heffect
        rw [heffect rfl]
        exact ih _ (by omega) (p + x.2) e h rfl
      | ends o =>
        rintro rfl heffect
        rw [heffect rfl]

theorem nested_withLookup (lookup : Option (UInt8 → Option Nat)) (levels : Nat) :
    SameReturns (Direct.nested data setup levels)
      (Direct.nested data (setup.withLookup lookup) levels) := by
  induction levels with
  | zero => exact fun _ _ _ h => by cases h
  | succ levels ih =>
    intro offset d e h
    unfold Direct.nested decodeAt at h ⊢
    split at h
    · next hle =>
      rw [if_pos hle]
      exact decode_withLookup lookup ih offset d e h
    · cases h

end Direct

namespace Composition

variable {data : List UInt8} {setup : Setup} {lookup : Option (UInt8 → Option Nat)}
  {c c' : Composition}

/-- A subroutine that comes to an accented character does not return. -/
theorem Reached.ne_returned {levels offset : Nat} {d : Decoder} (hle : offset ≤ data.length)
    (h : c.Reached data setup levels offset d) (e : Decoder) :
    Direct.nested data setup (levels + 1) offset d ≠ .ok .returned e := by
  rw [Direct.nested, Direct.decodeAt, if_pos hle, decode_of_reached h]
  exact Direct.compose_ne_returned _ _ _ _ _ _

/-- A call after which the caller goes on has returned. -/
theorem returned_of_goesOn {nested : Nat → Decoder → Direct.Outcome} {i : Instruction}
    {d e c : Decoder} {offset : Nat} (hx : Decode.execute setup i d = .ok (.call offset) e)
    (h : Direct.effect setup nested i d = .goesOn c) : nested offset e = .ok .returned c := by
  unfold Direct.effect at h
  rw [hx] at h
  dsimp only at h
  cases ho : nested offset e with
  | error x c =>
    rw [ho] at h
    cases h
  | ok flow c =>
    rw [ho] at h
    cases flow with
    | finished => cases h
    | returned =>
      cases h
      rfl

/-- Where the glyphs are makes no difference up to an accented character: only its parts are other
glyphs. -/
theorem before_of_lookup {levels p : Nat} {d : Decoder} (h : c.Reached data setup levels p d)
    (h' : c'.Reached data (setup.withLookup lookup) levels p d) :
    c'.levels = c.levels ∧ c'.shift = c.shift ∧ ∃ (e : Decoder) (codes : Components),
      c.before = e.composed codes c.base c.accent ∧
      c'.before = e.composed codes c'.base c'.accent := by
  -- Both runs read the same bytes. At each of them they do the same, since a character is composed
  -- in the one exactly if it is in the other, and all else does not look at the glyphs.
  induction h with
  | here hread hx hlevels =>
    obtain ⟨rfl, -, -, v, codes, -, hv, hb, ha, -, -, -, hshift, hc⟩ :=
      Decode.execute_eq_compose hx
    cases h' with
    | here hread' hx' hlevels' =>
      obtain ⟨-, -, -, w, codes', -, hw, hb', ha', -, -, -, hshift', hc'⟩ :=
        Decode.execute_eq_compose hx'
      obtain rfl : v = w := Option.some.inj (hv.symm.trans hw)
      obtain rfl : codes = codes' := by
        cases codes
        cases codes'
        cases hb.symm.trans hb'
        cases ha.symm.trans ha'
        rfl
      exact ⟨hlevels'.symm.trans hlevels, hshift'.trans hshift.symm, _, codes, hc, hc'⟩
    | next hread' he' hr' =>
      obtain ⟨rfl, -⟩ := Prod.mk.inj (Option.some.inj (hread.symm.trans hread'))
      -- What goes on to the next instruction has not composed a character.
      exact absurd rfl (Direct.ne_seac (congrArg Direct.Effect.isOpen he'))
    | call hread' hx' hle' hr' =>
      obtain ⟨rfl, -⟩ := Prod.mk.inj (Option.some.inj (hread.symm.trans hread'))
      cases Decode.yields_execute _ _ _ _ _ hx'
  | next hread he hr ih =>
    have hopen := congrArg Direct.Effect.isOpen he
    have hsame := Direct.effect_withLookup lookup (Direct.nested_withLookup lookup _) hopen
    cases h' with
    | here hread' hx' hlevels' =>
      obtain ⟨rfl, -⟩ := Prod.mk.inj (Option.some.inj (hread.symm.trans hread'))
      obtain ⟨rfl, -⟩ := Decode.execute_eq_compose hx'
      exact absurd rfl (Direct.ne_seac hopen)
    | next hread' he' hr' =>
      obtain ⟨rfl, rfl⟩ := Prod.mk.inj (Option.some.inj (hread.symm.trans hread'))
      obtain rfl := Direct.Effect.goesOn.inj (he.symm.trans (hsame.symm.trans he'))
      exact ih hr'
    | call hread' hx' hle' hr' =>
      obtain ⟨rfl, -⟩ := Prod.mk.inj (Option.some.inj (hread.symm.trans hread'))
      -- A subroutine that returns has not come to an accented character.
      exact absurd (returned_of_goesOn hx' (hsame.trans he)) (hr'.ne_returned hle' _)
  | call hread hx hle hr ih =>
    have hi := Decode.yields_execute _ _ _ _ _ hx
    cases h' with
    | here hread' hx' hlevels' =>
      obtain ⟨rfl, -⟩ := Prod.mk.inj (Option.some.inj (hread.symm.trans hread'))
      obtain ⟨rfl, -⟩ := Decode.execute_eq_compose hx'
      cases hi
    | next hread' he' hr' =>
      obtain ⟨rfl, -⟩ := Prod.mk.inj (Option.some.inj (hread.symm.trans hread'))
      -- The same levels, seen from the setup with the other glyphs.
      have hsame := Direct.effect_withLookup setup.font.lookup
        (Direct.nested_withLookup setup.font.lookup _) (congrArg Direct.Effect.isOpen he')
      exact absurd (returned_of_goesOn hx (hsame.trans he')) (hr.ne_returned hle _)
    | call hread' hx' hle' hr' =>
      obtain ⟨rfl, -⟩ := Prod.mk.inj (Option.some.inj (hread.symm.trans hread'))
      rw [Decode.execute_withLookup setup lookup, hx] at hx'
      · cases hx'
        exact ih hr'
      · rintro rfl
        cases hi

end Composition

end Type1
