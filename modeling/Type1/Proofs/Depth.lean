import Type1.Proofs.Boundaries
import Type1.Proofs.Causes

/-!
# The number of levels

A run counts the levels above the glyph: one for each subroutine that is called and one for a part
of an accented character. The count is that of the levels that wait, at each moment, and an
instruction fails for it exactly if it begins a level above the last.

* `Instruction.above?`: where the level begins that an instruction begins above its own
  (`Decode.execute_above`).
* `Run.Shift`: what a step does to the levels that wait (`Run.shift_of_step`). What waits below a
  level is as it was once that is over (`Run.frames_of_over`).
* `Run.step_subrDepth_iff`: when a step fails as there are too many levels. So it is with a decoding
  (`Run.parse_subrDepth_iff`).
* `Process.counts`, `Process.Grounded`: a run on arrays counts the levels that wait, and none at the
  end.
* `call_depth`: all of it.
-/

namespace Type1

variable {s : Source} {setup : Setup} {d e : Decoder}

/-! ## Instructions that begin a level -/

/-- The offset at which a level begins that is above, if one is to begin. -/
def Control.above? : Control → Option Nat
  | call offset => some offset
  | compose base _ _ => some base
  | next | leave _ => none

/-- The offset at which an instruction begins a level above its own, if it does: that of the
subroutine with the number that is the top operand, or of the base if an accented character is
composed and the glyphs of both its codes are found. -/
def Instruction.above? (setup : Setup) (i : Instruction) (d : Decoder) : Option Nat :=
  match i with
  | operator .callsubr =>
    (d.operands.split? 1).bind fun taken => taken.2.first.toIndex?.bind (setup.font.subrs[·]?)
  | operator .seac =>
    if d.part = .glyph ∧ setup.keepsAccented = false then do
      let v ← d.operands.bottom? 5
      let base ← v.fourth.toByte?
      let accent ← v.fifth.toByte?
      let glyphs ← setup.font.lookup
      let offset ← glyphs base
      let _ ← glyphs accent
      some offset
    else none
  | _ => none

namespace Decode

theorem above_of_callsubr {offset : Nat} :
    (∃ control c, execute setup (.operator .callsubr) d = .ok control c ∧
      control.above? = some offset) ↔
    (Instruction.operator .callsubr).above? setup d = some offset := by
  rw [execute_operator, perform, Instruction.above?]
  dsimp only
  have hoperands := Decoder.operands_record (.began .callsubr d.operands.toList) d
  generalize d.record (.began .callsubr d.operands.toList) = d' at hoperands ⊢
  rw [← hoperands]
  cases hsplit : d'.operands.split? 1 with
  | none =>
    rw [bind_run_error (take_run_short (Operands.split?_eq_none_iff.1 hsplit)), Option.bind_none]
    simp
  | some taken =>
    obtain ⟨operands, v⟩ := taken
    rw [bind_run (take_run hsplit), Option.bind_some]
    dsimp only
    cases v.first.toIndex?.bind (setup.font.subrs[·]?) with
    | none =>
      constructor
      · rintro ⟨control, c, hx, -⟩
        cases hx
      · intro h
        cases h
    | some o =>
      rw [bind_run orFail_run]
      constructor
      · rintro ⟨control, c, hx, habove⟩
        cases hx
        exact habove
      · exact fun h => ⟨_, _, rfl, h⟩

theorem lookUp_run {glyphs : UInt8 → Option Nat} {code : UInt8} {offset : Nat}
    (h : glyphs code = some offset) :
    lookUp glyphs code d = .ok offset (d.record (.lookedUp code (some offset))) := by
  rw [lookUp, h]
  rfl

/-- An accented character whose codes have glyphs is composed. -/
theorem accented_run {v : Vector Number 5} {base accent : UInt8} {glyphs : UInt8 → Option Nat}
    {b a : Nat} (hpart : d.part = .glyph) (hkeeps : setup.keepsAccented = false)
    (hbase : v.fourth.toByte? = some base) (haccent : v.fifth.toByte? = some accent)
    (hglyphs : setup.font.lookup = some glyphs) (hb : glyphs base = some b)
    (ha : glyphs accent = some a) :
    ∃ c, accented setup v d = .ok (.compose b a ⟨v.second - v.first, v.third⟩) c := by
  rw [accented, hbase, bind_run orFail_run, haccent, bind_run orFail_run, get_bind_run, hpart]
  dsimp only
  rw [modify_bind_run, hkeeps, if_neg Bool.false_ne_true, hglyphs, bind_run orFail_run,
    bind_run (lookUp_run hb), bind_run (lookUp_run ha)]
  exact ⟨_, rfl⟩

theorem above_of_seac {offset : Nat} :
    (∃ control c, execute setup (.operator .seac) d = .ok control c ∧
      control.above? = some offset) ↔
    (Instruction.operator .seac).above? setup d = some offset := by
  rw [Instruction.above?]
  constructor
  · rintro ⟨control, c, hx, habove⟩
    have hleads := yields_execute setup _ d control c hx
    cases control with
    | compose base accent shift =>
      obtain ⟨-, hpart, hkeeps, v, codes, glyphs, hv, hbase, haccent, hglyphs, hb, ha, -, -⟩ :=
        execute_eq_compose hx
      rw [if_pos ⟨hpart, hkeeps⟩]
      simpa [hv, hbase, haccent, hglyphs, hb, ha, Control.above?] using habove
    | call offset => cases hleads
    | next => cases habove
    | leave flow => cases habove
  · intro h
    split at h
    · next hglyph =>
      simp only [Option.bind_eq_bind, Option.bind_eq_some_iff] at h
      -- The operands say where both parts are, so that all that is looked up is found.
      obtain ⟨v, hv, base, hbase, accent, haccent, glyphs, hglyphs, b, hb, a, ha, hoffset⟩ := h
      rw [execute_operator, perform]
      have hoperands := Decoder.operands_record (.began .seac d.operands.toList) d
      have hpart : (d.record (.began .seac d.operands.toList)).part = .glyph := hglyph.1
      generalize d.record (.began .seac d.operands.toList) = d' at hoperands hpart ⊢
      rw [← hoperands] at hv
      have hcleared : { d' with operands := .empty }.part = .glyph := hpart
      obtain ⟨c, hx⟩ := accented_run hcleared hglyph.2 hbase haccent hglyphs hb ha
      refine ⟨.compose b a ⟨v.second - v.first, v.third⟩, c, ?_, hoffset⟩
      rw [bind_run (arguments_run hv), clear, modify_bind_run]
      exact hx
    · cases h

/-- An instruction begins a level exactly if its operands say where. -/
theorem execute_above (i : Instruction) {offset : Nat} :
    (∃ control c, execute setup i d = .ok control c ∧ control.above? = some offset) ↔
      i.above? setup d = some offset := by
  by_cases hcall : i = .operator .callsubr
  · rw [hcall]
    exact above_of_callsubr
  by_cases hseac : i = .operator .seac
  · rw [hseac]
    exact above_of_seac
  have hnone : i.above? setup d = none := by
    unfold Instruction.above?
    split
    · exact absurd rfl hcall
    · exact absurd rfl hseac
    · rfl
  rw [hnone]
  refine ⟨fun ⟨control, c, hx, habove⟩ => ?_, nofun⟩
  have hleads := yields_execute setup i d control c hx
  cases control with
  | call offset => exact absurd (Instruction.eq_callsubr hleads) hcall
  | compose base accent shift => exact absurd (Instruction.eq_seac hleads) hseac
  | next => cases habove
  | leave flow => cases habove

theorem above_of_ok {i : Instruction} {control : Control} (h : execute setup i d = .ok control e) :
    i.above? setup d = control.above? := by
  refine Option.ext fun offset => ?_
  rw [← execute_above]
  constructor
  · rintro ⟨control', c, hx, habove⟩
    cases h.symm.trans hx
    exact habove
  · exact fun habove => ⟨control, e, h, habove⟩

theorem above_of_error {i : Instruction} {x : Error} (h : execute setup i d = .error x e) :
    i.above? setup d = none := by
  refine Option.eq_none_iff_forall_not_mem.2 fun offset hoffset => ?_
  obtain ⟨control, c, hx, -⟩ := (execute_above i).2 hoffset
  cases h.symm.trans hx

end Decode

/-! ## Steps -/

/-- The offset at which a level begins above that of the moment, if its next instruction is to begin
one. -/
def Moment.above? (setup : Setup) (m : Moment s) : Option Nat :=
  match m.cursor.readInstruction with
  | .done i _ calls => i.above? setup (m.decoder.recordCalls calls)
  | .failed .. => none

/-- Apart from callers, one level waits while a part is decoded. -/
theorem Part.Fits.length_parts {part : Part} {frames : List Frame} (h : part.Fits frames) :
    (frames.filter (!·.isCaller)).length = if part = .glyph then 0 else 1 := by
  cases part with
  | glyph => rw [show frames.filter (!·.isCaller) = [] from h]; rfl
  | base bearing => obtain ⟨_, _, h⟩ := h; rw [h]; rfl
  | accent => rw [show frames.filter (!·.isCaller) = [.accent] from h]; rfl

/-- The levels that wait are the callers, and one more while a part is decoded. -/
theorem Part.Fits.length_eq {part : Part} {frames : List Frame} (h : part.Fits frames) :
    frames.length = frames.countP Frame.isCaller + if part = .glyph then 0 else 1 := by
  rw [← h.length_parts, ← List.countP_eq_length_filter,
    List.length_eq_countP_add_countP Frame.isCaller]
  simp

/-- Only callers wait above a part. -/
theorem Part.Fits.callers {part : Part} {left waiting : List Frame} {f : Frame}
    (h : part.Fits (left ++ f :: waiting)) (hf : f.isCaller = false) :
    left.all Frame.isCaller = true := by
  have hone := h.length_parts
  rw [List.filter_append, List.length_append, List.filter_cons_of_pos (by rw [hf]; rfl),
    List.length_cons] at hone
  have hnil : left.filter (!·.isCaller) = [] := by
    refine List.eq_nil_of_length_eq_zero ?_
    split at hone <;> omega
  refine List.all_eq_true.2 fun g hg => ?_
  simpa using List.filter_eq_nil_iff.1 hnil g hg

namespace Run

/-- What a step does to the levels that wait. -/
inductive Shift (setup : Setup) (l m : Moment s) : Prop where
  /-- The level goes on. -/
  | stay (hframes : m.frames = l.frames) (habove : l.above? setup = none)
  /-- A level above begins, where the instruction says, and the level waits for it. -/
  | up (f : Frame) (hframes : m.frames = f :: l.frames)
    (habove : l.above? setup = some m.cursor.position)
  /-- The subroutine is over, and the level that called it goes on behind the call. -/
  | down (hframes : l.frames = .caller m.cursor.position :: m.frames)
    (habove : l.above? setup = none)
  /-- The base of an accented character is over, with the subroutines that it was in, and the accent
  begins in its place. -/
  | accent (left waiting : List Frame) (shift : Point) (hleft : left.all Frame.isCaller = true)
    (hframes : l.frames = left ++ .base m.cursor.position shift :: waiting)
    (haccent : m.frames = .accent :: waiting) (habove : l.above? setup = none)

/-- A level that ends gives way to the level that called it, or to the accent after a base. -/
theorem leave_shift {frames : List Frame} {flow : Flow} {session : Session} {m : Moment s}
    (h : leave s frames flow session = .running m) :
    (flow = .returned ∧ frames = .caller m.cursor.position :: m.frames) ∨
      ∃ left waiting shift, frames = left ++ .base m.cursor.position shift :: waiting ∧
        m.frames = .accent :: waiting := by
  fun_induction leave s frames flow session with
  | case1 flow session => cases h
  | case2 p frames session =>
    obtain ⟨rfl, rfl⟩ := resume_eq_running h
    exact .inl ⟨rfl, rfl⟩
  | case3 p frames session ih =>
    rcases ih h with ⟨hflow, -⟩ | ⟨left, waiting, shift, rfl, hm⟩
    · cases hflow
    · exact .inr ⟨.caller p :: left, waiting, shift, rfl, hm⟩
  | case4 accent shift frames flow session =>
    obtain ⟨hm, rfl, -⟩ := enter_eq_running h
    exact .inr ⟨[], frames, shift, rfl, hm⟩
  | case5 frames flow session ih =>
    rcases ih h with ⟨hflow, -⟩ | ⟨left, waiting, shift, rfl, hm⟩
    · cases hflow
    · exact .inr ⟨.accent :: left, waiting, shift, rfl, hm⟩

theorem shift_of_step {l m : Moment s} (hfits : l.decoder.part.Fits l.frames)
    (h : step s setup l = .running m) : Shift setup l m := by
  rcases step_cases setup l with ⟨_, _, _, _, hstep⟩ | ⟨i, next, calls, hread, ⟨_, _, _, hstep⟩ |
    ⟨control, e, hx, hstep⟩⟩
  · rw [hstep] at h
    cases h
  · rw [hstep] at h
    cases h
  · have habove : l.above? setup = control.above? := by
      rw [Moment.above?, hread]
      exact Decode.above_of_ok hx
    rw [hstep] at h
    cases control with
    | next =>
      cases h
      exact .stay rfl habove
    | leave flow =>
      rcases leave_shift h with ⟨-, hcaller⟩ | ⟨left, waiting, shift, hbase, haccent⟩
      · exact .down hcaller habove
      · exact .accent left waiting shift ((hbase ▸ hfits).callers rfl) hbase haccent habove
    | call offset =>
      obtain ⟨hframes, hposition, -⟩ := enter_eq_running h
      exact .up _ hframes (hposition ▸ habove)
    | compose base accent shift =>
      obtain ⟨hframes, hposition, -⟩ := enter_eq_running h
      exact .up _ hframes (hposition ▸ habove)

/-- What waits once a level is over: the levels below it, or an accent whose base was one of them
and is over with it. -/
def Over (below frames : List Frame) : Prop :=
  frames = below ∨ ∃ left waiting accent shift,
    below = left ++ .base accent shift :: waiting ∧ frames = .accent :: waiting

/-- A step above levels that wait leaves them as they are, unless the accent follows a base among
them. -/
theorem Shift.above {l m : Moment s} (h : Shift setup l m) {f : Frame} {left below : List Frame}
    (hl : l.frames = f :: left ++ below) :
    (∃ left, m.frames = left ++ below) ∨ Over below m.frames := by
  cases h with
  | stay hframes => exact .inl ⟨f :: left, hframes.trans hl⟩
  | up g hframes => exact .inl ⟨g :: f :: left, by rw [hframes, hl]; rfl⟩
  | down hframes =>
    rw [hl] at hframes
    exact .inl ⟨left, (List.cons.inj hframes).2.symm⟩
  | accent callers waiting shift hleft hframes haccent =>
    rw [hl] at hframes
    rcases List.append_eq_append_iff.1 hframes with ⟨rest, hc, hb⟩ | ⟨rest, hc, hb⟩
    · exact .inr (.inr ⟨rest, waiting, _, shift, hb, haccent⟩)
    · cases rest with
      | nil => exact .inr (.inr ⟨[], waiting, _, shift, hb.symm, haccent⟩)
      | cons g rest =>
        refine .inl ⟨.accent :: rest, ?_⟩
        rw [haccent, (List.cons.inj hb).2]
        rfl

theorem Over.length_le {below frames : List Frame} (h : Over below frames) :
    frames.length ≤ below.length := by
  rcases h with rfl | ⟨left, waiting, accent, shift, rfl, rfl⟩
  · exact Nat.le_refl _
  · simp only [List.length_append, List.length_cons]
    omega

variable {offset : Nat} {st : Source.State}

/-- While the levels above it are decoded, a level and those below it wait. -/
theorem frames_above {i j : Nat} {l m : Moment s} (hl : after s setup offset st i = .running l)
    (habove : (l.above? setup).isSome = true) (hij : i < j)
    (hm : after s setup offset st j = .running m)
    (hwaits : ∀ k x, i < k → k < j → after s setup offset st k = .running x → l.depth < x.depth) :
    (∃ left, m.frames = left ++ l.frames) ∨ Over l.frames m.frames := by
  induction j, Nat.succ_le_of_lt hij using Nat.le_induction generalizing m with
  | base =>
    cases shift_of_step (fits hl) ((after_succ hl).symm.trans hm) with
    | up f hframes => exact .inl ⟨[f], hframes⟩
    | _ => simp_all
  | succ j hj ih =>
    obtain ⟨x, hx, hstep⟩ := running_of_succ hm
    have hdeeper : l.frames.length < x.frames.length := hwaits j x hj (Nat.lt_succ_self j) hx
    rcases ih hj hx fun k y hk hkj => hwaits k y hk (Nat.lt_succ_of_lt hkj) with
      ⟨left, hleft⟩ | hover
    · cases left with
      | nil => rw [hleft] at hdeeper; exact absurd hdeeper (Nat.lt_irrefl _)
      | cons f left => exact (shift_of_step (fits hx) hstep).above hleft
    · exact absurd hover.length_le (Nat.not_le.2 hdeeper)

/-- When all levels above a level are over, it goes on as it was, unless it is over with them. -/
theorem frames_of_over {i j : Nat} {l m : Moment s} (hl : after s setup offset st i = .running l)
    (habove : (l.above? setup).isSome = true) (hij : i < j)
    (hm : after s setup offset st j = .running m) (hle : m.depth ≤ l.depth)
    (hwaits : ∀ k x, i < k → k < j → after s setup offset st k = .running x → l.depth < x.depth) :
    Over l.frames m.frames := by
  rcases frames_above hl habove hij hm hwaits with ⟨left, hleft⟩ | hover
  · have hlength := congrArg List.length hleft
    rw [List.length_append] at hlength
    have hnil : left = [] := by
      refine List.eq_nil_of_length_eq_zero ?_
      unfold Moment.depth at hle
      omega
    rw [hnil] at hleft
    exact .inl hleft
  · exact hover

/-! ## Too many levels -/

variable {frames : List Frame} {session session' : Session}

theorem resume_ne_subrDepth (frames : List Frame) (offset : Nat) (session session' : Session) :
    resume s frames offset session ≠ .ended (.error .subrDepth session') := by
  have hblames := Cursor.openAt_blames (s := s) offset session.source
  unfold resume
  intro h
  split at h
  · next hopen =>
    rw [hopen] at hblames
    cases h
    rcases hblames with hx | hx <;> cases hx
  · cases h

/-- A level cannot begin above the last. -/
theorem enter_subrDepth_iff {f : Frame} {offset : Nat} :
    (∃ session', enter s f frames offset session = .ended (.error .subrDepth session')) ↔
      maxDepth ≤ frames.length := by
  unfold enter
  split
  · next hlt =>
    exact iff_of_false (fun ⟨_, h⟩ => resume_ne_subrDepth _ _ _ _ h) (Nat.not_le.2 hlt)
  · next hge => exact iff_of_true ⟨_, rfl⟩ (Nat.not_lt.1 hge)

/-- A level that ends leaves room for the accent after a base. -/
theorem leave_ne_subrDepth {flow : Flow} (hroom : frames.length ≤ maxDepth) :
    leave s frames flow session ≠ .ended (.error .subrDepth session') := by
  induction frames generalizing flow session with
  | nil => nofun
  | cons f frames ih =>
    have hlt : frames.length < maxDepth := hroom
    cases f with
    | caller p =>
      cases flow with
      | returned => exact resume_ne_subrDepth _ _ _ _
      | finished => exact ih (Nat.le_of_lt hlt)
    | base accent shift =>
      exact fun h => absurd (enter_subrDepth_iff.1 ⟨_, h⟩) (Nat.not_le.2 hlt)
    | accent => exact ih (Nat.le_of_lt hlt)

/-- A step fails for the number of levels exactly if it begins one above the last. -/
theorem step_subrDepth_iff {m : Moment s} (hroom : m.depth ≤ maxDepth) :
    (∃ session, step s setup m = .ended (.error .subrDepth session)) ↔
      (m.above? setup).isSome = true ∧ m.depth = maxDepth := by
  have hblames := m.cursor.readInstruction_blames
  -- Neither reading nor executing fails for the number of levels; what begins a level does so if
  -- there is no room.
  rcases step_cases setup m with ⟨y, _, _, hread, hstep⟩ | ⟨i, next, calls, hread,
    ⟨y, e, hx, hstep⟩ | ⟨control, e, hx, hstep⟩⟩ <;> rw [hstep, Moment.above?, hread]
  · rw [hread] at hblames
    refine iff_of_false ?_ (by simp)
    rintro ⟨session, h⟩
    cases h
    rcases hblames with hy | hy <;> cases hy
  · dsimp only
    rw [Decode.above_of_error hx]
    refine iff_of_false ?_ (by simp)
    rintro ⟨session, h⟩
    cases h
    cases Decode.blames_execute setup i _ _ _ hx
  · dsimp only
    rw [Decode.above_of_ok hx]
    have hfull (offset : Nat) :
        maxDepth ≤ m.frames.length ↔ (some offset).isSome = true ∧ m.depth = maxDepth :=
      ⟨fun h => ⟨rfl, Nat.le_antisymm hroom h⟩, fun h => Nat.le_of_eq h.2.symm⟩
    cases control with
    | next => simp [pursue, Control.above?]
    | leave flow =>
      refine iff_of_false ?_ (by simp [Control.above?])
      rintro ⟨session, h⟩
      exact leave_ne_subrDepth hroom h
    | call offset => exact enter_subrDepth_iff.trans (hfull offset)
    | compose base accent shift => exact enter_subrDepth_iff.trans (hfull base)

/-- A run that is over did not begin, or ended at a step. -/
theorem ended_cases {n : Nat} {o : Session.Outcome} (h : after s setup offset st n = .ended o) :
    resume s [] offset ⟨st, .start setup.font⟩ = .ended o ∨
      ∃ k m, after s setup offset st k = .running m ∧ step s setup m = .ended o := by
  induction n with
  | zero => exact .inl h
  | succ n ih =>
    cases hm : after s setup offset st n with
    | ended o' =>
      rw [after_of_ended hm (Nat.le_succ n)] at h
      exact ih (hm.trans h)
    | running m => exact .inr ⟨n, m, hm, (after_succ hm).symm.trans h⟩

/-- A charstring fails for the number of levels exactly if it is to begin one above the last. -/
theorem parse_subrDepth_iff (s : Source) (font : Font) (settings : Settings)
    (takes : Capabilities) (offset : Nat) (st : Source.State) :
    let setup := Setup.of font settings takes
    (parse s font settings takes offset st).1.result = .error .subrDepth ↔
      ∃ n m, after s setup offset st n = .running m ∧ (m.above? setup).isSome = true ∧
        m.depth = maxDepth := by
  intro setup
  obtain ⟨n, -, hn⟩ := after_eq_ended (s := s) setup offset st
  generalize Session.decodeGlyph s setup offset st = o at hn
  rw [parse_eq_conclude hn]
  constructor
  · intro hresult
    cases o with
    | ok flow session => cases hresult
    | error x session =>
      cases hresult
      rcases ended_cases hn with hstart | ⟨k, m, hm, hstep⟩
      · exact absurd hstart (resume_ne_subrDepth _ _ _ _)
      · exact ⟨k, m, hm, (step_subrDepth_iff (depth_le hm)).1 ⟨session, hstep⟩⟩
  · rintro ⟨k, m, hm, habove⟩
    obtain ⟨session, hstep⟩ := (step_subrDepth_iff (depth_le hm)).2 habove
    obtain rfl := ended_unique hn ((after_succ hm).trans hstep)
    rfl

end Run

/-! ## Runs on arrays -/

namespace Process

open Guarded

variable {memory : Memory} {p : Process} {frames : List Frame}

/-- If the run on arrays has come to the end of the glyph, it counts no level. -/
def Grounded : EStateM.Result Stop Process Next → Prop
  | .ok (.ended _) p => p.depth = 0
  | _ => True

theorem resume_grounded (frames : List Frame) (offset : Nat) (p : Process) :
    Grounded (resume memory frames offset p) := by
  show Grounded (EStateM.bind (seek memory offset) _ p)
  unfold EStateM.bind
  cases seek memory offset p <;> trivial

theorem enter_grounded (f : Frame) (offset : Nat) (hk : p.depth = frames.length) :
    Grounded (enter memory f frames offset p) := by
  have hmax : maxDepth < wordSize := by decide
  rw [enter, get_bind, hk]
  by_cases hlt : frames.length < maxDepth
  · rw [if_neg (Nat.not_le.2 hlt), bind_ok (plus_run (by omega)), modify_bind]
    exact resume_grounded _ _ _
  · rw [if_pos (Nat.not_lt.1 hlt)]
    trivial

/-- A level that ends takes its own off the count, and so do those that end with it. -/
theorem leave_grounded (flow : Flow) (hk : p.depth = frames.length) :
    Grounded (leave memory frames flow p) := by
  induction frames generalizing flow p with
  | nil => exact hk
  | cons f frames ih =>
    cases f with
    | caller back =>
      cases flow with
      | returned =>
        rw [leave, bind_ok (descend_run hk)]
        exact resume_grounded _ _ _
      | finished =>
        rw [leave, bind_ok (descend_run hk)]
        exact ih .finished rfl
    | base accent shift =>
      rw [leave, bind_ok (descend_run hk), bind_ok (onMachine_run Checked.aside_modify_run),
        bind_ok (onMachine_run Checked.clear_run)]
      exact enter_grounded .accent accent rfl
    | accent =>
      rw [leave, bind_ok (descend_run hk), bind_ok (onMachine_run Checked.aside_modify_run)]
      exact ih .finished rfl

theorem step_grounded {setup : Setup} {c : Cursor memory.toSource} {d : Decoder}
    (h : p.At c d frames.length) : Grounded (step memory setup frames p) := by
  have hread := readInstruction_reads h
  show Grounded (EStateM.bind (readInstruction memory) _ p)
  unfold EStateM.bind
  revert hread
  generalize readInstruction memory p = o
  generalize c.readInstruction = r
  rintro (h | h)
  · next i next calls p =>
    have hx := Checked.refines_execute setup i _ _ h.machine
    show Grounded (EStateM.bind (onMachine _) _ p)
    unfold EStateM.bind onMachine
    dsimp only
    revert hx
    generalize Checked.execute setup i p.machine = x
    generalize Decode.execute setup i (d.recordCalls calls) = y
    rintro (⟨rfl, hs⟩ | hh)
    · next control m d =>
      have hat : At { p with machine := m } next d frames.length := ⟨h.input, h.depth, hs⟩
      cases control with
      | next => trivial
      | leave flow => exact leave_grounded flow hat.depth
      | call offset =>
        dsimp only
        rw [bind_ok (position_run hat)]
        exact enter_grounded _ offset hat.depth
      | compose base accent shift => exact enter_grounded _ base hat.depth
    · trivial
  · trivial

theorem start_grounded (setup : Setup) (offset : Nat) (p : Process) :
    Grounded (start memory setup offset p) := by
  rw [start, get_bind, bind_ok (startMachine_run setup.font)]
  exact resume_grounded _ _ _

/-- A run on arrays that has come to the end of the glyph has taken all its levels off the count. -/
theorem advance_grounded {setup : Setup} {r : EStateM.Result Stop Process Next}
    {x : Status memory.toSource} (h : Agrees r x) (hr : Grounded r) (n : Nat) :
    Grounded (advance memory setup n r) := by
  induction n generalizing r x with
  | zero => cases r <;> exact hr
  | succ n ih =>
    cases h with
    | running hat => exact ih (step_agrees hat) (step_grounded hat)
    | ended h => exact hr
    | failed h => exact hr

/-- A run on arrays that goes on counts the levels that wait. -/
theorem counts {setup : Setup} {offset n : Nat} {q : Process}
    (h : after memory setup offset p n = .ok (.running frames) q) (st : Source.State) :
    ∃ m, Run.after memory.toSource setup offset st n = .running m ∧ m.frames = frames ∧
      q.depth = m.depth := by
  have hagrees : Agrees (after memory setup offset p n)
      (Run.after memory.toSource setup offset st n) := after_agrees offset p st n
  rw [h] at hagrees
  generalize Run.after memory.toSource setup offset st n = x at hagrees
  cases hagrees with
  | running hat => exact ⟨_, rfl, rfl, hat.depth⟩

/-- A run on arrays fails with an error exactly if the run does. -/
theorem failed_iff {setup : Setup} {offset n : Nat} {x : Error} (st : Source.State) :
    (∃ q, after memory setup offset p n = .error (.failed x) q) ↔
      ∃ session, Run.after memory.toSource setup offset st n = .ended (.error x session) := by
  have hagrees : Agrees (after memory setup offset p n)
      (Run.after memory.toSource setup offset st n) := after_agrees offset p st n
  generalize after memory setup offset p n = r at hagrees
  generalize Run.after memory.toSource setup offset st n = y at hagrees
  cases hagrees with
  | running | ended => exact iff_of_false (fun ⟨_, h⟩ => by cases h) (fun ⟨_, h⟩ => by cases h)
  | failed h =>
    constructor
    · rintro ⟨q, hq⟩
      cases hq
      exact ⟨_, rfl⟩
    · rintro ⟨session, hsession⟩
      cases hsession
      exact ⟨_, rfl⟩

end Process

/-- At each moment of a run the levels that wait are the callers, and one more while a part is
decoded: ten at most. A step goes on at its level, begins the level that its instruction says, or
goes back to the level that called it or to an accented character whose accent follows; what waits
below a level is as it was once the levels above are over. The run fails for the number of levels
exactly where an instruction begins one above the tenth. A run on arrays counts the levels so, and
comes to an end with none. -/
theorem call_depth (font : Font) (settings : Settings) (takes : Capabilities) (offset : Nat) :
    let setup := Setup.of font settings takes
    (∀ (s : Source) (st : Source.State),
      let run := Run.after s setup offset st
      (∀ n m, run n = .running m → m.depth ≤ 10 ∧
        m.depth = m.frames.countP Frame.isCaller + (if m.decoder.part = .glyph then 0 else 1) ∧
        ((∃ session, run (n + 1) = .ended (.error .subrDepth session)) ↔
          (m.above? setup).isSome = true ∧ m.depth = 10)) ∧
      (∀ n l m, run n = .running l → run (n + 1) = .running m → Run.Shift setup l m) ∧
      (∀ i j l m, run i = .running l → (l.above? setup).isSome = true → i < j →
        run j = .running m → m.depth ≤ l.depth →
        (∀ k x, i < k → k < j → run k = .running x → l.depth < x.depth) →
        Run.Over l.frames m.frames) ∧
      ((parse s font settings takes offset st).1.result = .error .subrDepth ↔
        ∃ n m, run n = .running m ∧ (m.above? setup).isSome = true ∧ m.depth = 10)) ∧
    ∀ (memory : Memory) (p : Process),
      let process := Process.after memory setup offset p
      (∀ n frames q, process n = .ok (.running frames) q →
        ∃ m, Run.after memory.toSource setup offset {} n = .running m ∧ m.frames = frames ∧
          q.depth = frames.length ∧ q.depth ≤ 10 ∧
          ((∃ q', process (n + 1) = .error (.failed .subrDepth) q') ↔
            (m.above? setup).isSome = true ∧ q.depth = 10)) ∧
      ∀ n flow q, process n = .ok (.ended flow) q → q.depth = 0 := by
  intro setup
  have hfails (s : Source) (st : Source.State) (n : Nat) (m : Moment s)
      (hm : Run.after s setup offset st n = .running m) :
      (∃ session, Run.after s setup offset st (n + 1) = .ended (.error .subrDepth session)) ↔
        (m.above? setup).isSome = true ∧ m.depth = 10 := by
    rw [Run.after_succ hm]
    exact Run.step_subrDepth_iff (Run.depth_le hm)
  refine ⟨fun s st => ⟨fun n m hm => ?_, fun n l m hl hm => ?_, ?_, ?_⟩,
    fun memory p => ⟨fun n frames q hq => ?_, fun n flow q hq => ?_⟩⟩
  · exact ⟨Run.depth_le hm, (Run.fits hm).length_eq, hfails s st n m hm⟩
  · exact Run.shift_of_step (Run.fits hl) ((Run.after_succ hl).symm.trans hm)
  · exact fun i j l m hl habove hij hm => Run.frames_of_over hl habove hij hm
  · exact Run.parse_subrDepth_iff s font settings takes offset st
  · -- The arrays count what the list of frames has: the counter is its length at each step.
    obtain ⟨m, hm, rfl, hdepth⟩ := Process.counts hq {}
    refine ⟨m, hm, rfl, hdepth, hdepth ▸ Run.depth_le hm, ?_⟩
    rw [hdepth, ← hfails memory.toSource {} n m hm]
    exact Process.failed_iff {}
  · have hgrounded : Process.Grounded (Process.after memory setup offset p n) :=
      Process.advance_grounded (Process.start_agrees offset p {})
        (Process.start_grounded setup offset p) n
    rw [hq] at hgrounded
    exact hgrounded

/-- A subroutine that calls itself comes to the last level. -/
example :
    (parse (.memory [139, 10] none) { subrs := [0] } {} {} 0 {}).1.result = .error .subrDepth := by
  decide +kernel

end Type1
