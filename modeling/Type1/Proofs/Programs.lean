import Type1.Proofs.PendingMove

/-!
# Programs in a run

What a run comes to by the instructions that it reads next, whatever comes behind them.

* `Cursor.Spells`: the instructions that are read next.
* `Decoder.Leads`: the state that a run comes to by them. `Decoder.Refuses`: the error that it ends
  with. `Decoder.Keeps`: what holds all the way.
* `Decoder.leads_execute`, `Decoder.leads_operator`: single instructions. The other rules put
  programs together.
-/

namespace Type1

variable {s : Source} {setup : Setup}

/-! ## What is read next -/

/-- These instructions are read next, one after the other. -/
inductive Cursor.Spells : Cursor s → List Instruction → Prop where
  /-- Nothing is said about what is read. -/
  | nil (c : Cursor s) : Spells c []
  /-- An instruction is read, and then the others. -/
  | cons {c next : Cursor s} {i : Instruction} {later : List Instruction}
      {calls : List Source.Call} (hread : c.readInstruction = .done i next calls)
      (h : Spells next later) : Spells c (i :: later)

theorem Cursor.Spells.left {c : Cursor s} {program later : List Instruction}
    (h : c.Spells (program ++ later)) : c.Spells program := by
  induction program generalizing c with
  | nil => exact .nil c
  | cons i program ih =>
    cases h with
    | cons hread h => exact .cons hread (ih h)

theorem Cursor.spells_cons {c next : Cursor s} {i j : Instruction} {later : List Instruction}
    {calls : List Source.Call} (hread : c.readInstruction = .done i next calls) :
    c.Spells (j :: later) ↔ i = j ∧ next.Spells later := by
  constructor
  · intro h
    cases h with
    | cons hread' h =>
      cases hread.symm.trans hread'
      exact ⟨rfl, h⟩
  · rintro ⟨rfl, h⟩
    exact .cons hread h

instance Cursor.decidableSpells :
    ∀ (c : Cursor s) (program : List Instruction), Decidable (c.Spells program)
  | c, [] => .isTrue (.nil c)
  | c, j :: later =>
    match hread : c.readInstruction with
    | .done i next _ =>
      haveI := decidableSpells next later
      decidable_of_iff (i = j ∧ next.Spells later) (spells_cons hread).symm
    | .failed .. => .isFalse fun h => by
      cases h with
      | cons hread' _ => cases hread.symm.trans hread'

/-! ## What a run comes to -/

namespace Decoder

/-- By these instructions, a run goes on from a state `d` to a state `e`, apart from what is no
element in the history. -/
def Leads (setup : Setup) (d : Decoder) (program : List Instruction) (e : Decoder) : Prop :=
  ∀ (s : Source) (m : Moment s) (later : List Instruction), m.decoder.Agree Event.isElement d →
    m.cursor.Spells (program ++ later) →
    ∃ l, m.run setup program.length = .running l ∧ l.cursor.Spells later ∧
      l.decoder.Agree Event.isElement e

/-- By these instructions, a run from a state `d` fails, and the glyph gets no element. -/
def Refuses (setup : Setup) (d : Decoder) (program : List Instruction) (x : Error) : Prop :=
  ∀ (s : Source) (m : Moment s), m.decoder.Agree Event.isElement d → m.cursor.Spells program →
    ∃ k ≤ program.length, ∃ session, m.run setup k = .ended (.error x session) ∧
      session.decoder.elements = d.elements

/-- However many of these instructions a run goes through, it comes to a state with `P`. -/
def Keeps (setup : Setup) (P : Decoder → Prop) (d : Decoder) (program : List Instruction) : Prop :=
  ∀ n ≤ program.length, ∃ e, d.Leads setup (program.take n) e ∧ P e

variable {d e c : Decoder} {i : Instruction} {op : Operator} {program later : List Instruction}
  {x : Error} {P : Decoder → Prop}

theorem Leads.refl (setup : Setup) (d : Decoder) : d.Leads setup [] d :=
  fun _ m _ hm hs => ⟨m, rfl, hs, hm⟩

theorem Leads.trans (h : d.Leads setup program e) (h' : e.Leads setup later c) :
    d.Leads setup (program ++ later) c := by
  intro s m rest hm hs
  rw [List.append_assoc] at hs
  obtain ⟨l, hl, hspells, he⟩ := h s m _ hm hs
  obtain ⟨l', hl', hspells', hc⟩ := h' s l rest he hspells
  refine ⟨l', ?_, hspells', hc⟩
  rw [List.length_append, Moment.run_add hl]
  exact hl'

theorem Leads.of_agree (h : d.Leads setup program e) (he : e.Agree Event.isElement c) :
    d.Leads setup program c := by
  intro s m rest hm hs
  obtain ⟨l, hl, hspells, hle⟩ := h s m rest hm hs
  exact ⟨l, hl, hspells, hle.trans he⟩

theorem Refuses.after (h : d.Leads setup program e) (helements : e.elements = d.elements)
    (h' : e.Refuses setup later x) : d.Refuses setup (program ++ later) x := by
  intro s m hm hs
  obtain ⟨l, hl, hspells, he⟩ := h s m later hm hs
  obtain ⟨k, hk, session, hend, hsame⟩ := h' s l he hspells
  refine ⟨program.length + k, ?_, session, ?_, hsame.trans helements⟩
  · rw [List.length_append]
    omega
  · rw [Moment.run_add hl]
    exact hend

theorem Refuses.before (h : d.Refuses setup program x) (later : List Instruction) :
    d.Refuses setup (program ++ later) x := by
  intro s m hm hs
  obtain ⟨k, hk, hend⟩ := h s m hm hs.left
  refine ⟨k, ?_, hend⟩
  rw [List.length_append]
  omega

/-- What a run comes to by the instructions that it reads next. -/
theorem Leads.run {m : Moment s} (h : m.decoder.Leads setup program e)
    (hs : m.cursor.Spells program) :
    ∃ l, m.run setup program.length = .running l ∧ l.decoder.Agree Event.isElement e := by
  rw [← List.append_nil program] at hs
  obtain ⟨l, hl, -, he⟩ := h s m [] (.refl _) hs
  exact ⟨l, hl, he⟩

theorem Leads.ne_ended {m : Moment s} (h : m.decoder.Leads setup program e)
    (hs : m.cursor.Spells program) {n : Nat} (hn : n ≤ program.length)
    (o : Session.Outcome) : m.run setup n ≠ .ended o := by
  intro hended
  obtain ⟨l, hl, -⟩ := h.run hs
  obtain ⟨k, hk⟩ := Nat.exists_eq_add_of_le hn
  rw [hk, Moment.run_ended hended k] at hl
  cases hl

theorem Keeps.append (h : d.Keeps setup P program) (hleads : d.Leads setup program e)
    (h' : e.Keeps setup P later) : d.Keeps setup P (program ++ later) := by
  intro n hn
  rcases Nat.le_total n program.length with hle | hle
  · rw [List.take_append_of_le_length hle]
    exact h n hle
  · obtain ⟨k, rfl⟩ := Nat.exists_eq_add_of_le hle
    rw [List.length_append] at hn
    obtain ⟨c, hc, hkept⟩ := h' k (Nat.le_of_add_le_add_left hn)
    rw [List.take_length_add_append]
    exact ⟨c, hleads.trans hc, hkept⟩

/-- What an instruction does in a state, it does in a run. -/
theorem leads_execute (h : Decode.execute setup i d = .ok .next e) : d.Leads setup [i] e := by
  intro s m rest hm hs
  cases hs with
  | @cons _ next _ _ calls hread hs =>
    have hrun := (hm.recordCalls (fun _ => rfl) calls).run (Decode.blind_execute setup i)
    rw [h] at hrun
    cases hx : Decode.execute setup i (m.decoder.recordCalls calls) with
    | error y c => rw [hx] at hrun; cases hrun
    | ok control c =>
      rw [hx] at hrun
      cases hrun with
      | ok hc =>
        refine ⟨⟨m.frames, next, c⟩, ?_, hs, hc⟩
        exact Run.step_of_next hread hx

theorem refuses_execute (h : Decode.execute setup i d = .error x e)
    (helements : e.elements = d.elements) : d.Refuses setup [i] x := by
  intro s m hm hs
  cases hs with
  | @cons _ next _ _ calls hread hs =>
    have hrun := (hm.recordCalls (fun _ => rfl) calls).run (Decode.blind_execute setup i)
    rw [h] at hrun
    cases hx : Decode.execute setup i (m.decoder.recordCalls calls) with
    | ok control c => rw [hx] at hrun; cases hrun
    | error y c =>
      rw [hx] at hrun
      cases hrun with
      | error hc =>
        refine ⟨1, Nat.le_refl 1, ⟨next.state, c⟩, ?_, hc.elements.trans helements⟩
        show Run.step s setup m = _
        simp only [Run.step, Run.stepWith, hread, hx]

/-- An operator in the history is no element. -/
theorem agree_began (d : Decoder) (op : Operator) :
    (d.record (.began op d.operands.toList)).Agree Event.isElement d :=
  (Agree.refl d).record rfl

theorem leads_operator (h : Decode.perform setup op d = .ok .next e) :
    d.Leads setup [.operator op] e := by
  have hrun := (d.agree_began op).run (Decode.blind_perform setup op)
  rw [h, ← Decode.execute_operator] at hrun
  generalize hx : Decode.execute setup (.operator op) d = r at hrun
  cases hrun with
  | ok he => exact (leads_execute hx).of_agree he

theorem refuses_operator (h : Decode.perform setup op d = .error x e)
    (helements : e.elements = d.elements) : d.Refuses setup [.operator op] x := by
  have hrun := (d.agree_began op).run (Decode.blind_perform setup op)
  rw [h, ← Decode.execute_operator] at hrun
  generalize hx : Decode.execute setup (.operator op) d = r at hrun
  cases hrun with
  | error he => exact refuses_execute hx (he.elements.trans helements)

end Decoder

end Type1
