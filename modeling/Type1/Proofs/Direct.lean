import Type1.Proofs.History
import Type1.Proofs.Reading

/-!
# Decoding from bytes at hand

Without chunks there is nothing to open or to refill: an offset says where to read, and that is all.

* `Direct.effect`: an instruction at its level, with the levels above it that it calls for.
* `Direct.decode`, `Direct.nested`: a level from a position, and the levels above another.
* `Direct.walk`: where a level comes to between its instructions; `Direct.Executes`: what it
  executes on its way.
* `Direct.parse`: what a charstring tells.
-/

namespace Type1

theorem Instruction.first?_length {bytes : List UInt8} {i : Instruction} {n : Nat}
    (h : first? bytes = some (i, n)) : 0 < n ∧ n ≤ bytes.length := by
  cases bytes with
  | nil => simp [first?] at h
  | cons first rest =>
    simp only [first?, front?] at h
    split at h
    · next hle =>
      simp only [Option.map_some, Option.some.injEq, Prod.mk.injEq] at h
      obtain ⟨-, rfl⟩ := h
      exact ⟨Nat.succ_pos _, Nat.succ_le_succ hle⟩
    · simp at h

/-- An instruction ends within the data. -/
theorem Instruction.first?_drop {data : List UInt8} {p n : Nat} {i : Instruction}
    (h : first? (data.drop p) = some (i, n)) : 0 < n ∧ p + n ≤ data.length := by
  have := first?_length h
  rw [List.length_drop] at this
  omega

namespace Direct

/-- How a level ends. -/
abbrev Outcome := EStateM.Result Error Decoder Flow

/-- What comes of an instruction: the level goes on, or it ends. -/
inductive Effect where
  /-- The next instruction follows. -/
  | goesOn (d : Decoder)
  /-- The level is over. -/
  | ends (outcome : Outcome)

/-- What comes of a call of a subroutine that ends so. -/
def Effect.ofCall : Outcome → Effect
  | .ok .returned d => .goesOn d
  | outcome => .ends outcome

/-- Decodes the two parts of an accented character. -/
def compose (nested : Nat → Decoder → Outcome) (base accent : Nat) (shift : Point) (d : Decoder) :
    Outcome :=
  match nested base d.beginBase with
  | .error error d => .error error d
  | .ok _ d =>
    match nested accent (d.beginAccent shift) with
    | .error error d => .error error d
    | .ok _ d => .ok .finished d.endParts

variable (data : List UInt8) (setup : Setup)

/-- Executes an instruction, and the levels above it that it calls for. -/
def effect (nested : Nat → Decoder → Outcome) (i : Instruction) (d : Decoder) : Effect :=
  match Decode.execute setup i d with
  | .error error d => .ends (.error error d)
  | .ok .next d => .goesOn d
  | .ok (.leave flow) d => .ends (.ok flow d)
  | .ok (.call offset) d => .ofCall (nested offset d)
  | .ok (.compose base accent shift) d => .ends (compose nested base accent shift d)

/-- Goes on from a position to the end of the level. -/
def decode (nested : Nat → Decoder → Outcome) (p : Nat) (d : Decoder) : Outcome :=
  match _hread : Instruction.first? (data.drop p) with
  | none => .error .streamRead d
  | some (i, n) =>
    match effect setup nested i d with
    | .goesOn d => decode nested (p + n) d
    | .ends outcome => outcome
termination_by data.length - p
decreasing_by
  have := Instruction.first?_drop _hread
  omega

variable {data setup} in
theorem decode_of_none {nested : Nat → Decoder → Outcome} {p : Nat} {d : Decoder}
    (h : Instruction.first? (data.drop p) = none) :
    decode data setup nested p d = .error .streamRead d := by
  rw [decode]
  split
  · rfl
  · next h' => rw [h] at h'; cases h'

variable {data setup} in
theorem decode_of_some {nested : Nat → Decoder → Outcome} {p n : Nat} {d : Decoder}
    {i : Instruction} (h : Instruction.first? (data.drop p) = some (i, n)) :
    decode data setup nested p d =
      match effect setup nested i d with
      | .goesOn d => decode data setup nested (p + n) d
      | .ends outcome => outcome := by
  rw [decode]
  split
  · next h' => rw [h] at h'; cases h'
  · next h' =>
    rw [h] at h'
    obtain ⟨rfl, rfl⟩ := Prod.mk.inj (Option.some.inj h')
    rfl

/-- Decodes a level from an offset. -/
def decodeAt (nested : Nat → Decoder → Outcome) (offset : Nat) (d : Decoder) : Outcome :=
  if offset ≤ data.length then decode data setup nested offset d else .error .streamSeek d

/-- Decodes a level above another, if one is left. -/
def nested : Nat → Nat → Decoder → Outcome
  | 0, _, d => .error .subrDepth d
  | levels + 1, offset, d => decodeAt data setup (nested levels) offset d

/-- Where a level stands after a number of instructions, and in which state, unless it is over. -/
def walk (nested : Nat → Decoder → Outcome) : Nat → Nat → Decoder → Option (Nat × Decoder)
  | 0, p, d => some (p, d)
  | k + 1, p, d =>
    match Instruction.first? (data.drop p) with
    | none => none
    | some (i, n) =>
      match effect setup nested i d with
      | .goesOn d => walk nested k (p + n) d
      | .ends _ => none

/-- Each instruction that a level executes, with its position and its length, is as `Q` says; and
there is one wherever the level comes to. -/
def Executes (nested : Nat → Decoder → Outcome) (p : Nat) (d : Decoder)
    (Q : Instruction → Nat → Nat → Prop) : Prop :=
  ∀ k q e, walk data setup nested k p d = some (q, e) →
    ∃ i n, Instruction.first? (data.drop q) = some (i, n) ∧ Q i q n

section Walk

variable {data setup} {nested : Nat → Decoder → Outcome} {p n : Nat} {d e : Decoder}
  {i : Instruction}

theorem walk_succ (hread : Instruction.first? (data.drop p) = some (i, n))
    (he : effect setup nested i d = .goesOn e) (k : Nat) :
    walk data setup nested (k + 1) p d = walk data setup nested k (p + n) e := by
  rw [walk, hread]
  dsimp only
  rw [he]

theorem walk_add (j k : Nat) (p : Nat) (d : Decoder) :
    walk data setup nested (j + k) p d =
      (walk data setup nested j p d).bind fun (q, e) => walk data setup nested k q e := by
  induction j generalizing p d with
  | zero => rw [Nat.zero_add]; rfl
  | succ j ih =>
    rw [Nat.succ_add, walk, walk]
    split
    · rfl
    · split
      · exact ih _ _
      · rfl

/-- A level that is over stays over. -/
theorem walk_eq_none_of_le {j k : Nat} (h : walk data setup nested j p d = none) (hle : j ≤ k) :
    walk data setup nested k p d = none := by
  obtain ⟨m, rfl⟩ := Nat.exists_eq_add_of_le hle
  rw [walk_add, h]
  rfl

/-- A level does not go back. -/
theorem le_of_walk {k q : Nat} (h : walk data setup nested k p d = some (q, e)) : p ≤ q := by
  induction k generalizing p d with
  | zero =>
    obtain ⟨rfl, rfl⟩ := Prod.mk.inj (Option.some.inj h)
    exact Nat.le_refl p
  | succ k ih =>
    rw [walk] at h
    split at h
    · cases h
    · split at h
      · exact Nat.le_trans (Nat.le_add_right _ _) (ih h)
      · cases h

/-- A level that has come somewhere goes on from there. -/
theorem decode_of_walk {k q : Nat} (h : walk data setup nested k p d = some (q, e)) :
    decode data setup nested p d = decode data setup nested q e := by
  induction k generalizing p d with
  | zero =>
    obtain ⟨rfl, rfl⟩ := Prod.mk.inj (Option.some.inj h)
    rfl
  | succ k ih =>
    rw [walk] at h
    split at h
    · cases h
    · next hread =>
      split at h
      · next he =>
        rw [decode_of_some hread, he]
        exact ih h
      · cases h

variable {Q : Instruction → Nat → Nat → Prop}

theorem Executes.head (h : Executes data setup nested p d Q) :
    ∃ i n, Instruction.first? (data.drop p) = some (i, n) ∧ Q i p n :=
  h 0 p d rfl

theorem Executes.of_walk (h : Executes data setup nested p d Q) {k q : Nat}
    (hw : walk data setup nested k p d = some (q, e)) : Executes data setup nested q e Q := by
  intro j r c hj
  refine h (k + j) r c ?_
  rw [walk_add, hw]
  exact hj

theorem Executes.tail (h : Executes data setup nested p d Q)
    (hread : Instruction.first? (data.drop p) = some (i, n))
    (he : effect setup nested i d = .goesOn e) : Executes data setup nested (p + n) e Q :=
  h.of_walk (walk_succ hread he 0)

/-- What a level executes can be looked over, as it comes to an end. -/
theorem Executes.of_check [∀ i q n, Decidable (Q i q n)] {m : Nat}
    (hend : (walk data setup nested m p d).isNone)
    (h : ∀ k < m, (walk data setup nested k p d).all fun (q, _) =>
      (Instruction.first? (data.drop q)).any fun (i, n) => Q i q n) :
    Executes data setup nested p d Q := by
  intro k q e hw
  have hk : k < m := by
    refine Nat.lt_of_not_le fun hle => ?_
    rw [walk_eq_none_of_le (Option.isNone_iff_eq_none.1 hend) hle] at hw
    cases hw
  have hq := h k hk
  rw [hw] at hq
  simp only [Option.all_some] at hq
  cases hread : Instruction.first? (data.drop q) with
  | none => rw [hread] at hq; cases hq
  | some x =>
    rw [hread, Option.any_some] at hq
    exact ⟨x.1, x.2, rfl, of_decide_eq_true hq⟩

end Walk

/-! ## Whole charstrings -/

/-- The report on a charstring at an offset that ends so. -/
def report (settings : Settings) (takes : Capabilities) (offset : Nat) : Outcome → Report
  | .ok _ d => ⟨d.history.toList.flatMap (Event.deliver settings takes), .ok (d.glyph settings)⟩
  | .error error d =>
    ⟨d.history.toList.flatMap (Event.deliver settings takes) ++ [.failed offset error],
      .error error⟩

theorem report_answer {settings : Settings} {takes : Capabilities} {offset : Nat} (o : Outcome) :
    (report settings takes offset o).answer = match o with
      | .ok _ d => (d.elements.flatMap (Element.deliver settings takes), .ok (d.glyph settings))
      | .error error d => (d.elements.flatMap (Element.deliver settings takes), .error error) := by
  cases o with
  | ok flow d =>
    simp only [report, Report.answer, Report.elements, filterMap_element?_deliver]
    rfl
  | error error d =>
    simp only [report, Report.answer, Report.elements, List.filterMap_append,
      filterMap_element?_deliver]
    exact Prod.ext (List.append_nil _) rfl

/-- Outcomes that agree give a receiver the same, with the same result. -/
theorem report_answer_of_agree {settings : Settings} {takes : Capabilities} (offset offset' : Nat)
    {o o' : Outcome} (h : Decode.AgreeTo Event.isElement o o') :
    (report settings takes offset o).answer = (report settings takes offset' o').answer := by
  rw [report_answer, report_answer]
  cases h with
  | ok h => simp only [h.elements, h.glyph]
  | error h => simp only [h.elements]

/-- Decodes the charstring at an offset. -/
def parse (data : List UInt8) (font : Font) (settings : Settings) (takes : Capabilities)
    (offset : Nat) : Report :=
  let setup := Setup.of font settings takes
  report settings takes offset
    (decodeAt data setup (nested data setup maxDepth) offset (.start font))

end Direct

end Type1
