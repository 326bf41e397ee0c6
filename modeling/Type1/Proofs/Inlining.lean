import Type1.Proofs.Chunking
import Type1.Proofs.Lockstep

/-!
# A call stands for the body of its subroutine

A charstring that calls a subroutine by a literal number decodes like the one in which the
subroutine's instructions stand in place of the call, up to but excluding its `return`
(`answer_inline`).

* **Where the bytes stand** makes no difference to a level that stays within them
  (`decode_of_text`).
* **Levels left**: a level that has more of them left does the same, unless it would have run out of
  them (`Below`).
* **The body**: executed one level further down, it does the same up to its end, where the level
  goes on instead of returning (`decode_body`).
-/

namespace Type1

/-! ## Instructions that return -/

/-- Whether the instruction ends a subroutine. -/
def Instruction.isReturn : Instruction → Bool
  | .operator .returnToCaller => true
  | _ => false

/-- The state in which a subroutine begins that was called by its number. -/
def Decoder.entering (v : Number) (d : Decoder) : Decoder :=
  d.record (.began .callsubr (d.operands.toList ++ [v]))

/-! ## The same bytes elsewhere -/

/-- The bytes of an instruction that lies within a text are the same wherever the text stands. -/
theorem Instruction.first?_of_text {text data : List UInt8} {p a n : Nat} {i : Instruction}
    (ht : text <+: data.drop p) (h : a + n ≤ text.length) :
    first? (data.drop (p + a)) = some (i, n) ↔ first? (text.drop a) = some (i, n) := by
  obtain ⟨rest, hrest⟩ := ht
  rw [← List.drop_drop, ← hrest, List.drop_append_of_le_length (by omega)]
  have hn : n ≤ (text.drop a).length := by rw [List.length_drop]; omega
  revert hn
  generalize text.drop a = l
  intro hn
  cases l with
  | nil =>
    obtain rfl : n = 0 := Nat.le_zero.1 hn
    constructor <;> intro h
    · exact absurd (first?_length h).1 (Nat.lt_irrefl 0)
    · cases h
  | cons first bytes =>
    simp only [List.length_cons] at hn
    simp only [List.cons_append, first?, front?, List.length_append]
    by_cases hf : following first ≤ bytes.length
    · rw [if_pos hf, if_pos (by omega), List.take_append_of_le_length hf]
    · rw [if_neg hf]
      split
      · simp only [Option.map_some, Option.some.injEq, Prod.mk.injEq]
        constructor
        · rintro ⟨-, rfl⟩
          omega
        · intro h
          cases h
      · rfl

namespace Direct

variable {data : List UInt8} {setup : Setup} {nested nested' : Nat → Decoder → Outcome}

/-- The instruction at the position `a` of a text is the same at both places of the text. -/
theorem first?_text_text {text : List UInt8} {p p' a n : Nat} {i : Instruction}
    (ht : text <+: data.drop p) (ht' : text <+: data.drop p')
    (h : Instruction.first? (data.drop (p + a)) = some (i, n)) (hle : a + n ≤ text.length) :
    Instruction.first? (data.drop (p' + a)) = some (i, n) := by
  rw [Instruction.first?_of_text ht' hle]
  rwa [Instruction.first?_of_text ht hle] at h

/-- A level comes to the same state in a text that stands elsewhere. -/
theorem walk_of_text {text : List UInt8} {p p' : Nat} (ht : text <+: data.drop p)
    (ht' : text <+: data.drop p') {k a b : Nat} {d e : Decoder}
    (h : walk data setup nested k (p + a) d = some (p + b, e)) (hle : b ≤ text.length) :
    walk data setup nested k (p' + a) d = some (p' + b, e) := by
  induction k generalizing a d with
  | zero =>
    obtain ⟨hp, rfl⟩ := Prod.mk.inj (Option.some.inj h)
    obtain rfl : a = b := Nat.add_left_cancel hp
    rfl
  | succ k ih =>
    rw [walk] at h
    split at h
    · cases h
    · next i n hread =>
      split at h
      · next d he =>
        rw [Nat.add_assoc] at h
        have hb := le_of_walk h
        rw [walk_succ (first?_text_text ht ht' hread (by omega)) he, Nat.add_assoc]
        exact ih h
      · cases h

/-- A level that stays within a text ends in the same way where the text stands elsewhere. -/
theorem decode_of_text {text : List UInt8} {p p' : Nat} (ht : text <+: data.drop p)
    (ht' : text <+: data.drop p') {a : Nat} {d : Decoder}
    (h : Executes data setup nested (p + a) d fun _ q n => q + n ≤ p + text.length) :
    decode data setup nested (p' + a) d = decode data setup nested (p + a) d := by
  induction hr : text.length - a using Nat.strongRecOn generalizing a d with
  | ind r ih =>
    obtain ⟨i, n, hread, hle⟩ := h.head
    have hn := (Instruction.first?_drop hread).1
    rw [decode_of_some hread, decode_of_some (first?_text_text ht ht' hread (by omega))]
    split
    · next e he =>
      rw [Nat.add_assoc, Nat.add_assoc]
      exact ih _ (by omega) (Nat.add_assoc p a n ▸ h.tail hread he) rfl
    · rfl

/-! ## More levels left -/

/-- The outcome is that the levels have run out. -/
def Outcome.NoLevels (o : Outcome) : Prop := ∃ d, o = .error .subrDepth d

/-- The levels of `nested'` do what those of `nested` do, unless these run out. -/
def Below (nested nested' : Nat → Decoder → Outcome) : Prop :=
  ∀ offset d, (nested offset d).NoLevels ∨ nested' offset d = nested offset d

theorem compose_below (hb : Below nested nested') (base accent : Nat) (shift : Point)
    (d : Decoder) :
    (compose nested base accent shift d).NoLevels ∨
      compose nested' base accent shift d = compose nested base accent shift d := by
  unfold compose
  rcases hb base d.beginBase with ⟨e, h⟩ | h
  · rw [h]
    exact .inl ⟨e, rfl⟩
  rw [h]
  cases nested base d.beginBase with
  | error x e => exact .inr rfl
  | ok flow e =>
    dsimp only
    rcases hb accent (e.beginAccent shift) with ⟨c, h⟩ | h
    · rw [h]
      exact .inl ⟨c, rfl⟩
    · rw [h]
      exact .inr rfl

theorem effect_below (setup : Setup) (hb : Below nested nested') (i : Instruction) (d : Decoder) :
    (∃ o, effect setup nested i d = .ends o ∧ o.NoLevels) ∨
      effect setup nested' i d = effect setup nested i d := by
  unfold effect
  cases Decode.execute setup i d with
  | error x e => exact .inr rfl
  | ok control e =>
    cases control with
    | next | leave flow => exact .inr rfl
    | call offset =>
      dsimp only
      rcases hb offset e with ⟨c, h⟩ | h
      · rw [h]
        exact .inl ⟨_, rfl, c, rfl⟩
      · rw [h]
        exact .inr rfl
    | compose base accent shift =>
      dsimp only
      rcases compose_below hb base accent shift e with h | h
      · exact .inl ⟨_, rfl, h⟩
      · rw [h]
        exact .inr rfl

theorem decode_below (hb : Below nested nested') (p : Nat) (d : Decoder) :
    (decode data setup nested p d).NoLevels ∨
      decode data setup nested' p d = decode data setup nested p d := by
  induction hr : data.length - p using Nat.strongRecOn generalizing p d with
  | ind r ih =>
    cases hread : Instruction.first? (data.drop p) with
    | none =>
      rw [decode_of_none hread, decode_of_none hread]
      exact .inr rfl
    | some x =>
      have hlt := Instruction.first?_drop hread
      rw [decode_of_some hread, decode_of_some hread]
      rcases effect_below setup hb x.1 d with ⟨o, he, ho⟩ | he
      · rw [he]
        exact .inl ho
      · rw [he]
        cases effect setup nested x.1 d with
        | goesOn e => exact ih _ (by omega) (p + x.2) e rfl
        | ends o => exact .inr rfl

/-- One more level makes no difference unless the levels run out. -/
theorem nested_below (levels : Nat) :
    Below (Direct.nested data setup levels) (Direct.nested data setup (levels + 1)) := by
  induction levels with
  | zero => exact fun _ d => .inl ⟨d, rfl⟩
  | succ levels ih =>
    intro offset d
    show (decodeAt _ _ _ _ _).NoLevels ∨ decodeAt _ _ _ _ _ = decodeAt _ _ _ _ _
    unfold decodeAt
    split
    · exact decode_below ih offset d
    · exact .inr rfl

/-! ## The body of a subroutine -/

/-- The instruction lies before `stop`, but one that returns stands there. -/
def EndsAt (stop : Nat) (i : Instruction) (q n : Nat) : Prop :=
  if i.isReturn then q = stop else q + n ≤ stop

/-- The instruction lies before `stop`. -/
def StaysBefore (stop : Nat) (_ : Instruction) (q n : Nat) : Prop := q + n ≤ stop

instance (stop : Nat) (i : Instruction) (q n : Nat) : Decidable (EndsAt stop i q n) :=
  inferInstanceAs (Decidable (if i.isReturn then q = stop else q + n ≤ stop))

instance (stop : Nat) (i : Instruction) (q n : Nat) : Decidable (StaysBefore stop i q n) :=
  inferInstanceAs (Decidable (q + n ≤ stop))

/-- What follows a subroutine that ends so, where `go` is how the caller goes on. -/
def Outcome.resume (go : Decoder → Outcome) : Outcome → Outcome
  | .ok .returned d => go d
  | o => o

theorem Effect.ofCall_resume (go : Decoder → Outcome) (o : Outcome) :
    (match Effect.ofCall o with
      | .goesOn d => go d
      | .ends o => o) = o.resume go := by
  cases o with
  | ok flow d => cases flow <;> rfl
  | error x d => rfl

/-- Only `return` makes a level return. -/
theorem effect_ends_resume {i : Instruction} (hi : i.isReturn = false) {d : Decoder} {o : Outcome}
    (h : effect setup nested i d = .ends o) (go : Decoder → Outcome) : o.resume go = o := by
  unfold effect at h
  split at h
  · cases h
    rfl
  · cases h
  · next flow e he =>
    cases h
    -- A glyph that is finished stays so: of the instructions, none but `return` goes back.
    cases flow with
    | finished => rfl
    | returned =>
      rw [Instruction.eq_return (Decode.yields_execute setup i _ _ _ he)] at hi
      cases hi
  · -- The level that a call begins returns, and then this one goes on, or it ends this one as well.
    next offset e he =>
    revert h
    cases nested offset e with
    | error x c =>
      intro h
      cases h
      rfl
    | ok flow c =>
      cases flow with
      | finished =>
        intro h
        cases h
        rfl
      | returned =>
        intro h
        cases h
  · next base accent shift e he =>
    cases h
    unfold compose
    split
    · rfl
    · split <;> rfl

variable {keep : Event → Bool}

/-- A body that is executed in the place of its call goes on where the subroutine returns, and
otherwise ends like it. -/
theorem decode_body {body : List UInt8} {subr p : Nat} (ht : body <+: data.drop subr)
    (ht' : body <+: data.drop p) (hb : Below nested nested') (hg : Grows nested')
    (hn : Keeps (fun _ => True) (Decoder.Agree keep) (Decoder.Agree keep) nested' nested')
    (hk : ∀ operands, keep (.began .returnToCaller operands) = false) {a : Nat} {d e : Decoder}
    (hde : d.Agree keep e)
    (h : Executes data setup nested (subr + a) d (EndsAt (subr + body.length))) :
    (decode data setup nested (subr + a) d).NoLevels ∨
      Decode.AgreeTo keep
        ((decode data setup nested (subr + a) d).resume
          (decode data setup nested' (p + body.length)))
        (decode data setup nested' (p + a) e) := by
  -- By induction on what is left of the body. By `EndsAt` the level returns right after it, and
  -- there the one with the body goes on with what comes next.
  induction hr : body.length - a using Nat.strongRecOn generalizing a d e with
  | ind r ih =>
    obtain ⟨i, n, hread, hq⟩ := h.head
    have hlt := (Instruction.first?_drop hread).1
    unfold EndsAt at hq
    split at hq
    · next hi =>
      obtain rfl : i = .operator .returnToCaller := by
        unfold Instruction.isReturn at hi
        split at hi
        · rfl
        · cases hi
      obtain rfl : a = body.length := Nat.add_left_cancel hq
      rw [decode_of_some hread]
      exact .inr ((lockstep_agree keep setup).decode hg hn _ _ _ (hde.record (hk _)) trivial)
    · next hi =>
      have hread' := first?_text_text ht ht' hread (by omega)
      rw [decode_of_some hread, decode_of_some hread']
      -- The body stands one level lower than the call, which matters only if the levels run out.
      rcases effect_below setup hb i d with ⟨o, he, ho⟩ | he
      · rw [he]
        exact .inl ho
      · have hag := (lockstep_agree keep setup).effect hg hn i hde trivial
        rw [he] at hag
        revert hag
        cases hd : effect setup nested i d with
        | goesOn c =>
          generalize effect setup nested' i e = x
          rintro (hag | hag)
          have := ih _ (by omega) hag (Nat.add_assoc subr a n ▸ h.tail hread hd) rfl
          rwa [← Nat.add_assoc, ← Nat.add_assoc] at this
        | ends o =>
          generalize effect setup nested' i e = x
          rintro (hag | hag)
          dsimp only
          rw [effect_ends_resume (Bool.eq_false_iff.2 hi) hd]
          exact .inr hag

/-! ## A call by a literal number -/

/-- A literal number and a call leave the operands to the subroutine as they were before. -/
theorem effect_call {d : Decoder} {v : Number} {subr : Nat}
    (hroom : d.operands.size < Operands.capacity)
    (hsubr : v.toIndex?.bind (setup.font.subrs[·]?) = some subr)
    (nested : Nat → Decoder → Outcome) :
    ∃ e, effect setup nested (.number v) d = .goesOn e ∧
      effect setup nested (.operator .callsubr) e = .ofCall (nested subr (d.entering v)) := by
  obtain ⟨operands, hpush⟩ : ∃ operands, d.operands.append? [v] = some operands := by
    refine Option.ne_none_iff_exists'.1 fun h => ?_
    rw [Operands.append?_eq_none_iff, List.length_singleton] at h
    omega
  refine ⟨{ d with operands }, ?_, ?_⟩
  · have : Decode.execute setup (.number v) d = .ok .next { d with operands } := by
      rw [Decode.execute, Decode.push, Decode.bind_run (Decode.pushAll_run hpush)]
      rfl
    rw [effect, this]
  · have hlist : operands.toList = d.operands.toList ++ [v] := by
      unfold Operands.append? at hpush
      split at hpush
      · cases hpush
        rfl
      · cases hpush
    have : Decode.execute setup (.operator .callsubr) { d with operands } =
        .ok (.call subr) (d.entering v) := by
      have htake : Decode.take 1 ({ d with operands }.record (.began .callsubr operands.toList)) =
          .ok ⟨#[v], rfl⟩ (d.entering v) := by
        have hsplit : operands.split? 1 = some (d.operands, ⟨#[v], rfl⟩) :=
          Operands.split?_append? hpush
        refine (Decode.take_run hsplit).trans ?_
        rw [hlist]
        rfl
      -- The index is the number that was pushed, so the subroutine is the one that it names.
      have hoffset : Decode.orFail .invalidSubr (v.toIndex?.bind (setup.font.subrs[·]?)) =
          pure subr := by
        rw [hsubr]
        rfl
      rw [Decode.execute, Decode.modify_bind_run, Decode.perform, Decode.bind_run htake]
      exact Decode.bind_run (congrFun hoffset _)
    rw [effect, this]

/-- A literal number and a call are followed by the subroutine, and by what comes after it. -/
theorem decode_call {d : Decoder} {v : Number} {subr q n m : Nat}
    (hroom : d.operands.size < Operands.capacity)
    (hsubr : v.toIndex?.bind (setup.font.subrs[·]?) = some subr)
    (hv : Instruction.first? (data.drop q) = some (.number v, n))
    (hcall : Instruction.first? (data.drop (q + n)) = some (.operator .callsubr, m)) :
    decode data setup nested q d =
      (nested subr (d.entering v)).resume (decode data setup nested (q + n + m)) := by
  obtain ⟨e, hpush, hc⟩ := effect_call hroom hsubr nested
  rw [decode_of_some hv, hpush]
  dsimp only
  rw [decode_of_some hcall, hc]
  exact Effect.ofCall_resume _ _

/-- A subroutine that returns brings its caller behind the call. -/
theorem walk_call {d e : Decoder} {v : Number} {subr q n m : Nat}
    (hroom : d.operands.size < Operands.capacity)
    (hsubr : v.toIndex?.bind (setup.font.subrs[·]?) = some subr)
    (hv : Instruction.first? (data.drop q) = some (.number v, n))
    (hcall : Instruction.first? (data.drop (q + n)) = some (.operator .callsubr, m))
    (he : nested subr (d.entering v) = .ok .returned e) :
    walk data setup nested 2 q d = some (q + n + m, e) := by
  obtain ⟨c, hpush, hc⟩ := effect_call hroom hsubr nested
  rw [he] at hc
  rw [walk_succ hv hpush, walk_succ hcall hc]
  rfl

end Direct

/-! ## Texts -/

/-- The bytes stand at an offset of the data. -/
def LaidOut (text data : List UInt8) (offset : Nat) : Prop :=
  offset ≤ data.length ∧ text <+: data.drop offset

instance (text data : List UInt8) (offset : Nat) : Decidable (LaidOut text data offset) :=
  inferInstanceAs (Decidable (_ ∧ _))

theorem LaidOut.left {a b data : List UInt8} {p : Nat} (h : LaidOut (a ++ b) data p) :
    LaidOut a data p :=
  ⟨h.1, (List.prefix_append a b).trans h.2⟩

theorem LaidOut.right {a b data : List UInt8} {p : Nat} (h : LaidOut (a ++ b) data p) :
    LaidOut b data (p + a.length) := by
  obtain ⟨hle, rest, hrest⟩ := h
  have hlen := congrArg List.length hrest
  simp only [List.length_append, List.length_drop] at hlen
  refine ⟨by omega, rest, ?_⟩
  rw [← List.drop_drop, ← hrest, List.append_assoc, List.drop_left]

/-- The instruction at the front of a text is at the front of the data where the text stands. -/
theorem LaidOut.first? {text data : List UInt8} {p n : Nat} {i : Instruction}
    (h : LaidOut text data p) (ht : Instruction.first? text = some (i, n)) :
    Instruction.first? (data.drop p) = some (i, n) :=
  (Instruction.first?_of_text (a := 0) h.2 (by have := Instruction.first?_length ht; omega)).2 ht

/-- A charstring with a call by a literal number, and the subroutine that is called. -/
structure CallSite where
  /-- The bytes before the number. -/
  before : List UInt8
  /-- The bytes of the number. -/
  literal : List UInt8
  /-- The number. -/
  number : Number
  /-- The bytes behind the call. -/
  after : List UInt8
  /-- The offset of the subroutine. -/
  subr : Nat
  /-- The bytes of the subroutine, without the `return` that ends it. -/
  body : List UInt8

namespace CallSite

/-- The charstring with the call. -/
def text (c : CallSite) : List UInt8 := c.before ++ (c.literal ++ (10 :: c.after))

/-- The charstring with the body in place of the call. -/
def inlined (c : CallSite) : List UInt8 := c.before ++ (c.body ++ c.after)

/-- The charstring at an offset comes to its call in the state `d`, with room for the number on the
stack, and stays within its text; the subroutine ends in its body or with a `return` right behind
it. -/
structure Runs (c : CallSite) (data : List UInt8) (setup : Setup) (glyph : Nat) (d : Decoder) :
    Prop where
  /-- The literal is the number. -/
  literal : Instruction.first? c.literal = some (.number c.number, c.literal.length)
  /-- The number is that of the subroutine. -/
  subr : c.number.toIndex?.bind (setup.font.subrs[·]?) = some c.subr
  /-- The text stands at the offset. -/
  text : LaidOut c.text data glyph
  /-- The body stands at the offset of the subroutine. -/
  body : LaidOut c.body data c.subr
  /-- The call is reached. -/
  reached : ∃ k, Direct.walk data setup (Direct.nested data setup maxDepth) k glyph
    (.start setup.font) = some (glyph + c.before.length, d)
  /-- There is room for the number. -/
  room : d.operands.size ≤ 47
  /-- The charstring stays within its text. -/
  stays : Direct.Executes data setup (Direct.nested data setup maxDepth) glyph (.start setup.font)
    (Direct.StaysBefore (glyph + c.text.length))
  /-- The subroutine ends where its body does. -/
  ends : Direct.Executes data setup (Direct.nested data setup (maxDepth - 1)) c.subr
    (d.entering c.number) (Direct.EndsAt (c.subr + c.body.length))

variable {c : CallSite} {data : List UInt8} {setup : Setup} {glyph : Nat} {d : Decoder}

theorem Runs.first?_number (h : c.Runs data setup glyph d) :
    Instruction.first? (data.drop (glyph + c.before.length)) =
      some (.number c.number, c.literal.length) :=
  h.text.right.left.first? h.literal

theorem Runs.first?_call (h : c.Runs data setup glyph d) :
    Instruction.first? (data.drop (glyph + c.before.length + c.literal.length)) =
      some (.operator .callsubr, 1) :=
  (LaidOut.left (a := [10]) h.text.right.right).first? rfl

theorem Runs.nested_subr (h : c.Runs data setup glyph d) (e : Decoder) :
    Direct.nested data setup maxDepth c.subr e =
      Direct.decode data setup (Direct.nested data setup (maxDepth - 1)) c.subr e :=
  if_pos h.body.1

/-- The level with the call: the subroutine, and then what stands behind the call. -/
theorem Runs.decodeAt_text (h : c.Runs data setup glyph d) :
    Direct.decodeAt data setup (Direct.nested data setup maxDepth) glyph (.start setup.font) =
      (Direct.decode data setup (Direct.nested data setup (maxDepth - 1)) c.subr
          (d.entering c.number)).resume
        (Direct.decode data setup (Direct.nested data setup maxDepth)
          (glyph + c.before.length + c.literal.length + 1)) := by
  obtain ⟨k, hk⟩ := h.reached
  rw [Direct.decodeAt, if_pos h.text.1, Direct.decode_of_walk hk,
    Direct.decode_call (Nat.lt_succ_of_le h.room) h.subr h.first?_number h.first?_call,
    h.nested_subr]

/-- What stands behind the call is executed as behind the body. -/
theorem Runs.decode_after (h : c.Runs data setup glyph d) {inlined : Nat}
    (hi : LaidOut c.inlined data inlined) {e : Decoder}
    (he : Direct.decode data setup (Direct.nested data setup (maxDepth - 1)) c.subr
      (d.entering c.number) = .ok .returned e) :
    Direct.decode data setup (Direct.nested data setup maxDepth)
        (inlined + c.before.length + c.body.length) e =
      Direct.decode data setup (Direct.nested data setup maxDepth)
        (glyph + c.before.length + c.literal.length + 1) e := by
  obtain ⟨k, hk⟩ := h.reached
  have hcall := Direct.walk_call (Nat.lt_succ_of_le h.room) h.subr h.first?_number h.first?_call
    ((h.nested_subr _).trans he)
  have hstays := (h.stays.of_walk hk).of_walk hcall
  have hlen : glyph + c.text.length =
      glyph + c.before.length + c.literal.length + 1 + c.after.length := by
    simp only [CallSite.text, List.length_append, List.length_cons]
    omega
  rw [hlen] at hstays
  exact Direct.decode_of_text (a := 0) (LaidOut.right (a := [10]) h.text.right.right).2
    hi.right.right.2 hstays

/-- The level with the body in place of the call ends like that with the call, unless the levels
run out there. -/
theorem Runs.decodeAt_inlined (h : c.Runs data setup glyph d) {inlined : Nat}
    (hi : LaidOut c.inlined data inlined) {keep : Event → Bool}
    (hk : ∀ op operands, keep (.began op operands) = false) :
    (Direct.decodeAt data setup (Direct.nested data setup maxDepth) glyph
        (.start setup.font)).NoLevels ∨
      Decode.AgreeTo keep
        (Direct.decodeAt data setup (Direct.nested data setup maxDepth) glyph (.start setup.font))
        (Direct.decodeAt data setup (Direct.nested data setup maxDepth) inlined
          (.start setup.font)) := by
  obtain ⟨k, hwalk⟩ := h.reached
  have hpre : Direct.walk data setup (Direct.nested data setup maxDepth) k inlined
      (.start setup.font) = some (inlined + c.before.length, d) :=
    Direct.walk_of_text (a := 0) h.text.left.2 hi.left.2 hwalk (Nat.le_refl _)
  have hinlined : Direct.decodeAt data setup (Direct.nested data setup maxDepth) inlined
      (.start setup.font) = Direct.decode data setup (Direct.nested data setup maxDepth)
        (inlined + c.before.length) d := by
    rw [Direct.decodeAt, if_pos hi.1, Direct.decode_of_walk hpre]
  have hbelow : Direct.Below (Direct.nested data setup (maxDepth - 1))
      (Direct.nested data setup maxDepth) := Direct.nested_below (maxDepth - 1)
  have hentering : (d.entering c.number).Agree keep d := (Decoder.Agree.refl d).record (hk _ _)
  -- Both have come to the same state before the call; the body agrees as far as it goes, and what
  -- follows it is the same text.
  have hbody := Direct.decode_body (a := 0) h.body.2 hi.right.left.2 hbelow
    (Direct.nested_grows maxDepth) ((Direct.lockstep_agree keep setup).nested data maxDepth) (hk _)
    hentering h.ends
  have hafter := fun e => h.decode_after hi (e := e)
  rw [h.decodeAt_text, hinlined]
  simp only [Nat.add_zero] at hbody
  revert hafter hbody
  generalize Direct.decode data setup (Direct.nested data setup (maxDepth - 1)) c.subr _ = o
  intro hbody hafter
  rcases hbody with ⟨e, rfl⟩ | hag
  · exact .inl ⟨e, rfl⟩
  · refine .inr ?_
    cases o with
    | error x e => exact hag
    | ok flow e =>
      cases flow with
      | finished => exact hag
      | returned =>
        rw [Direct.Outcome.resume] at hag ⊢
        rwa [hafter e rfl] at hag

end CallSite

/-- A charstring that calls a subroutine by a literal number is answered like the one with the
subroutine's instructions in place of the call, unless the levels run out. -/
theorem answer_inline {data : List UInt8} {font : Font} {settings : Settings}
    {takes : Capabilities} {glyph inlined : Nat} {c : CallSite} {d : Decoder}
    (h : c.Runs data (.of font settings takes) glyph d) (hi : LaidOut c.inlined data inlined)
    (chunk : Option Nat) (st st' : Source.State)
    (hlevels : (parse (.memory data chunk) font settings takes glyph st).1.result ≠
      .error .subrDepth) :
    (parse (.memory data chunk) font settings takes inlined st').1.answer =
      (parse (.memory data chunk) font settings takes glyph st).1.answer := by
  have hs : (Source.memory data chunk).Reliable := Source.reliable_memory
  have hglyph := answer_parse hs font settings takes glyph st
  rw [answer_parse hs, hglyph, Source.memory_data]
  rw [Source.memory_data] at hglyph
  have hresult := congrArg Prod.snd hglyph
  have hkeep : ∀ op operands, Event.isElement (.began op operands) = false := fun _ _ => rfl
  rcases h.decodeAt_inlined hi hkeep with ⟨e, he⟩ | hag
  · refine absurd (hresult.trans ?_) hlevels
    have hparse : Direct.parse data font settings takes glyph =
        Direct.report settings takes glyph (.error .subrDepth e) :=
      congrArg (Direct.report settings takes glyph) he
    rw [hparse]
    rfl
  · exact (Direct.report_answer_of_agree glyph inlined hag).symm

/-- A subroutine that draws a line to a length on the stack, and leaves the length of the next. -/
def CallSite.line : CallSite where
  before := [139, 239, 13, 149]
  literal := [139]
  number := 0
  after := [7, 14]
  subr := 8
  body := [6, 159]

/-- The charstring, the subroutine, and the charstring with the body in it. -/
def CallSite.lineData : List UInt8 := line.text ++ line.body ++ [11] ++ line.inlined

/-- The state at the call. -/
def CallSite.lineState : Decoder :=
  let setup : Setup := .of { subrs := [8] } {} {}
  let state := Direct.walk lineData setup (Direct.nested lineData setup maxDepth) 4 0
    (.start setup.font)
  (state.map Prod.snd).getD (.start setup.font)

theorem CallSite.runs_line : line.Runs lineData (.of { subrs := [8] } {} {}) 0 lineState where
  literal := by rfl
  subr := by decide +kernel
  text := by decide
  body := by decide
  reached := ⟨4, by decide +kernel⟩
  room := by decide +kernel
  stays := Direct.Executes.of_check (m := 8) (by decide +kernel) (by decide +kernel)
  ends := Direct.Executes.of_check (m := 3) (by decide +kernel) (by decide +kernel)

theorem answer_inline_line :
    (parse (.memory CallSite.lineData (some 2)) { subrs := [8] } {} {} 11 {}).1.answer =
      (parse (.memory CallSite.lineData (some 2)) { subrs := [8] } {} {} 0 {}).1.answer :=
  answer_inline CallSite.runs_line (by decide) (some 2) {} {} fun h =>
    absurd (congrArg Except.isOk h) (by decide +kernel)

end Type1
