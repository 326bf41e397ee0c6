import Type1.Proofs.Congruence
import Type1.Proofs.Direct

/-!
# Two decodings in lockstep

If every instruction takes related states to related outcomes, so does a whole level, with all the
levels above it (`Lockstep.nested`).

The instructions need to do so only as long as the history of the first decoding is as a predicate
`Q` says. As a history only grows (`nested_grows`), it is enough that `Q` holds of the history at
the end.

So it is with states that differ in their histories alone (`lockstep_agree`).
-/

namespace Type1

/-! ## Histories grow -/

/-- The state that an outcome leaves. -/
def Decode.final {α : Type} : EStateM.Result Error Decoder α → Decoder
  | .ok _ d => d
  | .error _ d => d

theorem Decode.Related.final {α : Type} {R : Decoder → Decoder → Prop}
    {o o' : EStateM.Result Error Decoder α} (h : Related R R o o') :
    R (Decode.final o) (Decode.final o') := by
  cases h with
  | ok h => exact h
  | error h => exact h

/-- The events so far. -/
def Decoder.events (d : Decoder) : List Event := d.history.toList

/-- An event comes after those before. -/
theorem Decoder.events_record (event : Event) (d : Decoder) :
    (d.record event).events = d.events ++ [event] :=
  Array.toList_push

/-- A computation that does not look at the history can only add to it. -/
theorem Decode.Blind.grows {α : Type} {x : Decode α} (hx : x.Blind) (d : Decoder) :
    d.events <+: (final (x d)).events := by
  have hd := hx d.history { d with history := #[] }
  rw [← d.eq_prepend] at hd
  rw [hd]
  cases x { d with history := #[] } with
  | ok a e => exact ⟨e.events, Array.toList_append.symm⟩
  | error y e => exact ⟨e.events, Array.toList_append.symm⟩

/-- Whatever comes of an operator, it has begun. -/
theorem Decode.began_grows (setup : Setup) (op : Operator) (d : Decoder) :
    d.events ++ [.began op d.operands.toList] <+:
      (final (execute setup (.operator op) d)).events := by
  have h := (blind_perform setup op).grows (d.record (.began op d.operands.toList))
  rwa [Decoder.events_record] at h

/-- States of which nothing is known. -/
def Unrelated (_ _ : Decoder) : Prop := True

namespace Direct

/-- The state that comes of an instruction. -/
def Effect.final : Effect → Decoder
  | .goesOn d => d
  | .ends o => Decode.final o

/-- Levels that only add to the history. -/
def Grows (nested : Nat → Decoder → Outcome) : Prop :=
  ∀ offset d, d.events <+: (Decode.final (nested offset d)).events

section Grows

variable {data : List UInt8} {setup : Setup} {nested : Nat → Decoder → Outcome}

theorem Effect.final_ofCall (o : Outcome) : (Effect.ofCall o).final = Decode.final o := by
  cases o with
  | ok flow d => cases flow <;> rfl
  | error x d => rfl

theorem compose_grows (hn : Grows nested) (base accent : Nat) (shift : Point) (d : Decoder) :
    d.events <+: (Decode.final (compose nested base accent shift d)).events := by
  have hb := hn base d.beginBase
  unfold compose
  cases hbase : nested base d.beginBase with
  | error x e =>
    rw [hbase] at hb
    exact hb
  | ok flow e =>
    rw [hbase] at hb
    have ha := hn accent (e.beginAccent shift)
    dsimp only
    cases haccent : nested accent (e.beginAccent shift) with
    | error x c =>
      rw [haccent] at ha
      exact hb.trans ha
    | ok flow c =>
      rw [haccent] at ha
      exact hb.trans ha

theorem effect_grows (setup : Setup) (hn : Grows nested) (i : Instruction) (d : Decoder) :
    d.events <+: (Decode.final (Decode.execute setup i d)).events ∧
      (Decode.final (Decode.execute setup i d)).events <+:
        (effect setup nested i d).final.events := by
  refine ⟨(Decode.blind_execute setup i).grows d, ?_⟩
  unfold effect
  cases Decode.execute setup i d with
  | error x e => exact List.prefix_rfl
  | ok control e =>
    cases control with
    | next => exact List.prefix_rfl
    | leave flow => exact List.prefix_rfl
    | call offset =>
      dsimp only
      rw [Effect.final_ofCall]
      exact hn offset e
    | compose base accent shift => exact compose_grows hn base accent shift e

theorem decode_grows (hn : Grows nested) : Grows (decode data setup nested) := by
  intro p d
  induction hp : data.length - p using Nat.strongRecOn generalizing p d with
  | ind r ih =>
    cases hread : Instruction.first? (data.drop p) with
    | none =>
      rw [decode_of_none hread]
      exact List.prefix_rfl
    | some x =>
      have hlt := Instruction.first?_drop hread
      have he := effect_grows setup hn x.1 d
      rw [decode_of_some hread]
      cases hx : effect setup nested x.1 d with
      | goesOn e =>
        rw [hx] at he
        exact (he.1.trans he.2).trans (ih _ (by omega) (p + x.2) e rfl)
      | ends o =>
        rw [hx] at he
        exact he.1.trans he.2

theorem nested_grows (levels : Nat) : Grows (Direct.nested data setup levels) := by
  induction levels with
  | zero => exact fun _ _ => List.prefix_rfl
  | succ levels ih =>
    intro offset d
    unfold Direct.nested decodeAt
    split
    · exact decode_grows ih offset d
    · exact List.prefix_rfl

end Grows

/-! ## Related levels -/

/-- The beginning and the end of the parts of an accented character keep the relation. -/
structure Parts (R : Decoder → Decoder → Prop) : Prop where
  base {d e : Decoder} : R d e → R d.beginBase e.beginBase
  accent {d e : Decoder} : R d e → ∀ shift, R (d.beginAccent shift) (e.beginAccent shift)
  done {d e : Decoder} : R d e → R d.endParts e.endParts

/-- Instructions take states that `R` relates to such states, or fail in states that `E` relates,
if the history of the first one is as `Q` says. -/
structure Lockstep (Q : List Event → Prop) (R E : Decoder → Decoder → Prop)
    (setup setup' : Setup) : Prop where
  /-- What holds of a history holds of it at any time before. -/
  before {h h' : List Event} : h <+: h' → Q h' → Q h
  /-- A level can fail in related states. -/
  fails {d e : Decoder} : R d e → E d e
  /-- An instruction keeps the relation. -/
  step {i : Instruction} {d e : Decoder} : R d e →
    Q (Decode.final (Decode.execute setup i d)).events →
    Decode.Related R E (Decode.execute setup i d) (Decode.execute setup' i e)
  /-- If there are accented characters, their parts keep the relation. -/
  parts {i : Instruction} {d e c : Decoder} {base accent : Nat} {shift : Point} : R d e →
    Q c.events → Decode.execute setup i d = .ok (.compose base accent shift) c → Parts R

/-- Levels that take related states to related outcomes. -/
def Keeps (Q : List Event → Prop) (R E : Decoder → Decoder → Prop)
    (nested nested' : Nat → Decoder → Outcome) : Prop :=
  ∀ offset d e, R d e → Q (Decode.final (nested offset d)).events →
    Decode.Related R E (nested offset d) (nested' offset e)

/-- The effects are of the same kind, and leave related states. -/
inductive Effect.Related (R E : Decoder → Decoder → Prop) : Effect → Effect → Prop where
  | goesOn {d e : Decoder} : R d e → Effect.Related R E (.goesOn d) (.goesOn e)
  | ends {o o' : Outcome} : Decode.Related R E o o' → Effect.Related R E (.ends o) (.ends o')

theorem Effect.Related.ofCall {R E : Decoder → Decoder → Prop} {o o' : Outcome}
    (h : Decode.Related R E o o') :
    Effect.Related R E (.ofCall o) (.ofCall o') := by
  cases h with
  | @ok flow d e h =>
    cases flow with
    | returned => exact .goesOn h
    | finished => exact .ends (.ok h)
  | error h => exact .ends (.error h)

namespace Lockstep

variable {data : List UInt8} {setup setup' : Setup} {Q : List Event → Prop}
  {R E : Decoder → Decoder → Prop}

section Level

variable {nested nested' : Nat → Decoder → Outcome}

theorem compose (h : Lockstep Q R E setup setup') (hp : Parts R) (hg : Grows nested)
    (hn : Keeps Q R E nested nested') (base accent : Nat) (shift : Point) {d e : Decoder}
    (hde : R d e) (hq : Q (Decode.final (compose nested base accent shift d)).events) :
    Decode.Related R E (Direct.compose nested base accent shift d)
      (Direct.compose nested' base accent shift e) := by
  have hb := hn base _ _ (hp.base hde)
  unfold Direct.compose at hq ⊢
  revert hb hq
  cases nested base d.beginBase with
  | error x d =>
    generalize nested' base e.beginBase = r'
    intro hq hb
    cases hb hq with
    | error hde => exact .error hde
  | ok flow d =>
    generalize nested' base e.beginBase = r'
    dsimp only
    intro hq hb
    have hga := hg accent (d.beginAccent shift)
    -- What holds of the history at the end of the accent held at its beginning, as `Q` is never
    -- lost.
    have hmid : Q d.events := by
      refine h.before hga ?_
      revert hq
      cases nested accent (d.beginAccent shift) <;> exact id
    cases hb hmid with
    | @ok _ _ e hde =>
      have ha := hn accent _ _ (hp.accent hde shift)
      revert ha hq
      dsimp only
      cases nested accent (d.beginAccent shift) with
      | error x d =>
        generalize nested' accent (e.beginAccent shift) = r'
        intro hq ha
        cases ha hq with
        | error hde => exact .error hde
      | ok flow d =>
        generalize nested' accent (e.beginAccent shift) = r'
        intro hq ha
        cases ha hq with
        | ok hde => exact .ok (hp.done hde)

theorem effect (h : Lockstep Q R E setup setup') (hg : Grows nested)
    (hn : Keeps Q R E nested nested') (i : Instruction) {d e : Decoder} (hde : R d e)
    (hq : Q (effect setup nested i d).final.events) :
    Effect.Related R E (Direct.effect setup nested i d) (Direct.effect setup' nested' i e) := by
  have hstep := h.before (effect_grows setup hg i d).2 hq
  have hx := h.step hde hstep
  unfold Direct.effect at hq ⊢
  revert hx hstep hq
  cases hd : Decode.execute setup i d with
  | error x d =>
    generalize Decode.execute setup' i e = r'
    intro hq hstep hx
    cases hx with
    | error hde => exact .ends (.error hde)
  | ok control d =>
    generalize Decode.execute setup' i e = r'
    intro hq hstep hx
    cases hx with
    | @ok _ _ e hx =>
      cases control with
      | next => exact .goesOn hx
      | leave flow => exact .ends (.ok hx)
      | call offset =>
        dsimp only at hq ⊢
        rw [Effect.final_ofCall] at hq
        exact .ofCall (hn offset d e hx hq)
      | compose base accent shift =>
        exact .ends (h.compose (h.parts hde hstep hd) hg hn base accent shift hx hq)

theorem decode (h : Lockstep Q R E setup setup') (hg : Grows nested)
    (hn : Keeps Q R E nested nested') :
    Keeps Q R E (decode data setup nested) (Direct.decode data setup' nested') := by
  intro p d e hde hq
  -- By induction on what is left of the data: each instruction that goes on takes some of it.
  induction hp : data.length - p using Nat.strongRecOn generalizing p d e with
  | ind r ih =>
    cases hread : Instruction.first? (data.drop p) with
    | none =>
      rw [decode_of_none hread, decode_of_none hread]
      exact .error (h.fails hde)
    | some x =>
      have hlt := Instruction.first?_drop hread
      have hx := h.effect hg hn x.1 hde
      rw [decode_of_some hread] at hq ⊢
      rw [decode_of_some hread]
      revert hx hq
      cases Direct.effect setup nested x.1 d with
      | goesOn d =>
        generalize Direct.effect setup' nested' x.1 e = y
        intro hq hx
        cases hx (h.before (decode_grows hg (p + x.2) d) hq) with
        | goesOn hde => exact ih _ (by omega) (p + x.2) d _ hde hq rfl
      | ends o =>
        generalize Direct.effect setup' nested' x.1 e = y
        intro hq hx
        cases hx hq with
        | ends h => exact h

theorem decodeAt (h : Lockstep Q R E setup setup') (hg : Grows nested)
    (hn : Keeps Q R E nested nested') :
    Keeps Q R E (decodeAt data setup nested) (Direct.decodeAt data setup' nested') := by
  intro offset d e hde hq
  unfold Direct.decodeAt at hq ⊢
  split
  · next hle =>
    rw [if_pos hle] at hq
    exact h.decode hg hn offset d e hde hq
  · exact .error (h.fails hde)

end Level

/-- Levels keep what instructions keep. -/
theorem nested (h : Lockstep Q R E setup setup') (data : List UInt8) (levels : Nat) :
    Keeps Q R E (nested data setup levels) (Direct.nested data setup' levels) := by
  induction levels with
  | zero => exact fun _ _ _ hde _ => .error (h.fails hde)
  | succ levels ih => exact h.decodeAt (nested_grows levels) ih

end Lockstep

/-- The history makes no difference to what is decoded. -/
theorem lockstep_agree (keep : Event → Bool) (setup : Setup) :
    Lockstep (fun _ => True) (Decoder.Agree keep) (Decoder.Agree keep) setup setup where
  before _ _ := trivial
  fails h := h
  step h _ := h.run (Decode.blind_execute setup _)
  parts _ _ _ :=
    { base := fun h => h.map fun _ _ => rfl
      accent := fun h shift => h.map (f := Decoder.beginAccent shift) fun _ _ => rfl
      done := fun h => h.map fun _ _ => rfl }

end Direct

end Type1
