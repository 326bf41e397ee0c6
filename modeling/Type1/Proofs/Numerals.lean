import Mathlib
import Type1.Proofs.PushedNumbers

/-!
# Integers in a charstring

Every integer of 32 bits can be spelled in a charstring, in as few bytes as it needs or in five. The
bytes say where they end, so integers can be read whatever follows them.

* `Number.ofInt_toInt`: the number that a decoding takes for an integer of 32 bits is the one that
  binary32 arithmetic takes for it.
* `Instruction.first?_encodeShort`, `Instruction.first?_encodeLong`: an integer at the front of any
  bytes.
* `Numeral`: an integer and how it is spelled.
* `Run.faithful`: in a run over a source in memory, what is read next is at the position.
* `Cursor.reads_numerals`: integers are read as their numbers, with exactly their bytes.
  `Moment.run_numerals`, `Moment.step_numeral_full`: they are pushed as long as there is room.
* `numerals_read`: numerals from any moment of a run with no operands.
-/

namespace Type1

/-! ## The nearest number -/

namespace Number

open Float.Model
open UnpackedFloat (Sign packComponents unpackSign unpackExponent unpackMantissa
  unpackSign_packComponents unpackExponent_packComponents unpackMantissa_packComponents)

/-- The bits of a number with the other sign. -/
def flipSign (b : BitVec Format.binary32.numBits) : BitVec Format.binary32.numBits :=
  packComponents .binary32 (-Sign.ofBitVec (unpackSign b)) (unpackExponent b) (unpackMantissa b)

theorem flipSign_packComponents (s : Sign) (e : BitVec Format.binary32.exponentBits)
    (m : BitVec Format.binary32.mantissaBitsWithoutImplicit) :
    flipSign (packComponents .binary32 s e m) = packComponents .binary32 (-s) e m := by
  rw [flipSign, unpackSign_packComponents, unpackExponent_packComponents,
    unpackMantissa_packComponents, Sign.ofBitVec_toBitVec]

/-- What is a number is negated by its sign alone. -/
theorem pack_neg {f : UnpackedFloat} (h : f ≠ .notANumber) :
    UnpackedFloat.pack .binary32 f.neg = flipSign (UnpackedFloat.pack .binary32 f) := by
  cases f with
  | notANumber => exact absurd rfl h
  | infinity s => exact (flipSign_packComponents _ _ _).symm
  | zero s => exact (flipSign_packComponents _ _ _).symm
  | finite s m e hm =>
    unfold UnpackedFloat.neg UnpackedFloat.pack UnpackedFloat.packedInfinity
    dsimp only
    split
    · rw [flipSign_packComponents]
    · split <;> rw [flipSign_packComponents]

/-- The bits of what is not a number are those of nothing else. -/
theorem eq_notANumber_of_pack {f : UnpackedFloat}
    (h : UnpackedFloat.pack .binary32 f = UnpackedFloat.packedNaN .binary32) :
    f = .notANumber := by
  -- Only what is not a number has all bits of the exponent and some bit of the mantissa.
  have hparts {s e m} (h : packComponents .binary32 s e m = UnpackedFloat.packedNaN .binary32) :
      e = -1#8 ∧ m ≠ 0#23 := by
    have he := congrArg unpackExponent h
    have hm := congrArg unpackMantissa h
    rw [UnpackedFloat.packedNaN, unpackExponent_packComponents, unpackExponent_packComponents] at he
    rw [UnpackedFloat.packedNaN, unpackMantissa_packComponents, unpackMantissa_packComponents] at hm
    subst he hm
    exact ⟨rfl, by decide⟩
  cases f with
  | notANumber => rfl
  | infinity s => exact absurd rfl (hparts h).2
  | zero s => exact absurd (hparts h).1 (by decide)
  | finite s m e hm =>
    unfold UnpackedFloat.pack UnpackedFloat.packedInfinity at h
    dsimp only at h
    split at h
    · exact absurd rfl (hparts h).2
    · next hfits =>
      split at h
      · have he := congrArg BitVec.toNat (hparts h).1
        have hones : (-1#8).toNat = 255 := rfl
        rw [BitVec.toNat_ofNat, Nat.mod_eq_of_lt (by omega), hones] at he
        omega
      · exact absurd (hparts h).1 (by decide)

/-- Negating what is packed is packing what is negated. -/
theorem neg_pack (f : UnpackedFloat) :
    (Float32.Model.pack f).neg = Float32.Model.pack f.neg := by
  -- What is unpacked again need not be `f`, but it has the same bits.
  have hpack : UnpackedFloat.pack .binary32 (Float32.Model.pack f).unpack =
      UnpackedFloat.pack .binary32 f := UnpackedFloat.pack_unpack_of_valid UnpackedFloat.valid_pack
  unfold Float32.Model.neg
  generalize (Float32.Model.pack f).unpack = g at hpack
  have hneg : UnpackedFloat.pack .binary32 g.neg = UnpackedFloat.pack .binary32 f.neg := by
    by_cases hf : f = .notANumber
    · subst hf
      obtain rfl := eq_notANumber_of_pack hpack
      rfl
    · have hg : g ≠ .notANumber := by
        rintro rfl
        exact hf (eq_notANumber_of_pack hpack.symm)
      rw [pack_neg hg, pack_neg hf, hpack]
  unfold Float32.Model.pack
  simp only [hneg]

/-- Rounding does not depend on the sign. -/
theorem round_negative (m : Nat) (e : Int) :
    UnpackedFloat.round .binary32 .negative m e =
      (UnpackedFloat.round .binary32 .positive m e).neg := by
  unfold UnpackedFloat.round UnpackedFloat.roundWithAccuracy
  dsimp only
  split <;> rfl

/-- The number nearest to an integer is that of binary32 arithmetic. -/
theorem ofInt_toInt (n : Int32) : ofInt n.toInt = .ofModel (.ofInt32 n) := by
  have hlo := n.le_toInt
  have hhi := n.toInt_lt
  have hmagnitude (k : Nat) (hk : k < 2 ^ 32) : k.toUInt32.toFloat32 =
      .ofModel (.pack (UnpackedFloat.normalize .binary32 k 0 .positive)) := by
    have hk : k.toUInt32.toNat = k := by
      rw [Nat.toUInt32_eq, UInt32.toNat_ofNat_of_lt' hk]
    show Float32.ofModel (.pack
      (UnpackedFloat.normalize .binary32 k.toUInt32.toNat 0 .positive)) = _
    rw [hk]
  unfold ofInt
  dsimp only
  rw [hmagnitude _ (by omega)]
  show _ = Float32.ofModel (.pack (UnpackedFloat.normalize .binary32 n.toInt 0 .positive))
  split
  · next hneg =>
    have hpos : compare (n.toInt.natAbs : Int) 0 = .gt := Int.compare_eq_gt.2 (by omega)
    have hsame : (n.toInt.natAbs : Int).toNat = (-n.toInt).toNat := by omega
    show Float32.ofModel (Float32.Model.neg _) = _
    rw [neg_pack, UnpackedFloat.normalize, UnpackedFloat.normalize, hpos,
      Int.compare_eq_lt.2 hneg, hsame]
    exact congrArg (fun f => Float32.ofModel (.pack f)) (round_negative _ _).symm
  · rw [Int.natAbs_of_nonneg (by omega)]

end Number

/-! ## The bytes of an integer -/

namespace Instruction

theorem toNat_toUInt8 {k : Nat} (h : k < 256) : k.toUInt8.toNat = k := by
  rw [Nat.toUInt8_eq, UInt8.toNat_ofNat', Nat.mod_eq_of_lt h]

theorem toUInt8_lt {k : Nat} {b : UInt8} (h : k < 256) : k.toUInt8 < b ↔ k < b.toNat := by
  rw [UInt8.lt_iff_toNat_lt, toNat_toUInt8 h]

/-- The first byte of a number is not the escape byte. -/
theorem toUInt8_ne_escape {k : Nat} (hlo : 32 ≤ k) (hhi : k < 256) : k.toUInt8 ≠ 12 := by
  intro h
  have hk := toNat_toUInt8 hhi
  rw [h] at hk
  have htwelve : (12 : UInt8).toNat = 12 := rfl
  omega

theorem following_of_lt {k : Nat} (hlo : 32 ≤ k) (hhi : k < 247) : following k.toUInt8 = 0 := by
  rw [following, if_neg (toUInt8_ne_escape hlo (by omega)), if_pos ((toUInt8_lt (by omega)).2 hhi)]

theorem following_of_le {k : Nat} (hlo : 247 ≤ k) (hhi : k < 255) : following k.toUInt8 = 1 := by
  rw [following, if_neg (toUInt8_ne_escape (by omega) (by omega)),
    if_neg ((toUInt8_lt (by omega)).not.2 (Nat.not_lt.2 hlo)),
    if_pos ((toUInt8_lt (by omega)).2 hhi)]

/-- The last byte of a magnitude completes those before it. -/
theorem div_mul_add_toUInt8 (m : Nat) : ((m / 256 : Nat) : Int) * 256 + m.toUInt8.toNat = m := by
  rw [Nat.toUInt8_eq, UInt8.toNat_ofNat']
  omega

/-- The four bytes of a word, the most significant first. -/
theorem word_bytes {w : Nat} (h : w < 4294967296) :
    word (w / 16777216).toUInt8 (w / 65536).toUInt8 (w / 256).toUInt8 w.toUInt8 =
      if w < 2147483648 then (w : Int) else w - 4294967296 := by
  have hdigits : ((w / 16777216 % 256 * 256 + w / 65536 % 256) * 256 + w / 256 % 256) * 256 +
      w % 256 = w := by omega
  have hvalue : (((((w / 16777216).toUInt8.toNat : Int) * 256 + (w / 65536).toUInt8.toNat) * 256 +
      (w / 256).toUInt8.toNat) * 256 + w.toUInt8.toNat) = w := by
    simp only [Nat.toUInt8_eq, UInt8.toNat_ofNat']
    exact_mod_cast hdigits
  unfold word
  rw [hvalue]
  dsimp only
  split <;> split <;> omega

/-! The number at the front of a list of bytes, by the first of them. -/

theorem first?_one {k : Nat} (hlo : 32 ≤ k) (hhi : k < 247) (rest : List UInt8) :
    first? (k.toUInt8 :: rest) = some (.number (.ofInt (k - 139)), 1) := by
  have hnumber : ¬ k.toUInt8 < 32 := (toUInt8_lt (by omega)).not.2 (Nat.not_lt.2 hlo)
  rw [first?, following_of_lt hlo hhi]
  show some (ofBytes k.toUInt8 [], 1) = _
  rw [ofBytes, if_neg hnumber, toNat_toUInt8 (by omega)]

theorem first?_two {m : Nat} (hm : m < 1024) (rest : List UInt8) :
    first? ((m / 256 + 247).toUInt8 :: m.toUInt8 :: rest) =
      some (.number (.ofInt (m + 108)), 2) := by
  have hlast := div_mul_add_toUInt8 m
  have hvalue : (((m / 256 + 247 : Nat) : Int) - 247) * 256 + m.toUInt8.toNat + 108 = m + 108 := by
    omega
  rw [first?, following_of_le (by omega) (by omega)]
  show some (ofBytes _ [_], 2) = _
  rw [ofBytes, if_neg (toUInt8_ne_escape (by omega) (by omega)),
    if_pos ((toUInt8_lt (by omega)).2 (show _ < 251 by omega)), toNat_toUInt8 (by omega), hvalue]

theorem first?_two_negative {m : Nat} (hm : m < 1024) (rest : List UInt8) :
    first? ((m / 256 + 251).toUInt8 :: m.toUInt8 :: rest) =
      some (.number (.ofInt (-m - 108)), 2) := by
  have hlast := div_mul_add_toUInt8 m
  have hvalue : -(((m / 256 + 251 : Nat) : Int) - 251) * 256 - m.toUInt8.toNat - 108 =
      -m - 108 := by
    omega
  rw [first?, following_of_le (by omega) (by omega)]
  show some (ofBytes _ [_], 2) = _
  rw [ofBytes, if_neg (toUInt8_ne_escape (by omega) (by omega)),
    if_neg ((toUInt8_lt (by omega)).not.2 (show ¬ _ < 251 by omega)), toNat_toUInt8 (by omega),
    hvalue]

/-- An integer in five bytes. -/
theorem first?_encodeLong (n : Int32) (rest : List UInt8) :
    first? (encodeLong n.toInt ++ rest) =
      some (.number (.ofInt n.toInt), (encodeLong n.toInt).length) := by
  have hlo := n.le_toInt
  have hhi := n.toInt_lt
  have hword : word ((n.toInt % 4294967296).toNat / 16777216).toUInt8
      ((n.toInt % 4294967296).toNat / 65536).toUInt8 ((n.toInt % 4294967296).toNat / 256).toUInt8
      (n.toInt % 4294967296).toNat.toUInt8 = n.toInt := by
    rw [word_bytes (by omega)]
    split <;> omega
  show some (number (.ofInt (word _ _ _ _)), 5) = _
  rw [hword]
  rfl

/-- An integer in its fewest bytes. -/
theorem first?_encodeShort (n : Int32) (rest : List UInt8) :
    first? (encodeShort n.toInt ++ rest) =
      some (.number (.ofInt n.toInt), (encodeShort n.toInt).length) := by
  unfold encodeShort
  split
  · have hvalue : (((n.toInt + 139).toNat : Int) - 139) = n.toInt := by omega
    rw [List.singleton_append, first?_one (by omega) (by omega), hvalue]
    rfl
  · split
    · have hvalue : (((n.toInt - 108).toNat : Int) + 108) = n.toInt := by omega
      show first? (_ :: _ :: rest) = _
      rw [first?_two (by omega), hvalue]
      rfl
    · split
      · have hvalue : (-((-n.toInt - 108).toNat : Int) - 108) = n.toInt := by omega
        show first? (_ :: _ :: rest) = _
        rw [first?_two_negative (by omega), hvalue]
        rfl
      · exact first?_encodeLong n rest

end Instruction

/-! ## Numerals -/

/-- An integer as a charstring spells it. -/
structure Numeral where
  /-- The integer. -/
  value : Int32
  /-- It is spelled in five bytes, even if it needs fewer. -/
  long : Bool := false

namespace Numeral

/-- The bytes that spell the integer. -/
def bytes (x : Numeral) : List UInt8 :=
  if x.long then Instruction.encodeLong x.value.toInt else Instruction.encodeShort x.value.toInt

/-- The binary32 number nearest to the integer. -/
def number (x : Numeral) : Number := .ofModel (.ofInt32 x.value)

/-- A numeral ends where it says, whatever follows it. -/
theorem first?_bytes (x : Numeral) (rest : List UInt8) :
    Instruction.first? (x.bytes ++ rest) = some (.number x.number, x.bytes.length) := by
  unfold bytes number
  rw [← Number.ofInt_toInt]
  split
  · exact Instruction.first?_encodeLong x.value rest
  · exact Instruction.first?_encodeShort x.value rest

/-- The bytes that spell integers, one after the other. -/
def text (numerals : List Numeral) : List UInt8 := numerals.flatMap bytes

theorem text_append (numerals later : List Numeral) :
    text (numerals ++ later) = text numerals ++ text later :=
  List.flatMap_append

theorem text_take_append_drop (numerals : List Numeral) (k : Nat) :
    text (numerals.take k) ++ text (numerals.drop k) = text numerals := by
  rw [← text_append, List.take_append_drop]

theorem text_take_succ {numerals : List Numeral} {k : Nat} (h : k < numerals.length) :
    text (numerals.take (k + 1)) = text (numerals.take k) ++ numerals[k].bytes := by
  rw [List.take_succ_eq_append_getElem h, text_append]
  exact congrArg (_ ++ ·) (List.append_nil _)

theorem text_drop_eq_append {numerals : List Numeral} {k : Nat} (h : k < numerals.length) :
    text (numerals.drop k) = numerals[k].bytes ++ text (numerals.drop (k + 1)) := by
  rw [List.drop_eq_getElem_cons h]
  exact List.flatMap_cons

end Numeral

/-! ## Cursors of a run -/

section Faithful

variable {s : Source} {setup : Setup}

namespace Run

theorem faithful_resume (hs : s.Reliable) {frames : List Frame} {offset : Nat} {session : Session}
    {m : Moment s} (h : resume s frames offset session = .running m) : m.cursor.Faithful := by
  unfold resume at h
  split at h
  · cases h
  · next c calls hopen =>
    cases h
    have hle : offset ≤ s.data.length := Cursor.openAt_position hopen ▸ c.position_le
    have hgives := Cursor.openAt_gives hs hle session.source
    rw [hopen] at hgives
    split at hgives
    · obtain ⟨c, calls, heq, -, hc⟩ := hgives
      cases heq
      exact hc
    · obtain ⟨_, _, heq⟩ := hgives
      cases heq

theorem faithful_enter (hs : s.Reliable) {f : Frame} {frames : List Frame} {offset : Nat}
    {session : Session} {m : Moment s} (h : enter s f frames offset session = .running m) :
    m.cursor.Faithful := by
  unfold enter at h
  split at h
  · exact faithful_resume hs h
  · cases h

theorem faithful_leave (hs : s.Reliable) {frames : List Frame} {flow : Flow} {session : Session}
    {m : Moment s} (h : leave s frames flow session = .running m) : m.cursor.Faithful := by
  fun_induction leave s frames flow session with
  | case1 flow session => cases h
  | case2 p frames session => exact faithful_resume hs h
  | case3 p frames session ih => exact ih h
  | case4 accent shift frames flow session => exact faithful_enter hs h
  | case5 frames flow session ih => exact ih h

theorem faithful_step (hs : s.Reliable) {l m : Moment s} (hl : l.cursor.Faithful)
    (h : step s setup l = .running m) : m.cursor.Faithful := by
  obtain ⟨x, st, calls, -, hend⟩ | ⟨i, next, calls, hread, ⟨x, e, -, hend⟩ |
    ⟨control, e, -, hgoes⟩⟩ := step_cases setup l
  · cases hend.symm.trans h
  · cases hend.symm.trans h
  · have hnext : next.Faithful := by
      have hgives := Cursor.readInstruction_gives hs hl
      rw [hread] at hgives
      cases hfirst : Instruction.first? (s.data.drop l.cursor.position) with
      | none =>
        rw [hfirst] at hgives
        obtain ⟨_, _, heq⟩ := hgives
        cases heq
      | some x =>
        rw [hfirst] at hgives
        obtain ⟨c, _, heq, -, hc⟩ := hgives
        cases heq
        exact hc
    rw [hgoes] at h
    cases control with
    | next =>
      cases h
      exact hnext
    | leave flow => exact faithful_leave hs h
    | call offset => exact faithful_enter hs h
    | compose base accent shift => exact faithful_enter hs h

/-- What is read next at a moment of a run is at the position in the data. -/
theorem faithful (hs : s.Reliable) {offset : Nat} {st : Source.State} {n : Nat} {m : Moment s}
    (h : after s setup offset st n = .running m) : m.cursor.Faithful :=
  invariant (P := fun m => m.cursor.Faithful) (fun _ => faithful_resume hs)
    (fun _ _ => faithful_step hs) h

end Run

end Faithful

/-! ## Numerals in a run -/

section Reading

variable {s : Source} {c : Cursor s} {m : Moment s} {rest : List UInt8}

/-- A numeral is read as its number. -/
theorem Cursor.readInstruction_numeral (hs : s.Reliable) (hc : c.Faithful) {x : Numeral}
    (h : s.data.drop c.position = x.bytes ++ rest) :
    ∃ next calls, c.readInstruction = .done (.number x.number) next calls ∧
      next.position = c.position + x.bytes.length ∧ next.Faithful := by
  have hgives := Cursor.readInstruction_gives hs hc
  rwa [h, x.first?_bytes] at hgives

/-- Numerals are read as their numbers, one after the other. -/
theorem Cursor.reads_numerals (hs : s.Reliable) (hc : c.Faithful) {numerals : List Numeral}
    (h : s.data.drop c.position = Numeral.text numerals ++ rest) :
    ∃ last, c.Reads ((numerals.map Numeral.number).map .number) last ∧
      last.position = c.position + (Numeral.text numerals).length ∧ last.Faithful := by
  induction numerals generalizing c with
  | nil => exact ⟨c, .nil c, rfl, hc⟩
  | cons x numerals ih =>
    have htext : Numeral.text (x :: numerals) = x.bytes ++ Numeral.text numerals :=
      List.flatMap_cons
    rw [htext, List.append_assoc] at h
    obtain ⟨next, calls, hread, hnext, hfaithful⟩ := readInstruction_numeral hs hc h
    have hlater : s.data.drop next.position = Numeral.text numerals ++ rest := by
      rw [hnext, ← List.drop_drop, h, List.drop_left]
    obtain ⟨last, hreads, hlast, hend⟩ := ih hfaithful hlater
    refine ⟨last, .cons hread hreads, ?_, hend⟩
    rw [hlast, hnext, htext, List.length_append, Nat.add_assoc]

/-- Numerals that there is room for are pushed, and exactly their bytes are read. -/
theorem Moment.run_numerals (setup : Setup) (hs : s.Reliable) (hc : m.cursor.Faithful)
    {numerals : List Numeral}
    (h : s.data.drop m.cursor.position = Numeral.text numerals ++ rest)
    (hroom : m.decoder.operands.size + numerals.length ≤ Operands.capacity) :
    ∃ l, m.run setup numerals.length = .running l ∧ l.cursor.Faithful ∧
      m.Pushes l (numerals.map Numeral.number) ∧
      l.cursor.position = m.cursor.position + (Numeral.text numerals).length := by
  have hlength : (numerals.map Numeral.number).length = numerals.length := List.length_map ..
  rw [← hlength] at hroom
  obtain ⟨last, hreads, hposition, hlast⟩ := Cursor.reads_numerals hs hc h
  obtain ⟨l, hrun, rfl, hpushes⟩ := run_numbers setup hreads hroom
  rw [hlength] at hrun
  exact ⟨l, hrun, hlast, hpushes, hposition⟩

/-- A numeral that there is no room for is read as well, and the decoding fails. -/
theorem Moment.step_numeral_full (setup : Setup) (hs : s.Reliable) (hc : m.cursor.Faithful)
    {x : Numeral} (h : s.data.drop m.cursor.position = x.bytes ++ rest)
    (hfull : m.decoder.operands.size = Operands.capacity) :
    ∃ next calls, m.cursor.readInstruction = .done (.number x.number) next calls ∧
      next.position = m.cursor.position + x.bytes.length ∧
      Run.step s setup m =
        .ended (.error .stackOverflow ⟨next.state, m.decoder.recordCalls calls⟩) := by
  obtain ⟨next, calls, hread, hposition, -⟩ := Cursor.readInstruction_numeral hs hc h
  exact ⟨next, calls, hread, hposition, step_number_full hread hfull⟩

end Reading

/-- From any moment of a run at which there are no operands, and however the data are cut into
chunks, integers that are spelled in any way are read one by one, whatever follows them. Up to 48 of
them come to lie on the operand stack in their order, each as the nearest number, with exactly their
bytes read. The next one finds no room: the decoding fails with its bytes read as well, and nothing
after them. Nothing else is changed, and a receiver is given nothing. -/
theorem numerals_read (data : List UInt8) (chunk : Option Nat) (font : Font) (settings : Settings)
    (takes : Capabilities) (offset : Nat) (st : Source.State) (n : Nat)
    (m : Moment (.memory data chunk)) (numerals : List Numeral) (rest : List UInt8)
    (hm : Run.after (.memory data chunk) (.of font settings takes) offset st n = .running m)
    (hempty : m.decoder.operands = .empty)
    (hdata : data.drop m.cursor.position = Numeral.text numerals ++ rest) :
    let run := Run.after (.memory data chunk) (.of font settings takes) offset st
    let given k := Run.given settings takes (run k)
    (∀ k ≤ numerals.length, k ≤ 48 → ∃ l, run (n + k) = .running l ∧
      m.Pushes l ((numerals.take k).map Numeral.number) ∧
      l.cursor.position = m.cursor.position + (Numeral.text (numerals.take k)).length ∧
      given (n + k) = given n) ∧
    (48 < numerals.length → ∃ l x next calls, run (n + 48) = .running l ∧ numerals[48]? = some x ∧
      l.cursor.readInstruction = .done (.number x.number) next calls ∧
      next.position = m.cursor.position + (Numeral.text (numerals.take 49)).length ∧
      run (n + 49) =
        .ended (.error .stackOverflow ⟨next.state, l.decoder.recordCalls calls⟩) ∧
      given (n + 49) = given n ∧
      (parse (.memory data chunk) font settings takes offset st).1.result =
        .error .stackOverflow) := by
  intro run given
  have hs : (Source.memory data chunk).Reliable := Source.reliable_memory
  have hc := Run.faithful hs hm
  -- The other numerals are part of what follows the first `k`.
  have hpushed (k : Nat) (hk : k ≤ numerals.length) (hroom : k ≤ 48) : ∃ l,
      run (n + k) = .running l ∧ l.cursor.Faithful ∧
        m.Pushes l ((numerals.take k).map Numeral.number) ∧
        l.cursor.position = m.cursor.position + (Numeral.text (numerals.take k)).length := by
    have hlength : (numerals.take k).length = k := List.length_take_of_le hk
    have hfront : (Source.memory data chunk).data.drop m.cursor.position =
        Numeral.text (numerals.take k) ++ (Numeral.text (numerals.drop k) ++ rest) := by
      rw [Source.memory_data, hdata, ← List.append_assoc, Numeral.text_take_append_drop]
    have hfits : m.decoder.operands.size + (numerals.take k).length ≤ Operands.capacity := by
      rw [hempty, hlength]
      exact (Nat.zero_add k).symm ▸ hroom
    have hpushes := m.run_numerals (.of font settings takes) hs hc hfront hfits
    rwa [hlength, Moment.run_eq_after hm] at hpushes
  have hgiven {k : Nat} {e : Decoder} (hk : Run.given settings takes (run (n + k)) =
      e.given settings takes) (he : e.elements = m.decoder.elements) :
      given (n + k) = given n := by
    show Run.given settings takes (run (n + k)) = Run.given settings takes (run n)
    rw [hk, show run n = .running m from hm]
    exact Decoder.given_of_elements he
  refine ⟨fun k hk hroom => ?_, fun hlong => ?_⟩
  · obtain ⟨l, hrun, -, hpushes, hposition⟩ := hpushed k hk hroom
    exact ⟨l, hrun, hpushes, hposition, hgiven (by rw [hrun]; rfl) hpushes.elements⟩
  · -- The first 48 fill the stack, and the next one is read before it is refused.
    obtain ⟨l, hrun, hl, hpushes, hbefore⟩ := hpushed 48 (by omega) (Nat.le_refl 48)
    have hrest : (Source.memory data chunk).data.drop l.cursor.position =
        numerals[48].bytes ++ (Numeral.text (numerals.drop 49) ++ rest) := by
      rw [Source.memory_data, hbefore, ← List.drop_drop, hdata,
        ← Numeral.text_take_append_drop numerals 48, List.append_assoc, List.drop_left,
        Numeral.text_drop_eq_append hlong, List.append_assoc]
    have hfull : l.decoder.operands.size = Operands.capacity := by
      rw [hpushes.size, hempty, List.length_map, List.length_take_of_le (by omega)]
      rfl
    obtain ⟨next, calls, hread, hposition, hstep⟩ :=
      l.step_numeral_full (.of font settings takes) hs hl hrest hfull
    have hend : run (n + 49) =
        .ended (.error .stackOverflow ⟨next.state, l.decoder.recordCalls calls⟩) :=
      (Run.after_succ hrun).trans hstep
    refine ⟨l, numerals[48], next, calls, hrun, List.getElem?_eq_getElem hlong, hread, ?_, hend,
      hgiven (by rw [hend]; rfl) ((l.decoder.recordCalls_elements calls).trans hpushes.elements),
      ?_⟩
    · rw [hposition, hbefore, Numeral.text_take_succ hlong, List.length_append, Nat.add_assoc]
    · rw [Run.parse_eq_conclude hend]
      rfl

/-- Integers in chunks of three bytes: one of two bytes, one of five that three chunks share, and 47
of one byte. There is room for all but the last. -/
theorem numerals_read_chunked :
    let data : List UInt8 := [247, 0, 255, 255, 255, 255, 255] ++ List.replicate 47 144 ++ [12]
    let run := Run.after (.memory data (some 3)) (.of {} {} {}) 0 {}
    ∃ m l session, run 0 = .running m ∧ run 2 = .running l ∧ m.Pushes l [108, -1] ∧
      l.cursor.position = 7 ∧ run 49 = .ended (.error .stackOverflow session) := by
  intro data run
  let numerals : List Numeral := ⟨108, false⟩ :: ⟨-1, true⟩ :: List.replicate 47 ⟨5, false⟩
  obtain ⟨m, hm, hstart⟩ := Option.map_eq_some_iff.1 (by decide +kernel :
    (run 0).moment?.map (fun m => (m.decoder.operands.toList, m.cursor.position)) = some ([], 0))
  have hrunning := Status.eq_running_of_moment? hm
  obtain ⟨hempty, hposition⟩ := Prod.mk.inj hstart
  have hdata : data.drop m.cursor.position = Numeral.text numerals ++ [12] := by
    rw [hposition]
    decide +kernel
  obtain ⟨hfits, hlong⟩ := numerals_read data (some 3) {} {} {} 0 {} 0 m numerals [12] hrunning
    (Operands.ext hempty) hdata
  obtain ⟨l, hl, hpushes, hread, -⟩ := hfits 2 (by decide) (by decide)
  obtain ⟨_, _, _, _, -, -, -, -, hend, -⟩ := hlong (by decide)
  have hnumbers : (numerals.take 2).map Numeral.number = [108, -1] := by decide +kernel
  rw [hnumbers] at hpushes
  refine ⟨m, l, _, hrunning, hl, hpushes, hread.trans ?_, hend⟩
  rw [hposition]
  decide +kernel

end Type1
