import Type1.Cipher

/-!
# Deciphering in place

A buffer that is overwritten by its own plain bytes ends with those that the stream of its cipher
bytes has, whatever their number and however many are dropped. The cipher of a stream is given here
with keys that are numbers below 2¹⁶, and constants as they are published.

* `decipher`, `encipher`: the cipher and its inverse (`decipher_encipher`, `encipher_decipher`).
* `stream`: the plain bytes of a stream under any cipher that goes byte by byte. That of two layers
  is the one of the inner layer after the outer one (`stream_decodeByteTwice`).
* `toList_compact`: the loop over the buffer. Between two bytes the buffer has three regions: the
  plain bytes so far, cipher bytes that were read already, and those still to be read.
* `deciphered_in_place`: what `decrypt` and `decryptDouble` leave in the buffer.
* `decipherment_inverse`: they undo the encipherment, and are undone by it.
-/

namespace Type1.Cipher

/-! ## Streams -/

/-- The key that follows a key, as a number, after a cipher byte. -/
def followingKey (key : Nat) (cipher : UInt8) : Nat :=
  ((cipher.toNat + key) * 52845 + 22719) % 65536

/-- The plain bytes of a stream of cipher bytes, with the key as a number. -/
def decipher (key : Nat) : List UInt8 → List UInt8
  | [] => []
  | cipher :: rest => (cipher ^^^ (key >>> 8).toUInt8) :: decipher (followingKey key cipher) rest

/-- The cipher bytes of a stream of plain bytes, with the key as a number. -/
def encipher (key : Nat) : List UInt8 → List UInt8
  | [] => []
  | plain :: rest =>
    let cipher := plain ^^^ (key >>> 8).toUInt8
    cipher :: encipher (followingKey key cipher) rest

theorem length_encipher (key : Nat) (bytes : List UInt8) :
    (encipher key bytes).length = bytes.length := by
  induction bytes generalizing key with
  | nil => rfl
  | cons plain rest ih => exact congrArg (· + 1) (ih _)

/-- The key follows the cipher bytes, so both directions go through the same keys. -/
theorem decipher_encipher (key : Nat) (plain : List UInt8) :
    decipher key (encipher key plain) = plain := by
  induction plain generalizing key with
  | nil => rfl
  | cons byte rest ih =>
    simp only [encipher, decipher, ih]
    rw [UInt8.xor_assoc, UInt8.xor_self, UInt8.xor_zero]

theorem encipher_decipher (key : Nat) (cipher : List UInt8) :
    encipher key (decipher key cipher) = cipher := by
  induction cipher generalizing key with
  | nil => rfl
  | cons byte rest ih =>
    simp only [encipher, decipher]
    rw [UInt8.xor_assoc, UInt8.xor_self, UInt8.xor_zero, ih]

theorem toNat_nextKey (key : Key) (cipher : UInt8) :
    (nextKey key cipher).toNat = followingKey key.toNat cipher := by
  simp [nextKey, followingKey]

theorem mask_eq (key : Key) : mask key = (key.toNat >>> 8).toUInt8 := by
  apply UInt8.toNat.inj
  simp [mask]

/-- Deciphering with keys of 16 bits. -/
theorem decode_eq_decipher (key : Key) (bytes : List UInt8) :
    decode key bytes = decipher key.toNat bytes := by
  induction bytes generalizing key with
  | nil => rfl
  | cons cipher rest ih => rw [decode, decipher, ih, toNat_nextKey, mask_eq]

section Stream

variable {σ : Type} {n : Nat}

/-- The plain bytes of a stream of cipher bytes, where `step` deciphers one. -/
def stream (step : σ → UInt8 → UInt8 × σ) (state : σ) : List UInt8 → List UInt8
  | [] => []
  | cipher :: rest => (step state cipher).1 :: stream step (step state cipher).2 rest

theorem length_stream (step : σ → UInt8 → UInt8 × σ) (state : σ) (bytes : List UInt8) :
    (stream step state bytes).length = bytes.length := by
  induction bytes generalizing state with
  | nil => rfl
  | cons cipher rest ih => exact congrArg (· + 1) (ih _)

theorem stream_decodeByte (key : Key) (bytes : List UInt8) :
    stream decodeByte key bytes = decode key bytes := by
  induction bytes generalizing key with
  | nil => rfl
  | cons cipher rest ih => exact congrArg (_ :: ·) (ih _)

/-- One pass through both layers gives what a pass for each does. -/
theorem stream_decodeByteTwice (outer inner : Key) (bytes : List UInt8) :
    stream decodeByteTwice (outer, inner) bytes = decode inner (decode outer bytes) := by
  induction bytes generalizing outer inner with
  | nil => rfl
  | cons cipher rest ih => exact congrArg (_ :: ·) (ih _ _)

/-! ## The loop over the buffer -/

/-- From position `i` on, the plain bytes land behind those before it, and the last `skip` bytes are
left as they were. -/
theorem toList_compact (step : σ → UInt8 → UInt8 × σ) {skip i : Nat} (state : σ)
    (buffer : Vector UInt8 n) (hskip : skip ≤ n) (hi : i ≤ n) :
    (compact step skip i state buffer).toList =
      buffer.toList.take (i - skip) ++ (stream step state (buffer.toList.drop i)).drop (skip - i) ++
        buffer.toList.drop (n - skip) := by
  induction hk : n - i generalizing i state buffer with
  | zero =>
    obtain rfl : i = n := by omega
    have hdrop : buffer.toList.drop i = [] := List.drop_eq_nil_of_le (by simp)
    rw [compact, dif_neg (Nat.lt_irrefl i), hdrop, stream, List.drop_nil, List.append_nil,
      List.take_append_drop]
  | succ k ih =>
    have hlt : i < n := by omega
    have hcons : buffer.toList.drop i = buffer[i] :: buffer.toList.drop (i + 1) := by
      rw [List.drop_eq_getElem_cons (by simpa using hlt)]
      simp
    rw [compact, dif_pos hlt, hcons, stream]
    dsimp only
    rw [ih (i := i + 1) _ _ hlt (by omega)]
    by_cases hle : skip ≤ i
    · -- The byte that is overwritten was read before, or it is the one just read.
      have hset : (buffer.set (i - skip) (step state buffer[i]).1).toList =
          buffer.toList.set (i - skip) (step state buffer[i]).1 := Vector.toList_set _
      have htake : (buffer.toList.set (i - skip) (step state buffer[i]).1).take (i - skip + 1) =
          buffer.toList.take (i - skip) ++ [(step state buffer[i]).1] := by
        rw [List.set_eq_take_append_cons_drop, if_pos (by simp; omega), List.take_append,
          List.take_of_length_le (by rw [List.length_take]; omega), List.length_take,
          Vector.length_toList, Nat.min_eq_left (by omega), Nat.add_sub_cancel_left]
        rfl
      rw [if_pos hle, hset, show i + 1 - skip = i - skip + 1 by omega, htake,
        List.drop_set_of_lt (by omega), List.drop_set_of_lt (by omega), Nat.sub_eq_zero_of_le hle,
        Nat.sub_eq_zero_of_le (Nat.le_succ_of_le hle), List.drop_zero, List.drop_zero,
        List.append_assoc (buffer.toList.take _), List.singleton_append]
    · rw [if_neg hle, Nat.sub_eq_zero_of_le (by omega : i ≤ skip),
        Nat.sub_eq_zero_of_le (by omega : i + 1 ≤ skip),
        show skip - i = skip - (i + 1) + 1 by omega, List.drop_succ_cons]

/-! ## Whole buffers -/

/-- The bytes to drop are those that the buffer has. -/
theorem skip?_eq (lenIv : Int) (size : Nat) :
    skip? lenIv size = if 0 ≤ lenIv ∧ lenIv ≤ size then some lenIv.toNat else none := by
  unfold skip?
  split
  · next skip => simp
  · next skip => rw [if_neg fun h => absurd h.1 (Int.not_le.2 (Int.negSucc_lt_zero skip))]

/-- A result and a buffer after it: the front has the plain bytes without the first `skip` of them,
and the rest has the cipher bytes that were there. -/
structure Deciphers (skip : Nat) (plain : List UInt8) (buffer : Vector UInt8 n)
    (result : Except Error Nat × Vector UInt8 n) : Prop where
  /-- The number of plain bytes is known. -/
  count : result.1 = .ok (n - skip)
  /-- The plain bytes stand in front. -/
  front : result.2.toList.take (n - skip) = plain.drop skip
  /-- The bytes behind them are as they were. -/
  rest : result.2.toList.drop (n - skip) = buffer.toList.drop (n - skip)

theorem deciphers_decryptWith (step : σ → UInt8 → UInt8 × σ) (state : σ) {lenIv : Int}
    (buffer : Vector UInt8 n) (hpos : 0 ≤ lenIv) (hle : lenIv ≤ n) :
    Deciphers lenIv.toNat (stream step state buffer.toList) buffer
      (decryptWith step state lenIv buffer) := by
  have hafter := toList_compact step state buffer (by omega : lenIv.toNat ≤ n) (Nat.zero_le n)
  rw [Nat.zero_sub, Nat.sub_zero, List.take_zero, List.drop_zero, List.nil_append] at hafter
  have hfront : ((stream step state buffer.toList).drop lenIv.toNat).length = n - lenIv.toNat := by
    rw [List.length_drop, length_stream, Vector.length_toList]
  rw [decryptWith, skip?_eq, if_pos ⟨hpos, hle⟩]
  refine ⟨rfl, ?_, ?_⟩
  · rw [hafter, List.take_left' hfront]
  · rw [hafter, List.drop_left' hfront]

/-- Nothing is written if the bytes to drop are not there. -/
theorem decryptWith_of_not_le (step : σ → UInt8 → UInt8 × σ) (state : σ) {lenIv : Int}
    (buffer : Vector UInt8 n) (h : ¬ (0 ≤ lenIv ∧ lenIv ≤ n)) :
    decryptWith step state lenIv buffer = (.error .badLenIv, buffer) := by
  rw [decryptWith, skip?_eq, if_neg h]

theorem deciphers_decrypt {lenIv : Int} (buffer : Vector UInt8 n) (hpos : 0 ≤ lenIv)
    (hle : lenIv ≤ n) :
    Deciphers lenIv.toNat (decipher 4330 buffer.toList) buffer (decrypt lenIv buffer) := by
  have h := deciphers_decryptWith decodeByte charstringKey buffer hpos hle
  rwa [stream_decodeByte, decode_eq_decipher] at h

theorem deciphers_decryptDouble {lenIv : Int} (buffer : Vector UInt8 n) (hpos : 0 ≤ lenIv)
    (hle : lenIv ≤ n) :
    Deciphers lenIv.toNat (decipher 4330 (decipher 55665 buffer.toList)) buffer
      (decryptDouble lenIv buffer) := by
  have h := deciphers_decryptWith decodeByteTwice (fontKey, charstringKey) buffer hpos hle
  rwa [stream_decodeByteTwice, decode_eq_decipher, decode_eq_decipher] at h

section Result

variable {lead plain : List UInt8} {buffer : Vector UInt8 n}
  {result : Except Error Nat × Vector UInt8 n}

/-- As many plain bytes as there are behind the dropped ones stand in front. -/
theorem Deciphers.front_eq (h : Deciphers lead.length (lead ++ plain) buffer result)
    (hsize : n = lead.length + plain.length) :
    ∃ after, result = (.ok plain.length, after) ∧ after.toList.take plain.length = plain := by
  have hcount : n - lead.length = plain.length := by omega
  have hfront := h.front
  rw [hcount, List.drop_left] at hfront
  exact ⟨result.2, Prod.ext (hcount ▸ h.count) rfl, hfront⟩

/-- Where nothing is dropped, the buffer has all the plain bytes. -/
theorem Deciphers.toList_eq (h : Deciphers 0 plain buffer result) : result.2.toList = plain := by
  have hfront := h.front
  rwa [Nat.sub_zero, List.drop_zero, List.take_of_length_le (by simp)] at hfront

end Result

end Stream

/-- If the buffer has the bytes to drop, both kinds of deciphering leave the plain bytes of the
whole buffer in its front, without the dropped ones, and the bytes behind them as they were. Those
under two layers are the ones that a pass for each layer leaves, of which the first drops nothing.
Otherwise both fail and leave the buffer alone. -/
theorem deciphered_in_place {n : Nat} (lenIv : Int) (buffer : Vector UInt8 n) :
    (0 ≤ lenIv → lenIv ≤ n →
      Deciphers lenIv.toNat (decipher 4330 buffer.toList) buffer (decrypt lenIv buffer) ∧
      Deciphers lenIv.toNat (decipher 4330 (decipher 55665 buffer.toList)) buffer
        (decryptDouble lenIv buffer) ∧
      (decryptDouble lenIv buffer).2.toList.take (n - lenIv.toNat) =
        (decrypt lenIv (decryptWith decodeByte fontKey 0 buffer).2).2.toList.take
          (n - lenIv.toNat)) ∧
    (¬ (0 ≤ lenIv ∧ lenIv ≤ n) →
      decrypt lenIv buffer = (.error .badLenIv, buffer) ∧
      decryptDouble lenIv buffer = (.error .badLenIv, buffer)) := by
  refine ⟨fun hpos hle => ?_, fun h => ⟨decryptWith_of_not_le _ _ _ h,
    decryptWith_of_not_le _ _ _ h⟩⟩
  have hdouble := deciphers_decryptDouble buffer hpos hle
  refine ⟨deciphers_decrypt buffer hpos hle, hdouble, ?_⟩
  have houter := deciphers_decryptWith decodeByte fontKey buffer (Int.le_refl 0) (by omega)
  rw [stream_decodeByte, decode_eq_decipher] at houter
  rw [hdouble.front, (deciphers_decrypt _ hpos hle).front, houter.toList_eq]
  rfl

/-- A charstring of two bytes behind four random ones: `0 hsbw`. -/
theorem deciphered_in_place_hsbw :
    let buffer : Vector UInt8 6 := #v[0x10, 0xBF, 0x31, 0x70, 0x79, 0x3D]
    (0 ≤ (4 : Int) ∧ (4 : Int) ≤ (6 : Nat)) ∧
    Deciphers 4 [0, 0, 0, 0, 0x8B, 0x0D] buffer (decrypt 4 buffer) := by
  refine ⟨by decide, ?_⟩
  have hplain : decipher 4330 [0x10, 0xBF, 0x31, 0x70, 0x79, 0x3D] =
      [0, 0, 0, 0, 0x8B, 0x0D] := by decide
  rw [← hplain]
  exact ((deciphered_in_place 4 #v[0x10, 0xBF, 0x31, 0x70, 0x79, 0x3D]).1 (by decide)
    (by decide)).1

/-- Deciphering gives back what was enciphered behind leading bytes, under one layer and under two;
and enciphering what a buffer is deciphered to gives the buffer back. -/
theorem decipherment_inverse :
    (∀ lead plain : List UInt8,
      let single := encipher 4330 (lead ++ plain)
      let double := encipher 55665 single
      (∃ after, decrypt lead.length (Vector.mk single.toArray rfl) = (.ok plain.length, after) ∧
        after.toList.take plain.length = plain) ∧
      ∃ after, decryptDouble lead.length (Vector.mk double.toArray rfl) =
          (.ok plain.length, after) ∧ after.toList.take plain.length = plain) ∧
    ∀ (n : Nat) (buffer : Vector UInt8 n),
      (∃ after, decrypt 0 buffer = (.ok n, after) ∧ encipher 4330 after.toList = buffer.toList) ∧
      ∃ after, decryptDouble 0 buffer = (.ok n, after) ∧
        encipher 55665 (encipher 4330 after.toList) = buffer.toList := by
  refine ⟨fun lead plain => ?_, fun n buffer => ⟨?_, ?_⟩⟩
  · intro single double
    have hsingle : single.toArray.size = lead.length + plain.length := by
      rw [List.size_toArray, length_encipher, List.length_append]
    have hdouble : double.toArray.size = lead.length + plain.length := by
      rw [List.size_toArray, length_encipher, ← List.size_toArray, hsingle]
    have hinner := deciphers_decrypt (Vector.mk single.toArray rfl) (Int.natCast_nonneg lead.length)
      (by omega)
    have houter := deciphers_decryptDouble (Vector.mk double.toArray rfl)
      (Int.natCast_nonneg lead.length) (by omega)
    -- One layer undoes the other, from the outside to the inside.
    have hplain : decipher 4330 single = lead ++ plain := decipher_encipher 4330 (lead ++ plain)
    have hmiddle : decipher 55665 double = single := decipher_encipher 55665 single
    rw [Vector.toList_mk, List.toList_toArray, hplain] at hinner
    rw [Vector.toList_mk, List.toList_toArray, hmiddle, hplain] at houter
    exact ⟨hinner.front_eq hsingle, houter.front_eq hdouble⟩
  · have h := deciphers_decrypt buffer (Int.le_refl 0) (Int.natCast_nonneg n)
    refine ⟨(decrypt 0 buffer).2, Prod.ext h.count rfl, ?_⟩
    rw [h.toList_eq, encipher_decipher]
  · have h := deciphers_decryptDouble buffer (Int.le_refl 0) (Int.natCast_nonneg n)
    refine ⟨(decryptDouble 0 buffer).2, Prod.ext h.count rfl, ?_⟩
    rw [h.toList_eq, encipher_decipher, encipher_decipher]

end Type1.Cipher
