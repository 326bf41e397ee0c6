import Type1.Cipher
import Type1.Proofs.Checked.Buffer

/-!
# Deciphering in place has no faults

The cipher with its keys in words of 32 bits, in place in a buffer, with every access and every sum
checked. A key never takes more than 16 bits, so the sum of key and cipher byte is a word.

* `decodeByteChecked`, `compactChecked`, `decryptWithChecked`: the checked deciphering.
* `decodeByteChecked_run`: a byte has no fault, and neither has a buffer (`decryptChecked_run`,
  `decryptDoubleChecked_run`).
-/

namespace Type1.Cipher

open Guarded

variable {σ τ ρ : Type} {n : Nat}

/-! ## The checked deciphering -/

/-- The plain byte of a cipher byte and the key that follows, in words of 32 bits. -/
def decodeByteChecked (key : UInt32) (cipher : UInt8) : Guarded τ (UInt8 × UInt32) := do
  let plain := cipher.toUInt32 ^^^ (key >>> 8)
  ensure .arithmetic (cipher.toUInt32.toNat + key.toNat < 2 ^ 32)
  let next := ((cipher.toUInt32 + key) * 52845 + 22719) &&& 0xFFFF
  return ((plain &&& 0xFF).toUInt8, next)

/-- The plain byte under two layers. -/
def decodeByteTwiceChecked (keys : UInt32 × UInt32) (cipher : UInt8) :
    Guarded τ (UInt8 × (UInt32 × UInt32)) := do
  let (middle, outer) ← decodeByteChecked keys.1 cipher
  let (plain, inner) ← decodeByteChecked keys.2 middle
  return (plain, (outer, inner))

/-- Writes the plain byte of each cipher byte from position `i` on to `skip` positions before it. -/
def compactChecked (step : σ → UInt8 → Guarded (Vector UInt8 n) (UInt8 × σ)) (skip i : Nat)
    (state : σ) : Guarded (Vector UInt8 n) Unit :=
  if _h : i < n then do
    let (plain, next) ← step state (← read (← get) i)
    if skip ≤ i then
      let j ← minus i skip
      set (← write (← get) j plain)
      compactChecked step skip (i + 1) next
    else
      compactChecked step skip (i + 1) next
  else
    pure ()
termination_by n - i

/-- Deciphers the buffer and drops the first `lenIv` plain bytes. -/
def decryptWithChecked (step : σ → UInt8 → Guarded (Vector UInt8 n) (UInt8 × σ)) (state : σ)
    (lenIv : Int) : Guarded (Vector UInt8 n) Nat := do
  let skip ← orFail .badLenIv (skip? lenIv n)
  compactChecked step skip 0 state
  minus n skip

/-- Deciphers a charstring. -/
def decryptChecked (lenIv : Int) : Guarded (Vector UInt8 n) Nat :=
  decryptWithChecked decodeByteChecked charstringKey.toUInt32 lenIv

/-- Deciphers a charstring that still has the layer of the font file. -/
def decryptDoubleChecked (lenIv : Int) : Guarded (Vector UInt8 n) Nat :=
  decryptWithChecked decodeByteTwiceChecked (fontKey.toUInt32, charstringKey.toUInt32) lenIv

/-! ## What it does -/

/-- The outcome of a deciphering without faults. -/
def outcome : Except Error Nat × Vector UInt8 n → EStateM.Result Stop (Vector UInt8 n) Nat
  | (.ok count, buffer) => .ok count buffer
  | (.error e, buffer) => .error (.failed e) buffer

theorem mask_toUInt32 (key : Key) (cipher : UInt8) :
    ((cipher.toUInt32 ^^^ (key.toUInt32 >>> 8)) &&& 0xFF).toUInt8 = cipher ^^^ mask key := by
  have hshift : key.toUInt32 >>> 8 = (key >>> 8).toUInt32 := by
    rw [UInt16.toUInt32_shiftRight]
    rfl
  rw [hshift, UInt32.toUInt8_and, UInt32.toUInt8_xor, UInt8.toUInt8_toUInt32,
    UInt16.toUInt8_toUInt32, mask]
  exact UInt8.and_neg_one

theorem nextKey_toUInt32 (key : Key) (cipher : UInt8) :
    ((cipher.toUInt32 + key.toUInt32) * 52845 + 22719) &&& 0xFFFF =
      (nextKey key cipher).toUInt32 := by
  apply UInt32.toNat.inj
  have hmod (x : Nat) : x &&& 65535 = x % 65536 := Nat.and_two_pow_sub_one_eq_mod x 16
  simp [nextKey, hmod]

theorem decodeByteChecked_run (key : Key) (cipher : UInt8) {s : τ} :
    decodeByteChecked key.toUInt32 cipher s =
      .ok (cipher ^^^ mask key, (nextKey key cipher).toUInt32) s := by
  have hkey := key.toNat_lt
  have hcipher := cipher.toNat_lt
  rw [decodeByteChecked, bind_ok (ensure_run ?_)]
  · rw [mask_toUInt32, nextKey_toUInt32]
    rfl
  · rw [UInt8.toNat_toUInt32, UInt16.toNat_toUInt32]
    omega

theorem decodeByteTwiceChecked_run (keys : Key × Key) (cipher : UInt8) {s : τ} :
    decodeByteTwiceChecked (keys.1.toUInt32, keys.2.toUInt32) cipher s =
      .ok ((decodeByteTwice keys cipher).1, ((decodeByteTwice keys cipher).2.1.toUInt32,
        (decodeByteTwice keys cipher).2.2.toUInt32)) s := by
  rw [decodeByteTwiceChecked, bind_ok (decodeByteChecked_run keys.1 cipher)]
  dsimp only
  rw [bind_ok (decodeByteChecked_run keys.2 _)]
  rfl

/-- Deciphering byte by byte, with keys in words of another size. -/
theorem compactChecked_run {step : ρ → UInt8 → UInt8 × ρ}
    {stepChecked : σ → UInt8 → Guarded (Vector UInt8 n) (UInt8 × σ)} (wide : ρ → σ)
    (hstep : ∀ state cipher s, stepChecked (wide state) cipher s =
      .ok ((step state cipher).1, wide (step state cipher).2) s)
    (skip i : Nat) (state : ρ) (buffer : Vector UInt8 n) :
    compactChecked stepChecked skip i (wide state) buffer =
      .ok () (compact step skip i state buffer) := by
  induction hk : n - i generalizing i state buffer with
  | zero =>
    rw [compactChecked, compact, dif_neg (by omega), dif_neg (by omega)]
    rfl
  | succ k ih =>
    have hi : i < n := by omega
    rw [compactChecked, compact, dif_pos hi, dif_pos hi, get_bind, bind_ok (read_run hi),
      bind_ok (hstep _ _ _)]
    dsimp only
    by_cases hskip : skip ≤ i
    · rw [if_pos hskip, if_pos hskip, bind_ok (minus_run hskip), get_bind,
        bind_ok (write_run (by omega))]
      exact ih (i + 1) _ _ (by omega)
    · rw [if_neg hskip, if_neg hskip]
      exact ih (i + 1) _ _ (by omega)

theorem skip?_le {lenIv : Int} {size skip : Nat} (h : skip? lenIv size = some skip) :
    skip ≤ size := by
  unfold skip? at h
  split at h
  · split at h
    · cases h
      assumption
    · cases h
  · cases h

theorem decryptWithChecked_run {step : ρ → UInt8 → UInt8 × ρ}
    {stepChecked : σ → UInt8 → Guarded (Vector UInt8 n) (UInt8 × σ)} (wide : ρ → σ)
    (hstep : ∀ state cipher s, stepChecked (wide state) cipher s =
      .ok ((step state cipher).1, wide (step state cipher).2) s)
    (state : ρ) (lenIv : Int) (buffer : Vector UInt8 n) :
    decryptWithChecked stepChecked (wide state) lenIv buffer =
      outcome (decryptWith step state lenIv buffer) := by
  rw [decryptWithChecked, decryptWith]
  cases hskip : skip? lenIv n with
  | none => rfl
  | some skip =>
    rw [bind_ok orFail_run, bind_ok (compactChecked_run wide hstep skip 0 state buffer),
      minus_run (skip?_le hskip)]
    rfl

/-- Deciphering has no fault, whatever the buffer and the number of bytes to drop. -/
theorem decryptChecked_run (lenIv : Int) (buffer : Vector UInt8 n) :
    decryptChecked lenIv buffer = outcome (decrypt lenIv buffer) :=
  decryptWithChecked_run UInt16.toUInt32 (fun key cipher _ => decodeByteChecked_run key cipher)
    charstringKey lenIv buffer

theorem decryptDoubleChecked_run (lenIv : Int) (buffer : Vector UInt8 n) :
    decryptDoubleChecked lenIv buffer = outcome (decryptDouble lenIv buffer) :=
  decryptWithChecked_run (fun keys : Key × Key => (keys.1.toUInt32, keys.2.toUInt32))
    (fun keys cipher _ => decodeByteTwiceChecked_run keys cipher) (fontKey, charstringKey) lenIv
    buffer

end Type1.Cipher
