import Type1.Proofs.Checked.Cipher
import Type1.Proofs.Checked.Run

/-!
# Safety

No access to an array is out of range, no copy has source and target of different lengths, no sum
and no difference leaves its type, and no assertion fails: neither in a run, whatever the bytes, the
font, the settings and the receiver, nor in the deciphering of any buffer.
-/

namespace Type1

/-- From bytes in memory, a run on arrays with every access checked is never at a fault. It is over
after a number of steps that the size of the data bounds, and then reports what the decoding
reports: elements and a glyph, or an error. Deciphering with checks does what it does without. -/
theorem no_fault (memory : Memory) (font : Font) (settings : Settings) (takes : Capabilities)
    (offset : Nat) (p : Process) (st : Source.State) :
    (∀ n f q, Process.after memory (.of font settings takes) offset p n ≠ .error (.fault f) q) ∧
    (∃ n < (memory.data.length + 2) ^ (maxDepth + 1),
      Process.report settings takes offset
        (Process.after memory (.of font settings takes) offset p n) =
          some (parse memory.toSource font settings takes offset st).1) ∧
    ∀ (n : Nat) (buffer : Vector UInt8 n) (lenIv : Int),
      Cipher.decryptChecked lenIv buffer = Cipher.outcome (Cipher.decrypt lenIv buffer) ∧
      Cipher.decryptDoubleChecked lenIv buffer =
        Cipher.outcome (Cipher.decryptDouble lenIv buffer) := by
  have hagree (n : Nat) :
      Process.Agrees (Process.after memory (.of font settings takes) offset p n)
        (Run.after memory.toSource (.of font settings takes) offset st n) :=
    Process.after_agrees offset p st n
  refine ⟨fun n f q hf => ?_, ?_, fun n buffer lenIv =>
    ⟨Cipher.decryptChecked_run lenIv buffer, Cipher.decryptDoubleChecked_run lenIv buffer⟩⟩
  · have h := hagree n
    rw [hf] at h
    cases h
  · obtain ⟨n, hn, hend⟩ := Run.after_eq_ended (s := memory.toSource)
      (.of font settings takes) offset st
    have h := hagree n
    rw [hend] at h
    rw [memory.toSource_data] at hn
    exact ⟨n, hn, (h.report settings takes offset).trans
      (congrArg (some ·.1) (Run.parse_eq_conclude hend).symm)⟩

end Type1
