import Type1.Proofs.Run

/-!
# Runs above other levels

A run does the same above levels that wait for it, as long as there is room for all of them
(`Run.advance_onto`). So a charstring that never comes to the last level ends as it does with a
level less (`Run.decodeAt_of_depth_lt`).
-/

namespace Type1.Run

variable {s : Source} {setup : Setup}

/-- A run above other levels: they stay below its own, and the nearest one goes on when it ends. -/
def onto (below : List Frame) : Status s → Status s
  | .running m => .running { m with frames := m.frames ++ below }
  | .ended outcome => proceed below outcome

/-- A run has not failed, and there is room for levels below its own. -/
def Fits (below : List Frame) : Status s → Prop
  | .running m => m.depth + below.length ≤ maxDepth
  | .ended (.ok _ _) => True
  | .ended (.error _ _) => False

variable {below frames : List Frame}

theorem resume_onto (offset : Nat) (session : Session) :
    resume s (frames ++ below) offset session = onto below (resume s frames offset session) := by
  unfold resume
  cases Cursor.openAt (s := s) offset session.source <;> rfl

/-- A level above begins in the same way. -/
theorem enter_onto {f : Frame} {offset : Nat} {session : Session}
    (h : Fits below (enter s f frames offset session)) :
    enter s f (frames ++ below) offset session = onto below (enter s f frames offset session) := by
  have hroom : frames.length + below.length < maxDepth := by
    unfold enter resume at h
    split at h
    · split at h
      · cases h
      · next hopen =>
        have hle : (f :: frames).length + below.length ≤ maxDepth := h
        rw [List.length_cons] at hle
        omega
    · cases h
  unfold enter
  rw [List.length_append, if_pos hroom, if_pos (by omega), ← List.cons_append]
  exact resume_onto offset session

/-- A level ends in the same way. -/
theorem leave_onto {flow : Flow} {session : Session}
    (h : Fits below (leave s frames flow session)) :
    leave s (frames ++ below) flow session = onto below (leave s frames flow session) := by
  fun_induction leave s frames flow session with
  | case1 flow session => rfl
  | case2 p frames session => exact resume_onto p session
  | case3 p frames session ih => exact ih h
  | case4 accent shift frames flow session => exact enter_onto h
  | case5 frames flow session ih => exact ih h

theorem step_onto {m : Moment s} (h : Fits below (step s setup m)) :
    step s setup { m with frames := m.frames ++ below } = onto below (step s setup m) := by
  unfold step stepWith at h ⊢
  dsimp only
  cases hread : m.cursor.readInstruction with
  | failed error source calls => rfl
  | done i next calls =>
    rw [hread] at h
    dsimp only at h ⊢
    cases hx : Decode.execute setup i (m.decoder.recordCalls calls) with
    | error error d => rfl
    | ok control d =>
      rw [hx] at h
      cases control with
      | next => rfl
      | leave flow => exact leave_onto h
      | call offset => exact enter_onto h
      | compose base accent shift => exact enter_onto h

/-- A run does the same above other levels, up to its end. -/
theorem advance_onto {n : Nat} {x : Status s}
    (h : ∀ k ≤ n, Fits below (advance s setup k x)) :
    ∃ t, advance s setup t (onto below x) = onto below (advance s setup n x) := by
  induction n generalizing x with
  | zero => exact ⟨0, rfl⟩
  | succ n ih =>
    cases x with
    | ended outcome => exact ⟨0, rfl⟩
    | running m =>
      have hstep : Fits below (step s setup m) := h 1 (by omega)
      obtain ⟨t, ht⟩ := ih fun k hk => h (k + 1) (by omega)
      refine ⟨t + 1, ?_⟩
      show advance s setup t (step s setup _) = _
      rw [step_onto hstep]
      exact ht

/-- The number of levels above the glyph, of a run that goes on. -/
def depth? : Status s → Option Nat
  | .running m => some m.depth
  | .ended _ => none

/-- What holds of the steps of a run can be looked over, as it comes to an end. -/
theorem forall_after_of_check {P : Status s → Prop} {offset last : Nat} {st : Source.State}
    (hend : depth? (after s setup offset st last) = none) (hended : ∀ o, P (.ended o))
    (h : ∀ n < last, P (after s setup offset st n)) (n : Nat) : P (after s setup offset st n) := by
  rcases Nat.lt_or_ge n last with hlt | hle
  · exact h n hlt
  · obtain ⟨k, rfl⟩ := Nat.exists_eq_add_of_le hle
    cases hx : after s setup offset st last with
    | running m => rw [hx] at hend; cases hend
    | ended o =>
      have hlater : after s setup offset st (last + k) = .ended o := by
        unfold after at hx ⊢
        rw [advance_add, hx, advance_ended]
      rw [hlater]
      exact hended o

theorem depth_le_of_check {offset bound last : Nat} {st : Source.State}
    (hend : depth? (after s setup offset st last) = none)
    (h : ∀ n < last, ∀ k ∈ depth? (after s setup offset st n), k ≤ bound) {n : Nat}
    {m : Moment s} (hm : after s setup offset st n = .running m) : m.depth ≤ bound :=
  forall_after_of_check (P := fun x => ∀ k ∈ depth? x, k ≤ bound) hend (fun _ => nofun) h n m.depth
    (by rw [hm]; rfl)

/-- A charstring that never comes to the last level ends the same if there is a level less. -/
theorem decodeAt_of_depth_lt {levels offset : Nat} {st : Source.State} {flow : Flow}
    {session : Session} (hlevels : levels + 1 = maxDepth)
    (hok : Session.decodeGlyph s setup offset st = .ok flow session)
    (hdepth : ∀ n m, after s setup offset st n = .running m → m.depth ≤ levels) :
    ∃ flow' session', Session.decodeAt s (Decode.execute setup)
      (Session.nested s (Decode.execute setup) levels) offset
        ⟨st, .start setup.font⟩ = .ok flow' session' ∧
      session'.mapDecoder .endParts = session.mapDecoder .endParts := by
  obtain ⟨n, -, hn⟩ := after_eq_ended (s := s) setup offset st
  rw [hok] at hn
  have hfits (k : Nat) (hk : k ≤ n) : Fits [.accent] (after s setup offset st k) := by
    cases hx : after s setup offset st k with
    | running m =>
      have := hdepth k m hx
      show m.depth + 1 ≤ maxDepth
      omega
    | ended outcome =>
      cases ended_unique hx hn
      trivial
  -- A run that never has all frames can be laid onto one more frame; the level above that frame is
  -- the same run.
  obtain ⟨t, ht⟩ := advance_onto hfits
  unfold after at hn
  rw [← resume_onto, hn] at ht
  have hframes : [Frame.accent].length + levels = maxDepth := (Nat.add_comm 1 levels).trans hlevels
  have hfollows : Follows setup (Session.nested s (Decode.execute setup) levels) [.accent] _ :=
    follows_nested levels hframes
  obtain ⟨u, -, hu⟩ := advance_decodeAt hfollows offset ⟨st, .start setup.font⟩
  cases ho : Session.decodeAt s (Decode.execute setup)
    (Session.nested s (Decode.execute setup) levels) offset
    ⟨st, .start setup.font⟩ with
  | error x session' =>
    rw [ho] at hu
    cases ended_unique ht hu
  | ok flow' session' =>
    rw [ho] at hu
    have hend := ended_unique ht hu
    exact ⟨flow', session', rfl, (EStateM.Result.ok.inj hend).2.symm⟩

end Type1.Run
