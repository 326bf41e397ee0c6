import Type1.Proofs.Reading
import Type1.Proofs.Run

/-!
# Progress of a run

A call and a return move the cursor backward, so its position alone does not show that a run makes
progress. The positions of all its levels do, the outermost first: a level that waits counts as
further on than where it called, and as less far than where it goes on.

* `Run.step_cases`: all that a step can do.
* `Run.Move`: what a step does to the levels of a run (`move_of_step`).
* `Moment.places`: the positions of the levels. A step increases them lexicographically
  (`Move.places_lt`).
* `run_ends`: a run is over after a number of steps that depends on the size of the data alone.
-/

namespace Type1

/-- The position of a level that waits. Behind its last instruction come its base, its accent, and
then nothing more. -/
def Frame.place (size : Nat) : Frame → Nat
  | .caller p => 2 * p
  | .base _ _ => 2 * size + 2
  | .accent => 2 * size + 3

variable {s : Source} {setup : Setup}

/-- The positions of the levels of a run, the outermost first. -/
def Moment.places (m : Moment s) : List Nat :=
  (m.frames.map (Frame.place s.data.length)).reverse ++ [2 * m.cursor.position + 1]

/-- A list grows if what comes behind a common front begins with something greater. -/
theorem append_cons_lt {a b : Nat} (h : a < b) (l x y : List Nat) : l ++ a :: x < l ++ b :: y :=
  List.append_left_lt (List.cons_lt_cons_iff.2 (.inl h))

theorem lt_of_append_singleton_lt {a b : Nat} {l : List Nat} (h : l ++ [a] < l ++ [b]) : a < b := by
  induction l with
  | nil => simpa [List.cons_lt_cons_iff] using h
  | cons x l ih =>
    rcases List.cons_lt_cons_iff.1 h with hx | ⟨-, h⟩
    · exact absurd hx (Nat.lt_irrefl x)
    · exact ih h

namespace Run

/-- What follows an instruction that succeeds. -/
def pursue (frames : List Frame) (c : Cursor s) (d : Decoder) : Control → Status s
  | .next => .running ⟨frames, c, d⟩
  | .leave flow => leave s frames flow ⟨c.state, d⟩
  | .call offset => enter s (.caller c.position) frames offset ⟨c.state, d⟩
  | .compose base accent shift =>
    enter s (.base accent shift) frames base ⟨c.state, d.beginBase⟩

/-- A step fails at its reading or at its instruction, or the run goes on as that says. -/
theorem step_cases (setup : Setup) (m : Moment s) :
    (∃ x st calls, m.cursor.readInstruction = .failed x st calls ∧
      step s setup m = .ended (.error x ⟨st, m.decoder.recordCalls calls⟩)) ∨
    ∃ i next calls, m.cursor.readInstruction = .done i next calls ∧
      ((∃ x e, Decode.execute setup i (m.decoder.recordCalls calls) = .error x e ∧
        step s setup m = .ended (.error x ⟨next.state, e⟩)) ∨
      ∃ control e, Decode.execute setup i (m.decoder.recordCalls calls) = .ok control e ∧
        step s setup m = pursue m.frames next e control) := by
  unfold step stepWith
  cases m.cursor.readInstruction with
  | failed x st calls => exact .inl ⟨x, st, calls, rfl, rfl⟩
  | done i next calls =>
    refine .inr ⟨i, next, calls, rfl, ?_⟩
    dsimp only
    cases Decode.execute setup i (m.decoder.recordCalls calls) with
    | error x e => exact .inl ⟨x, e, rfl, rfl⟩
    | ok control e =>
      refine .inr ⟨control, e, rfl, ?_⟩
      cases control <;> rfl

/-- What a step does to the levels of a run. -/
inductive Move (l m : Moment s) : Prop where
  /-- The level goes on. -/
  | next (hframes : m.frames = l.frames) (hlt : l.cursor.position < m.cursor.position)
  /-- A level above begins, and the level is to go on at a position further on. -/
  | call (p : Nat) (hframes : m.frames = .caller p :: l.frames) (hlt : l.cursor.position < p)
    (hroom : l.depth < maxDepth)
  /-- The base of an accented character begins. -/
  | base (accent : Nat) (shift : Point) (hframes : m.frames = .base accent shift :: l.frames)
    (hroom : l.depth < maxDepth)
  /-- A level that waits goes on where it was to go on. -/
  | back (left : List Frame)
    (hframes : l.frames = left ++ .caller m.cursor.position :: m.frames)
  /-- The accent follows the base. -/
  | accent (left frames : List Frame) (shift : Point)
    (hbase : l.frames = left ++ .base m.cursor.position shift :: frames)
    (hframes : m.frames = .accent :: frames)

theorem resume_eq_running {frames : List Frame} {offset : Nat} {session : Session} {m : Moment s}
    (h : resume s frames offset session = .running m) :
    m.frames = frames ∧ m.cursor.position = offset := by
  unfold resume at h
  split at h
  · cases h
  · next hopen =>
    cases h
    exact ⟨rfl, Cursor.openAt_position hopen⟩

theorem enter_eq_running {f : Frame} {frames : List Frame} {offset : Nat} {session : Session}
    {m : Moment s} (h : enter s f frames offset session = .running m) :
    m.frames = f :: frames ∧ m.cursor.position = offset ∧ frames.length < maxDepth := by
  unfold enter at h
  split at h
  · next hlt =>
    obtain ⟨hf, hp⟩ := resume_eq_running h
    exact ⟨hf, hp, hlt⟩
  · cases h

/-- Where a level goes on that waits for one that ends. -/
theorem leave_eq_running {frames : List Frame} {flow : Flow} {session : Session} {m : Moment s}
    (h : leave s frames flow session = .running m) :
    (∃ left, frames = left ++ .caller m.cursor.position :: m.frames) ∨
      ∃ left waiting shift, frames = left ++ .base m.cursor.position shift :: waiting ∧
        m.frames = .accent :: waiting := by
  fun_induction leave s frames flow session with
  | case1 flow session => cases h
  | case2 p frames session =>
    obtain ⟨rfl, rfl⟩ := resume_eq_running h
    exact .inl ⟨[], rfl⟩
  | case3 p frames session ih =>
    rcases ih h with ⟨left, rfl⟩ | ⟨left, waiting, shift, rfl, hm⟩
    · exact .inl ⟨.caller p :: left, rfl⟩
    · exact .inr ⟨.caller p :: left, waiting, shift, rfl, hm⟩
  | case4 accent shift frames flow session =>
    obtain ⟨hm, rfl, -⟩ := enter_eq_running h
    exact .inr ⟨[], frames, shift, rfl, hm⟩
  | case5 frames flow session ih =>
    rcases ih h with ⟨left, rfl⟩ | ⟨left, waiting, shift, rfl, hm⟩
    · exact .inl ⟨.accent :: left, rfl⟩
    · exact .inr ⟨.accent :: left, waiting, shift, rfl, hm⟩

/-- A step goes on, goes up by one level, or goes back to a level that waits. -/
theorem move_of_step {l m : Moment s} (h : step s setup l = .running m) : Move l m := by
  unfold step stepWith at h
  split at h
  · cases h
  · next i next calls hread =>
    have hlt := Cursor.readInstruction_lt hread
    split at h
    · cases h
    · cases h
      exact .next rfl hlt
    · rcases leave_eq_running h with ⟨left, hf⟩ | ⟨left, waiting, shift, hf, hm⟩
      · exact .back left hf
      · exact .accent left waiting shift hf hm
    · obtain ⟨hf, -, hroom⟩ := enter_eq_running h
      exact .call _ hf hlt hroom
    · obtain ⟨hf, -, hroom⟩ := enter_eq_running h
      exact .base _ _ hf hroom

/-- Each step takes a run further. -/
theorem Move.places_lt {l m : Moment s} (h : Move l m) : l.places < m.places := by
  have hle := l.cursor.position_le
  unfold Moment.places
  cases h with
  | next hf hlt =>
    rw [hf]
    exact append_cons_lt (by omega) _ _ _
  | call p hf hlt hroom =>
    rw [hf, List.map_cons, List.reverse_cons, List.append_assoc]
    exact append_cons_lt (by rw [Frame.place]; omega) _ _ _
  | base accent shift hf hroom =>
    rw [hf, List.map_cons, List.reverse_cons, List.append_assoc]
    exact append_cons_lt (by rw [Frame.place]; omega) _ _ _
  | back left hf =>
    rw [hf, List.map_append, List.reverse_append, List.map_cons, List.reverse_cons,
      List.append_assoc, List.append_assoc]
    exact append_cons_lt (by rw [Frame.place]; omega) _ _ _
  | accent left frames shift hb hf =>
    rw [hb, hf, List.map_append, List.reverse_append, List.map_cons, List.reverse_cons,
      List.map_cons, List.reverse_cons, List.append_assoc, List.append_assoc, List.append_assoc]
    exact append_cons_lt (by rw [Frame.place, Frame.place]; omega) _ _ _

/-- No more levels wait than there are. -/
theorem Move.depth_le {l m : Moment s} (h : Move l m) (hl : l.depth ≤ maxDepth) :
    m.depth ≤ maxDepth := by
  unfold Moment.depth at *
  cases h with
  | next hf hlt => rwa [hf]
  | call p hf hlt hroom => rw [hf]; exact hroom
  | base accent shift hf hroom => rw [hf]; exact hroom
  | back left hf =>
    rw [hf, List.length_append, List.length_cons] at hl
    omega
  | accent left frames shift hb hf =>
    rw [hb, List.length_append, List.length_cons] at hl
    rw [hf, List.length_cons]
    omega

variable {offset : Nat} {st : Source.State}

theorem depth_le {n : Nat} {m : Moment s} (h : after s setup offset st n = .running m) :
    m.depth ≤ maxDepth := by
  refine invariant (P := fun m => m.depth ≤ maxDepth) (fun m hm => ?_)
    (fun l m hl hm => (move_of_step hm).depth_le hl) h
  rw [Moment.depth, (resume_eq_running hm).1]
  exact Nat.zero_le _

/-- A later moment of a run is further on. -/
theorem places_lt {i j : Nat} {l m : Moment s} (hij : i < j)
    (hl : after s setup offset st i = .running l) (hm : after s setup offset st j = .running m) :
    l.places < m.places := by
  induction j generalizing m with
  | zero => omega
  | succ j ih =>
    obtain ⟨k, hk, hstep⟩ := running_of_succ hm
    have hlt := (move_of_step hstep).places_lt
    rcases Nat.lt_succ_iff_lt_or_eq.1 hij with hj | rfl
    · exact List.lt_trans (ih hj hk) hlt
    · obtain rfl := Status.running.inj (hl.symm.trans hk)
      exact hlt

/-- A level is further on whenever it goes on, whatever the levels above it did in between. -/
theorem position_lt {i j : Nat} {l m : Moment s} (hij : i < j)
    (hl : after s setup offset st i = .running l) (hm : after s setup offset st j = .running m)
    (hf : m.frames = l.frames) : l.cursor.position < m.cursor.position := by
  have hlt := places_lt hij hl hm
  unfold Moment.places at hlt
  rw [hf] at hlt
  have := lt_of_append_singleton_lt hlt
  omega

end Run

/-- A charstring is decoded in fewer than `(size + 2) ^ 11` steps, where `size` is that of the data.
Its run is at most ten levels deep. Each level is always further on when it goes on, and each step
goes on at its level, begins one that is a level deeper, or goes back to one that waits. -/
theorem run_ends (data : List UInt8) (chunk : Option Nat) (font : Font) (settings : Settings)
    (takes : Capabilities) (offset : Nat) (st : Source.State) :
    let run := Run.after (.memory data chunk) (.of font settings takes) offset st
    (∃ n < (data.length + 2) ^ 11, ∃ o, run n = .ended o ∧
      parse (.memory data chunk) font settings takes offset st =
        Run.conclude settings takes offset o) ∧
    (∀ n m, run n = .running m → m.depth ≤ 10) ∧
    (∀ i j l m, i < j → run i = .running l → run j = .running m → m.frames = l.frames →
      l.cursor.position < m.cursor.position) ∧
    ∀ n l m, run n = .running l → run (n + 1) = .running m → Run.Move l m := by
  intro run
  refine ⟨?_, fun n m => Run.depth_le, fun i j l m => Run.position_lt, fun n l m hl hm => ?_⟩
  · obtain ⟨n, hn, hend⟩ :=
      Run.after_eq_ended (s := .memory data chunk) (.of font settings takes) offset st
    rw [Source.memory_data] at hn
    exact ⟨n, hn, _, hend, Run.parse_eq_conclude hend⟩
  · exact Run.move_of_step ((Run.after_succ hl).symm.trans hm)

end Type1
