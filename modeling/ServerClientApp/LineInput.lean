import ServerClientApp.Runs
import Mathlib.Data.List.TakeWhile

/-!
An event loop that reads lines through a buffer. A poll sees only what the kernel
holds, while a getline takes what it finds into a buffer first and leaves there what
follows the line. Items, the end of a line and the rest of the program are arbitrary.
-/

namespace ServerClientApp.LineInput

open Runs

variable {α : Type*} [DecidableEq α] (newline : α)

section Lines

def linesFrom : List α → List α → List (List α)
  | _, [] => []
  | line, item :: stream =>
    if item = newline then line :: linesFrom [] stream else linesFrom (line ++ [item]) stream

def completeLines (stream : List α) : List (List α) := linesFrom newline [] stream

variable {newline}

theorem linesFrom_open {stream : List α} (h : newline ∉ stream) (line : List α) :
    linesFrom newline line stream = [] := by
  induction stream generalizing line with
  | nil => rfl
  | cons item stream ih =>
    rw [List.mem_cons, not_or] at h
    have hitem : item ≠ newline := fun heq => h.1 heq.symm
    rw [linesFrom, if_neg hitem]
    exact ih h.2 _

theorem linesFrom_ended {part : List α} (h : newline ∉ part) (line rest : List α) :
    linesFrom newline line (part ++ newline :: rest) =
      (line ++ part) :: linesFrom newline [] rest := by
  induction part generalizing line with
  | nil => simp [linesFrom]
  | cons item part ih =>
    rw [List.mem_cons, not_or] at h
    have hitem : item ≠ newline := fun heq => h.1 heq.symm
    rw [List.cons_append, linesFrom, if_neg hitem, ih h.2, List.append_assoc,
      List.singleton_append]

/-- getline stops at the end of the line, and takes it away. -/
theorem getline_split {part : List α} (h : newline ∉ part) (rest : List α) :
    (part ++ newline :: rest).takeWhile (· ≠ newline) = part ∧
      ((part ++ newline :: rest).dropWhile (· ≠ newline)).drop 1 = rest := by
  have hpart : ∀ item ∈ part, decide (item ≠ newline) = true := by
    intro item hitem
    exact decide_eq_true fun heq => h (heq ▸ hitem)
  rw [List.takeWhile_append_of_pos hpart, List.dropWhile_append_of_pos hpart]
  simp

/-- A stream of whole lines and a rest has these lines and those of the rest. -/
theorem completeLines_append {lines : List (List α)} (h : ∀ line ∈ lines, newline ∉ line)
    (rest : List α) :
    completeLines newline (lines.flatMap (· ++ [newline]) ++ rest) =
      lines ++ completeLines newline rest := by
  induction lines with
  | nil => rfl
  | cons line lines ih =>
    have hline := h line List.mem_cons_self
    have hlines : ∀ line ∈ lines, newline ∉ line :=
      fun line hmem => h line (List.mem_cons_of_mem _ hmem)
    have hsplit : (line :: lines).flatMap (· ++ [newline]) ++ rest =
        line ++ newline :: (lines.flatMap (· ++ [newline]) ++ rest) := by simp
    rw [hsplit, completeLines, linesFrom_ended hline, List.nil_append, List.cons_append]
    exact congrArg (line :: ·) (ih hlines)

/-- There is a line to come exactly if there is an end of one. -/
theorem completeLines_eq_nil {stream : List α} :
    completeLines newline stream = [] ↔ newline ∉ stream := by
  constructor
  · intro hnone hmem
    obtain ⟨part, rest, rfl, hpart⟩ := List.eq_append_cons_of_mem hmem
    rw [completeLines, linesFrom_ended hpart] at hnone
    simp at hnone
  · intro h
    exact linesFrom_open h []

end Lines

section Loop

/-- The loop sleeps in poll or serves other descriptors, is in getline with a line
begun, or has ended. -/
inductive Phase (α : Type*) where
  | polling
  | reading (line : List α)
  | ended
  deriving DecidableEq

/-- `kernel` is what poll sees, `buffer` what a getline has taken and not used. -/
structure Reader (σ α : Type*) where
  kernel : List α
  buffer : List α
  phase : Phase α
  inner : σ

/-- The rest of the program: what it does with a line and with other descriptors, and
whether the loop ends then; `none` if the process ends there. -/
structure Program (σ ω α : Type*) where
  onLine : σ → ω → List α → Option (σ × Bool)
  onOther : σ → ω → Option (σ × Bool)

/-- Input arrives, poll returns for it, getline reads what there is, getline goes
through the buffer and its line is handled, another descriptor is served. -/
inductive Move (ω α : Type*) where
  | arrives (chunk : List α)
  | wakes
  | fills
  | takes (given : ω)
  | other (given : ω)

variable {σ ω : Type*}

def Reader.asleep (inner : σ) : Reader σ α := ⟨[], [], .polling, inner⟩

def loopPhase (ends : Bool) : Phase α := if ends then .ended else .polling

def step (program : Program σ ω α) (capacity : ℕ) (r : Reader σ α) :
    Move ω α → Option (Reader σ α × List (List α))
  | .arrives chunk => some ({ r with kernel := r.kernel ++ chunk }, [])
  | .wakes =>
    match r.phase with
    | .polling => if r.kernel = [] then none else some ({ r with phase := .reading [] }, [])
    | .reading _ | .ended => none
  | .fills =>
    match r.phase with
    | .reading _ =>
      if r.buffer = [] ∧ r.kernel ≠ [] then
        some ({ r with buffer := r.kernel.take capacity, kernel := r.kernel.drop capacity }, [])
      else none
    | .polling | .ended => none
  | .takes given =>
    match r.phase with
    | .reading line =>
      if newline ∈ r.buffer then
        let text := line ++ r.buffer.takeWhile (· ≠ newline)
        (program.onLine r.inner given text).map fun (inner, ends) =>
          (⟨r.kernel, (r.buffer.dropWhile (· ≠ newline)).drop 1, loopPhase ends, inner⟩, [text])
      else some ({ r with buffer := [], phase := .reading (line ++ r.buffer) }, [])
    | .polling | .ended => none
  | .other given =>
    match r.phase with
    | .polling => (program.onOther r.inner given).map fun (inner, ends) =>
        ({ r with phase := loopPhase ends, inner }, [])
    | .reading _ | .ended => none

def arrived : Move ω α → List α
  | .arrives chunk => chunk
  | .wakes | .fills | .takes _ | .other _ => []

def received (moves : List (Move ω α)) : List α := moves.flatMap arrived

def ReadsOneLine (capacity : ℕ) (r : Reader σ α) : Move ω α → Prop
  | .fills => (r.kernel.take capacity).count newline ≤ 1
  | .arrives _ | .wakes | .takes _ | .other _ => True

instance (capacity : ℕ) (r : Reader σ α) :
    ∀ move : Move ω α, Decidable (ReadsOneLine newline capacity r move)
  | .fills => inferInstanceAs (Decidable (_ ≤ 1))
  | .arrives _ | .wakes | .takes _ | .other _ => isTrue trivial

def Reader.begun (r : Reader σ α) : List α :=
  match r.phase with
  | .reading line => line
  | .polling | .ended => []

end Loop

section Accounts

variable {σ ω : Type*} {program : Program σ ω α} {capacity : ℕ} {newline}

/-- Nothing that came in is lost or taken twice: it was handled in whole lines, or it
is in hand, in the buffer or in the kernel. -/
structure Accounted (newline : α) (came : List α) (lines : List (List α)) (r : Reader σ α) :
    Prop where
  came_eq : came = lines.flatMap (· ++ [newline]) ++ (r.begun ++ (r.buffer ++ r.kernel))
  whole : ∀ line ∈ lines, newline ∉ line
  part : newline ∉ r.begun

inductive Moved (newline : α) (program : Program σ ω α) (capacity : ℕ) :
    Reader σ α → Move ω α → Reader σ α → List (List α) → Prop
  | arrives {kernel buffer : List α} {phase : Phase α} {inner : σ} (chunk : List α) :
      Moved newline program capacity ⟨kernel, buffer, phase, inner⟩ (.arrives chunk)
        ⟨kernel ++ chunk, buffer, phase, inner⟩ []
  | wakes {kernel buffer : List α} {inner : σ} : kernel ≠ [] →
      Moved newline program capacity ⟨kernel, buffer, .polling, inner⟩ .wakes
        ⟨kernel, buffer, .reading [], inner⟩ []
  | fills {kernel line : List α} {inner : σ} : kernel ≠ [] →
      Moved newline program capacity ⟨kernel, [], .reading line, inner⟩ .fills
        ⟨kernel.drop capacity, kernel.take capacity, .reading line, inner⟩ []
  | takesPart {kernel buffer line : List α} {inner : σ} (given : ω) : newline ∉ buffer →
      Moved newline program capacity ⟨kernel, buffer, .reading line, inner⟩ (.takes given)
        ⟨kernel, [], .reading (line ++ buffer), inner⟩ []
  | takesLine {kernel line before rest : List α} {inner inner' : σ} {ends : Bool} (given : ω) :
      newline ∉ before → program.onLine inner given (line ++ before) = some (inner', ends) →
      Moved newline program capacity ⟨kernel, before ++ newline :: rest, .reading line, inner⟩
        (.takes given) ⟨kernel, rest, loopPhase ends, inner'⟩ [line ++ before]
  | other {kernel buffer : List α} {inner inner' : σ} {ends : Bool} (given : ω) :
      program.onOther inner given = some (inner', ends) →
      Moved newline program capacity ⟨kernel, buffer, .polling, inner⟩ (.other given)
        ⟨kernel, buffer, loopPhase ends, inner'⟩ []

theorem moved {r r' : Reader σ α} {move : Move ω α} {out : List (List α)}
    (hstep : step newline program capacity r move = some (r', out)) :
    Moved newline program capacity r move r' out := by
  obtain ⟨kernel, buffer, phase, inner⟩ := r
  cases move with
  | arrives chunk =>
    simp only [step, Option.some.injEq, Prod.mk.injEq] at hstep
    obtain ⟨rfl, rfl⟩ := hstep
    exact Moved.arrives chunk
  | wakes =>
    cases phase with
    | polling =>
      simp only [step, Option.ite_none_left_eq_some, Option.some.injEq, Prod.mk.injEq] at hstep
      obtain ⟨hkernel, rfl, rfl⟩ := hstep
      exact Moved.wakes hkernel
    | reading | ended => simp [step] at hstep
  | fills =>
    cases phase with
    | reading line =>
      simp only [step, Option.ite_none_right_eq_some, Option.some.injEq, Prod.mk.injEq] at hstep
      obtain ⟨⟨rfl, hkernel⟩, rfl, rfl⟩ := hstep
      exact Moved.fills hkernel
    | polling | ended => simp [step] at hstep
  | takes given =>
    cases phase with
    | reading line =>
      simp only [step] at hstep
      split at hstep
      · rename_i hmem
        obtain ⟨⟨inner', ends⟩, hline, heq⟩ := Option.map_eq_some_iff.mp hstep
        rw [Prod.mk.injEq] at heq
        obtain ⟨rfl, rfl⟩ := heq
        obtain ⟨before, rest, rfl, hbefore⟩ := List.eq_append_cons_of_mem hmem
        obtain ⟨htake, hdrop⟩ := getline_split hbefore rest
        rw [htake] at hline ⊢
        rw [hdrop]
        exact Moved.takesLine given hbefore hline
      · rename_i hopen
        simp only [Option.some.injEq, Prod.mk.injEq] at hstep
        obtain ⟨rfl, rfl⟩ := hstep
        exact Moved.takesPart given hopen
    | polling | ended => simp [step] at hstep
  | other given =>
    cases phase with
    | polling =>
      simp only [step] at hstep
      obtain ⟨⟨inner', ends⟩, hother, heq⟩ := Option.map_eq_some_iff.mp hstep
      rw [Prod.mk.injEq] at heq
      obtain ⟨rfl, rfl⟩ := heq
      exact Moved.other given hother
    | reading | ended => simp [step] at hstep

omit [DecidableEq α] in
theorem begun_loopPhase (kernel buffer : List α) (ends : Bool) (inner : σ) :
    (⟨kernel, buffer, loopPhase ends, inner⟩ : Reader σ α).begun = [] := by
  cases ends <;> rfl

theorem accounted_step {came : List α} {lines out : List (List α)} {r r' : Reader σ α}
    {move : Move ω α} (h : Accounted newline came lines r)
    (hstep : step newline program capacity r move = some (r', out)) :
    Accounted newline (came ++ arrived move) (lines ++ out) r' := by
  obtain ⟨hcame, hwhole, hpart⟩ := h
  cases moved hstep with
  | arrives chunk =>
    refine ⟨?_, by simpa using hwhole, hpart⟩
    rw [hcame]
    simp [arrived, Reader.begun]
  | wakes | fills =>
    refine ⟨?_, by simpa using hwhole, hpart⟩
    rw [hcame]
    simp [arrived, Reader.begun]
  | takesPart given hopen =>
    refine ⟨?_, by simpa using hwhole, ?_⟩
    · rw [hcame]
      simp [arrived, Reader.begun]
    · simp only [Reader.begun, List.mem_append, not_or] at hpart ⊢
      exact ⟨hpart, hopen⟩
  | @takesLine kernel line before rest inner inner' ends given hbefore =>
    have hline : newline ∉ line ++ before := by
      simp only [Reader.begun] at hpart
      simp only [List.mem_append, not_or]
      exact ⟨hpart, hbefore⟩
    refine ⟨?_, ?_, ?_⟩
    · rw [hcame, begun_loopPhase]
      simp [arrived, Reader.begun]
    · intro text htext
      rcases List.mem_append.mp htext with htext | htext
      · exact hwhole text htext
      · rw [List.mem_singleton.mp htext]
        exact hline
    · rw [begun_loopPhase]
      exact List.not_mem_nil
  | other given =>
    refine ⟨?_, by simpa using hwhole, ?_⟩
    · rw [hcame, begun_loopPhase]
      simp [arrived, Reader.begun]
    · rw [begun_loopPhase]
      exact List.not_mem_nil

theorem accounted_run {came : List α} {lines out : List (List α)} {r r' : Reader σ α}
    {moves : List (Move ω α)} (h : Accounted newline came lines r)
    (hrun : exec (step newline program capacity) r moves = some (r', out)) :
    Accounted newline (came ++ received moves) (lines ++ out) r' := by
  induction moves generalizing came lines r out with
  | nil =>
    simp only [exec_nil, Option.some.injEq, Prod.mk.injEq] at hrun
    obtain ⟨rfl, rfl⟩ := hrun
    simpa [received] using h
  | cons move moves ih =>
    obtain ⟨r₁, o, o', hmove, hrest, rfl⟩ := exec_cons.mp hrun
    have hrun := ih (accounted_step h hmove) hrest
    rw [List.append_assoc, List.append_assoc] at hrun
    exact hrun

/-- With reads of one line each, what is left in the buffer when the loop polls is
less than a line. -/
def Spare (newline : α) (r : Reader σ α) : Prop :=
  match r.phase with
  | .polling => newline ∉ r.buffer
  | .reading _ => r.buffer.count newline ≤ 1
  | .ended => True

theorem spare_loopPhase {kernel buffer : List α} {ends : Bool} {inner : σ}
    (h : newline ∉ buffer) : Spare newline ⟨kernel, buffer, loopPhase ends, inner⟩ := by
  cases ends with
  | true => trivial
  | false => exact h

theorem spare_step {r r' : Reader σ α} {move : Move ω α} {out : List (List α)}
    (h : Spare newline r) (hok : ReadsOneLine newline capacity r move)
    (hstep : step newline program capacity r move = some (r', out)) : Spare newline r' := by
  cases moved hstep with
  | arrives chunk => exact h
  | wakes => exact (List.count_eq_zero.mpr h).trans_le (Nat.zero_le 1)
  | fills => exact hok
  | takesPart given hopen => exact Nat.zero_le 1
  | @takesLine kernel line before rest inner inner' ends given hbefore =>
    apply spare_loopPhase
    simp only [Spare, List.count_append, List.count_cons_self] at h
    exact List.count_eq_zero.mp (by omega)
  | other given => exact spare_loopPhase h

/-- What the loop has handled when it polls with nothing in the kernel: every line
that came in whole, but for those that the buffer holds. -/
theorem handled_when_asleep {inner : σ} {r : Reader σ α} {moves : List (Move ω α)}
    {lines : List (List α)}
    (hrun : exec (step newline program capacity) (Reader.asleep inner) moves = some (r, lines))
    (hpolling : r.phase = .polling) (hempty : r.kernel = []) :
    completeLines newline (received moves) = lines ++ completeLines newline r.buffer := by
  have hstart : Accounted newline [] [] (Reader.asleep inner : Reader σ α) :=
    ⟨rfl, by simp, List.not_mem_nil⟩
  obtain ⟨hcame, hwhole, -⟩ := accounted_run hstart hrun
  rw [List.nil_append, List.nil_append] at hcame
  have hbegun : r.begun = [] := by rw [Reader.begun, hpolling]
  rw [hcame, hbegun, hempty, List.nil_append, List.append_nil]
  exact completeLines_append hwhole r.buffer

/-- If each read of the kernel brings at most one end of a line, then every line that
came in whole has been handled when the loop polls with nothing in the kernel. -/
theorem all_handled_when_asleep {inner : σ} {r : Reader σ α} {moves : List (Move ω α)}
    {lines : List (List α)}
    (hok : Along (step newline program capacity) (ReadsOneLine newline capacity)
      (Reader.asleep inner) moves)
    (hrun : exec (step newline program capacity) (Reader.asleep inner) moves = some (r, lines))
    (hpolling : r.phase = .polling) (hempty : r.kernel = []) :
    lines = completeLines newline (received moves) := by
  have hspare : Spare newline r :=
    exec_invariant (fun _ _ _ _ h hok hstep => spare_step h hok hstep)
      (show Spare newline (Reader.asleep inner : Reader σ α) from List.not_mem_nil) hok hrun
  have hbuffer : newline ∉ r.buffer := by
    simpa only [Spare, hpolling] using hspare
  rw [handled_when_asleep hrun hpolling hempty, completeLines_eq_nil.mpr hbuffer, List.append_nil]

end Accounts

end ServerClientApp.LineInput
