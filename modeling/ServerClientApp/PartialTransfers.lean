import Mathlib.Data.List.Basic
import Mathlib.Data.List.Infix
import Mathlib.Tactic.Common

/-!
Blocks of items moved by calls that may each move only a part of what they
are asked to move. A list of call results drives every transfer; when it is
used up, a call moves all it can. Every loop that repeats a call until its
block is done is such a list, so a statement for all lists is a statement for
all fragmentations. Nothing here mentions bytes or sockets.
-/

namespace ServerClientApp.PartialTransfers

/-- What one call reports: how many items it moved, or that it failed. -/
inductive Call where
  | moved (count : ℕ)
  | failed
  deriving DecidableEq, Repr

/-- A legal count is at least one and at most what the call could move. -/
def grant (count most : ℕ) : ℕ := max 1 (min count most)

theorem grant_pos (count most : ℕ) : 1 ≤ grant count most := le_max_left _ _

theorem grant_le (count most : ℕ) (h : 1 ≤ most) : grant count most ≤ most :=
  max_le h (min_le_right _ _)

def Steady (calls : List Call) : Prop := Call.failed ∉ calls

instance (calls : List Call) : Decidable (Steady calls) := by
  unfold Steady
  infer_instance

theorem steady_nil : Steady [] := List.not_mem_nil

theorem Steady.tail {call : Call} {calls : List Call} (h : Steady (call :: calls)) :
    Steady calls := fun hmem => h (List.mem_cons_of_mem call hmem)

theorem Steady.not_failed {calls : List Call} : ¬ Steady (Call.failed :: calls) :=
  fun h => h List.mem_cons_self

variable {α : Type*}

section Push

/-- An outgoing transfer: the items moved, whether all were, the calls left. -/
structure Pushed (α : Type*) where
  wire : List α
  complete : Bool
  calls : List Call
  deriving DecidableEq, Repr

def push : List Call → List α → Pushed α
  | calls, [] => ⟨[], true, calls⟩
  | [], item :: block => ⟨item :: block, true, []⟩
  | .failed :: calls, _ :: _ => ⟨[], false, calls⟩
  | .moved count :: calls, item :: block =>
    let k := grant count (block.length + 1)
    let later := push calls ((item :: block).drop k)
    ⟨(item :: block).take k ++ later.wire, later.complete, later.calls⟩

/-- The items on the wire are always the first ones of the block, and they are
all of it exactly when no call failed on the way. -/
theorem push_wire (calls : List Call) (block : List α) :
    (push calls block).wire <+: block ∧
      ((push calls block).complete = true ↔ (push calls block).wire = block) := by
  induction calls generalizing block with
  | nil => cases block <;> simp [push]
  | cons call calls ih =>
    cases block with
    | nil => simp [push]
    | cons item block =>
      cases call with
      | failed => simp [push]
      | moved count =>
        obtain ⟨hinit, hiff⟩ := ih ((item :: block).drop (grant count (block.length + 1)))
        have hsplit := List.take_append_drop (grant count (block.length + 1)) (item :: block)
        constructor
        · have h := (List.prefix_append_right_inj
            ((item :: block).take (grant count (block.length + 1)))).mpr hinit
          rwa [hsplit] at h
        · change (push calls _).complete = true ↔ _ ++ (push calls _).wire = item :: block
          rw [hiff]
          constructor
          · intro h
            rw [h, hsplit]
          · intro h
            exact List.append_cancel_left (h.trans hsplit.symm)

theorem push_steady (calls : List Call) (block : List α) (h : Steady calls) :
    (push calls block).complete = true ∧ Steady (push calls block).calls := by
  induction calls generalizing block with
  | nil => cases block <;> simp [push, steady_nil]
  | cons call calls ih =>
    cases block with
    | nil => exact ⟨rfl, h⟩
    | cons item block =>
      cases call with
      | failed => exact absurd h Steady.not_failed
      | moved count => exact ih _ h.tail

theorem push_failed_length (calls : List Call) (block : List α)
    (h : (push calls block).complete = false) :
    (push calls block).wire.length < block.length := by
  obtain ⟨hinit, hiff⟩ := push_wire calls block
  refine lt_of_le_of_ne hinit.length_le ?_
  intro heq
  rw [hiff.mpr (hinit.eq_of_length heq)] at h
  exact Bool.noConfusion h

/-- Between what came before and what would follow, a block that was not moved
whole leaves a strict prefix. -/
theorem push_failed_strict (calls : List Call) (block before later : List α)
    (h : (push calls block).complete = false) :
    before ++ (push calls block).wire <+: before ++ (block ++ later) ∧
      before ++ (push calls block).wire ≠ before ++ (block ++ later) := by
  constructor
  · exact (List.prefix_append_right_inj before).mpr
      ((push_wire calls block).1.trans (List.prefix_append block later))
  · intro heq
    have hshort := push_failed_length calls block h
    have hlength := congrArg List.length heq
    simp only [List.length_append] at hlength
    omega

/-- A call that does not fail moves a single item. -/
theorem push_single (count : ℕ) (calls : List Call) (item : α) :
    push (.moved count :: calls) [item] = ⟨[item], true, calls⟩ := by
  have hone : grant count 1 = 1 := le_antisymm (grant_le count 1 le_rfl) (grant_pos count 1)
  simp [push, hone]

/-- Of two items it moves one or both. -/
theorem push_pair (count : ℕ) (calls : List Call) (a b : α) :
    push (.moved count :: calls) [a, b] =
      if count ≤ 1 then ⟨a :: (push calls [b]).wire, (push calls [b]).complete,
        (push calls [b]).calls⟩
      else ⟨[a, b], true, calls⟩ := by
  by_cases hcount : count ≤ 1
  · have hone : grant count 2 = 1 := by
      unfold grant
      omega
    simp [push, hone, hcount]
  · have htwo : grant count 2 = 2 := by
      unfold grant
      omega
    simp [push, htwo, hcount]

end Push

section Pull

inductive Ending where
  | complete
  | closed
  | failed
  deriving DecidableEq, Repr

structure Pulled (α : Type*) where
  got : List α
  ending : Ending
  rest : List α
  calls : List Call
  deriving DecidableEq, Repr

/-- Repeat the call until the wanted number of items is got, the stream ends or
a call fails. A call on an exhausted stream reports the end of the stream. -/
def pull : List Call → ℕ → List α → Pulled α
  | calls, 0, stream => ⟨[], .complete, stream, calls⟩
  | .failed :: calls, _ + 1, stream => ⟨[], .failed, stream, calls⟩
  | calls, _ + 1, [] => ⟨[], .closed, [], calls⟩
  | [], wanted + 1, item :: stream =>
    if wanted + 1 ≤ stream.length + 1 then
      ⟨(item :: stream).take (wanted + 1), .complete, (item :: stream).drop (wanted + 1), []⟩
    else
      ⟨item :: stream, .closed, [], []⟩
  | .moved count :: calls, wanted + 1, item :: stream =>
    let k := grant count (min (wanted + 1) (stream.length + 1))
    let later := pull calls (wanted + 1 - k) ((item :: stream).drop k)
    ⟨(item :: stream).take k ++ later.got, later.ending, later.rest, later.calls⟩

@[simp] theorem pull_zero (calls : List Call) (stream : List α) :
    pull calls 0 stream = ⟨[], .complete, stream, calls⟩ := by
  cases calls with
  | nil => simp [pull]
  | cons call calls => cases call <;> simp [pull]

/-- Calls that do not fail leave calls that do not fail, and no failed transfer. -/
theorem pull_keeps_steady (calls : List Call) (wanted : ℕ) (stream : List α) (h : Steady calls) :
    (pull calls wanted stream).ending ≠ .failed ∧ Steady (pull calls wanted stream).calls := by
  induction calls generalizing wanted stream with
  | nil =>
    cases wanted with
    | zero => simp [steady_nil]
    | succ wanted =>
      cases stream with
      | nil => simp [pull, steady_nil]
      | cons item stream =>
        simp only [pull]
        split <;> simp [steady_nil]
  | cons call calls ih =>
    cases wanted with
    | zero => simpa using h
    | succ wanted =>
      cases call with
      | failed => exact absurd h Steady.not_failed
      | moved count =>
        cases stream with
        | nil => exact ⟨Ending.noConfusion, h⟩
        | cons item stream => exact ih _ _ h.tail

/-- A stream that holds enough items gives exactly the wanted ones, however the
calls split them, unless a call fails. -/
theorem pull_enough (calls : List Call) (wanted : ℕ) (stream : List α)
    (hlen : wanted ≤ stream.length) :
    (pull calls wanted stream).ending = .failed ∨
      ((pull calls wanted stream).got = stream.take wanted ∧
        (pull calls wanted stream).ending = .complete ∧
        (pull calls wanted stream).rest = stream.drop wanted) := by
  induction calls generalizing wanted stream with
  | nil =>
    cases wanted with
    | zero => simp
    | succ wanted =>
      cases stream with
      | nil => simp at hlen
      | cons item stream =>
        have hle : wanted + 1 ≤ stream.length + 1 := by simpa using hlen
        simp [pull, show wanted ≤ stream.length by omega]
  | cons call calls ih =>
    cases wanted with
    | zero => simp
    | succ wanted =>
      cases stream with
      | nil => simp at hlen
      | cons item stream =>
        cases call with
        | failed => exact Or.inl rfl
        | moved count =>
          have hmost : min (wanted + 1) (stream.length + 1) = wanted + 1 :=
            min_eq_left (by simpa using hlen)
          have hk := grant_le count (wanted + 1) (by omega)
          simp only [pull, hmost]
          refine (ih (wanted + 1 - grant count (wanted + 1))
            ((item :: stream).drop (grant count (wanted + 1)))
            (by simp only [List.length_drop, List.length_cons] at hlen ⊢; omega)).imp_right ?_
          intro hgiven
          obtain ⟨hgot, hend, hrest⟩ := hgiven
          refine ⟨?_, hend, ?_⟩
          · rw [hgot, ← List.take_add]
            congr 1
            omega
          · rw [hrest, List.drop_drop]
            congr 1
            omega

/-- A stream that ends too early is read to its end and reported closed, unless a
call fails. -/
theorem pull_short (calls : List Call) (wanted : ℕ) (stream : List α)
    (hlen : stream.length < wanted) :
    (pull calls wanted stream).ending = .failed ∨
      ((pull calls wanted stream).got = stream ∧
        (pull calls wanted stream).ending = .closed) := by
  induction calls generalizing wanted stream with
  | nil =>
    cases wanted with
    | zero => omega
    | succ wanted =>
      cases stream with
      | nil => simp [pull]
      | cons item stream =>
        have hlt : ¬ wanted ≤ stream.length := by simp at hlen; omega
        simp [pull, hlt]
  | cons call calls ih =>
    cases wanted with
    | zero => omega
    | succ wanted =>
      cases call with
      | failed => exact Or.inl rfl
      | moved count =>
        cases stream with
        | nil => simp [pull]
        | cons item stream =>
          have hmost : min (wanted + 1) (stream.length + 1) = stream.length + 1 :=
            min_eq_right (by simp at hlen; omega)
          have hk := grant_le count (stream.length + 1) (by omega)
          have hpos := grant_pos count (stream.length + 1)
          simp only [pull, hmost]
          refine (ih (wanted + 1 - grant count (stream.length + 1))
            ((item :: stream).drop (grant count (stream.length + 1)))
            (by simp only [List.length_drop, List.length_cons] at hlen ⊢; omega)).imp_right ?_
          intro hgiven
          obtain ⟨hgot, hend⟩ := hgiven
          refine ⟨?_, hend⟩
          rw [hgot, List.take_append_drop]

end Pull

end ServerClientApp.PartialTransfers
