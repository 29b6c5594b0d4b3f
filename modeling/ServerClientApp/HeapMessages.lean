import ServerClientApp.Heaps
import ServerClientApp.HandlerSpecs

/-!
Messages on the heap. The functions of the protocol take the block of a message instead
of a message: recv_efficient allocates the payload and puts its pointer into the block,
and who called it gives both back. A string that is read where there is none, or past
what is written in its block, is an access outside. A program that uses these functions is
compared with the one that passes the messages themselves.
-/

namespace ServerClientApp.HeapMessages

open PartialTransfers Outcomes Outcome Protocols Wildcards ServerHandlers Heaps

section Model

/-- tcp_message as it lies in its block. -/
structure Stored where
  command : UInt8
  len : UInt16
  payload : Pointer
  deriving DecidableEq, Repr

def Stored.zero : Stored := ⟨0, 0, none⟩

inductive Cell where
  | message (m : Stored)
  | text (bytes : Bytes)
  | object
  deriving DecidableEq, Repr

abbrev Handler := Mem Cell Effect Stop

/-- The program reads or writes outside of a block or a buffer. -/
def accesses : Stop → Bool
  | .fault _ | .nullClient | .overflow => true
  | .exit | .die => false

abbrev lift {α : Type} (act : Act α) : Handler α := embed accesses act

def loadMessage (p : Pointer) : Handler Stored := do
  match ← load p with
  | .message s => return s
  | _ => halt .invalid

/-- What is behind a char pointer, NULL among them. -/
def loadText : Pointer → Handler (Option Bytes)
  | none => return none
  | some a => do
    match ← load (some a) with
    | .text bytes => return some bytes
    | _ => halt .invalid

def readString (p : Pointer) : Handler Bytes := do
  let bytes ← loadText p
  match cString bytes with
  | .ok text => return text
  | .error _ => halt .outside

variable (fails : ℕ → Bool)

def make (c : Cell) : Handler ℕ := allocate fails .die c

/-- The payload is allocated once the length is known and is not zero; otherwise the
pointer to it stays. -/
def allocatePayload (old : Pointer) : Option Bytes → Handler Pointer
  | none => return old
  | some bytes => do
    let a ← make fails (.text bytes)
    return some a

def recvEfficientAt (sock : Socket) (msg : ℕ) : Handler (Int × Socket) := do
  let old ← loadMessage (some msg)
  let received := recvEfficient sock ⟨old.command, old.len, none⟩
  let payload ← allocatePayload fails old.payload received.msg.payload
  store (some msg) (.message ⟨received.msg.command, received.msg.len, payload⟩)
  return (received.rc, received.sock)

/-- send_efficient of the message of a block, whose length it swaps in place. It reads as
many bytes of the payload as the length says. -/
def sendEfficientAt (env : Env) (fd : Int) (msg : ℕ) : Handler Int := do
  let s ← loadMessage (some msg)
  let payload ← loadText s.payload
  if (payload.getD []).length < s.len.toNat then halt .outside
  else
    let (rc, sent) ← lift (sendOn env fd ⟨s.command, s.len, payload⟩)
    store (some msg) (.message ⟨sent.command, sent.len, s.payload⟩)
    return rc

end Model

section Rules

variable {fails : ℕ → Bool} {m : Cells Cell} {α β : Type} {post : Cells Cell → α → β → Prop}

abbrev Follows (fails : ℕ → Bool) (m : Cells Cell) (x : Handler α) (y : Act β)
    (post : Cells Cell → α → β → Prop) : Prop :=
  Simulates accesses fails Stop.die m x y post

inductive Points (m : Cells Cell) : Pointer → Option Bytes → Prop
  | null : Points m none none
  | text {a : ℕ} {bytes : Bytes} : m a = some (.text bytes) → Points m (some a) (some bytes)

inductive Allocated (m : Cells Cell) : Option Bytes → Pointer → Cells Cell → Prop
  | nothing : Allocated m none none m
  | block {a : ℕ} (bytes : Bytes) : m a = none →
      Allocated m (some bytes) (some a) (Function.update m a (some (.text bytes)))

theorem Allocated.keeps {bytes : Option Bytes} {p : Pointer} {m' : Cells Cell} {a : ℕ} {c : Cell}
    (h : Allocated m bytes p m') (hcell : m a = some c) : m' a = some c := by
  cases h with
  | nothing => exact hcell
  | @block b bytes hnone =>
    have hne : a ≠ b := ne_of_held hcell hnone
    rw [Function.update_of_ne hne, hcell]

variable {y : Act β}

theorem follows_make {c : Cell} {f : ℕ → Handler α}
    (hf : ∀ a, m a = none → Follows fails (Function.update m a (some c)) (f a) y post) :
    Follows fails m (make fails c >>= f) y post :=
  simulates_allocate hf

theorem follows_loadMessage {a : ℕ} {s : Stored} {f : Stored → Handler α}
    (hcell : m a = some (.message s)) (hf : Follows fails m (f s) y post) :
    Follows fails m (loadMessage (some a) >>= f) y post := by
  unfold loadMessage
  rw [bind_assoc]
  exact simulates_load hcell hf

theorem follows_loadText {p : Pointer} {bytes : Option Bytes} {f : Option Bytes → Handler α}
    (hpoints : Points m p bytes) (hf : Follows fails m (f bytes) y post) :
    Follows fails m (loadText p >>= f) y post := by
  cases hpoints with
  | null => exact hf
  | text hcell =>
    unfold loadText
    rw [bind_assoc]
    exact simulates_load hcell hf

theorem follows_readString {p : Pointer} {bytes : Option Bytes} {f : Bytes → Handler α}
    {g : Bytes → Act β} (hpoints : Points m p bytes)
    (hf : ∀ text, Follows fails m (f text) (g text) post) :
    Follows fails m (readString p >>= f)
      (ofExcept (bytes |> cString |>.mapError Stop.fault) >>= g) post := by
  unfold readString
  rw [bind_assoc]
  refine follows_loadText hpoints ?_
  cases cString bytes with
  | ok text => exact hf text
  | error fault => exact simulates_outside rfl

theorem follows_allocatePayload {bytes : Option Bytes} {f : Pointer → Handler α}
    (hf : ∀ p m', Allocated m bytes p m' → Follows fails m' (f p) y post) :
    Follows fails m (allocatePayload fails none bytes >>= f) y post := by
  cases bytes with
  | none => exact hf none m .nothing
  | some bytes =>
    unfold allocatePayload
    rw [bind_assoc]
    exact follows_make fun a hnone => hf (some a) _ (.block bytes hnone)

theorem follows_recvEfficient {msg : ℕ} {sock : Socket} {f : Int × Socket → Handler α}
    (hcell : m msg = some (.message .zero))
    (hf : ∀ p m', Allocated m (recvEfficient sock TcpMessage.zero).msg.payload p m' →
      Follows fails (Function.update m' msg
        (some (.message ⟨(recvEfficient sock TcpMessage.zero).msg.command,
          (recvEfficient sock TcpMessage.zero).msg.len, p⟩)))
        (f ((recvEfficient sock TcpMessage.zero).rc, (recvEfficient sock TcpMessage.zero).sock))
        y post) :
    Follows fails m (recvEfficientAt fails sock msg >>= f) y post := by
  unfold recvEfficientAt
  rw [bind_assoc]
  refine follows_loadMessage hcell ?_
  simp only [bind_assoc]
  refine follows_allocatePayload fun p m' hallocated => ?_
  refine simulates_store ?_ (hf p m' hallocated)
  rw [hallocated.keeps hcell]
  rfl

/-- The payload is given back, and the heap is as it was but for the message. -/
theorem follows_freePayload {bytes : Option Bytes} {p : Pointer} {m' : Cells Cell} {msg : ℕ}
    {c c' : Cell} {f : Unit → Handler α} (hallocated : Allocated m bytes p m')
    (hcell : m msg = some c)
    (hf : Follows fails (Function.update m msg (some c')) (f ()) y post) :
    Follows fails (Function.update m' msg (some c')) (free p >>= f) y post := by
  cases hallocated with
  | nothing => exact simulates_free_null hf
  | @block a bytes hnone =>
    have hne : a ≠ msg := (ne_of_held hcell hnone).symm
    refine simulates_free (by rw [Function.update_of_ne hne, Function.update_self]; rfl) ?_
    rwa [update_none_behind hne.symm hnone]

/-- A block that was allocated is given back. -/
theorem follows_freeBlock {a : ℕ} {c : Cell} {f : Unit → Handler α} (hnone : m a = none)
    (hf : Follows fails m (f ()) y post) :
    Follows fails (Function.update m a (some c)) (free (some a) >>= f) y post := by
  refine simulates_free (by rw [Function.update_self]; rfl) ?_
  rwa [update_none hnone]

/-- A message is made with a copy of a text. -/
theorem follows_makeMessage {text : Bytes} {command : UInt8} {len : UInt16}
    {f : ℕ → ℕ → Handler α}
    (hf : ∀ msg payload, m msg = none → m payload = none → payload ≠ msg →
      Follows fails (Function.update (Function.update m payload (some (.text text))) msg
        (some (.message ⟨command, len, some payload⟩))) (f msg payload) y post) :
    Follows fails m
      (make fails (.message .zero) >>= fun msg => make fails (.text text) >>= fun payload =>
        store (some msg) (.message ⟨command, len, some payload⟩) >>= fun _ => f msg payload)
      y post := by
  refine follows_make fun msg hmsg => follows_make fun payload hpayload => ?_
  have hne : payload ≠ msg := (ne_of_held (Function.update_self ..) hpayload).symm
  rw [Function.update_of_ne hne] at hpayload
  refine simulates_store (by rw [Function.update_of_ne hne.symm, Function.update_self]; rfl) ?_
  rw [update_shadow hne]
  exact hf msg payload hmsg hpayload hne

theorem sendEfficient_payload (msg : TcpMessage) (calls : List Call) :
    (sendEfficient msg calls).msg.payload = msg.payload := by
  unfold sendEfficient
  dsimp only
  split_ifs <;> rfl

/-- Where nothing fails the length is as it was. -/
theorem sendEfficient_len {msg : TcpMessage} {calls : List Call}
    (hwithin : msg.len.toNat ≤ (msg.payload.getD []).length)
    (hrc : 0 ≤ (sendEfficient msg calls).rc) : (sendEfficient msg calls).msg.len = msg.len := by
  have hlen : msg.block.length = msg.len.toNat := by
    rw [TcpMessage.block, List.length_take, min_eq_left hwithin]
  rcases sendEfficient_cases msg calls hlen with ⟨-, -, hmsg⟩ | ⟨hfailed, -⟩
  · rw [hmsg]
  · omega

/-- The length field of a string with its NUL is within its copy. -/
theorem ofNat_length_le (text : Bytes) :
    (UInt16.ofNat (text.length + 1)).toNat ≤ ((some (text ++ [0])).getD []).length := by
  rw [UInt16.toNat_ofNat', Option.getD_some, List.length_append, List.length_singleton]
  exact Nat.mod_le _ _

theorem rc_of_die {rc : Int} (h : (die (rc < 0)).result = .ok ()) : 0 ≤ rc := by
  by_contra hnot
  simp [die, Outcome.stopIf, Outcome.stop, not_le.mp hnot] at h

theorem follows_sendEfficient {env : Env} {fd : Int} {msg : ℕ} {s : Stored}
    {payload : Option Bytes} {f : Int → Handler α} {g : Int × TcpMessage → Act β}
    (hcell : m msg = some (.message s)) (hpoints : Points m s.payload payload)
    (hwithin : s.len.toNat ≤ (payload.getD []).length)
    (hf : ∀ rc sent, sent.payload = payload → (0 ≤ rc → sent.len = s.len) →
      Follows fails (Function.update m msg (some (.message ⟨sent.command, sent.len, s.payload⟩)))
        (f rc) (g (rc, sent)) post) :
    Follows fails m (sendEfficientAt env fd msg >>= f)
      (sendOn env fd ⟨s.command, s.len, payload⟩ >>= g) post := by
  unfold sendEfficientAt
  simp only [bind_assoc]
  refine follows_loadMessage hcell (follows_loadText hpoints ?_)
  rw [if_neg (not_lt.mpr hwithin)]
  simp only [bind_assoc]
  refine simulates_embed_bind fun r hsent => ?_
  have hpayload : r.2.payload = payload := by
    rw [← Except.ok.inj hsent]
    exact sendEfficient_payload _ _
  have hlen : 0 ≤ r.1 → r.2.len = s.len := by
    intro hrc
    rw [← Except.ok.inj hsent] at hrc ⊢
    exact sendEfficient_len hwithin hrc
  exact simulates_store (by rw [hcell]; rfl) (hf r.1 r.2 hpayload hlen)

end Rules

section Losses

def payloadOf (sock : Socket) : List Bytes :=
  (recvEfficient sock TcpMessage.zero).msg.payload.toList

/-- What came of the payload of a message that breaks off in it. -/
def cutOff (sock : Socket) : List Bytes :=
  if (recvEfficient sock TcpMessage.zero).rc = 0 then payloadOf sock else []

variable {m m' m'' : Cells Cell} {lost lost' : List Bytes}

/-- The heap has one more block for each of the texts, and is the same otherwise. -/
inductive Lost (m : Cells Cell) : List Bytes → Cells Cell → Prop
  | nothing : Lost m [] m
  | block {lost : List Bytes} {m' : Cells Cell} {a : ℕ} (bytes : Bytes) : Lost m lost m' →
      m' a = none →
      Lost m (lost ++ [bytes]) (Function.update m' a (some (.text bytes)))

theorem Lost.trans (h : Lost m lost m') (h' : Lost m' lost' m'') : Lost m (lost ++ lost') m'' := by
  induction h' with
  | nothing => rwa [List.append_nil]
  | block bytes _ hnone ih =>
    rw [← List.append_assoc]
    exact .block bytes ih hnone

theorem Allocated.loses {bytes : Option Bytes} {p : Pointer} (h : Allocated m bytes p m') :
    Lost m bytes.toList m' := by
  cases h with
  | nothing => exact .nothing
  | block bytes hnone => exact .block bytes .nothing hnone

theorem Lost.keeps {a : ℕ} {c : Cell} (h : Lost m lost m') (hcell : m a = some c) :
    m' a = some c := by
  induction h with
  | nothing => exact hcell
  | @block lost m' b bytes _ hnone ih =>
    have hne : a ≠ b := ne_of_held ih hnone
    rw [Function.update_of_ne hne, ih]

/-- A block beside the lost ones is given back. -/
theorem Lost.release {a : ℕ} {c : Cell} (h : Lost (Function.update m a (some c)) lost m')
    (hnone : m a = none) : Lost m lost (Function.update m' a none) := by
  generalize hstart : Function.update m a (some c) = start at h
  induction h with
  | nothing =>
    rw [← hstart, update_none hnone]
    exact .nothing
  | @block lost m' b bytes hlost hfree ih =>
    have hcell : m' a = some c := hlost.keeps (by rw [← hstart, Function.update_self])
    have hne : b ≠ a := (ne_of_held hcell hfree).symm
    rw [Function.update_comm hne]
    exact .block bytes ih (by rw [Function.update_of_ne hne, hfree])

/-- Beside what the heap holds at first there is the message that is used again and again,
and what was lost. -/
def Beside (m : Cells Cell) (msg : ℕ) (lost : List Bytes) (m' : Cells Cell) : Prop :=
  ∃ s m₁, m' = Function.update m₁ msg (some (.message s)) ∧ m₁ msg = none ∧ Lost m lost m₁

theorem Lost.beside {msg : ℕ} {s : Stored}
    (h : Lost (Function.update m msg (some (.message s))) lost m') (hnone : m msg = none) :
    Beside m msg lost m' := by
  have hcell : m' msg = some (.message s) := h.keeps (Function.update_self ..)
  refine ⟨s, Function.update m' msg none, ?_, Function.update_self .., h.release hnone⟩
  rw [Function.update_idem]
  exact (Function.update_eq_self_iff.mpr hcell.symm).symm

theorem Beside.trans {msg : ℕ} (h : Lost m lost m') (h' : Beside m' msg lost' m'') :
    Beside m msg (lost ++ lost') m'' := by
  obtain ⟨s, m₁, heq, hnone, hlost⟩ := h'
  exact ⟨s, m₁, heq, hnone, h.trans hlost⟩

theorem Beside.release {msg : ℕ} (h : Beside m msg lost m') :
    (m' msg).isSome = true ∧ Lost m lost (Function.update m' msg none) := by
  obtain ⟨s, m₁, rfl, hnone, hlost⟩ := h
  rw [update_none hnone, Function.update_self]
  exact ⟨rfl, hlost⟩

theorem Allocated.beside {bytes : Option Bytes} {p : Pointer} {msg : ℕ} {c : Cell} {s : Stored}
    (h : Allocated (Function.update m msg (some c)) bytes p m') (hnone : m msg = none) :
    Beside m msg bytes.toList (Function.update m' msg (some (.message s))) := by
  refine ⟨s, Function.update m' msg none, ?_, Function.update_self .., h.loses.release hnone⟩
  rw [Function.update_idem]

theorem Allocated.points {bytes : Option Bytes} {p : Pointer} {msg : ℕ} {c : Cell}
    {c' : Option Cell} (h : Allocated m bytes p m') (hcell : m msg = some c) :
    Points (Function.update m' msg c') p bytes := by
  cases h with
  | nothing => exact .null
  | @block a bytes hnone =>
    have hne : a ≠ msg := (ne_of_held hcell hnone).symm
    refine .text ?_
    rw [Function.update_of_ne hne, Function.update_self]

end Losses

end ServerClientApp.HeapMessages
