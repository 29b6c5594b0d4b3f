import ServerClientApp.ServerHeap
import ServerClientApp.ServerProgram

/-!
The server process with its memory, from main to the end of its destructor. While it is
in its loop the heap holds the server, the message run uses again and again, the record
of every registered id, and the payloads of messages that broke off; when main has
returned it holds the last only.
-/

namespace ServerClientApp.ServerHeapRuns

open PartialTransfers Outcomes Outcome Protocols Wildcards Datagrams ServerHandlers HandlerSpecs
  ServerRuns ClientLoop ServerProgram Heaps HeapMessages ServerHeap

section Model

variable (fails : ℕ → Bool)

/-- The iterator or an index may also be past the end of the vector. -/
def loopAccesses : LoopStop → Bool
  | .ended reason => accesses reason
  | .pastEnd => true
  | .unfinished => false

abbrev lifted {ε α : Type} (x : Outcome ε LoopStop α) : Mem Cell ε LoopStop α :=
  embed loopAccesses x

def inLoopAt {α : Type} (x : Handler α) : Mem Cell Handling LoopStop α := hoist .effect .ended x

def clientLoopAt (envs : Int → Env) (socks : Int → Socket) (msg : ℕ) :
    ℕ → HeapServer → ℕ → Mem Cell Handling LoopStop HeapServer
  | 0, _, _ => lifted (stop .unfinished)
  | rounds + 1, w, it =>
    if it = w.server.pollFds.length then pure w
    else
      match w.server.pollFds[it]? with
      | none => halt .outside
      | some clientPollfd =>
        if clientPollfd.revents then do
          let fd := clientPollfd.fd
          lifted (emit (.received fd))
          let (w, deleted) ← inLoopAt (serveClientAt fails (envs fd) w it fd (socks fd) msg)
          clientLoopAt envs socks msg rounds w (if deleted then it else it + 1)
        else clientLoopAt envs socks msg rounds w (it + 1)

def serveClientsAt (envs : Int → Env) (socks : Int → Socket) (msg rounds : ℕ) (w : HeapServer) :
    Mem Cell Handling LoopStop HeapServer :=
  if w.server.numPollfds < 4 then pure w else clientLoopAt fails envs socks msg rounds w 3

abbrev HeapProgram := Mem Cell Syscall LoopStop

def withinAt {α : Type} (x : Mem Cell Handling LoopStop α) : HeapProgram α :=
  hoist .handling id x

def performAt {α : Type} (x : Handler α) : HeapProgram α := withinAt (inLoopAt x)

def serveStdinAt (r : Round) (w : HeapServer) : HeapProgram (Bool × HeapServer) := do
  let (ended, s) ← lifted (serveStdin r w.server)
  return (ended, ⟨s, w.blocks⟩)

def serveUdpAt (r : Round) (w : HeapServer) : HeapProgram HeapServer :=
  match r.datagram with
  | none => return w
  | some received => performAt (manageUdpMessageAt fails r.env w received)

def serveTcpAt (r : Round) (w : HeapServer) : HeapProgram HeapServer :=
  match r.connection with
  | none => return w
  | some (addr, clientSockfd, sock) => do
    lifted (accept clientSockfd)
    performAt (manageConnectionRequestAt fails r.env w addr clientSockfd sock)

def serveRoundAt (r : Round) (w : HeapServer) (msg : ℕ) : HeapProgram (Bool × HeapServer) := do
  lifted (stopIf r.failed (.ended .die))
  let (ended, w) ← serveStdinAt r ⟨poll r w.server, w.blocks⟩
  if ended then return (true, w)
  else
    let w ← serveUdpAt fails r w
    let w ← serveTcpAt fails r w
    let w ← withinAt (serveClientsAt fails r.envs r.socks msg (w.server.pollFds.length + 1) w)
    return (false, w)

def loopAt : List Round → HeapServer → ℕ → HeapProgram (Bool × HeapServer)
  | [], w, _ => return (false, w)
  | r :: rounds, w, msg => do
    let (ended, w) ← serveRoundAt fails r w msg
    if ended then return (true, w) else loopAt rounds w msg

def runAt (rounds : List Round) (w : HeapServer) : HeapProgram (Bool × HeapServer) := do
  let msg ← allocate fails (.ended .die) (.message .zero)
  let (ended, w) ← loopAt fails rounds w msg
  if ended then
    free (some msg)
    return (true, w)
  else return (false, w)

def prepareAndRunAt (outside : Outside) (port : UInt16) (rounds : List Round) :
    HeapProgram (Bool × HeapServer) := do
  let s ← lifted (prepare outside port)
  runAt fails rounds ⟨s, fun _ => none⟩

/-- The second loop of the destructor, over the client map. -/
def deleteClientsAt (blocks : ClientId → Pointer) : List ClientId → HeapProgram Unit
  | [] => return ()
  | id :: ids => do
    free (blocks id)
    deleteClientsAt blocks ids

def leaveAt (server : ℕ) (w : HeapServer) (ended : Bool) : HeapProgram (Option Int) :=
  if ended then do
    lifted (destroy w.server)
    deleteClientsAt w.blocks w.server.clients.keys
    free (some server)
    return some 0
  else return none

def serverMainAt (outside : Outside) (argv : List Bytes) (rounds : List Round) :
    HeapProgram (Option Int) :=
  match argv with
  | [_, portText] =>
    match outside.sscanf portText with
    | none => lifted (stop (.ended .die))
    | some port => do
      let server ← allocate fails (.ended .die) .object
      let (ended, w) ← prepareAndRunAt fails outside port rounds
      leaveAt server w ended
  | _ => do
    lifted (emit (.handling (.effect (.printed
      (ascii "Server usage: " ++ argv.headD [] ++ ascii " <PORT>\n")))))
    return some (-1)

end Model

section Losses

def served (out : List Syscall) : List Int :=
  out.filterMap fun
    | .handling (.received fd) => some fd
    | _ => none

/-- What clients that closed had sent of the payload of a message. -/
def lostByRound (r : Round) (s : Server) : List Bytes :=
  (served (serveRound r s).effects).flatMap fun fd => cutOff (r.socks fd)

def lostByRun : List Round → Server → List Bytes
  | [], _ => []
  | r :: rounds, s =>
    lostByRound r s ++
      match (serveRound r s).result with
      | .ok (false, s) => lostByRun rounds s
      | _ => []

def started (outside : Outside) (argv : List Bytes) : Option Server :=
  match argv with
  | [_, portText] =>
    match (outside.sscanf portText).map fun port => (prepare outside port).result with
    | some (.ok s) => some s
    | _ => none
  | _ => none

def looping (outside : Outside) (argv : List Bytes) (rounds : List Round) : Option Server :=
  match (started outside argv).map fun s => (run rounds s).result with
  | some (.ok (false, s)) => some s
  | _ => none

def lostInMain (outside : Outside) (argv : List Bytes) (rounds : List Round) : List Bytes :=
  (started outside argv).elim [] (lostByRun rounds)

end Losses

section Ownership

variable {base m m' : Cells Cell} {w w' : HeapServer} {lost lost' : List Bytes}

def IsRecord (w : HeapServer) (a : ℕ) : Prop :=
  ∃ id, (w.server.client id).isSome = true ∧ w.blocks id = some a

open Classical in
noncomputable def without (gone : ℕ → Prop) (m : Cells Cell) : Cells Cell :=
  fun a => if gone a then none else m a

/-- Beside what the heap held at first there are the records of the registered ids, each
in a block of its own, and what was lost. -/
structure Owns (base : Cells Cell) (w : HeapServer) (lost : List Bytes) (m : Cells Cell) :
    Prop where
  held : RecordsHeld m w
  distinct : ∀ id id' a, (w.server.client id).isSome = true →
    (w.server.client id').isSome = true → w.blocks id = some a → w.blocks id' = some a → id = id'
  rest : Lost base lost (without (IsRecord w) m)

theorem Owns.cell (h : Owns base w lost m) {a : ℕ} (ha : IsRecord w a) : m a = some .object := by
  obtain ⟨id, hid, hblock⟩ := ha
  obtain ⟨b, hb, hcell⟩ := h.held id hid
  rw [hblock, Option.some.injEq] at hb
  rw [hb, hcell]

theorem Owns.not_record (h : Owns base w lost m) {a : ℕ} (hnone : m a = none) :
    ¬ IsRecord w a := by
  intro ha
  simp [h.cell ha] at hnone

theorem without_congr {gone gone' : ℕ → Prop} {a : ℕ} (hgone : gone' a ↔ gone a)
    (hcell : m' a = m a) : without gone' m' a = without gone m a := by
  unfold without
  by_cases ha : gone a
  · rw [if_pos ha, if_pos (hgone.mpr ha)]
  · rw [if_neg ha, if_neg (mt hgone.mp ha), hcell]

theorem isRecord_same (h : SameRecords w w') {a : ℕ} : IsRecord w' a ↔ IsRecord w a := by
  simp only [IsRecord, h.registered, h.blocks]

theorem Owns.same (h : Owns base w lost m) (hsame : SameRecords w w') : Owns base w' lost m := by
  refine ⟨fun id hid => ?_, fun id id' a hid hid' => ?_, ?_⟩
  · rw [hsame.blocks]
    exact h.held id (hsame.registered id ▸ hid)
  · rw [hsame.blocks]
    exact h.distinct id id' a (hsame.registered id ▸ hid) (hsame.registered id' ▸ hid')
  · have heq : without (IsRecord w') m = without (IsRecord w) m :=
      funext fun a => without_congr (isRecord_same hsame) rfl
    rw [heq]
    exact h.rest

/-- A block is added that is no record. -/
theorem Owns.block (h : Owns base w lost m) {a : ℕ} (hnone : m a = none) (bytes : Bytes) :
    Owns base w (lost ++ [bytes]) (Function.update m a (some (.text bytes))) := by
  have hother := h.not_record hnone
  refine ⟨fun id hid => ?_, h.distinct, ?_⟩
  · obtain ⟨b, hb, hcell⟩ := h.held id hid
    have hne : b ≠ a := fun heq => hother ⟨id, hid, heq ▸ hb⟩
    exact ⟨b, hb, by rw [Function.update_of_ne hne, hcell]⟩
  · have heq : without (IsRecord w) (Function.update m a (some (.text bytes))) =
        Function.update (without (IsRecord w) m) a (some (.text bytes)) := by
      funext b
      by_cases hb : b = a
      · subst hb
        rw [Function.update_self, without, if_neg hother, Function.update_self]
      · simp only [without, Function.update_of_ne hb]
    rw [heq]
    exact .block bytes h.rest (by rw [without, if_neg hother, hnone])

theorem Owns.loses (h : Owns base w lost m) (hlost : Lost m lost' m') :
    Owns base w (lost ++ lost') m' := by
  induction hlost with
  | nothing => rwa [List.append_nil]
  | block bytes _ hnone ih =>
    rw [← List.append_assoc]
    exact ih.block hnone bytes

section NewId

variable {s : Server} {id : ClientId} {c : Client} {a : ℕ}

theorem registered_before (hclient : s.client = Function.update w.server.client id (some c))
    {id' : ClientId} (hne : id' ≠ id) (hid : (s.client id').isSome = true) :
    (w.server.client id').isSome = true := by
  rwa [hclient, Function.update_of_ne hne] at hid

/-- The other records are the ones there were. -/
theorem isRecord_makes (hnew : w.server.client id = none)
    (hclient : s.client = Function.update w.server.client id (some c)) {b : ℕ} (hb : b ≠ a) :
    IsRecord ⟨s, Function.update w.blocks id (some a)⟩ b ↔ IsRecord w b := by
  constructor
  · rintro ⟨id', hid', hblock⟩
    by_cases hne : id' = id
    · subst hne
      simp only [Function.update_self, Option.some.injEq] at hblock
      exact absurd hblock.symm hb
    · exact ⟨id', registered_before hclient hne hid',
        by simpa only [Function.update_of_ne hne] using hblock⟩
  · rintro ⟨id', hid', hblock⟩
    have hne : id' ≠ id := by
      intro heq
      simp [heq, hnew] at hid'
    refine ⟨id', ?_, by simpa only [Function.update_of_ne hne] using hblock⟩
    rwa [hclient, Function.update_of_ne hne]

/-- Two ids do not share the new block. -/
theorem distinct_makes (h : Owns base w lost m) (hnone : m a = none)
    (hclient : s.client = Function.update w.server.client id (some c))
    (id₁ id₂ : ClientId) (b : ℕ) (h₁ : (s.client id₁).isSome = true)
    (h₂ : (s.client id₂).isSome = true)
    (hb₁ : Function.update w.blocks id (some a) id₁ = some b)
    (hb₂ : Function.update w.blocks id (some a) id₂ = some b) : id₁ = id₂ := by
  have hother := h.not_record hnone
  by_cases hne₁ : id₁ = id
  · by_cases hne₂ : id₂ = id
    · rw [hne₁, hne₂]
    · subst hne₁
      rw [Function.update_self, Option.some.injEq] at hb₁
      rw [Function.update_of_ne hne₂] at hb₂
      exact absurd ⟨id₂, registered_before hclient hne₂ h₂, hb₁ ▸ hb₂⟩ hother
  · by_cases hne₂ : id₂ = id
    · subst hne₂
      rw [Function.update_self, Option.some.injEq] at hb₂
      rw [Function.update_of_ne hne₁] at hb₁
      exact absurd ⟨id₁, registered_before hclient hne₁ h₁, hb₂ ▸ hb₁⟩ hother
    · rw [Function.update_of_ne hne₁] at hb₁
      rw [Function.update_of_ne hne₂] at hb₂
      exact h.distinct id₁ id₂ b (registered_before hclient hne₁ h₁)
        (registered_before hclient hne₂ h₂) hb₁ hb₂

end NewId

/-- The record of a new id is added. -/
theorem Owns.admits (h : Owns base w lost m) (hadmits : Admits w m w' m') :
    Owns base w' lost m' := by
  cases hadmits with
  | same hsame => exact h.same hsame
  | @makes s id a c hnone hnew hclient =>
    refine ⟨fun id' hid' => ?_, distinct_makes h hnone hclient, ?_⟩
    · by_cases hne : id' = id
      · subst hne
        exact ⟨a, by simp, by rw [Function.update_self]⟩
      · obtain ⟨b, hb, hcell⟩ := h.held id' (registered_before hclient hne hid')
        have hab : b ≠ a := ne_of_held hcell hnone
        exact ⟨b, by simpa only [Function.update_of_ne hne] using hb,
          by rw [Function.update_of_ne hab, hcell]⟩
    · have heq : without (IsRecord ⟨s, Function.update w.blocks id (some a)⟩)
          (Function.update m a (some .object)) = without (IsRecord w) m := by
        funext b
        by_cases hb : b = a
        · subst hb
          have hnow : IsRecord ⟨s, Function.update w.blocks id (some b)⟩ b :=
            ⟨id, by simp [hclient], by simp⟩
          rw [without, if_pos hnow, without, if_neg (h.not_record hnone), hnone]
        · exact without_congr (isRecord_makes hnew hclient hb) (Function.update_of_ne hb _ _)
      rw [heq]
      exact h.rest

def Running (base : Cells Cell) (w : HeapServer) (msg : ℕ) (lost : List Bytes)
    (m' : Cells Cell) : Prop :=
  ∃ s m, m' = Function.update m msg (some (.message s)) ∧ m msg = none ∧ Owns base w lost m

variable {msg : ℕ}

theorem Running.held (h : Running base w msg lost m) : RecordsHeld m w := by
  obtain ⟨s, m₁, rfl, hnone, howns⟩ := h
  intro id hid
  obtain ⟨a, hblock, hcell⟩ := howns.held id hid
  have hne : a ≠ msg := ne_of_held hcell hnone
  exact ⟨a, hblock, by rw [Function.update_of_ne hne, hcell]⟩

theorem Running.same (h : Running base w msg lost m) (hsame : SameRecords w w') :
    Running base w' msg lost m := by
  obtain ⟨s, m₁, heq, hnone, howns⟩ := h
  exact ⟨s, m₁, heq, hnone, howns.same hsame⟩

theorem Running.admits (h : Running base w msg lost m) (hadmits : Admits w m w' m') :
    Running base w' msg lost m' := by
  cases hadmits with
  | same hsame => exact h.same hsame
  | @makes s id a c hfree hnew hclient =>
    obtain ⟨s₁, m₁, rfl, hnone, howns⟩ := h
    have hne : a ≠ msg := (ne_of_held (Function.update_self ..) hfree).symm
    rw [Function.update_of_ne hne] at hfree
    refine ⟨s₁, Function.update m₁ a (some .object), Function.update_comm hne.symm _ _ _, ?_, ?_⟩
    · rw [Function.update_of_ne hne.symm, hnone]
    · exact howns.admits (.makes hfree hnew hclient)

theorem Running.release (h : Running base w msg lost m) :
    (m msg).isSome = true ∧ Owns base w lost (Function.update m msg none) := by
  obtain ⟨s, m₁, rfl, hnone, howns⟩ := h
  rw [update_none hnone, Function.update_self]
  exact ⟨rfl, howns⟩

end Ownership

section Clients

abbrev Tracks {ε α β : Type} (fails : ℕ → Bool) (m : Cells Cell) (x : Mem Cell ε LoopStop α)
    (y : Outcome ε LoopStop β) (post : Cells Cell → α → β → Prop) : Prop :=
  Simulates loopAccesses fails (.ended .die) m x y post

variable {fails : ℕ → Bool} {base m : Cells Cell} {w : HeapServer} {lost : List Bytes} {msg : ℕ}
  {envs : Int → Env} {socks : Int → Socket} {rounds it : ℕ}

theorem follows_inLoop {α β : Type} {x : Handler α} {y : Act β} {post : Cells Cell → α → β → Prop}
    (h : Follows fails m x y post) :
    Tracks fails m (inLoopAt x) (inLoop y) post :=
  Simulates.hoist (fun _ => rfl) h

theorem inLoop_eq_ok {α : Type} {act : Act α} {a : α} (h : (inLoop act).result = .ok a) :
    act = ⟨act.effects, .ok a⟩ := by
  obtain ⟨out, e | a'⟩ := act
  · simp [inLoop, Except.mapError] at h
  · rw [← Except.ok.inj h]

theorem follows_entry {env : Env} {fd : Int} {sock : Socket} (h : Running base w msg lost m) :
    Follows fails m (serveClientAt fails env w it fd sock msg) (serveClient env w.server it fd sock)
      fun m' a b => (a.1.server = b.1 ∧ a.2 = b.2) ∧
        Running base a.1 msg (lost ++ cutOff sock) m' := by
  obtain ⟨s, m₁, rfl, hnone, howns⟩ := h
  refine (follows_serveClient hnone howns.held).mono fun m' a b h => ?_
  obtain ⟨hsame, hblocks, s', m₂, heq, hnone', hlost⟩ := h
  exact ⟨hsame, s', m₂, heq, hnone', (howns.loses hlost).same hblocks⟩

theorem follows_clientLoop (h : Running base w msg lost m) :
    Tracks fails m (clientLoopAt fails envs socks msg rounds w it)
      (clientLoop envs socks rounds w.server it) fun m' a b => a.server = b ∧
        Running base a msg (lost ++ (handled
          (clientLoop envs socks rounds w.server it).effects).flatMap
            fun fd => cutOff (socks fd)) m' := by
  induction rounds generalizing w it lost m with
  | zero => exact simulates_stop
  | succ rounds ih =>
    unfold clientLoopAt
    by_cases hend : it = w.server.pollFds.length
    · have heq : clientLoop envs socks (rounds + 1) w.server it = pure w.server := by
        simp only [clientLoop, if_pos hend]
      rw [heq, if_pos hend]
      refine simulates_pure ⟨rfl, ?_⟩
      rw [pure_def, handled, List.filterMap_nil, List.flatMap_nil, List.append_nil]
      exact h
    · rw [if_neg hend]
      cases hentry : w.server.pollFds[it]? with
      | none =>
        have heq : clientLoop envs socks (rounds + 1) w.server it = stop .pastEnd := by
          simp only [clientLoop, if_neg hend, hentry]
        rw [heq]
        exact simulates_outside rfl
      | some p =>
        dsimp only
        cases hready : p.revents with
        | false =>
          rw [clientLoop_skips hentry hready]
          exact ih h
        | true =>
          have heq : clientLoop envs socks (rounds + 1) w.server it =
              (emit (.received p.fd) >>= fun _ =>
                inLoop (serveClient (envs p.fd) w.server it p.fd (socks p.fd)) >>= fun r =>
                  clientLoop envs socks rounds r.1 (if r.2 then it else it + 1)) := by
            simp only [clientLoop, if_neg hend, hentry, hready, if_true]
          nth_rewrite 1 [heq]
          refine simulates_embed_bind fun _ _ => ?_
          refine (follows_inLoop (follows_entry h)).result.bind fun m' a b hserved => ?_
          obtain ⟨⟨⟨hserver, hdeleted⟩, hrunning⟩, hvalue⟩ := hserved
          obtain ⟨w', deleted⟩ := a
          obtain ⟨s', deleted'⟩ := b
          obtain rfl : w'.server = s' := hserver
          obtain rfl : deleted = deleted' := hdeleted
          refine (ih hrunning).mono fun m'' a b hlater => ⟨hlater.1, ?_⟩
          rw [clientLoop_serves hentry hready (inLoop_eq_ok hvalue), handled_cons,
            List.flatMap_cons, ← List.append_assoc]
          exact hlater.2

theorem follows_serveClients (h : Running base w msg lost m) :
    Tracks fails m (serveClientsAt fails envs socks msg rounds w)
      (serveClients envs socks rounds w.server) fun m' a b => a.server = b ∧
        Running base a msg (lost ++ (handled
          (serveClients envs socks rounds w.server).effects).flatMap
            fun fd => cutOff (socks fd)) m' := by
  unfold serveClientsAt serveClients
  by_cases hfew : w.server.numPollfds < 4
  · rw [if_pos hfew, if_pos hfew]
    refine simulates_pure ⟨rfl, ?_⟩
    rw [pure_def, handled, List.filterMap_nil, List.flatMap_nil, List.append_nil]
    exact h
  · rw [if_neg hfew, if_neg hfew]
    exact follows_clientLoop h

end Clients

section Rounds

variable {fails : ℕ → Bool} {base m : Cells Cell} {w : HeapServer} {lost : List Bytes} {msg : ℕ}
  {r : Round}

theorem follows_within {α β : Type} {x : Mem Cell Handling LoopStop α} {y : Loop β}
    {post : Cells Cell → α → β → Prop} (h : Tracks fails m x y post) :
    Tracks fails m (withinAt x) (within y) post := by
  have hid : y.result.mapError id = y.result := by
    cases y.result <;> rfl
  have hhoist : Tracks fails m (withinAt x)
      ⟨y.effects.map .handling, y.result.mapError id⟩ post :=
    Simulates.hoist (r := id) (fun _ => rfl) h
  rwa [hid] at hhoist

theorem follows_perform {α β : Type} {x : Handler α} {y : Act β}
    {post : Cells Cell → α → β → Prop} (h : Follows fails m x y post) :
    Tracks fails m (performAt x) (perform y) post :=
  follows_within (follows_inLoop h)

/-- A line that is not the command changes nothing. -/
theorem serveStdin_server {s s' : Server} {ended : Bool}
    (h : (serveStdin r s).result = .ok (ended, s')) : s' = s := by
  unfold serveStdin at h
  cases hline : r.stdin with
  | none =>
    rw [hline] at h
    exact (congrArg Prod.snd (Except.ok.inj h)).symm
  | some line =>
    rw [hline] at h
    dsimp only at h
    by_cases hexit : line = ascii "exit"
    · rw [if_pos hexit] at h
      exact (congrArg Prod.snd (Except.ok.inj h)).symm
    · rw [if_neg hexit, checkStdinData, if_neg hexit] at h
      exact (congrArg Prod.snd (Except.ok.inj h)).symm

theorem Running.poll (h : Running base w msg lost m) :
    Running base ⟨poll r w.server, w.blocks⟩ msg lost m := h.same ⟨rfl, fun _ => rfl⟩

theorem follows_serveStdin :
    Tracks fails m (serveStdinAt r w) (serveStdin r w.server)
      fun m' a b => (a.1 = b.1 ∧ a.2.server = b.2) ∧ a.2 = w ∧ m' = m := by
  unfold serveStdinAt
  nth_rewrite 2 [← bind_pure (serveStdin r w.server)]
  refine simulates_embed_bind fun a hvalue => simulates_pure ⟨⟨rfl, rfl⟩, ?_, rfl⟩
  obtain ⟨ended, s⟩ := a
  rw [serveStdin_server hvalue]

theorem follows_serveUdp (h : Running base w msg lost m) :
    Tracks fails m (serveUdpAt fails r w) (serveUdp r w.server)
      fun m' a b => a.server = b ∧ Running base a msg lost m' := by
  unfold serveUdpAt serveUdp
  cases r.datagram with
  | none => exact simulates_pure ⟨rfl, h⟩
  | some received =>
    refine (follows_perform (follows_manageUdpMessage h.held)).mono fun m' a b hserved => ?_
    obtain ⟨hserver, hsame, rfl⟩ := hserved
    exact ⟨hserver, h.same hsame⟩

theorem follows_serveTcp (h : Running base w msg lost m) :
    Tracks fails m (serveTcpAt fails r w) (serveTcp r w.server)
      fun m' a b => a.server = b ∧ Running base a msg lost m' := by
  unfold serveTcpAt serveTcp
  cases r.connection with
  | none => exact simulates_pure ⟨rfl, h⟩
  | some connection =>
    obtain ⟨addr, clientSockfd, sock⟩ := connection
    refine simulates_embed_bind fun _ _ => ?_
    refine (follows_perform (follows_manageConnectionRequest h.held)).mono fun m' a b hserved => ?_
    exact ⟨hserved.1, h.admits hserved.2⟩

theorem served_append (out later : List Syscall) :
    served (out ++ later) = served out ++ served later := List.filterMap_append ..

theorem served_bind {α β : Type} {x : Program α} {f : α → Program β} {a : α}
    (hx : x.result = .ok a) :
    served (x >>= f).effects = served x.effects ++ served (f a).effects := by
  obtain ⟨out, e | a'⟩ := x
  · simp at hx
  · obtain rfl : a' = a := Except.ok.inj hx
    rw [mk_ok_bind, served_append]

theorem served_within {α : Type} (x : Loop α) : served (within x).effects = handled x.effects := by
  rw [within, served, handled, List.filterMap_map]
  refine List.filterMap_congr fun handling _ => ?_
  cases handling <;> rfl

theorem served_perform {α : Type} (act : Act α) : served (perform act).effects = [] := by
  rw [perform, served_within, inLoop, handled_effects]

theorem served_serveStdin (s : Server) : served (serveStdin r s).effects = [] := by
  unfold serveStdin
  cases r.stdin with
  | none => rfl
  | some line =>
    dsimp only
    by_cases hexit : line = ascii "exit"
    · rw [if_pos hexit]
      rfl
    · rw [if_neg hexit, checkStdinData, if_neg hexit]
      rfl

theorem served_serveUdp (s : Server) : served (serveUdp r s).effects = [] := by
  unfold serveUdp
  cases r.datagram with
  | none => rfl
  | some received => exact served_perform _

theorem served_serveTcp (s : Server) : served (serveTcp r s).effects = [] := by
  unfold serveTcp
  cases r.connection with
  | none => rfl
  | some connection =>
    obtain ⟨addr, clientSockfd, sock⟩ := connection
    have haccept : accept clientSockfd = ⟨(accept clientSockfd).effects, .ok ()⟩ := by
      unfold accept
      split <;> rfl
    have hnone : served (accept clientSockfd).effects = [] := by
      unfold accept
      split <;> rfl
    dsimp only
    rw [served_bind (congrArg Outcome.result haccept), hnone, served_perform]
    rfl

theorem served_stopIf {failed : Bool} {reason : LoopStop} :
    served (stopIf failed reason : Program Unit).effects = [] := by
  cases failed <;> rfl

theorem served_bind_pure {α β : Type} (x : Program α) (f : α → β) :
    served (x >>= fun a => pure (f a)).effects = served x.effects := by
  obtain ⟨out, e | a⟩ := x
  · rfl
  · rw [mk_ok_bind, pure_def, List.append_nil]

/-- The round of the exit command calls recv_efficient on no client. -/
theorem served_exit {s s₁ : Server}
    (hpolled : (stopIf r.failed (.ended .die) : Program Unit).result = .ok ())
    (hstdin : (serveStdin r (poll r s)).result = .ok (true, s₁)) :
    served (serveRound r s).effects = [] := by
  unfold serveRound
  rw [served_bind hpolled, served_bind hstdin, served_stopIf, served_serveStdin]
  rfl

/-- Otherwise the loop over the clients is what calls it. -/
theorem served_serveRound {s s₁ s₂ s₃ : Server}
    (hpolled : (stopIf r.failed (.ended .die) : Program Unit).result = .ok ())
    (hstdin : (serveStdin r (poll r s)).result = .ok (false, s₁))
    (hudp : (serveUdp r s₁).result = .ok s₂) (htcp : (serveTcp r s₂).result = .ok s₃) :
    served (serveRound r s).effects =
      handled (serveClients r.envs r.socks (s₃.pollFds.length + 1) s₃).effects := by
  unfold serveRound
  rw [served_bind hpolled, served_bind hstdin, served_stopIf, served_serveStdin]
  simp only [Bool.false_eq_true, if_false, List.nil_append]
  rw [served_bind hudp, served_bind htcp, served_bind_pure, served_serveUdp, served_serveTcp,
    served_within]
  rfl

theorem follows_serveRound (h : Running base w msg lost m) :
    Tracks fails m (serveRoundAt fails r w msg) (serveRound r w.server)
      fun m' a b => (a.1 = b.1 ∧ a.2.server = b.2) ∧
        Running base a.2 msg (lost ++ lostByRound r w.server) m' := by
  unfold serveRoundAt serveRound
  refine simulates_embed_bind fun _ hpolled => ?_
  refine follows_serveStdin.result.bind fun m₁ a b hstdin => ?_
  obtain ⟨⟨⟨hended, hserver⟩, hsame, rfl⟩, hread⟩ := hstdin
  obtain ⟨ended, w₁⟩ := a
  obtain ⟨ended', s₁⟩ := b
  obtain rfl : ended = ended' := hended
  obtain rfl : w₁.server = s₁ := hserver
  have hrunning : Running base w₁ msg lost m₁ := by
    rw [show w₁ = _ from hsame]
    exact h.poll
  cases ended with
  | true =>
    refine simulates_pure ⟨⟨rfl, rfl⟩, ?_⟩
    rw [lostByRound, served_exit hpolled hread, List.flatMap_nil, List.append_nil]
    exact hrunning
  | false =>
    simp only [Bool.false_eq_true, if_false]
    refine (follows_serveUdp hrunning).result.bind fun m₂ w₂ s₂ hserved => ?_
    obtain ⟨⟨rfl, hrunning⟩, hudp⟩ := hserved
    refine (follows_serveTcp hrunning).result.bind fun m₃ w₃ s₃ hserved => ?_
    obtain ⟨⟨rfl, hrunning⟩, htcp⟩ := hserved
    refine (follows_within (follows_serveClients hrunning)).bind fun m₄ w₄ s₄ hserved => ?_
    obtain ⟨rfl, hrunning⟩ := hserved
    refine simulates_pure ⟨⟨rfl, rfl⟩, ?_⟩
    rw [lostByRound, served_serveRound hpolled hread hudp htcp]
    exact hrunning

theorem follows_loop {rounds : List Round} (h : Running base w msg lost m) :
    Tracks fails m (loopAt fails rounds w msg) (run rounds w.server)
      fun m' a b => (a.1 = b.1 ∧ a.2.server = b.2) ∧
        Running base a.2 msg (lost ++ lostByRun rounds w.server) m' := by
  induction rounds generalizing w lost m with
  | nil => exact simulates_pure ⟨⟨rfl, rfl⟩, by rwa [lostByRun, List.append_nil]⟩
  | cons r rounds ih =>
    unfold loopAt run lostByRun
    refine (follows_serveRound h).result.bind fun m₁ a b hserved => ?_
    obtain ⟨⟨⟨hended, hserver⟩, hrunning⟩, hvalue⟩ := hserved
    obtain ⟨ended, w₁⟩ := a
    obtain ⟨ended', s₁⟩ := b
    obtain rfl : ended = ended' := hended
    obtain rfl : w₁.server = s₁ := hserver
    rw [hvalue]
    cases ended with
    | true =>
      rw [List.append_nil]
      exact simulates_pure ⟨⟨rfl, rfl⟩, hrunning⟩
    | false =>
      rw [← List.append_assoc]
      exact ih hrunning

/-- Once the loop is left the message is given back. -/
theorem follows_run {rounds : List Round} (h : Owns m w [] m) :
    Tracks fails m (runAt fails rounds w) (run rounds w.server)
      fun m' a b => (a.1 = b.1 ∧ a.2.server = b.2) ∧
        (a.1 = true → Owns m a.2 (lostByRun rounds w.server) m') ∧
        (a.1 = false → ∃ msg, Running m a.2 msg (lostByRun rounds w.server) m') := by
  unfold runAt
  refine simulates_allocate fun msg hnone => ?_
  rw [← bind_pure (run rounds w.server)]
  have hrunning : Running m w msg [] (Function.update m msg (some (.message .zero))) :=
    ⟨.zero, m, rfl, hnone, h⟩
  refine (follows_loop hrunning).bind fun m₁ a b hserved => ?_
  obtain ⟨hsame, hrunning⟩ := hserved
  obtain ⟨ended, w₁⟩ := a
  cases ended with
  | true =>
    obtain ⟨hblock, howns⟩ := hrunning.release
    refine simulates_free hblock (simulates_pure ⟨hsame, fun _ => howns, fun h => ?_⟩)
    exact absurd h (by simp)
  | false => exact simulates_pure ⟨hsame, fun h => absurd h (by simp), fun _ => ⟨msg, hrunning⟩⟩

end Rounds

section Process

variable {fails : ℕ → Bool} {m : Cells Cell} {w : HeapServer} {lost : List Bytes}
  {outside : Outside} {rounds : List Round}

/-- No id is registered yet. -/
theorem owns_prepare (udpSockfd tcpSockfd : Int) :
    Owns m ⟨Server.prepare udpSockfd tcpSockfd, fun _ => none⟩ [] m := by
  have hnone : ∀ a, ¬ IsRecord ⟨Server.prepare udpSockfd tcpSockfd, fun _ => none⟩ a := by
    rintro a ⟨id, -, hblock⟩
    simp at hblock
  refine ⟨fun id hid => ?_, fun id id' a hid => ?_, ?_⟩
  · simp [Server.client, Server.prepare] at hid
  · simp [Server.client, Server.prepare] at hid
  · have heq : without (IsRecord ⟨Server.prepare udpSockfd tcpSockfd, fun _ => none⟩) m = m :=
      funext fun a => if_neg (hnone a)
    rw [heq]
    exact .nothing

theorem prepare_server {port : UInt16} {s : Server} (h : (prepare outside port).result = .ok s) :
    ∃ udpSockfd tcpSockfd, s = Server.prepare udpSockfd tcpSockfd := by
  have hprepared : prepare outside port = ⟨(prepare outside port).effects, .ok s⟩ :=
    Outcome.ext' rfl h
  obtain ⟨udpSockfd, out, later, -, hrest, -⟩ := bind_eq_ok.mp hprepared
  obtain ⟨tcpSockfd, out', later', -, hmade, -⟩ := bind_eq_ok.mp hrest
  exact ⟨udpSockfd, tcpSockfd, (pure_eq_ok.mp hmade).2⟩

theorem follows_prepareAndRun {port : UInt16} :
    Tracks fails m (prepareAndRunAt fails outside port rounds)
      (prepareAndRun outside port rounds) fun m' a b => (a.1 = b.1 ∧ a.2.server = b.2) ∧
        ∃ s, (prepare outside port).result = .ok s ∧ (run rounds s).result = .ok b ∧
          (a.1 = true → Owns m a.2 (lostByRun rounds s) m') ∧
          (a.1 = false → ∃ msg, Running m a.2 msg (lostByRun rounds s) m') := by
  unfold prepareAndRunAt prepareAndRun
  refine simulates_embed_bind fun s hprepared => ?_
  obtain ⟨udpSockfd, tcpSockfd, rfl⟩ := prepare_server hprepared
  refine (follows_run (owns_prepare udpSockfd tcpSockfd)).result.mono fun m' a b hserved => ?_
  obtain ⟨⟨hsame, hheap⟩, hvalue⟩ := hserved
  exact ⟨hsame, _, hprepared, hvalue, hheap⟩

/-- The records are given back one after another. -/
theorem follows_deleteClients {α β : Type} {post : Cells Cell → α → β → Prop} {y : Program β}
    {blocks : ClientId → Pointer} {ids : List ClientId} {f : Unit → HeapProgram α}
    (hnodup : ids.Nodup) (hheld : ∀ id ∈ ids, ∃ a, blocks id = some a ∧ m a = some .object)
    (hdistinct : ∀ id ∈ ids, ∀ id' ∈ ids, ∀ a, blocks id = some a → blocks id' = some a → id = id')
    (hf : Tracks fails (without (fun a => ∃ id ∈ ids, blocks id = some a) m)
      (f ()) y post) :
    Tracks fails m (deleteClientsAt blocks ids >>= f) y post := by
  induction ids generalizing m with
  | nil =>
    have heq : without (fun a => ∃ id ∈ ([] : List ClientId), blocks id = some a) m = m :=
      funext fun a => if_neg (by simp)
    rw [heq] at hf
    exact hf
  | cons id ids ih =>
    obtain ⟨a, hblock, hcell⟩ := hheld id List.mem_cons_self
    obtain ⟨hnew, hnodup⟩ := List.nodup_cons.mp hnodup
    unfold deleteClientsAt
    rw [hblock, bind_assoc]
    refine simulates_free (by rw [hcell]; rfl) (ih hnodup ?_ ?_ ?_)
    · intro id' hid'
      obtain ⟨b, hb, hcell'⟩ := hheld id' (List.mem_cons_of_mem id hid')
      have hne : b ≠ a := by
        rintro rfl
        have heq := hdistinct id' (List.mem_cons_of_mem id hid') id List.mem_cons_self b hb hblock
        exact hnew (heq ▸ hid')
      exact ⟨b, hb, by rw [Function.update_of_ne hne, hcell']⟩
    · intro id₁ h₁ id₂ h₂
      exact hdistinct id₁ (List.mem_cons_of_mem id h₁) id₂ (List.mem_cons_of_mem id h₂)
    · have heq : without (fun a => ∃ id ∈ ids, blocks id = some a) (Function.update m a none) =
          without (fun a => ∃ id' ∈ id :: ids, blocks id' = some a) m := by
        funext b
        by_cases hb : b = a
        · subst hb
          have hgone : ∃ id' ∈ id :: ids, blocks id' = some b := ⟨id, List.mem_cons_self, hblock⟩
          rw [without, Function.update_self, ite_self, without, if_pos hgone]
        · refine without_congr ?_ (Function.update_of_ne hb _ _)
          constructor
          · rintro ⟨id', hid', hblock'⟩
            exact ⟨id', List.mem_cons_of_mem id hid', hblock'⟩
          · rintro ⟨id', hid', hblock'⟩
            rcases List.mem_cons.mp hid' with rfl | hid'
            · rw [hblock, Option.some.injEq] at hblock'
              exact absurd hblock'.symm hb
            · exact ⟨id', hid', hblock'⟩
      rwa [heq]

/-- The destructor closes, gives the records back, and what is left is what was lost. -/
theorem follows_leave {server : ℕ} (hnone : m server = none) {m' : Cells Cell}
    (h : Owns (Function.update m server (some .object)) w lost m') :
    Tracks fails m' (leaveAt server w true) (leave w.server true)
      fun m'' a b => a = b ∧ a = some 0 ∧ Lost m lost m'' := by
  have hkeys : ∀ id, id ∈ w.server.clients.keys ↔ (w.server.client id).isSome = true :=
    fun id => AList.mem_keys.symm.trans AList.lookup_isSome.symm
  unfold leaveAt leave
  refine simulates_embed_bind fun _ _ => follows_deleteClients w.server.clients.keys_nodup ?_ ?_ ?_
  · exact fun id hid => h.held id ((hkeys id).mp hid)
  · exact fun id hid id' hid' a => h.distinct id id' a ((hkeys id).mp hid) ((hkeys id').mp hid')
  · have heq : without (fun a => ∃ id ∈ w.server.clients.keys, w.blocks id = some a) m' =
        without (IsRecord w) m' := by
      refine funext fun a => without_congr ?_ rfl
      simp only [IsRecord, hkeys]
    rw [heq]
    have hserver := h.rest.keeps (Function.update_self ..)
    exact simulates_free (by rw [hserver]; rfl) (simulates_pure ⟨rfl, rfl, h.rest.release hnone⟩)

theorem follows_serverMain {argv : List Bytes} :
    Tracks fails m (serverMainAt fails outside argv rounds)
      (serverMain outside argv rounds) fun m' a b => a = b ∧
        (a.isSome = true → Lost m (lostInMain outside argv rounds) m') ∧
        (a = none → ∃ server w msg, m server = none ∧
          looping outside argv rounds = some w.server ∧
          Running (Function.update m server (some .object)) w msg
            (lostInMain outside argv rounds) m') := by
  unfold serverMainAt serverMain
  match argv with
  | [program, portText] =>
    dsimp only
    cases hport : outside.sscanf portText with
    | none => exact simulates_stop
    | some port =>
      dsimp only
      refine simulates_allocate fun server hnone => ?_
      refine follows_prepareAndRun.bind fun m' a b hserved => ?_
      obtain ⟨⟨hended, hserver⟩, s, hprepared, hrun, hleft, hruns⟩ := hserved
      obtain ⟨ended, w⟩ := a
      obtain ⟨ended', s'⟩ := b
      obtain rfl : ended = ended' := hended
      obtain rfl : w.server = s' := hserver
      have hstarted : started outside [program, portText] = some s := by
        simp only [started, hport, Option.map_some, hprepared]
      rw [lostInMain, hstarted, Option.elim_some]
      cases ended with
      | true =>
        refine (follows_leave hnone (hleft rfl)).mono fun m'' code code' hcode => ?_
        obtain ⟨rfl, rfl, hlost⟩ := hcode
        exact ⟨rfl, fun _ => hlost, fun h => absurd h (by simp)⟩
      | false =>
        obtain ⟨msg, hrunning⟩ := hruns rfl
        refine simulates_pure ⟨rfl, fun h => absurd h (by simp), fun _ => ?_⟩
        refine ⟨server, w, msg, hnone, ?_, hrunning⟩
        simp only [looping, hstarted, Option.map_some, hrun]
  | [] | [_] | _ :: _ :: _ :: _ =>
    refine simulates_embed_bind fun _ _ => simulates_pure ⟨rfl, fun _ => .nothing, fun h => ?_⟩
    exact absurd h (by simp)

/-- Whatever comes and whichever allocations fail, the process only uses blocks it has and
gives none back twice; it goes beyond a block, a buffer or the vector only where the
process without memory stops for that, and does what that one does up to the end an
allocation brings. When main returns, the heap holds the lost payloads and nothing else;
in the loop there are also the server, the message and one record for each registered
id. -/
theorem only_broken_payloads_left (fails : ℕ → Bool) (outside : Outside) (argv : List Bytes)
    (rounds : List Round) :
    let onHeap := serverMainAt fails outside argv rounds Heap.empty
    let bare := serverMain outside argv rounds
    onHeap.result ≠ .error .invalid ∧
    onHeap.effects <+: bare.effects ∧
    (onHeap.result = .error .outside →
      onHeap.effects = bare.effects ∧ ∃ e, loopAccesses e = true ∧ bare.result = .error e) ∧
    (∀ e, onHeap.result = .error (.own e) →
      (onHeap.effects = bare.effects ∧ loopAccesses e = false ∧ bare.result = .error e) ∨
        (e = .ended .die ∧ ∃ n, fails n = true)) ∧
    ∀ code heap, onHeap.result = .ok (code, heap) →
      onHeap.effects = bare.effects ∧ bare.result = .ok code ∧
      (code.isSome = true → Lost (fun _ => none) (lostInMain outside argv rounds) heap.cells) ∧
      (code = none → ∃ server w msg, looping outside argv rounds = some w.server ∧
        Running (Function.update (fun _ => none) server (some .object)) w msg
          (lostInMain outside argv rounds) heap.cells) := by
  have htracks : Tracks fails (fun _ => none) (serverMainAt fails outside argv rounds) _ _ :=
    follows_serverMain
  obtain ⟨hvalid, hinitial, hbeyond, hstops, hvalue⟩ := htracks.start
  refine ⟨hvalid, hinitial, hbeyond, hstops, fun code heap hresult => ?_⟩
  obtain ⟨heffects, b, hb, rfl, hlost, hruns⟩ := hvalue code heap hresult
  refine ⟨heffects, hb, hlost, fun hcode => ?_⟩
  obtain ⟨server, w, msg, -, hlooping, hrunning⟩ := hruns hcode
  exact ⟨server, w, msg, hlooping, hrunning⟩

end Process

end ServerClientApp.ServerHeapRuns
