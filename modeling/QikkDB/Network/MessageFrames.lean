/-
The messages that a ClientPoolWorker sends to its client (NetworkMessage.cpp, `WriteToNetwork`; ClientPoolWorker.cpp,
`HandleMessage`; TCPClientHandler.cpp, `HandleQuery`, `RunQuery`).

A worker has one NetworkMessage, and this has one length buffer `size_` and one body buffer `serializedMessage_`. Every
call of WriteToNetwork fills both and starts to write the length; the body is written when the length is through. The
connection loop and the query thread call it, and the loop also reads incoming messages into `serializedMessage_`.

- a call is a value with a phase, and the transfers and completions of all pending calls are steps of their own, in any
  order; a transfer takes what its buffer holds at that moment;
- `serializedMessage_` is a unique_ptr: a buffer has an identity, and of one that is no longer current, or behind the end
  of one, the transfer finds arbitrary bytes;
- errors of the socket, which end the connection, are not modelled.

Results:
- `step_inv`: a call that is started when all earlier ones are through finds both buffers for itself.
- `frames_in_order`: if every call is started so, the bytes sent are the frames of the calls in their order.
-/
import Mathlib.Tactic
import QikkDB.Lib.Run

namespace QikkDB.MessageFrames

/-! ## Model -/

/-- a serialized message; its ByteSize is an int -/
structure Message where
  bytes : List UInt8
  fits : bytes.length < 2 ^ 31
deriving DecidableEq

/-- native_to_big_inplace(size_) -/
def nativeToBig (size : ℕ) : List UInt8 :=
  [UInt8.ofNat (size / 2 ^ 24), UInt8.ofNat (size / 2 ^ 16), UInt8.ofNat (size / 2 ^ 8), UInt8.ofNat size]

def Message.frame (m : Message) : List UInt8 := nativeToBig m.bytes.length ++ m.bytes

/-- who calls WriteToNetwork -/
inductive Purpose where
  | answer
  | wait (query : ℕ)
  | notify (query : ℕ)
deriving DecidableEq, Repr

inductive Phase where
  | lengthStarted
  | lengthTransferred
  /-- async_write of the body got the pointer of this buffer -/
  | bodyStarted (buffer : ℕ)
  | bodyTransferred
  | completed
deriving DecidableEq, Repr

/-- a call of WriteToNetwork -/
structure Call where
  purpose : Purpose
  message : Message
  phase : Phase
deriving DecidableEq

/-- where ClientLoop and HandleMessage are -/
inductive Loop where
  | reading
  | queryReceived
  /-- the query thread runs, the WAIT answer is to be sent -/
  | launched (query : ℕ)
  /-- GetNextQueryResult waits for the query -/
  | nextReceived
  | otherReceived
  | writing
  | stopped
deriving DecidableEq, Repr

structure St where
  size : List UInt8
  /-- the current buffer of serializedMessage_ and what it holds -/
  serializedMessage : ℕ × List UInt8
  /-- in the order in which they were started -/
  calls : List Call
  /-- what was sent to the client -/
  wire : List UInt8
  loop : Loop
  queryThreads : List ℕ
  nextQuery : ℕ
deriving DecidableEq

/-- a connection that waits for its first message -/
def connected : St := ⟨[0, 0, 0, 0], (0, []), [], [], .reading, [], 0⟩

inductive Incoming where
  | query
  | nextResult
  | other
deriving DecidableEq, Repr

/-- the beginning of WriteToNetwork -/
def St.writeToNetwork (s : St) (purpose : Purpose) (message : Message) : St :=
  { s with
    size := nativeToBig message.bytes.length
    serializedMessage := (s.serializedMessage.1 + 1, message.bytes)
    calls := s.calls ++ [⟨purpose, message, .lengthStarted⟩] }

/-- `length` bytes from the beginning of a buffer on -/
def St.read (s : St) (buffer length : ℕ) (elsewhere : ℕ → UInt8) : List UInt8 :=
  (List.range length).map fun i =>
    if buffer = s.serializedMessage.1 then s.serializedMessage.2.getD i (elsewhere i) else elsewhere i

inductive Op where
  /-- a message of the client was read -/
  | receive (incoming : Incoming) (bytes : List UInt8)
  /-- std::async in HandleQuery -/
  | launch
  /-- the WAIT answer; the assignment of the new future has waited for the query before it -/
  | wait (message : Message)
  /-- the answer to any other message -/
  | answer (message : Message)
  /-- no answer: CONN_END or an unknown code -/
  | ignore
  /-- a message of no known type -/
  | readAgain
  /-- the query thread calls its handler -/
  | notify (query : ℕ) (message : Message)
  | transferLength (call : ℕ)
  | completeLength (call : ℕ)
  | transferBody (call : ℕ) (elsewhere : ℕ → UInt8)
  | completeBody (call : ℕ)

/-- one step, `none` where it is not possible -/
def step (s : St) : Op → Option St
  | .receive incoming bytes =>
    if s.loop = .reading then
      some { s with
        serializedMessage := (s.serializedMessage.1 + 1, bytes)
        loop :=
          match incoming with
          | .query => .queryReceived
          | .nextResult => .nextReceived
          | .other => .otherReceived }
    else none
  | .launch =>
    if s.loop = .queryReceived then
      some { s with
        loop := .launched s.nextQuery, queryThreads := s.nextQuery :: s.queryThreads, nextQuery := s.nextQuery + 1 }
    else none
  | .wait message =>
    match s.loop with
    | .launched q =>
      if s.queryThreads.all (· = q) then some { s.writeToNetwork (.wait q) message with loop := .writing } else none
    | _ => none
  | .answer message =>
    if s.loop = .otherReceived ∨ s.loop = .nextReceived ∧ s.queryThreads = [] then
      some { s.writeToNetwork .answer message with loop := .writing }
    else none
  | .ignore => if s.loop = .otherReceived then some { s with loop := .stopped } else none
  | .readAgain => if s.loop = .otherReceived then some { s with loop := .reading } else none
  | .notify q message =>
    if q ∈ s.queryThreads then
      some { s.writeToNetwork (.notify q) message with queryThreads := s.queryThreads.erase q }
    else none
  | .transferLength k => do
    let c ← s.calls[k]?
    if c.phase = .lengthStarted then
      some { s with wire := s.wire ++ s.size, calls := s.calls.set k { c with phase := .lengthTransferred } }
    else none
  | .completeLength k => do
    let c ← s.calls[k]?
    if c.phase = .lengthTransferred then
      some { s with calls := s.calls.set k { c with phase := .bodyStarted s.serializedMessage.1 } }
    else none
  | .transferBody k elsewhere => do
    let c ← s.calls[k]?
    match c.phase with
    | .bodyStarted buffer =>
      some { s with
        wire := s.wire ++ s.read buffer c.message.bytes.length elsewhere
        calls := s.calls.set k { c with phase := .bodyTransferred } }
    | _ => none
  | .completeBody k => do
    let c ← s.calls[k]?
    if c.phase = .bodyTransferred then
      some { s with
        calls := s.calls.set k { c with phase := .completed }
        loop :=
          match c.purpose with
          | .notify _ => s.loop
          | _ => .reading }
    else none

/-! ## Frames -/

/-- all bytes of the call are sent -/
def Call.sent (c : Call) : Bool := c.phase = .bodyTransferred ∨ c.phase = .completed

/-- the WAIT answer to a query stands before its notification -/
def WaitFirst (purposes : List Purpose) : Prop :=
  ∀ pre q post, purposes = pre ++ .notify q :: post → .wait q ∈ pre

/-- The bytes sent are frames, one for each call, in an order in which WAIT comes before the notification; all of them
once the calls are through. -/
def Framed (s : St) : Prop :=
  ∃ order : List (Purpose × Message), order.Perm (s.calls.map fun c => (c.purpose, c.message)) ∧
    WaitFirst (order.map Prod.fst) ∧ s.wire <+: order.flatMap (fun m => m.2.frame) ∧
    (s.calls.all Call.sent → s.wire = order.flatMap fun m => m.2.frame)

/-- A buffer is only filled when no call needs it any more, and a query is notified only when it was answered. -/
def Admitted (s : St) : Op → Prop
  | .receive _ _ | .wait _ | .answer _ => s.calls.all Call.sent
  | .notify q _ => s.calls.all Call.sent ∧ ∃ c ∈ s.calls, c.purpose = .wait q
  | _ => True

instance (s : St) (op : Op) : Decidable (Admitted s op) :=
  match op with
  | .receive _ _ | .wait _ | .answer _ => inferInstanceAs (Decidable (_ = true))
  | .notify _ _ => inferInstanceAs (Decidable (_ ∧ _))
  | .launch | .ignore | .readAgain | .transferLength _ | .completeLength _ | .transferBody _ _ | .completeBody _ =>
    .isTrue trivial

/-! ## The invariant -/

/-- what a call has sent so far if it was not disturbed -/
def Call.bytesSent (c : Call) : List UInt8 :=
  match c.phase with
  | .lengthStarted => []
  | .lengthTransferred => nativeToBig c.message.bytes.length
  | .bodyStarted _ => nativeToBig c.message.bytes.length
  | .bodyTransferred => c.message.frame
  | .completed => c.message.frame

/-- the buffers hold what the call has still to send -/
def Current (s : St) (c : Call) : Prop :=
  match c.phase with
  | .lengthStarted => s.size = nativeToBig c.message.bytes.length ∧ s.serializedMessage.2 = c.message.bytes
  | .lengthTransferred => s.serializedMessage.2 = c.message.bytes
  | .bodyStarted buffer => s.serializedMessage = (buffer, c.message.bytes)
  | .bodyTransferred => True
  | .completed => True

structure Inv (s : St) : Prop where
  wire : s.wire = s.calls.flatMap Call.bytesSent
  /-- only the last call may be pending -/
  front : ∀ c ∈ s.calls.dropLast, c.sent
  current : ∀ c ∈ s.calls.getLast?, Current s c
  waitFirst : WaitFirst (s.calls.map Call.purpose)

theorem bytesSent_of_sent {c : Call} (h : c.sent) : c.bytesSent = c.message.frame := by
  unfold Call.sent at h
  unfold Call.bytesSent
  cases hphase : c.phase <;> simp_all

theorem bytesSent_prefix (c : Call) : c.bytesSent <+: c.message.frame := by
  unfold Call.bytesSent
  split
  · exact List.nil_prefix
  · exact List.prefix_append _ _
  · exact List.prefix_append _ _
  · exact List.prefix_rfl
  · exact List.prefix_rfl

theorem flatMap_of_sent {calls : List Call} (h : ∀ c ∈ calls, c.sent) :
    calls.flatMap Call.bytesSent = calls.flatMap fun c => c.message.frame := by
  induction calls with
  | nil => rfl
  | cons c calls ih =>
    rw [List.flatMap_cons, List.flatMap_cons, bytesSent_of_sent (h c List.mem_cons_self),
      ih fun c' hc' => h c' (List.mem_cons_of_mem c hc')]

/-- the invariant says that the bytes are frames -/
theorem Inv.framed {s : St} (h : Inv s) : Framed s := by
  refine ⟨s.calls.map fun c => (c.purpose, c.message), List.Perm.refl _, ?_, ?_, ?_⟩
  · simpa [Function.comp_def] using h.waitFirst
  · rw [h.wire, List.flatMap_map]
    rcases List.eq_nil_or_concat s.calls with hnil | ⟨front, last, hcalls⟩
    · rw [hnil]
      exact List.nil_prefix
    · have hfront : ∀ c ∈ front, c.sent := by simpa [hcalls] using h.front
      rw [hcalls, List.concat_eq_append, List.flatMap_append, List.flatMap_append, flatMap_of_sent hfront]
      simpa using bytesSent_prefix last
  · intro hsent
    rw [h.wire, List.flatMap_map]
    exact flatMap_of_sent (by simpa using hsent)

/-! ## Steps -/

variable {s s' : St}

theorem waitFirst_concat {purposes : List Purpose} (h : WaitFirst purposes) {purpose : Purpose}
    (hpurpose : ∀ q, purpose = .notify q → .wait q ∈ purposes) : WaitFirst (purposes ++ [purpose]) := by
  intro pre q post hsplit
  rcases List.eq_nil_or_concat post with rfl | ⟨post', last, rfl⟩
  · obtain ⟨rfl, hlast⟩ := List.append_inj' hsplit rfl
    exact hpurpose q (by simpa using hlast)
  · rw [List.concat_eq_append, ← List.cons_append, ← List.append_assoc] at hsplit
    obtain ⟨hinit, -⟩ := List.append_inj' hsplit rfl
    exact h pre q post' hinit

/-- a call that is started when all earlier ones are through -/
theorem inv_writeToNetwork (h : Inv s) (hsent : s.calls.all Call.sent) (purpose : Purpose) (message : Message)
    (hpurpose : ∀ q, purpose = .notify q → ∃ c ∈ s.calls, c.purpose = .wait q) :
    Inv (s.writeToNetwork purpose message) := by
  refine ⟨?_, ?_, ?_, ?_⟩
  · simp [St.writeToNetwork, h.wire, Call.bytesSent]
  · simpa [St.writeToNetwork] using hsent
  · simp [St.writeToNetwork, Current]
  · simp only [St.writeToNetwork, List.map_append, List.map_cons, List.map_nil]
    refine waitFirst_concat h.waitFirst fun q hq => ?_
    obtain ⟨c, hc, hwait⟩ := hpurpose q hq
    exact List.mem_map.2 ⟨c, hc, hwait⟩

/-- a change that the invariant does not see -/
theorem Inv.congr (h : Inv s) (hsize : s'.size = s.size) (hbody : s'.serializedMessage = s.serializedMessage)
    (hcalls : s'.calls = s.calls) (hwire : s'.wire = s.wire) : Inv s' := by
  refine ⟨by rw [hwire, hcalls, h.wire], by rw [hcalls]; exact h.front, ?_, by rw [hcalls]; exact h.waitFirst⟩
  intro c hc
  rw [hcalls] at hc
  have := h.current c hc
  unfold Current at this ⊢
  rw [hsize, hbody]
  exact this

/-- when all calls are through, nothing depends on the buffers -/
theorem inv_receive (h : Inv s) (hsent : s.calls.all Call.sent) (buffer : ℕ × List UInt8) :
    Inv { s with serializedMessage := buffer } := by
  refine ⟨h.wire, h.front, ?_, h.waitFirst⟩
  intro c hc
  have hc' : c.sent := List.all_eq_true.1 hsent c (List.mem_of_getLast? hc)
  unfold Call.sent at hc'
  unfold Current
  cases hphase : c.phase <;> simp_all

/-- a pending call is the last one -/
theorem pending_last (h : Inv s) {k : ℕ} {c : Call} (hk : s.calls[k]? = some c) (hpending : c.sent = false) :
    ∃ front, s.calls = front ++ [c] ∧ k = front.length ∧ (∀ c' ∈ front, c'.sent) ∧ Current s c := by
  rcases List.eq_nil_or_concat s.calls with hnil | ⟨front, last, hcalls⟩
  · simp [hnil] at hk
  rw [List.concat_eq_append] at hcalls
  have hfront : ∀ c' ∈ front, c'.sent := by simpa [hcalls] using h.front
  have hlast : Current s last := h.current last (by simp [hcalls])
  rw [hcalls] at hk
  rcases Nat.lt_trichotomy k front.length with hlt | heq | hgt
  · rw [List.getElem?_append_left hlt] at hk
    have := hfront c (List.mem_of_getElem? hk)
    rw [hpending] at this
    cases this
  · subst heq
    obtain rfl : last = c := by simpa using hk
    exact ⟨front, hcalls, rfl, hfront, hlast⟩
  · rw [List.getElem?_eq_none (by simp; omega)] at hk
    cases hk

/-- the last call goes on, and sends what the invariant says -/
theorem inv_last (h : Inv s) {front : List Call} {c : Call} (hcalls : s.calls = front ++ [c])
    (hfront : ∀ c' ∈ front, c'.sent) (c' : Call) (bytes : List UInt8) (hpurpose : c'.purpose = c.purpose)
    (hbytes : c'.bytesSent = c.bytesSent ++ bytes) (hs : s'.calls = front ++ [c'] ∧ s'.wire = s.wire ++ bytes)
    (hcurrent : Current s' c') : Inv s' := by
  refine ⟨?_, ?_, ?_, ?_⟩
  · rw [hs.1, hs.2, h.wire, hcalls]
    simp [hbytes]
  · simpa [hs.1] using hfront
  · simpa [hs.1] using hcurrent
  · have := h.waitFirst
    rw [hcalls] at this
    simpa [hs.1, hpurpose] using this

theorem read_current {c : Call} {buffer : ℕ} (h : s.serializedMessage = (buffer, c.message.bytes))
    (elsewhere : ℕ → UInt8) : s.read buffer c.message.bytes.length elsewhere = c.message.bytes := by
  unfold St.read
  rw [h]
  apply List.ext_getElem (by simp)
  intro i hi hi'
  simp [List.getD_eq_getElem?_getD, hi']

/-- the completion of a body has no effect on what is sent -/
theorem inv_completed (h : Inv s) {k : ℕ} {c : Call} (hk : s.calls[k]? = some c) (hphase : c.phase = .bodyTransferred) :
    Inv { s with calls := s.calls.set k { c with phase := .completed } } := by
  obtain ⟨hlt, hc⟩ := List.getElem?_eq_some_iff.1 hk
  have hcalls : s.calls = s.calls.take k ++ c :: s.calls.drop (k + 1) := by
    rw [← hc, List.getElem_cons_drop, List.take_append_drop]
  have hset := List.set_eq_take_append_cons_drop (l := s.calls) (i := k) (a := { c with phase := .completed })
  rw [if_pos hlt] at hset
  generalize s.calls.take k = pre at hcalls hset
  generalize s.calls.drop (k + 1) = post at hcalls hset
  refine ⟨?_, ?_, ?_, ?_⟩
  · have hbytes : ({ c with phase := .completed } : Call).bytesSent = c.bytesSent := by simp [Call.bytesSent, hphase]
    rw [hset]
    simp only [h.wire, hcalls, List.flatMap_append, List.flatMap_cons, hbytes]
  · have hfront := h.front
    rw [hcalls] at hfront
    rw [hset]
    rcases List.eq_nil_or_concat post with rfl | ⟨post', last, rfl⟩
    · simpa using hfront
    · intro c' hc'
      have hsent : ({ c with phase := .completed } : Call).sent := by simp [Call.sent]
      simp only [List.concat_eq_append, ← List.cons_append, ← List.append_assoc, List.dropLast_concat,
        List.mem_append, List.mem_cons] at hc' hfront
      rcases hc' with hc' | rfl | hc'
      · exact hfront c' (Or.inl hc')
      · exact hsent
      · exact hfront c' (Or.inr (Or.inr hc'))
  · have hcurrent := h.current
    rw [hcalls] at hcurrent
    rw [hset]
    rcases List.eq_nil_or_concat post with rfl | ⟨post', last, rfl⟩
    · simp [Current]
    · rw [List.concat_eq_append, ← List.cons_append, ← List.append_assoc, List.getLast?_concat] at hcurrent ⊢
      exact hcurrent
  · have hfirst := h.waitFirst
    rw [hcalls] at hfirst
    rw [hset]
    simpa using hfirst

theorem step_inv (h : Inv s) {op : Op} (hadm : Admitted s op) (hstep : step s op = some s') : Inv s' := by
  cases op with
  | receive incoming bytes =>
    simp only [step] at hstep
    split_ifs at hstep
    obtain rfl := Option.some.inj hstep
    exact (inv_receive h hadm (s.serializedMessage.1 + 1, bytes)).congr rfl rfl rfl rfl
  | launch =>
    simp only [step] at hstep
    split_ifs at hstep
    obtain rfl := Option.some.inj hstep
    exact h.congr rfl rfl rfl rfl
  | wait message =>
    simp only [step] at hstep
    split at hstep
    · split_ifs at hstep
      obtain rfl := Option.some.inj hstep
      exact (inv_writeToNetwork h hadm _ message (by simp)).congr rfl rfl rfl rfl
    · cases hstep
  | answer message =>
    simp only [step] at hstep
    split_ifs at hstep
    obtain rfl := Option.some.inj hstep
    exact (inv_writeToNetwork h hadm _ message (by simp)).congr rfl rfl rfl rfl
  | ignore =>
    simp only [step] at hstep
    split_ifs at hstep
    obtain rfl := Option.some.inj hstep
    exact h.congr rfl rfl rfl rfl
  | readAgain =>
    simp only [step] at hstep
    split_ifs at hstep
    obtain rfl := Option.some.inj hstep
    exact h.congr rfl rfl rfl rfl
  | notify q message =>
    simp only [step] at hstep
    split_ifs at hstep
    obtain rfl := Option.some.inj hstep
    refine (inv_writeToNetwork h hadm.1 (.notify q) message ?_).congr rfl rfl rfl rfl
    rintro _ ⟨⟩
    exact hadm.2
  | transferLength k =>
    obtain ⟨c, hk, hstep⟩ := Option.bind_eq_some_iff.1 hstep
    split_ifs at hstep with hphase
    obtain rfl := Option.some.inj hstep
    obtain ⟨front, hcalls, rfl, hfront, hcurrent⟩ := pending_last h hk (by simp [Call.sent, hphase])
    simp only [Current, hphase] at hcurrent
    refine inv_last h hcalls hfront { c with phase := .lengthTransferred } s.size rfl ?_ ?_ ?_
    · simp [Call.bytesSent, hphase, hcurrent.1]
    · simp [hcalls]
    · exact hcurrent.2
  | completeLength k =>
    obtain ⟨c, hk, hstep⟩ := Option.bind_eq_some_iff.1 hstep
    split_ifs at hstep with hphase
    obtain rfl := Option.some.inj hstep
    obtain ⟨front, hcalls, rfl, hfront, hcurrent⟩ := pending_last h hk (by simp [Call.sent, hphase])
    simp only [Current, hphase] at hcurrent
    refine inv_last h hcalls hfront { c with phase := .bodyStarted s.serializedMessage.1 } [] rfl ?_ ?_ ?_
    · simp [Call.bytesSent, hphase]
    · simp [hcalls]
    · exact Prod.ext rfl hcurrent
  | transferBody k elsewhere =>
    obtain ⟨c, hk, hstep⟩ := Option.bind_eq_some_iff.1 hstep
    split at hstep
    · rename_i buffer hphase
      obtain rfl := Option.some.inj hstep
      obtain ⟨front, hcalls, rfl, hfront, hcurrent⟩ := pending_last h hk (by simp [Call.sent, hphase])
      simp only [Current, hphase] at hcurrent
      refine inv_last h hcalls hfront { c with phase := .bodyTransferred } c.message.bytes rfl ?_ ?_ trivial
      · simp [Call.bytesSent, hphase, Message.frame]
      · simp [hcalls, read_current hcurrent]
    · cases hstep
  | completeBody k =>
    obtain ⟨c, hk, hstep⟩ := Option.bind_eq_some_iff.1 hstep
    split_ifs at hstep with hphase
    obtain rfl := Option.some.inj hstep
    exact (inv_completed h hk hphase).congr rfl rfl rfl rfl

/-- **When messages are not mixed.** In every interleaving of the loop, the query threads and the transfers in which the
buffers are filled only when all earlier calls are through, and a query is notified only after its WAIT answer, the bytes
sent are the frames of the calls. -/
theorem frames_in_order {s : St} (h : Run.Reach step Admitted connected s) : Framed s := by
  have hstart : Inv connected := by
    refine ⟨rfl, by simp [connected], by simp [connected], ?_⟩
    intro pre q post hsplit
    simp [connected] at hsplit
  exact (Run.reach_inv Inv hstart (fun _ _ _ hinv hadm hstep => step_inv hinv hadm hstep) h).framed

/-- an InfoMessage with this code and no text; the name of its type, which comes before it, is left out -/
def infoMessage (code : UInt8) : Message := ⟨[8, code], by norm_num⟩

/-- WAIT -/
def waitMessage : Message := infoMessage 1

/-- GET_NEXT_RESULT -/
def notifyMessage : Message := infoMessage 6

/-- the steps of a call, one after the other -/
def transfer (k : ℕ) : List Op :=
  [.transferLength k, .completeLength k, .transferBody k fun _ => 0, .completeBody k]

/-- a query whose two calls are through; `first` is what the client got before the notification -/
def notified (first : Message) : St :=
  ⟨[0, 0, 0, 2], (3, notifyMessage.bytes),
    [⟨.wait 0, waitMessage, .completed⟩, ⟨.notify 0, notifyMessage, .completed⟩],
    first.frame ++ notifyMessage.frame, .reading, [], 1⟩

/-- a query that is notified when its WAIT answer is through -/
theorem frames_in_order_query :
    Run.Reach step Admitted connected (notified waitMessage) ∧ Framed (notified waitMessage) := by
  have hreach : Run.Reach step Admitted connected (notified waitMessage) :=
    Run.reach_execAdmitted .refl ([.receive .query [8, 0], .launch, .wait waitMessage] ++ transfer 0 ++
      .notify 0 notifyMessage :: transfer 1) rfl
  exact ⟨hreach, frames_in_order hreach⟩

/-- A fast query: its thread fills the buffers before the length of the WAIT answer is transferred. The notification is
sent twice and the WAIT answer never. -/
theorem frames_mixed :
    ¬ ∀ (ops : List Op) (s : St), Run.exec step connected ops = some s → Framed s := by
  intro h
  have hrun : Run.exec step connected ([.receive .query [8, 0], .launch, .wait waitMessage, .notify 0 notifyMessage] ++
      transfer 0 ++ transfer 1) = some (notified notifyMessage) := rfl
  obtain ⟨order, hperm, -, -, hwire⟩ := h _ _ hrun
  -- in any order the frames have the code of WAIT in them
  have hbytes := hperm.flatMap_right fun m => m.2.frame
  rw [← hwire (by decide)] at hbytes
  exact absurd (hbytes.count_eq 1) (by decide)

end QikkDB.MessageFrames
