-- SUMMARY: The two receiving loops of the server, over the reads that TCP makes of what a peer or a client wrote.
import RaftKv.Wire.RPC

/-!
# The server loops

`handleRaft` and `handleClient` of `TCP_server.h`. Each read of at most 4095 bytes is
taken to be one message. The handlers of `RaftNode` are a parameter: whatever they do to
the node, the loops call them and write what they return. A handler may also throw, read past
a buffer, or never return, as `submit` does while nothing is committed; then so does the loop,
except that `handleClient` catches.

Of TCP the model has that bytes arrive in order, none lost, and that a read waits for a
byte and then returns as many of the arrived bytes as fit.
-/

namespace RaftKv.Wire

/-! ## Reads -/

/-- `sizeof(buffer) - 1`. -/
def readSize : Nat := 4095

/-- The timing of a connection: when the `i`-th read returns, `avail i` bytes or all that
are left have arrived. -/
structure Arrivals where
  avail : Nat → Nat
  pos : ∀ i, 0 < avail i

/-- The buffers that reads number `i`, `i + 1`, and so on return until `bytes` are
delivered. A read returns at least one byte, so their number is at most the first
argument if that is the number of bytes. -/
def readsFrom (arrivals : Arrivals) : Nat → Nat → Bytes → List Bytes
  | 0, _, _ => []
  | fuel + 1, i, bytes =>
    if bytes = [] then []
    else
      let n := min (arrivals.avail i) readSize
      bytes.take n :: readsFrom arrivals fuel (i + 1) (bytes.drop n)

def reads (arrivals : Arrivals) (bytes : Bytes) : List Bytes :=
  readsFrom arrivals bytes.length 0 bytes

/-- The first read finds all of `bytes` arrived, and they fit its buffer. -/
def FirstReadTakesAll (arrivals : Arrivals) (bytes : Bytes) : Prop :=
  bytes.length ≤ arrivals.avail 0 ∧ bytes.length ≤ readSize

/-- Nothing is lost: the buffers in order are the bytes sent. -/
theorem readsFrom_flatten (arrivals : Arrivals) {fuel : Nat} (i : Nat) {bytes : Bytes}
    (h : bytes.length ≤ fuel) : (readsFrom arrivals fuel i bytes).flatten = bytes := by
  induction fuel generalizing i bytes with
  | zero =>
    obtain rfl := List.length_eq_zero_iff.mp (Nat.le_zero.mp h)
    rfl
  | succ fuel ih =>
    rw [readsFrom]
    split
    · rename_i hnil
      rw [hnil]
      rfl
    · have hpos := arrivals.pos i
      have hread : 0 < readSize := by decide
      have hrest : (bytes.drop (min (arrivals.avail i) readSize)).length ≤ fuel := by
        rw [List.length_drop]
        omega
      rw [List.flatten_cons, ih (i + 1) hrest, List.take_append_drop]

theorem reads_flatten (arrivals : Arrivals) (bytes : Bytes) :
    (reads arrivals bytes).flatten = bytes :=
  readsFrom_flatten arrivals 0 (Nat.le_refl _)

theorem reads_cons (arrivals : Arrivals) {bytes : Bytes} (h : bytes ≠ []) :
    reads arrivals bytes = bytes.take (min (arrivals.avail 0) readSize) ::
      readsFrom arrivals (bytes.length - 1) 1 (bytes.drop (min (arrivals.avail 0) readSize)) := by
  have hpos : 0 < bytes.length := List.length_pos_iff.mpr h
  obtain ⟨fuel, hfuel⟩ : ∃ fuel, bytes.length = fuel + 1 := ⟨bytes.length - 1, by omega⟩
  rw [reads, hfuel, readsFrom, if_neg h, Nat.add_sub_cancel]

theorem reads_all {arrivals : Arrivals} {bytes : Bytes} (h : FirstReadTakesAll arrivals bytes)
    (hne : bytes ≠ []) : reads arrivals bytes = [bytes] := by
  have hle : bytes.length ≤ min (arrivals.avail 0) readSize := le_min h.1 h.2
  rw [reads_cons arrivals hne, List.take_of_length_le hle, List.drop_of_length_le hle]
  cases bytes.length - 1 <;> rfl

/-- A buffer as long as everything that was sent is the first one. -/
theorem firstReadTakesAll_of_mem {arrivals : Arrivals} {bytes buffer : Bytes}
    (hmem : buffer ∈ reads arrivals bytes) (hne : bytes ≠ [])
    (hlen : bytes.length ≤ buffer.length) : FirstReadTakesAll arrivals bytes := by
  have hpos : 0 < bytes.length := List.length_pos_iff.mpr hne
  have hn : 0 < min (arrivals.avail 0) readSize := lt_min (arrivals.pos 0) (by decide)
  rw [reads_cons arrivals hne, List.mem_cons] at hmem
  rcases hmem with rfl | hmem
  · rw [List.length_take] at hlen
    have hall : bytes.length ≤ min (arrivals.avail 0) readSize := by omega
    exact ⟨hall.trans (min_le_left _ _), hall.trans (min_le_right _ _)⟩
  · exfalso
    have hrest : (bytes.drop (min (arrivals.avail 0) readSize)).length ≤ bytes.length - 1 := by
      rw [List.length_drop]
      omega
    have hsub := (List.sublist_flatten_of_mem hmem).length_le
    rw [readsFrom_flatten arrivals 1 hrest] at hsub
    omega

/-! ## The loops -/

/-- `RaftNode` as another node's requests see it, over the state `σ` of the node. A call that
never returns has no result. -/
structure RaftHandlers (σ : Type) where
  handleRequestVote : σ → RequestVote → Option (Result (RequestVoteResponse × σ))
  handleAppendEntries : σ → AppendEntries → Option (Result (AppendEntriesResponse × σ))

/-- `RaftNode` as a client sees it. A call that throws may have changed the node. -/
structure ClientHandlers (σ : Type) where
  submit : σ → Command → Option (Result Unit × σ)
  get : σ → Bytes → Option (Result Bytes × σ)
  getStatus : σ → Bytes
  getLeaderId : σ → Int

/-- What a loop has done so far: the messages of type `κ` it called a handler with and the
replies it wrote, oldest first. -/
structure Connection (σ κ : Type) where
  raft : σ
  calls : List κ := []
  writes : List Bytes := []

/-- The requests one node sends to another. -/
inductive Request where
  | vote (rpc : RequestVote)
  | append (rpc : AppendEntries)

def Request.serialize [Host] : Request → Bytes
  | .vote rpc => rpc.serialize
  | .append rpc => rpc.serialize

variable {σ : Type}

/-- One round of `handleRaft`: a buffer that starts with neither `'V'` nor `'A'` is
dropped without a reply. Nothing catches an exception. -/
def handleRaftRead [Host] (h : RaftHandlers σ) (conn : Connection σ Request) (buffer : Bytes) :
    Option (Result (Connection σ Request)) :=
  if buffer.head? = some (tag 'V') then
    match RequestVote.deserialize buffer with
    | .ok rpc => (h.handleRequestVote conn.raft rpc).map fun result => do
      let (voteResp, raft) ← result
      return { raft, calls := conn.calls ++ [.vote rpc], writes := conn.writes ++ [voteResp.serialize] }
    | .error fault => some (.error fault)
  else if buffer.head? = some (tag 'A') then
    match AppendEntries.deserialize buffer with
    | .ok rpc => (h.handleAppendEntries conn.raft rpc).map fun result => do
      let (aeResp, raft) ← result
      return { raft, calls := conn.calls ++ [.append rpc], writes := conn.writes ++ [aeResp.serialize] }
    | .error fault => some (.error fault)
  else some (.ok conn)

def handleRaft [Host] (h : RaftHandlers σ) (conn : Connection σ Request) :
    List Bytes → Option (Result (Connection σ Request))
  | [] => some (.ok conn)
  | buffer :: buffers =>
    match handleRaftRead h conn buffer with
    | some (.ok conn) => handleRaft h conn buffers
    | stopped => stopped

/-- One round of `handleRaft`, as the node and the connection see it: what it makes of the node, and
what it writes. -/
def RaftHandlers.round [Host] (h : RaftHandlers σ) (raft : σ) (buffer : Bytes) :
    Option (Result (σ × Bytes)) :=
  (handleRaftRead h { raft } buffer).map fun result =>
    result.map fun conn => (conn.raft, conn.writes.flatten)

def ofString (s : String) : Bytes := s.toUTF8.toList

/-- The reply of the `catch` clause of `handleClient`. -/
def errorReply (h : ClientHandlers σ) (raft : σ) (what : String) : Bytes :=
  if what = "NOT_LEADER" then
    let leaderId := h.getLeaderId raft
    if leaderId ≠ 0 then ofString ("NOT_LEADER leader_id=" ++ toString leaderId ++ "\n")
    else ofString "NOT_LEADER unknown\n"
  else ofString ("ERROR: " ++ what ++ "\n")

/-- The `try` of `handleClient`: what is written for the outcome of a call. -/
def response {α : Type} (h : ClientHandlers σ) (raft : σ) (reply : α → Bytes) :
    Result α → Result Bytes
  | .ok a => .ok (reply a)
  | .error (.thrown what) => .ok (errorReply h raft what)
  | .error .outOfBounds => .error .outOfBounds

/-- The reply to a GET. -/
def valueReply (val : Bytes) : Bytes :=
  if val = [] then ofString "(null)\n" else val ++ ofString "\n"

/-- One round of `handleClient` on a buffer that does not start with `'Q'`. -/
def handleClientRead [Host] (h : ClientHandlers σ) (conn : Connection σ Command) (buffer : Bytes) :
    Option (Result (Connection σ Command)) :=
  if buffer.head? = some (tag 'S') then
    some (.ok { conn with writes := conn.writes ++ [h.getStatus conn.raft] })
  else if buffer.head? = some (tag 'G') then
    (h.get conn.raft buffer.tail).map fun (result, raft) => do
      let reply ← response h raft valueReply result
      return { conn with raft, writes := conn.writes ++ [reply] }
  else if buffer.head? = some (tag 'C') then
    match Command.deserialize buffer.tail with
    | .ok cmd => (h.submit conn.raft cmd).map fun (result, raft) => do
      let reply ← response h raft (fun _ => ofString "OK\n") result
      return { raft, calls := conn.calls ++ [cmd], writes := conn.writes ++ [reply] }
    | .error (.thrown what) =>
      some (.ok { conn with writes := conn.writes ++ [errorReply h conn.raft what] })
    | .error .outOfBounds => some (.error .outOfBounds)
  else some (.ok { conn with writes := conn.writes ++ [ofString "ERROR: Unknown Protocol\n"] })

/-- `'Q'` ends the loop without a reply. -/
def handleClient [Host] (h : ClientHandlers σ) (conn : Connection σ Command) :
    List Bytes → Option (Result (Connection σ Command))
  | [] => some (.ok conn)
  | buffer :: buffers =>
    if buffer.head? = some (tag 'Q') then some (.ok conn)
    else
      match handleClientRead h conn buffer with
      | some (.ok conn) => handleClient h conn buffers
      | stopped => stopped

/-- The packet of the client for a PUT or a DELETE. -/
def clientPacket [Host] (cmd : Command) : Bytes := [tag 'C'] ++ cmd.serialize

/-! ## One round -/

section Rounds

variable [Host] {h : RaftHandlers σ}

/-- The buffer holds this message. -/
def Decodes (buffer : Bytes) : Request → Prop
  | .vote rpc => buffer.head? = some (tag 'V') ∧ RequestVote.deserialize buffer = .ok rpc
  | .append rpc => buffer.head? = some (tag 'A') ∧ AppendEntries.deserialize buffer = .ok rpc

/-- The decoder that the tag calls for fails on the buffer. -/
def Garbled (buffer : Bytes) (fault : Fault String) : Prop :=
  (buffer.head? = some (tag 'V') ∧ RequestVote.deserialize buffer = .error fault) ∨
  (buffer.head? = some (tag 'A') ∧ AppendEntries.deserialize buffer = .error fault)

/-- The handler of a message, with its response as it is written. -/
def RaftHandlers.handle (h : RaftHandlers σ) (raft : σ) : Request → Option (Result (Bytes × σ))
  | .vote rpc => (h.handleRequestVote raft rpc).map fun result =>
      result.map fun (resp, raft) => (resp.serialize, raft)
  | .append rpc => (h.handleAppendEntries raft rpc).map fun result =>
      result.map fun (resp, raft) => (resp.serialize, raft)

/-- The connection after `msg` was handled. -/
def Connection.answered {κ : Type} (conn : Connection σ κ) (msg : κ) (result : Result (Bytes × σ)) :
    Result (Connection σ κ) :=
  result.map fun (reply, raft) =>
    { raft, calls := conn.calls ++ [msg], writes := conn.writes ++ [reply] }

omit [Host] in
theorem Connection.answered_ok {κ : Type} {conn conn' : Connection σ κ} {msg : κ}
    {outcome : Option (Result (Bytes × σ))} :
    outcome.map (conn.answered msg) = some (.ok conn') ↔ ∃ reply raft, outcome = some (.ok (reply, raft)) ∧
      conn' = { raft, calls := conn.calls ++ [msg], writes := conn.writes ++ [reply] } := by
  constructor
  · intro h
    rw [Option.map_eq_some_iff] at h
    obtain ⟨result, rfl, hresult⟩ := h
    cases result with
    | error fault => cases hresult
    | ok answer =>
      cases hresult
      exact ⟨_, _, rfl, rfl⟩
  · rintro ⟨reply, raft, rfl, rfl⟩
    rfl

omit [Host] in
theorem toOption_eq_some_iff {α : Type} {result : Result α} {a : α} :
    result.toOption = some a ↔ result = .ok a := by
  cases result with
  | error fault => exact ⟨fun h => (by cases h), fun h => (by cases h)⟩
  | ok b => exact ⟨fun h => congrArg Except.ok (Option.some.inj h), fun h => congrArg Except.toOption h⟩

theorem handleRaftRead_of_decodes (conn : Connection σ Request) {buffer : Bytes} {msg : Request}
    (hmsg : Decodes buffer msg) :
    handleRaftRead h conn buffer = (h.handle conn.raft msg).map (conn.answered msg) := by
  cases msg with
  | vote rpc =>
    obtain ⟨htag, hrpc⟩ := hmsg
    rw [handleRaftRead, if_pos htag, hrpc, RaftHandlers.handle, Option.map_map]
    refine congrArg (Option.map · _) (funext fun result => ?_)
    cases result <;> rfl
  | append rpc =>
    obtain ⟨htag, hrpc⟩ := hmsg
    have hother : some (tag 'A') ≠ some (tag 'V') := by decide
    rw [handleRaftRead, htag, if_neg hother, if_pos rfl, hrpc, RaftHandlers.handle, Option.map_map]
    refine congrArg (Option.map · _) (funext fun result => ?_)
    cases result <;> rfl

theorem RaftHandlers.round_of_decodes (raft : σ) {buffer : Bytes} {msg : Request}
    (hmsg : Decodes buffer msg) : h.round raft buffer = (h.handle raft msg).map fun result =>
      result.map fun (reply, raft) => (raft, reply) := by
  rw [round, handleRaftRead_of_decodes _ hmsg, Option.map_map]
  refine congrArg (Option.map · _) (funext fun result => ?_)
  cases result with
  | error fault => rfl
  | ok answer =>
    show Except.ok (answer.2, [answer.1].flatten) = _
    rw [List.flatten_singleton]
    rfl

theorem handleRaftRead_of_garbled (conn : Connection σ Request) {buffer : Bytes}
    {fault : Fault String} (hfault : Garbled buffer fault) :
    handleRaftRead h conn buffer = some (.error fault) := by
  rcases hfault with ⟨htag, hrpc⟩ | ⟨htag, hrpc⟩
  · rw [handleRaftRead, if_pos htag, hrpc]
  · have hother : some (tag 'A') ≠ some (tag 'V') := by decide
    rw [handleRaftRead, htag, if_neg hother, if_pos rfl, hrpc]

/-- A buffer holds a message, or stops the loop, or is passed over. -/
theorem handleRaftRead_cases (h : RaftHandlers σ) (conn : Connection σ Request) (buffer : Bytes) :
    (∃ msg, Decodes buffer msg) ∨ (∃ fault, Garbled buffer fault) ∨
      handleRaftRead h conn buffer = some (.ok conn) := by
  by_cases hvote : buffer.head? = some (tag 'V')
  · cases hrpc : RequestVote.deserialize buffer with
    | ok rpc => exact .inl ⟨.vote rpc, hvote, hrpc⟩
    | error fault => exact .inr (.inl ⟨fault, .inl ⟨hvote, hrpc⟩⟩)
  by_cases happend : buffer.head? = some (tag 'A')
  · cases hrpc : AppendEntries.deserialize buffer with
    | ok rpc => exact .inl ⟨.append rpc, happend, hrpc⟩
    | error fault => exact .inr (.inl ⟨fault, .inr ⟨happend, hrpc⟩⟩)
  · exact .inr (.inr (by rw [handleRaftRead, if_neg hvote, if_neg happend]))

theorem handleRaft_cons (conn : Connection σ Request) (buffer : Bytes) (buffers : List Bytes) :
    handleRaft h conn (buffer :: buffers) =
      match handleRaftRead h conn buffer with
      | some (.ok conn) => handleRaft h conn buffers
      | stopped => stopped := rfl

theorem handleRaft_singleton (conn : Connection σ Request) (buffer : Bytes) :
    handleRaft h conn [buffer] = handleRaftRead h conn buffer := by
  rw [handleRaft_cons]
  rcases handleRaftRead h conn buffer with _ | _ | _ <;> rfl

/-- `submit`, with what `handleClient` writes for it. -/
def ClientHandlers.answer (h : ClientHandlers σ) (raft : σ) (cmd : Command) :
    Option (Result (Bytes × σ)) :=
  (h.submit raft cmd).map fun (result, raft) =>
    (response h raft (fun _ => ofString "OK\n") result).map fun reply => (reply, raft)

theorem handleClientRead_of_decodes {client : ClientHandlers σ} (conn : Connection σ Command)
    {buffer : Bytes} {cmd : Command} (htag : buffer.head? = some (tag 'C'))
    (hcmd : Command.deserialize buffer.tail = .ok cmd) :
    handleClientRead client conn buffer = (client.answer conn.raft cmd).map (conn.answered cmd) := by
  have hstatus : some (tag 'C') ≠ some (tag 'S') := by decide
  have hget : some (tag 'C') ≠ some (tag 'G') := by decide
  rw [handleClientRead, htag, if_neg hstatus, if_neg hget, if_pos rfl, hcmd, ClientHandlers.answer,
    Option.map_map]
  refine congrArg (Option.map · _) (funext fun ⟨result, raft⟩ => ?_)
  rcases result with (_ | _) | _ <;> rfl

/-- A command that does not decode: an exception is answered. -/
theorem handleClientRead_of_error {client : ClientHandlers σ} (conn : Connection σ Command)
    {buffer : Bytes} {fault : Fault String} (htag : buffer.head? = some (tag 'C'))
    (hcmd : Command.deserialize buffer.tail = .error fault) :
    handleClientRead client conn buffer =
      some ((response client conn.raft (fun reply => reply) (.error fault)).map fun reply =>
        { conn with writes := conn.writes ++ [reply] }) := by
  have hstatus : some (tag 'C') ≠ some (tag 'S') := by decide
  have hget : some (tag 'C') ≠ some (tag 'G') := by decide
  rw [handleClientRead, htag, if_neg hstatus, if_neg hget, if_pos rfl, hcmd]
  cases fault <;> rfl

theorem handleClient_singleton {client : ClientHandlers σ} (conn : Connection σ Command)
    {buffer : Bytes} (hquit : buffer.head? ≠ some (tag 'Q')) :
    handleClient client conn [buffer] = handleClientRead client conn buffer := by
  rw [handleClient, if_neg hquit]
  rcases handleClientRead client conn buffer with _ | _ | _ <;> rfl

end Rounds

end RaftKv.Wire
