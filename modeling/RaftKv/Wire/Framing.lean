-- SUMMARY: When the receiving loops take one message sent for one message received.
import RaftKv.Wire.Recovery
import RaftKv.Wire.TCPServer

/-!
# Framing

A loop that takes every read for a message is right exactly when one read returns the
whole message and the handler it calls comes back with a response. One direction is the round
trip of the encoding. For the other, no message is decoded from fewer bytes than it is encoded
in (the length lemmas of `RaftKv/Wire/RPC.lean`), so a buffer that decodes to the message sent
is all of it.
-/

namespace RaftKv.Wire

open Decoder

section

variable [Host] {σ : Type} {h : RaftHandlers σ} {client : ClientHandlers σ} {arrivals : Arrivals}

/-- A request whose entries are intact, as they are in every store. -/
def Request.Sendable : Request → Prop
  | .vote _ => True
  | .append rpc => ∀ e ∈ rpc.entries, e.Intact

theorem Request.serialize_ne_nil (msg : Request) : msg.serialize ≠ [] := by
  cases msg with
  | vote rpc => exact List.cons_ne_nil _ _
  | append rpc => exact List.cons_ne_nil _ _

/-- The entries of a message fit its 32-bit count as soon as the message fits a buffer. -/
theorem AppendEntries.intact_of_length {rpc : AppendEntries} (hentries : ∀ e ∈ rpc.entries, e.Intact)
    (hlen : rpc.serialize.length < 2 ^ 32) : rpc.Intact := by
  refine ⟨hentries, ?_⟩
  have hcount : rpc.entries.length ≤ total (fun e => 28 + e.command.length) rpc.entries :=
    length_le_total (fun e => by omega) rpc.entries
  rw [length_serialize] at hlen
  omega

/-- The entries `sendAppendEntries` takes from its store are intact, whatever the file
holds. -/
theorem buildAppendEntries_intact {store : Storage} {nodeId nextIndex : UInt64} {rpc : AppendEntries}
    (hbuild : buildAppendEntries store nodeId nextIndex = .ok rpc) : ∀ e ∈ rpc.entries, e.Intact := by
  have hread : missingEntries store nextIndex = .ok rpc.entries := by
    unfold buildAppendEntries at hbuild
    cases hterm : prevTerm store (nextIndex - 1) with
    | error e =>
      rw [hterm] at hbuild
      cases hbuild
    | ok prevLogTerm =>
      rw [hterm] at hbuild
      change (missingEntries store nextIndex >>= _) = _ at hbuild
      cases hentries : missingEntries store nextIndex with
      | error e =>
        rw [hentries] at hbuild
        cases hbuild
      | ok entries =>
        rw [hentries] at hbuild
        cases hbuild
        rfl
  rw [missingEntries] at hread
  split at hread
  · exact Storage.readFrom_intact hread
  · have hnil : [] = rpc.entries := Except.ok.inj hread
    rw [← hnil]
    simp

/-! ## One read, one message -/

/-- The loop of `handleRaft`, run on the reads of one message, calls the handler for that
message only and writes one reply. -/
def HandledOnce (h : RaftHandlers σ) (raft : σ) (arrivals : Arrivals) (msg : Request) : Prop :=
  ∃ conn, handleRaft h { raft } (reads arrivals msg.serialize) = some (.ok conn) ∧
    conn.calls = [msg] ∧ conn.writes.length = 1

/-- The same for a client's packet and `handleClient`. -/
def SubmittedOnce (h : ClientHandlers σ) (raft : σ) (arrivals : Arrivals) (cmd : Command) : Prop :=
  ∃ conn, handleClient h { raft } (reads arrivals (clientPacket cmd)) = some (.ok conn) ∧
    conn.calls = [cmd] ∧ conn.writes.length = 1

/-- The handler of the message returns. -/
def RaftHandlers.Returns (h : RaftHandlers σ) (raft : σ) (msg : Request) : Prop :=
  ∃ reply, h.handle raft msg = some (.ok reply)

/-- `submit` returns, or throws what `handleClient` catches. -/
def ClientHandlers.SubmitReturns (h : ClientHandlers σ) (raft : σ) (cmd : Command) : Prop :=
  ∃ result raft', h.submit raft cmd = some (result, raft') ∧ result ≠ .error .outOfBounds

theorem Request.decodes_serialize {msg : Request} (hmsg : msg.Sendable)
    (hlen : msg.serialize.length < 2 ^ 32) : Decodes msg.serialize msg := by
  cases msg with
  | vote rpc => exact ⟨rfl, run_map_ok.mpr ⟨[], rpc.reads_decode.run⟩⟩
  | append rpc =>
    have hintact := AppendEntries.intact_of_length hmsg hlen
    exact ⟨rfl, run_map_ok.mpr ⟨[], (AppendEntries.reads_decode hintact).run⟩⟩

theorem Decodes.length_le {buffer : Bytes} {msg : Request} (hmsg : Decodes buffer msg) :
    msg.serialize.length ≤ buffer.length := by
  cases msg with
  | vote rpc => exact RequestVote.length_le_of_deserialize hmsg.2
  | append rpc => exact AppendEntries.length_le_of_deserialize hmsg.2

/-- What one round adds to the calls is no longer than the buffer of that round. -/
theorem handleRaftRead_calls {conn conn' : Connection σ Request} {buffer : Bytes}
    (hrun : handleRaftRead h conn buffer = some (.ok conn')) :
    ∀ msg ∈ conn'.calls, msg ∈ conn.calls ∨ msg.serialize.length ≤ buffer.length := by
  intro msg hmsg
  rcases handleRaftRead_cases h conn buffer with ⟨sent, hsent⟩ | ⟨fault, hfault⟩ | hsame
  · rw [handleRaftRead_of_decodes conn hsent] at hrun
    obtain ⟨reply, raft, -, rfl⟩ := Connection.answered_ok.mp hrun
    rcases List.mem_append.mp hmsg with hmsg | hmsg
    · exact .inl hmsg
    · rw [List.mem_singleton.mp hmsg]
      exact .inr hsent.length_le
  · rw [handleRaftRead_of_garbled conn hfault] at hrun
    cases hrun
  · rw [hsame] at hrun
    cases hrun
    exact .inl hmsg

/-- Over a whole run, by induction on the buffers: every call came from a buffer at least
as long as the message. -/
theorem handleRaft_calls {conn conn' : Connection σ Request} {buffers : List Bytes}
    (hrun : handleRaft h conn buffers = some (.ok conn')) : ∀ msg ∈ conn'.calls,
      msg ∈ conn.calls ∨ ∃ buffer ∈ buffers, msg.serialize.length ≤ buffer.length := by
  induction buffers generalizing conn with
  | nil =>
    cases hrun
    exact fun msg hmsg => .inl hmsg
  | cons buffer buffers ih =>
    rw [handleRaft_cons] at hrun
    split at hrun
    · rename_i mid hread
      intro msg hmsg
      rcases ih hrun msg hmsg with hmid | ⟨b, hb, hlen⟩
      · rcases handleRaftRead_calls hread msg hmid with hconn | hlen
        · exact .inl hconn
        · exact .inr ⟨buffer, List.mem_cons_self, hlen⟩
      · exact .inr ⟨b, List.mem_cons_of_mem buffer hb, hlen⟩
    · rename_i hstopped
      exact absurd hrun (hstopped conn')

theorem handledOnce_iff (raft : σ) {msg : Request} (hmsg : msg.Sendable) :
    HandledOnce h raft arrivals msg ↔
      FirstReadTakesAll arrivals msg.serialize ∧ h.Returns raft msg := by
  -- one round on the whole message
  have hwhole : FirstReadTakesAll arrivals msg.serialize →
      handleRaft h { raft } (reads arrivals msg.serialize) =
        (h.handle raft msg).map (Connection.answered { raft } msg) := by
    intro hall
    have hdec := msg.decodes_serialize hmsg (lt_of_le_of_lt hall.2 (by decide))
    rw [reads_all hall msg.serialize_ne_nil, handleRaft_singleton, handleRaftRead_of_decodes _ hdec]
  constructor
  · rintro ⟨conn, hrun, hcalls, -⟩
    have hmem : msg ∈ conn.calls := by rw [hcalls]; exact List.mem_singleton_self msg
    have hall : FirstReadTakesAll arrivals msg.serialize := by
      rcases handleRaft_calls hrun msg hmem with hnone | ⟨buffer, hbuffer, hlen⟩
      · cases hnone
      · exact firstReadTakesAll_of_mem hbuffer msg.serialize_ne_nil hlen
    refine ⟨hall, ?_⟩
    rw [hwhole hall] at hrun
    obtain ⟨reply, raft', hreply, -⟩ := Connection.answered_ok.mp hrun
    exact ⟨_, hreply⟩
  · rintro ⟨hall, ⟨reply, raft'⟩, hreply⟩
    exact ⟨{ raft := raft', calls := [msg], writes := [reply] }, by rw [hwhole hall, hreply]; rfl,
      rfl, rfl⟩

/-- A message that the first read does not take whole ends the thread: the decoder reads
past the end of the buffer it was given. -/
theorem handleRaft_cut (conn : Connection σ Request) {msg : Request} (hmsg : msg.Sendable)
    (hlen : msg.serialize.length < 2 ^ 32) (hcut : ¬ FirstReadTakesAll arrivals msg.serialize) :
    handleRaft h conn (reads arrivals msg.serialize) = some (.error .outOfBounds) := by
  have hsize : min (arrivals.avail 0) readSize < msg.serialize.length := by
    by_contra hge
    exact hcut ⟨by omega, by omega⟩
  have hpos : 0 < min (arrivals.avail 0) readSize := lt_min (arrivals.pos 0) (by decide)
  generalize hn : min (arrivals.avail 0) readSize = n at hsize hpos
  have hne : msg.serialize.take n ≠ msg.serialize := by
    intro heq
    have := congrArg List.length heq
    rw [List.length_take] at this
    omega
  have hgarbled : Garbled (msg.serialize.take n) .outOfBounds := by
    obtain ⟨n, rfl⟩ : ∃ m, n = m + 1 := ⟨n - 1, by omega⟩
    cases msg with
    | vote rpc =>
      have hrun := RequestVote.local_decode.cut rpc.reads_decode (List.take_prefix (n + 1) _) hne
      refine .inl ⟨rfl, ?_⟩
      rw [Request.serialize, RequestVote.deserialize, hrun]
      rfl
    | append rpc =>
      have hintact := AppendEntries.intact_of_length hmsg hlen
      have hrun := AppendEntries.local_decode.cut (AppendEntries.reads_decode hintact)
        (List.take_prefix (n + 1) _) hne
      refine .inr ⟨rfl, ?_⟩
      rw [Request.serialize, AppendEntries.deserialize, hrun]
      rfl
  rw [reads_cons arrivals msg.serialize_ne_nil, hn, handleRaft_cons,
    handleRaftRead_of_garbled conn hgarbled]

/-! ## Client packets -/

/-- A command submitted in one round has a packet no longer than the buffer of that
round. -/
theorem handleClientRead_calls {conn conn' : Connection σ Command} {buffer : Bytes}
    (hrun : handleClientRead client conn buffer = some (.ok conn')) : ∀ cmd ∈ conn'.calls,
      cmd ∈ conn.calls ∨ (clientPacket cmd).length ≤ buffer.length := by
  intro cmd hcmd
  by_cases htag : buffer.head? = some (tag 'C')
  · have hpos : 0 < buffer.length := List.length_pos_iff.mpr (by rintro rfl; cases htag)
    cases hsent : Command.deserialize buffer.tail with
    | ok sent =>
      rw [handleClientRead_of_decodes conn htag hsent] at hrun
      obtain ⟨reply, raft, -, rfl⟩ := Connection.answered_ok.mp hrun
      rcases List.mem_append.mp hcmd with hcmd | hcmd
      · exact .inl hcmd
      · obtain rfl := List.mem_singleton.mp hcmd
        have hlen := (Command.deserialize_ok hsent).2.length_le
        rw [List.length_tail] at hlen
        rw [clientPacket, List.length_append, List.length_singleton]
        exact .inr (by omega)
    | error fault =>
      rw [handleClientRead_of_error conn htag hsent] at hrun
      cases fault <;> cases hrun
      exact .inl hcmd
  · rw [handleClientRead] at hrun
    split at hrun
    · cases hrun
      exact .inl hcmd
    split at hrun
    · rw [Option.map_eq_some_iff] at hrun
      obtain ⟨⟨result, raft⟩, -, hresult⟩ := hrun
      dsimp only at hresult
      cases hreply : response client raft valueReply result with
      | error fault =>
        rw [hreply] at hresult
        cases hresult
      | ok reply =>
        rw [hreply] at hresult
        cases hresult
        exact .inl hcmd
    · cases hrun
      exact .inl hcmd

theorem handleClient_calls {conn conn' : Connection σ Command} {buffers : List Bytes}
    (hrun : handleClient client conn buffers = some (.ok conn')) : ∀ cmd ∈ conn'.calls,
      cmd ∈ conn.calls ∨ ∃ buffer ∈ buffers, (clientPacket cmd).length ≤ buffer.length := by
  induction buffers generalizing conn with
  | nil =>
    cases hrun
    exact fun cmd hcmd => .inl hcmd
  | cons buffer buffers ih =>
    rw [handleClient] at hrun
    split at hrun
    · cases hrun
      exact fun cmd hcmd => .inl hcmd
    split at hrun
    · rename_i mid hread
      intro cmd hcmd
      rcases ih hrun cmd hcmd with hmid | ⟨b, hb, hlen⟩
      · rcases handleClientRead_calls hread cmd hmid with hconn | hlen
        · exact .inl hconn
        · exact .inr ⟨buffer, List.mem_cons_self, hlen⟩
      · exact .inr ⟨b, List.mem_cons_of_mem buffer hb, hlen⟩
    · rename_i hstopped
      exact absurd hrun (hstopped conn')

omit [Host] in
theorem submitReturns_iff {raft : σ} {cmd : Command} :
    client.SubmitReturns raft cmd ↔ ∃ reply, client.answer raft cmd = some (.ok reply) := by
  unfold ClientHandlers.SubmitReturns ClientHandlers.answer
  constructor
  · rintro ⟨result, raft', hsubmit, hresult⟩
    rw [hsubmit]
    rcases result with (_ | what) | _
    · exact absurd rfl hresult
    · exact ⟨_, rfl⟩
    · exact ⟨_, rfl⟩
  · rintro ⟨reply, hreply⟩
    obtain ⟨⟨result, raft'⟩, hsubmit, hresult⟩ := Option.map_eq_some_iff.mp hreply
    refine ⟨result, raft', hsubmit, ?_⟩
    rintro rfl
    cases hresult

theorem submittedOnce_iff (raft : σ) {cmd : Command} (hcmd : cmd.Short) :
    SubmittedOnce client raft arrivals cmd ↔
      FirstReadTakesAll arrivals (clientPacket cmd) ∧ client.SubmitReturns raft cmd := by
  have hne : clientPacket cmd ≠ [] := List.cons_ne_nil _ _
  have hwhole : FirstReadTakesAll arrivals (clientPacket cmd) →
      handleClient client { raft } (reads arrivals (clientPacket cmd)) =
        (client.answer raft cmd).map (Connection.answered { raft } cmd) := by
    intro hall
    have hquit : (clientPacket cmd).head? ≠ some (tag 'Q') := by
      show some (tag 'C') ≠ some (tag 'Q')
      decide
    have htag : (clientPacket cmd).head? = some (tag 'C') := rfl
    have hdec : Command.deserialize (clientPacket cmd).tail = .ok cmd :=
      Command.deserialize_serialize hcmd
    rw [reads_all hall hne, handleClient_singleton _ hquit, handleClientRead_of_decodes _ htag hdec]
  rw [submitReturns_iff]
  constructor
  · rintro ⟨conn, hrun, hcalls, -⟩
    have hmem : cmd ∈ conn.calls := by rw [hcalls]; exact List.mem_singleton_self cmd
    have hall : FirstReadTakesAll arrivals (clientPacket cmd) := by
      rcases handleClient_calls hrun cmd hmem with hnone | ⟨buffer, hbuffer, hlen⟩
      · cases hnone
      · exact firstReadTakesAll_of_mem hbuffer hne hlen
    rw [hwhole hall] at hrun
    obtain ⟨reply, raft', hreply, -⟩ := Connection.answered_ok.mp hrun
    exact ⟨hall, _, hreply⟩
  · rintro ⟨hall, ⟨reply, raft'⟩, hreply⟩
    exact ⟨{ raft := raft', calls := [cmd], writes := [reply] }, by rw [hwhole hall, hreply]; rfl,
      rfl, rfl⟩

/-! ## Every message -/

/-- For every node, every timing of the connection, every request (in particular the ones
`sendAppendEntries` and `startElection` build from a store) and every packet of a client:
the handler is called once, with what was sent, and one reply is written, if and only if
the first read takes the whole message and the handler comes back. -/
theorem handled_once_iff (h : RaftHandlers σ) (client : ClientHandlers σ) (raft : σ)
    (arrivals : Arrivals) :
    (∀ msg : Request, msg.Sendable →
      (HandledOnce h raft arrivals msg ↔
        FirstReadTakesAll arrivals msg.serialize ∧ h.Returns raft msg)) ∧
    (∀ (store : Storage) (nodeId nextIndex : UInt64) (rpc : AppendEntries),
      buildAppendEntries store nodeId nextIndex = .ok rpc →
      (HandledOnce h raft arrivals (.append rpc) ↔
        FirstReadTakesAll arrivals rpc.serialize ∧ h.Returns raft (.append rpc))) ∧
    (∀ (store : Storage) (nodeId : UInt64),
      HandledOnce h raft arrivals (.vote (buildRequestVote store nodeId)) ↔
        FirstReadTakesAll arrivals (buildRequestVote store nodeId).serialize ∧
          h.Returns raft (.vote (buildRequestVote store nodeId))) ∧
    (∀ cmd : Command, cmd.Short →
      (SubmittedOnce client raft arrivals cmd ↔
        FirstReadTakesAll arrivals (clientPacket cmd) ∧ client.SubmitReturns raft cmd)) := by
  refine ⟨fun msg hmsg => handledOnce_iff raft hmsg, ?_, ?_, fun cmd hcmd => submittedOnce_iff raft hcmd⟩
  · intro store nodeId nextIndex rpc hbuild
    have hmsg : (Request.append rpc).Sendable := buildAppendEntries_intact hbuild
    exact handledOnce_iff raft hmsg
  · intro store nodeId
    have hmsg : (Request.vote (buildRequestVote store nodeId)).Sendable := trivial
    exact handledOnce_iff raft hmsg

end

/-- A node without state: it grants votes and accepts entries. -/
def yesNode : RaftHandlers Unit where
  handleRequestVote _ rpc := some (.ok (⟨rpc.term, true⟩, ()))
  handleAppendEntries _ rpc := some (.ok (⟨rpc.term, true⟩, ()))

/-- A node without state towards its clients: it commits a PUT at once, and anything else never. -/
def putNode : ClientHandlers Unit where
  submit _ cmd := if cmd.oper = .put then some (.ok (), ()) else none
  get _ _ := some (.ok [], ())
  getStatus _ := []
  getLeaderId _ := 1

/-- A connection on which everything has arrived before the first read. -/
def allArrived : Arrivals where
  avail _ := 2 ^ 16
  pos _ := by decide

/-- A batch is answered, a PUT as well, and a DELETE that is never committed is not. -/
theorem handled_once_iff_yesNode :
    HandledOnce yesNode () allArrived (.append ⟨1, 1, 0, 0, 0, [noopEntry 1 1]⟩) ∧
      SubmittedOnce putNode () allArrived { oper := .put, key := [107], val := [118] } ∧
      ¬ SubmittedOnce putNode () allArrived { oper := .delete, key := [107] } := by
  have hentries : ∀ e ∈ [noopEntry 1 1], e.Intact := by
    intro e he
    rw [List.mem_singleton.mp he]
    exact noopEntry_intact 1 1
  have hall := handled_once_iff yesNode putNode () allArrived
  refine ⟨?_, ?_, ?_⟩
  · exact (hall.1 (.append ⟨1, 1, 0, 0, 0, [noopEntry 1 1]⟩) hentries).mpr
      ⟨⟨by decide, by decide⟩, _, rfl⟩
  · exact (hall.2.2.2 { oper := .put, key := [107], val := [118] } ⟨by decide, by decide⟩).mpr
      ⟨⟨by decide, by decide⟩, _, _, rfl, by decide⟩
  · rintro honce
    obtain ⟨-, result, raft', hsubmit, -⟩ :=
      (hall.2.2.2 { oper := .delete, key := [107] } ⟨by decide, by decide⟩).mp honce
    cases hsubmit

/-- The log of a leader that has appended 200 no-ops. -/
def longLog : List LogEntry := (List.range 200).map fun i => noopEntry 1 (UInt64.ofNat (i + 1))

def longStore : Storage where
  files := ⟨Storage.encodeLog longLog, none⟩
  term := 1
  lastLogTerm := 1
  voted := [49]
  logLength := 200
  commitIndex := 0
  lastApplied := 0

theorem longStore_holds : longStore.Holds longLog where
  file := rfl
  intact e he := by
    obtain ⟨i, -, rfl⟩ := List.mem_map.mp he
    exact noopEntry_intact 1 _
  length := by
    rw [longLog, List.length_map, List.length_range]
    rfl
  last := by
    rw [lastTerm, longLog, List.getLast?_map]
    decide

/-- A peer that has nothing yet is sent all 200 entries, in 6645 bytes: the first read
returns 4095 of them, the decoder runs off their end, and the handler is never called. -/
theorem long_message_lost :
    let rpc : AppendEntries := ⟨1, 1, 0, 0, 0, longLog⟩
    buildAppendEntries longStore 1 1 = .ok rpc ∧ rpc.serialize.length = 6645 ∧
      handleRaft yesNode { raft := () } (reads allArrived rpc.serialize) =
        some (.error .outOfBounds) ∧
      ¬ HandledOnce yesNode () allArrived (.append rpc) := by
  intro rpc
  have hbuild : buildAppendEntries longStore 1 1 = .ok rpc := by
    have hentries : missingEntries longStore 1 = .ok longLog := by
      rw [missingEntries, if_pos (by decide), longStore_holds.readFrom]
      rfl
    unfold buildAppendEntries
    rw [hentries]
    rfl
  have hlen : rpc.serialize.length = 6645 := by
    have hentry : ∀ e ∈ longLog, 28 + e.command.length = 33 := by
      intro e he
      obtain ⟨i, -, rfl⟩ := List.mem_map.mp he
      rfl
    have hlength : longLog.length = 200 := by rw [longLog, List.length_map, List.length_range]
    rw [AppendEntries.length_serialize, total_eq_mul hentry, hlength]
  have hcut : ¬ FirstReadTakesAll allArrived rpc.serialize := by
    rintro ⟨-, hfits⟩
    rw [hlen] at hfits
    exact absurd hfits (by decide)
  have hmsg : (Request.append rpc).Sendable := buildAppendEntries_intact hbuild
  have hshort : (Request.append rpc).serialize.length < 2 ^ 32 := by
    show rpc.serialize.length < 2 ^ 32
    rw [hlen]
    decide
  have hfault : handleRaft yesNode { raft := () } (reads allArrived (Request.append rpc).serialize) =
      some (.error .outOfBounds) := handleRaft_cut { raft := () } hmsg hshort hcut
  refine ⟨hbuild, hlen, hfault, ?_⟩
  intro honce
  exact hcut ((handledOnce_iff () hmsg).mp honce).1

end RaftKv.Wire
