-- SUMMARY: Server and client together: redirects are understood, a command is submitted at most once, and no stored value is taken for a redirect.
import RaftKv.Wire.Client
import RaftKv.Wire.Framing

/-!
# Client against server

`handleClient` answers in text and the client searches that text. Here the two are put
together: what each reply reads as, and what the retry loop does to the servers.
-/

namespace RaftKv.Wire

open Decimal

/-! ## What the replies read as -/

theorem takeWhile_eq_self {bs : Bytes} (h : ∀ b ∈ bs, b ≠ 0) :
    (bs.takeWhile fun b => b ≠ 0) = bs :=
  List.takeWhile_eq_self_iff.mpr fun b hb => by simpa using h b hb

/-- The bytes of a redirect. -/
def redirectText (leaderId : Int) : Bytes :=
  ofString "NOT_LEADER leader_id=" ++ (signed leaderId ++ [10])

theorem ofString_redirect (leaderId : Int) :
    ofString ("NOT_LEADER leader_id=" ++ toString leaderId ++ "\n") = redirectText leaderId := by
  have hnewline : ofString "\n" = [10] := by decide +kernel
  rw [ofString_append, ofString_append, ofString_int, hnewline, List.append_assoc]
  rfl

theorem redirectText_nonzero (leaderId : Int) : ∀ b ∈ redirectText leaderId, b ≠ 0 := by
  intro b hb
  rcases List.mem_append.mp hb with hb | hb
  · have hlit : ∀ b ∈ ofString "NOT_LEADER leader_id=", b ≠ 0 := by decide +kernel
    exact hlit b hb
  rcases List.mem_append.mp hb with hb | hb
  · rcases mem_signed hb with hdigit | rfl
    · rintro rfl
      exact absurd hdigit (by decide)
    · decide
  · rw [List.mem_singleton.mp hb]
    decide

theorem find_redirect (leaderId : Int) :
    find (ofString "NOT_LEADER leader_id=") (redirectText leaderId) = some 0 := by
  have hhead : (ofString "NOT_LEADER leader_id=").head? = some 78 := by decide +kernel
  exact find_append hhead List.not_mem_nil _

/-- The search for `leader_id=` stops at the text of the refusal, not earlier. -/
theorem find_leaderId (leaderId : Int) :
    find (ofString "leader_id=") (redirectText leaderId) = some 11 := by
  have hsplit : ofString "NOT_LEADER leader_id=" =
      ofString "NOT_LEADER " ++ ofString "leader_id=" := by decide +kernel
  have hhead : (ofString "leader_id=").head? = some 108 := by decide +kernel
  have hbefore : (108 : UInt8) ∉ ofString "NOT_LEADER " := by decide +kernel
  have hlen : (ofString "NOT_LEADER ").length = 11 := by decide +kernel
  rw [redirectText, hsplit, List.append_assoc, find_append hhead hbefore, hlen]

theorem trimEnd_signed (z : Int) : trimEnd (signed z ++ [10]) = signed z := by
  rw [trimEnd, List.rdropWhile_concat_pos _ _ _ (by decide), List.rdropWhile_eq_self_iff]
  intro hne hlast
  have hspace := isSpace_of_mem_signed (List.getLast_mem hne)
  simp only [Bool.or_eq_true, decide_eq_true_eq] at hlast
  rcases hlast with ((h | h) | h) | h <;> rw [h] at hspace <;> exact absurd hspace (by decide)

/-- The client reads the number that the server writes. -/
theorem readResponse_redirect {leaderId : Int} (hid : InRange leaderId) :
    readResponse (redirectText leaderId) = .redirect leaderId := by
  have hlen : (ofString "NOT_LEADER leader_id=").length = 11 + 10 := by decide +kernel
  have hnumber : (redirectText leaderId).drop (11 + 10) = signed leaderId ++ [10] := by
    rw [redirectText, ← hlen, List.drop_left]
  have hstoi : stoi (signed leaderId) = some leaderId := by
    have hread : stoi (signed leaderId ++ []) = some leaderId :=
      stoi_signed hid (by intro b hb; cases hb)
    rwa [List.append_nil] at hread
  rw [readResponse, takeWhile_eq_self (redirectText_nonzero leaderId)]
  simp only [find_redirect, find_leaderId, Option.isSome_some, if_true, hnumber, trimEnd_signed, hstoi]

theorem readResponse_unknown : readResponse (ofString "NOT_LEADER unknown\n") = .unknownLeader := by
  decide +kernel

theorem readResponse_ok : readResponse (ofString "OK\n") = .text (ofString "OK\n") := by
  decide +kernel

section Serving

variable [Host] {σ : Type} {h : ClientHandlers σ} {world : Nat → Int → σ} {net : Network} {cmd : Command}

/-- What the client receives is the reply of the node behind the port: `world i port` is the
state of that node when attempt `i` reaches it. -/
def Served (h : ClientHandlers σ) (world : Nat → Int → σ) (net : Network) : Prop :=
  ∀ i port packet buffer, net.answer i port packet = .received buffer →
    ∃ conn, handleClientRead h { raft := world i port } packet = some (.ok conn) ∧
      conn.writes = [buffer]

/-- Where the refusal of a node sends the client. -/
def nextPort (h : ClientHandlers σ) (raft : σ) (port : Int) : Int :=
  if h.getLeaderId raft ≠ 0 then 6000 + h.getLeaderId raft else port

/-- The command is sent again only if the submission threw, and a `NOT_LEADER` sends it where the
hint of the node points. The attempts are numbered from `i` on. -/
def RetriesRefused (h : ClientHandlers σ) (world : Nat → Int → σ) (cmd : Command) (i : Nat)
    (ports : List Int) : Prop :=
  ∀ k port port', ports[k]? = some port → ports[k + 1]? = some port' →
    ∃ what raft, h.submit (world (i + k) port) cmd = some (.error (.thrown what), raft) ∧
      (what = "NOT_LEADER" → port' = nextPort h raft port)

/-- The reply to a packet that decodes is what `submit` comes to. -/
theorem submit_reply (hshort : cmd.Short) (raft : σ) {conn : Connection σ Command}
    (hrun : handleClientRead h { raft } (clientPacket cmd) = some (.ok conn)) :
    ∃ result raft' reply, h.submit raft cmd = some (result, raft') ∧
      response h raft' (fun _ => ofString "OK\n") result = .ok reply ∧ conn.writes = [reply] := by
  have htag : (clientPacket cmd).head? = some (tag 'C') := rfl
  have hdec : Command.deserialize (clientPacket cmd).tail = .ok cmd :=
    Command.deserialize_serialize hshort
  rw [handleClientRead_of_decodes { raft } htag hdec] at hrun
  obtain ⟨reply, raft', hreply, rfl⟩ := Connection.answered_ok.mp hrun
  obtain ⟨⟨result, raft''⟩, hsubmit, hresult⟩ := Option.map_eq_some_iff.mp hreply
  cases hresponse : response h raft'' (fun _ => ofString "OK\n") result with
  | error fault =>
    simp only [hresponse] at hresult
    cases hresult
  | ok reply' =>
    simp only [hresponse] at hresult
    cases hresult
    exact ⟨result, _, _, hsubmit, hresponse, rfl⟩

/-- Only a submission that threw is answered with a refusal. -/
theorem refused_of_reading (hserved : Served h world net) (hids : ∀ raft, InRange (h.getLeaderId raft))
    (hshort : cmd.Short) {i : Nat} {port : Int} {buffer : Bytes}
    (hanswer : net.answer i port (clientPacket cmd) = .received buffer)
    (hread : ∀ response, readResponse buffer ≠ .text response) :
    ∃ what raft, h.submit (world i port) cmd = some (.error (.thrown what), raft) ∧
      (what = "NOT_LEADER" →
        readResponse buffer = .redirect (h.getLeaderId raft) ∧ h.getLeaderId raft ≠ 0 ∨
        readResponse buffer = .unknownLeader ∧ h.getLeaderId raft = 0) := by
  obtain ⟨conn, hrun, hwrites⟩ := hserved i port _ buffer hanswer
  obtain ⟨result, raft, reply, hsubmit, hresponse, hreply⟩ := submit_reply hshort _ hrun
  obtain rfl : reply = buffer := List.singleton_inj.mp (hreply.symm.trans hwrites)
  rcases result with (_ | what) | _
  · cases hresponse
  · obtain rfl : errorReply h raft what = reply := Except.ok.inj hresponse
    refine ⟨what, raft, hsubmit, ?_⟩
    rintro rfl
    rw [errorReply, if_pos rfl]
    by_cases hid : h.getLeaderId raft = 0
    · exact Or.inr ⟨by simp only [hid, ne_eq, not_true, if_false, readResponse_unknown], hid⟩
    · refine Or.inl ⟨?_, hid⟩
      simp only [if_pos hid]
      rw [ofString_redirect, readResponse_redirect (hids raft)]
  · obtain rfl : ofString "OK\n" = reply := Except.ok.inj hresponse
    exact absurd readResponse_ok (hread _)

omit [Host] in
theorem RetriesRefused.cons {i : Nat} {port : Int} {ports : List Int} {what : String} {raft : σ}
    (hthrew : h.submit (world i port) cmd = some (.error (.thrown what), raft))
    (hnext : what = "NOT_LEADER" → ∀ p ∈ ports.head?, p = nextPort h raft port)
    (hrest : RetriesRefused h world cmd (i + 1) ports) :
    RetriesRefused h world cmd i (port :: ports) := by
  intro k p p' hp hp'
  cases k with
  | zero =>
    cases hp
    refine ⟨what, raft, hthrew, fun hwhat => hnext hwhat p' ?_⟩
    rw [List.head?_eq_getElem?]
    exact hp'
  | succ k =>
    obtain ⟨what', raft', hk, hnext'⟩ := hrest k p p' hp hp'
    exact ⟨what', raft', by rwa [Nat.add_assoc, Nat.add_comm 1 k] at hk, hnext'⟩

/-- From `s` to `s'` the packet was sent to these ports, in this order. -/
structure Attempted (h : ClientHandlers σ) (world : Nat → Int → σ) (packet : Bytes) (s s' : Session)
    (ports : List Int) : Prop where
  sent : s'.sent = s.sent ++ ports.map fun p => (p, packet)
  attempts : s'.attempts = s.attempts + ports.length
  first : ∀ p ∈ ports.head?, p = s.port
  refused : ∀ cmd : Command, cmd.Short → packet = clientPacket cmd →
    RetriesRefused h world cmd s.attempts ports

namespace Attempted

variable {packet : Bytes} {s s₁ s' : Session} {ports : List Int}

theorem none (hsent : s'.sent = s.sent) (hattempts : s'.attempts = s.attempts) :
    Attempted h world packet s s' [] where
  sent := by rw [hsent]; exact (List.append_nil _).symm
  attempts := hattempts
  first := by intro p hp; cases hp
  refused := by intro cmd _ _ k p p' hp; cases hp

theorem one (hsent : s'.sent = s.sent ++ [(s.port, packet)])
    (hattempts : s'.attempts = s.attempts + 1) : Attempted h world packet s s' [s.port] where
  sent := hsent
  attempts := hattempts
  first := by intro p hp; cases hp; rfl
  refused := by intro cmd _ _ k p p' _ hp'; cases k <;> cases hp'

/-- The loop goes round once more, over a session that knows what the reply said. -/
theorem again (hrest : Attempted h world packet s₁ s' ports) (hserved : Served h world net)
    (hids : ∀ raft, InRange (h.getLeaderId raft)) {buffer : Bytes} (hanswer : net.answer s.attempts s.port packet = .received buffer)
    (hread : ∀ response, readResponse buffer ≠ .text response)
    (hsent : s₁.sent = s.sent ++ [(s.port, packet)]) (hattempts : s₁.attempts = s.attempts + 1)
    (hredirect : ∀ leaderId, readResponse buffer = .redirect leaderId → s₁.port = 6000 + leaderId)
    (hunknown : readResponse buffer = .unknownLeader → s₁.port = s.port) :
    Attempted h world packet s s' (s.port :: ports) where
  sent := by
    rw [hrest.sent, hsent, List.append_assoc]
    rfl
  attempts := by
    rw [hrest.attempts, hattempts, List.length_cons]
    omega
  first := by intro p hp; cases hp; rfl
  refused := by
    rintro cmd hshort rfl
    obtain ⟨what, raft, hthrew, hwhat⟩ := refused_of_reading hserved hids hshort hanswer hread
    refine .cons hthrew (fun hnot p hp => ?_) (hattempts ▸ hrest.refused cmd hshort rfl)
    rw [hrest.first p hp, nextPort]
    rcases hwhat hnot with ⟨hreading, hid⟩ | ⟨hreading, hid⟩
    · rw [hredirect _ hreading, if_pos hid]
    · rw [hunknown hreading, if_neg (fun hne => hne hid)]

end Attempted

/-- The loop makes at most `retry` attempts, and only a refused one is not the last. -/
theorem retryLoop_attempted (hserved : Served h world net)
    (hids : ∀ raft, InRange (h.getLeaderId raft)) (packet : Bytes) (retry : Nat) (s : Session) :
    ∃ ports, ports.length ≤ retry ∧
      Attempted h world packet s (retryLoop net packet retry s).1 ports := by
  induction retry generalizing s with
  | zero => exact ⟨[], Nat.le_refl _, .none rfl rfl⟩
  | succ retry ih =>
    have hlast : [s.port].length ≤ retry + 1 := Nat.le_add_left 1 retry
    have hlonger : ∀ ports : List Int, ports.length ≤ retry → (s.port :: ports).length ≤ retry + 1 :=
      fun _ => Nat.succ_le_succ
    rw [retryLoop]
    cases hanswer : net.answer s.attempts s.port packet with
    | sendFailed => exact ⟨_, hlast, .one rfl rfl⟩
    | closed => exact ⟨_, hlast, .one rfl rfl⟩
    | recvFailed => exact ⟨_, hlast, .one rfl rfl⟩
    | received buffer =>
      dsimp only
      cases hread : readResponse buffer with
      | text response => exact ⟨_, hlast, .one rfl rfl⟩
      | thrown => exact ⟨_, hlast, .one rfl rfl⟩
      | silent =>
        dsimp only
        obtain ⟨ports, hlen, hrest⟩ := ih
          { s with attempts := s.attempts + 1, sent := s.sent ++ [(s.port, packet)] }
        exact ⟨_, hlonger _ hlen, hrest.again hserved hids hanswer (by simp [hread]) rfl rfl
          (by simp [hread]) (by simp [hread])⟩
      | unknownLeader =>
        dsimp only
        obtain ⟨ports, hlen, hrest⟩ := ih ((Session.print
          { s with attempts := s.attempts + 1, sent := s.sent ++ [(s.port, packet)] }
          (ofString "Leader unknown, retry later!\n")).print (ofString "Retrying!\n"))
        exact ⟨_, hlonger _ hlen, hrest.again hserved hids hanswer (by simp [hread]) rfl rfl
          (by simp [hread]) (fun _ => rfl)⟩
      | redirect leaderId =>
        dsimp only
        split
        · exact ⟨_, hlast, .one rfl rfl⟩
        split
        · obtain ⟨ports, hlen, hrest⟩ := ih _
          exact ⟨_, hlonger _ hlen, hrest.again hserved hids hanswer (by simp [hread]) rfl rfl
            (by intro id hid; rw [hread] at hid; cases hid; rfl) (by simp [hread])⟩
        · exact ⟨_, hlast, .one rfl rfl⟩

/-! ## A session -/

/-- What is sent for a line. -/
def Line.bytes : Line → Bytes
  | .quit => [tag 'Q']
  | .unknown => []
  | .packet bytes => bytes

theorem handleLine_attempted (hserved : Served h world net)
    (hids : ∀ raft, InRange (h.getLeaderId raft)) (s : Session) (line : Bytes) :
    ∃ ports, ports.length ≤ 3 ∧
      Attempted h world (parseLine line).bytes s (handleLine net s line).1 ports := by
  unfold handleLine
  split
  · exact ⟨[], by decide, .none rfl rfl⟩
  cases hline : parseLine line with
  | quit =>
    refine ⟨[s.port], Nat.le_add_left 1 2, ?_⟩
    dsimp only
    split <;> exact .one rfl rfl
  | unknown => exact ⟨[], by decide, .none rfl rfl⟩
  | packet packet => exact retryLoop_attempted hserved hids packet 3 s

/-- From `s` to `s'`, line number `n` was sent to the ports of block number `n`: each to three at
most, and a command again only after a submission of it threw. -/
structure SentLines (h : ClientHandlers σ) (world : Nat → Int → σ) (lines : List Bytes) (s s' : Session)
    (blocks : List (List Int)) : Prop where
  count : blocks.length ≤ lines.length
  sent : s'.sent = s.sent ++ (List.zipWith (fun line ports =>
    ports.map fun p => (p, (parseLine line).bytes)) lines blocks).flatten
  three : ∀ ports ∈ blocks, ports.length ≤ 3
  refused : ∀ n line ports, lines[n]? = some line → blocks[n]? = some ports →
    ∀ cmd : Command, cmd.Short → (parseLine line).bytes = clientPacket cmd →
      RetriesRefused h world cmd (s.attempts + (blocks.take n).flatten.length) ports

namespace SentLines

variable {s s₁ s' : Session} {line : Bytes} {lines : List Bytes} {ports : List Int}
  {blocks : List (List Int)}

theorem none (lines : List Bytes) (s : Session) : SentLines h world lines s s [] where
  count := Nat.zero_le _
  sent := by rw [List.zipWith_nil_right]; exact (List.append_nil _).symm
  three := by intro ports hports; cases hports
  refused := by intro n line ports _ hports; cases hports

theorem cons (hlen : ports.length ≤ 3)
    (hline : Attempted h world (parseLine line).bytes s s₁ ports)
    (hrest : SentLines h world lines s₁ s' blocks) :
    SentLines h world (line :: lines) s s' (ports :: blocks) where
  count := Nat.succ_le_succ hrest.count
  sent := by
    rw [hrest.sent, hline.sent, List.append_assoc]
    rfl
  three := by
    intro ports' hports'
    rcases List.mem_cons.mp hports' with rfl | hports'
    · exact hlen
    · exact hrest.three _ hports'
  refused := by
    intro n line' ports' hline' hports' cmd hshort hbytes
    cases n with
    | zero =>
      cases hline'
      cases hports'
      exact hline.refused cmd hshort hbytes
    | succ n =>
      have hkept := hrest.refused n line' ports' hline' hports' cmd hshort hbytes
      rwa [hline.attempts, Nat.add_assoc, ← List.length_append] at hkept

end SentLines

/-- No line of a session is submitted twice: its command is sent again only after a submission
that threw, at most three times, and after a `NOT_LEADER` where the hint of the node points. -/
theorem submitted_at_most_once (hserved : Served h world net)
    (hids : ∀ raft, InRange (h.getLeaderId raft)) (s : Session) (lines : List Bytes) :
    ∃ blocks, SentLines h world lines s (clientMain net s lines).1 blocks := by
  induction lines generalizing s with
  | nil => exact ⟨[], .none [] s⟩
  | cons line lines ih =>
    obtain ⟨ports, hlen, hline⟩ := handleLine_attempted hserved hids s line
    rw [clientMain]
    rcases hrun : handleLine net s line with ⟨s₁, _ | _ | _ | _⟩ <;> rw [hrun] at hline
    · obtain ⟨blocks, hrest⟩ := ih s₁
      exact ⟨_, hrest.cons hlen hline⟩
    · exact ⟨_, (SentLines.none lines s₁).cons hlen hline⟩
    · exact ⟨_, (SentLines.none lines s₁).cons hlen hline⟩
    · exact ⟨_, (SentLines.none lines s₁).cons hlen hline⟩

end Serving

/-- Nodes that take node 2 for the leader; the state says whether the node leads. -/
def hintNode : ClientHandlers Bool where
  submit leads _ := some (if leads then .ok () else .error (.thrown "NOT_LEADER"), leads)
  get leads _ := some (.ok [], leads)
  getStatus _ := []
  getLeaderId _ := 2

/-- A network that loses nothing, in front of nodes that stay as they are. -/
def losslessNetwork [Host] {σ : Type} (h : ClientHandlers σ) (world : Nat → Int → σ) : Network where
  answer i port packet :=
    match handleClientRead h { raft := world i port } packet with
    | some (.ok ⟨_, _, [reply]⟩) =>
      if 0 < reply.length ∧ reply.length ≤ readSize then .received reply else .closed
    | _ => .closed
  fits i port packet buffer hanswer := by
    split at hanswer
    · split at hanswer
      · rename_i hreply
        cases hanswer
        exact hreply
      · cases hanswer
    · cases hanswer
  reachable _ _ := true

theorem losslessNetwork_served [Host] {σ : Type} (h : ClientHandlers σ) (world : Nat → Int → σ) :
    Served h world (losslessNetwork h world) := by
  intro i port packet buffer hanswer
  simp only [losslessNetwork] at hanswer
  split at hanswer
  · rename_i hrun
    split at hanswer
    · cases hanswer
      exact ⟨_, hrun, rfl⟩
    · cases hanswer
  · cases hanswer

/-- Node 1 sends a PUT on to node 2, and the DELETE that follows goes there at once. -/
theorem submitted_at_most_once_redirected :
    let world := fun (_ : Nat) (port : Int) => decide (port = 6002)
    let lines := [ofString "put k v", ofString "DELETE k"]
    (clientMain (losslessNetwork hintNode world) { port := 6001 } lines).1.sent.map (·.1) =
        [6001, 6002, 6002] ∧
      ∃ blocks, SentLines hintNode world lines { port := 6001 }
        (clientMain (losslessNetwork hintNode world) { port := 6001 } lines).1 blocks := by
  intro world lines
  have hids : ∀ leads, InRange (hintNode.getLeaderId leads) := fun _ => (by decide : InRange 2)
  exact ⟨by decide +kernel, submitted_at_most_once (losslessNetwork_served hintNode world) hids _ lines⟩

/-! ## What a client can store -/

section Lines

variable [Host]

/-- What a line with these words is parsed to: the case of the operation, the blanks and what
stands behind the words make no difference. -/
theorem parseLine_put {b₀ b₁ b₂ op key val rest : Bytes} (h₀ : ∀ b ∈ b₀, isSpace b = true)
    (h₁ : ∀ b ∈ b₁, isSpace b = true) (h₂ : ∀ b ∈ b₂, isSpace b = true) (hb₁ : b₁ ≠ [])
    (hb₂ : b₂ ≠ []) (hop : op.map toUpper = ofString "PUT") (hwords : ∀ w ∈ [op, key, val],
      w ≠ [] ∧ ∀ b ∈ w, isSpace b = false) (hrest : ∀ b ∈ rest.head?, isSpace b = true) :
    parseLine (b₀ ++ (op ++ (b₁ ++ (key ++ (b₂ ++ (val ++ rest)))))) =
      .packet (clientPacket { oper := .put, key, val }) := by
  have hhead : ∀ {blanks : Bytes}, (∀ b ∈ blanks, isSpace b = true) → blanks ≠ [] → ∀ tail : Bytes,
      ∀ b ∈ (blanks ++ tail).head?, isSpace b = true := by
    intro blanks hblanks hne tail b hb
    cases blanks with
    | nil => exact absurd rfl hne
    | cons c cs =>
      cases hb
      exact hblanks _ List.mem_cons_self
  obtain ⟨hopne, hopword⟩ := hwords op (by simp)
  obtain ⟨hkeyne, hkeyword⟩ := hwords key (by simp)
  obtain ⟨hvalne, hvalword⟩ := hwords val (by simp)
  have hstatus : ofString "PUT" ≠ ofString "\\STATUS" := by decide +kernel
  have hquit : ofString "PUT" ≠ ofString "QUIT" := by decide +kernel
  have hget : ofString "PUT" ≠ ofString "GET" := by decide +kernel
  simp only [parseLine, extract_append h₀ hopword hopne (hhead h₁ hb₁ _), hop, if_neg hstatus,
    if_neg hquit, if_neg hget, if_true, extract_append h₁ hkeyword hkeyne (hhead h₂ hb₂ _),
    extract_append h₂ hvalword hvalne hrest]

/-- A PUT line with words that fit makes the server call `submit` with these words, once, and
answer once, exactly if the server reads the packet whole and `submit` comes back. -/
theorem put_line_submitted {σ : Type} {h : ClientHandlers σ} {arrivals : Arrivals} (raft : σ)
    {b₀ b₁ b₂ op key val rest : Bytes} (h₀ : ∀ b ∈ b₀, isSpace b = true)
    (h₁ : ∀ b ∈ b₁, isSpace b = true) (h₂ : ∀ b ∈ b₂, isSpace b = true) (hb₁ : b₁ ≠ [])
    (hb₂ : b₂ ≠ []) (hop : op.map toUpper = ofString "PUT") (hwords : ∀ w ∈ [op, key, val],
      w ≠ [] ∧ ∀ b ∈ w, isSpace b = false) (hrest : ∀ b ∈ rest.head?, isSpace b = true)
    (hfits : key.length < 2 ^ 16 ∧ val.length < 2 ^ 16) :
    ∃ packet, parseLine (b₀ ++ (op ++ (b₁ ++ (key ++ (b₂ ++ (val ++ rest)))))) = .packet packet ∧
      ((∃ conn, handleClient h { raft } (reads arrivals packet) = some (.ok conn) ∧
        conn.calls = [{ oper := .put, key, val }] ∧ conn.writes.length = 1) ↔
          FirstReadTakesAll arrivals packet ∧ h.SubmitReturns raft { oper := .put, key, val }) :=
  ⟨_, parseLine_put h₀ h₁ h₂ hb₁ hb₂ hop hwords hrest, submittedOnce_iff raft hfits⟩

end Lines

theorem put_line_submitted_mixedCase : ∃ packet,
    parseLine (ofString "  Put\tk  v rest") = .packet packet ∧
      ((∃ conn, handleClient putNode { raft := () } (reads allArrived packet) = some (.ok conn) ∧
        conn.calls = [{ oper := .put, key := ofString "k", val := ofString "v" }] ∧
        conn.writes.length = 1) ↔ FirstReadTakesAll allArrived packet ∧
          putNode.SubmitReturns () { oper := .put, key := ofString "k", val := ofString "v" }) := by
  have hline : ofString "  Put\tk  v rest" = ofString "  " ++ (ofString "Put" ++ (ofString "\t" ++
      (ofString "k" ++ (ofString "  " ++ (ofString "v" ++ ofString " rest"))))) := by decide +kernel
  rw [hline]
  exact put_line_submitted () (by decide +kernel) (by decide +kernel) (by decide +kernel)
    (by decide +kernel) (by decide +kernel) (by decide +kernel) (by decide +kernel)
    (by decide +kernel) (by decide +kernel)

end RaftKv.Wire
