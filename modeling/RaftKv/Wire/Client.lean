-- SUMMARY: The command line client: from a line to a packet, from a reply to what it means, and the loop that follows redirects.
import RaftKv.Wire.Text

/-!
# The client

`client.cpp`. A line becomes a packet, or nothing; a reply is printed, or sends the client to
another node. What the network and the servers do is a parameter: for each attempt, what
`send` and `recv` come to.
-/

namespace RaftKv.Wire

/-! ## Lines -/

/-- What `main` makes of a line. -/
inductive Line where
  | quit
  | unknown
  | packet (bytes : Bytes)
  deriving DecidableEq

def parseLine [Host] (line : Bytes) : Line :=
  let (op, iss) := extract line
  let op := op.map toUpper
  if op = ofString "\\STATUS" then .packet [tag 'S']
  else if op = ofString "QUIT" then .quit
  else if op = ofString "GET" then
    let (key, _) := extract iss
    .packet ([tag 'G'] ++ key)
  else if op = ofString "PUT" then
    let (key, iss) := extract iss
    let (val, _) := extract iss
    .packet (clientPacket { oper := .put, key, val })
  else if op = ofString "DELETE" then
    let (key, _) := extract iss
    .packet (clientPacket { oper := .delete, key })
  else .unknown

/-! ## Replies -/

inductive Reading where
  /-- Another node leads. -/
  | redirect (leaderId : Int)
  | unknownLeader
  /-- Printed as it is. -/
  | text (response : Bytes)
  /-- A redirect without `leader_id=`. -/
  | silent
  /-- `std::stoi` throws, and `main` catches nothing. -/
  | thrown
  deriving DecidableEq

/-- `leader_id_str.erase(leader_id_str.find_last_not_of(" \n\r\t") + 1)`. -/
def trimEnd (s : Bytes) : Bytes := s.rdropWhile fun b => b = 32 || b = 10 || b = 13 || b = 9

/-- What the client takes from the bytes it received, up to the first 0. -/
def readResponse (buffer : Bytes) : Reading :=
  let response := buffer.takeWhile fun b => b ≠ 0
  if (find (ofString "NOT_LEADER leader_id=") response).isSome then
    match find (ofString "leader_id=") response with
    | some pos =>
      match stoi (trimEnd (response.drop (pos + 10))) with
      | some leaderId => .redirect leaderId
      | none => .thrown
    | none => .silent
  else if (find (ofString "NOT_LEADER unknown") response).isSome then .unknownLeader
  else .text response

/-! ## The loops -/

/-- What an attempt comes to. `recv` takes what has arrived, as far as it fits the buffer of the
client, and leaves the rest for the next attempt. -/
inductive Answer where
  | sendFailed
  | received (buffer : Bytes)
  | closed
  | recvFailed

/-- For attempt number `i`: the answer to a packet sent to a port, and whether
`connect_to_server` reaches a port afterwards. -/
structure Network where
  answer : Nat → Int → Bytes → Answer
  fits : ∀ i port packet buffer, answer i port packet = .received buffer →
    0 < buffer.length ∧ buffer.length ≤ readSize
  reachable : Nat → Int → Bool

structure Session where
  /-- The port that `sock` is connected to. -/
  port : Int
  attempts : Nat := 0
  sent : List (Int × Bytes) := []
  printed : List Bytes := []

def Session.print (s : Session) (text : Bytes) : Session :=
  { s with printed := s.printed ++ [text] }

/-- How the work on a line ends. -/
inductive Ending where
  | next
  | exit (code : Nat)
  | terminated
  /-- `6000 + leader_id` is no `int`. -/
  | overflow
  deriving DecidableEq

section Loops

variable (net : Network)

/-- The loop `while (retry--)` for one packet. -/
def retryLoop (packet : Bytes) : Nat → Session → Session × Ending
  | 0, s => (s, .next)
  | retry + 1, s =>
    let answer := net.answer s.attempts s.port packet
    let s := { s with attempts := s.attempts + 1, sent := s.sent ++ [(s.port, packet)] }
    match answer with
    | .sendFailed => (s.print (ofString "Send failed\n"), .next)
    | .received buffer =>
      match readResponse buffer with
      | .redirect leaderId =>
        let newPort := 6000 + leaderId
        if ¬ InRange newPort then (s, .overflow)
        else
          let s := s.print (ofString ("Redirecting to leader node " ++ toString leaderId ++
            " on port " ++ toString newPort ++ "\n"))
          if net.reachable s.attempts newPort then retryLoop packet retry { s with port := newPort }
          else
            (s.print (ofString ("Failed to connect to leader on port " ++ toString newPort ++ "\n")),
              .exit 1)
      | .unknownLeader =>
        let s := s.print (ofString "Leader unknown, retry later!\n")
        retryLoop packet retry (s.print (ofString "Retrying!\n"))
      | .text response => (s.print response, .next)
      | .silent => retryLoop packet retry s
      | .thrown => (s, .terminated)
    | .closed => (s.print (ofString "Server closed connection.\n"), .next)
    | .recvFailed => (s.print (ofString "Receive error\n"), .next)

variable [Host]

def handleLine (s : Session) (line : Bytes) : Session × Ending :=
  if line = [] then (s, .next)
  else
    match parseLine line with
    | .quit =>
      let sent := { s with attempts := s.attempts + 1, sent := s.sent ++ [(s.port, [tag 'Q'])] }
      match net.answer s.attempts s.port [tag 'Q'] with
      | .sendFailed => (sent.print (ofString "Send failed\n"), .exit 0)
      | _ => (sent, .exit 0)
    | .unknown => (s.print (ofString "Unknown command.\n"), .next)
    | .packet packet => retryLoop net packet 3 s

/-- `main`, once it is connected, on the lines of its input. -/
def clientMain (s : Session) : List Bytes → Session × Ending
  | [] => (s, .exit 0)
  | line :: lines =>
    match handleLine net s line with
    | (s, .next) => clientMain s lines
    | (s, ending) => (s, ending)

end Loops

end RaftKv.Wire
