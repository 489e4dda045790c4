-- SUMMARY: The server's command line: what `main` reads from its arguments, and what the start scripts make of a cluster with it.
import RaftKv.Wire.Text
import RaftKv.Runs

/-!
# The command line of the server

`main` of `server.cpp` reads the arguments from left to right. The start scripts write them:
every node gets its number, its two ports, and the addresses of all the others.
-/

namespace RaftKv.Wire

open Decimal

/-! ## Reading the arguments -/

def comma : UInt8 := 44
def colon : UInt8 := 58
def atSign : UInt8 := 64

/-- What a `Peer` is built from. -/
structure PeerAddress where
  id : Int
  ip : Bytes
  port : Int
  deriving DecidableEq

structure Options where
  nodeId : Int := 1
  clientPort : Int := 6001
  raftPort : Int := 7001
  peers : List PeerAddress := []
  /-- The directories made and entered, one after the other. -/
  dataDirs : List Bytes := []
  deriving DecidableEq

/-- `while (std::getline(ss, token, ','))`, with what it has read of the current token. An empty
token at the very end is none. -/
def tokens (current : Bytes) : Bytes → List Bytes
  | [] => if current = [] then [] else [current]
  | b :: bs => if b = comma then current :: tokens [] bs else tokens (current ++ [b]) bs

/-- One token of `--peers`. A token without `@`, or without `:` behind it, is skipped; where
`std::stoi` throws there is no result. -/
def parsePeer (token : Bytes) : Option (List PeerAddress) :=
  match find [atSign] token with
  | none => some []
  | some atPos =>
    match find [colon] (token.drop atPos) with
    | none => some []
    | some offset =>
      let colonPos := atPos + offset
      match stoi (token.take atPos), stoi (token.drop (colonPos + 1)) with
      | some id, some port =>
        some [⟨id, (token.drop (atPos + 1)).take (colonPos - atPos - 1), port⟩]
      | _, _ => none

def parsePeers : List Bytes → Option (List PeerAddress)
  | [] => some []
  | token :: rest => (parsePeer token).bind fun peer => (parsePeers rest).map (peer ++ ·)

/-- The last branch of the loop: a number by itself is the node's. -/
def bareArgument (o : Options) (arg : Bytes) : Option Options :=
  if arg.head?.any isDigit then (stoi arg).map fun id => { o with nodeId := id } else some o

/-- The loop over `argv`. A name that wants a value and has none behind it is ignored. -/
def parseArgs (o : Options) : List Bytes → Option Options
  | [] => some o
  | [arg] => bareArgument o arg
  | arg :: value :: rest =>
    if arg = ofString "--id" then
      (stoi value).bind fun id => parseArgs { o with nodeId := id } rest
    else if arg = ofString "--port" then
      (stoi value).bind fun port => parseArgs { o with clientPort := port } rest
    else if arg = ofString "--raft-port" then
      (stoi value).bind fun port => parseArgs { o with raftPort := port } rest
    else if arg = ofString "--peers" then
      (parsePeers (tokens [] value)).bind fun peers =>
        parseArgs { o with peers := o.peers ++ peers } rest
    else if arg = ofString "--data" then
      parseArgs { o with dataDirs := o.dataDirs ++ [value] } rest
    else if arg = ofString "-port" then
      (stoi value).bind fun port => parseArgs { o with clientPort := port } rest
    else (bareArgument o arg).bind fun o => parseArgs o (value :: rest)

/-! ## Peer lists -/

/-- `id@ip:port`. -/
def PeerAddress.text (p : PeerAddress) : Bytes :=
  signed p.id ++ (atSign :: (p.ip ++ (colon :: signed p.port)))

/-- The address can be written down: the numbers are `int`s, and the host has no separator in it. -/
structure PeerAddress.Valid (p : PeerAddress) : Prop where
  id : InRange p.id
  port : InRange p.port
  ip_comma : comma ∉ p.ip
  ip_colon : colon ∉ p.ip

instance (p : PeerAddress) : Decidable p.Valid :=
  decidable_of_iff (InRange p.id ∧ InRange p.port ∧ comma ∉ p.ip ∧ colon ∉ p.ip)
    ⟨fun ⟨hid, hport, hcomma, hcolon⟩ => ⟨hid, hport, hcomma, hcolon⟩,
      fun ⟨hid, hport, hcomma, hcolon⟩ => ⟨hid, hport, hcomma, hcolon⟩⟩

/-- Tokens separated by commas. -/
def peersText : List PeerAddress → Bytes
  | [] => []
  | [p] => p.text
  | p :: ps => p.text ++ (comma :: peersText ps)

theorem notMem_signed {b : UInt8} (hdigit : isDigit b = false) (hminus : b ≠ minus) (z : Int) :
    b ∉ signed z := by
  intro h
  rcases mem_signed h with h | h
  · rw [hdigit] at h
    cases h
  · exact hminus h

theorem PeerAddress.Valid.notMem_comma {p : PeerAddress} (h : p.Valid) : comma ∉ p.text := by
  have hnum := notMem_signed (b := comma) (by decide) (by decide)
  have hat : comma ≠ atSign := by decide
  have hcolon : comma ≠ colon := by decide
  simp only [text, List.mem_append, List.mem_cons, not_or]
  exact ⟨hnum p.id, hat, h.ip_comma, hcolon, hnum p.port⟩

theorem PeerAddress.text_ne_nil (p : PeerAddress) : p.text ≠ [] := by
  simp [text]

theorem tokens_append {current token : Bytes} (h : comma ∉ token) (rest : Bytes) :
    tokens current (token ++ (comma :: rest)) = (current ++ token) :: tokens [] rest := by
  induction token generalizing current with
  | nil => simp [tokens]
  | cons b bs ih =>
    obtain ⟨hb, hbs⟩ := not_or.mp (List.mem_cons.not.mp h)
    rw [List.cons_append, tokens, if_neg (Ne.symm hb), ih hbs, List.append_assoc]
    rfl

theorem tokens_last {current token : Bytes} (h : comma ∉ token) (hne : current ++ token ≠ []) :
    tokens current token = [current ++ token] := by
  induction token generalizing current with
  | nil =>
    rw [List.append_nil] at hne ⊢
    rw [tokens, if_neg hne]
  | cons b bs ih =>
    obtain ⟨hb, hbs⟩ := not_or.mp (List.mem_cons.not.mp h)
    have hassoc : current ++ [b] ++ bs = current ++ b :: bs := by
      rw [List.append_assoc]
      rfl
    rw [tokens, if_neg (Ne.symm hb), ih hbs (hassoc ▸ hne), hassoc]

/-- The tokens of a peer list are its addresses. -/
theorem tokens_peersText {ps : List PeerAddress} (h : ∀ p ∈ ps, p.Valid) :
    tokens [] (peersText ps) = ps.map PeerAddress.text := by
  fun_induction peersText ps with
  | case1 => rfl
  | case2 p =>
    have hp := (h p List.mem_cons_self).notMem_comma
    exact tokens_last hp p.text_ne_nil
  | case3 p ps hps ih =>
    have hp := (h p List.mem_cons_self).notMem_comma
    rw [tokens_append hp, ih fun q hq => h q (List.mem_cons_of_mem _ hq)]
    rfl

theorem stoi_signed_self {z : Int} (hz : InRange z) : stoi (signed z) = some z := by
  have hread : stoi (signed z ++ []) = some z := stoi_signed hz (by intro b hb; cases hb)
  rwa [List.append_nil] at hread

/-- Reading an address back. -/
theorem parsePeer_text {p : PeerAddress} (h : p.Valid) : parsePeer p.text = some [p] := by
  have hat : find [atSign] p.text = some (signed p.id).length :=
    find_append rfl (notMem_signed (by decide) (by decide) p.id) _
  have hdrop : p.text.drop (signed p.id).length =
      (atSign :: p.ip) ++ ([colon] ++ signed p.port) := by
    rw [PeerAddress.text, List.drop_left]
    rfl
  have hcolon : find [colon] ((atSign :: p.ip) ++ ([colon] ++ signed p.port)) =
      some (p.ip.length + 1) := by
    have hnot : colon ∉ atSign :: p.ip :=
      List.mem_cons.not.mpr (not_or.mpr ⟨by decide, h.ip_colon⟩)
    exact find_append rfl hnot (signed p.port)
  have hid : p.text.take (signed p.id).length = signed p.id := by
    rw [PeerAddress.text, List.take_left]
  have hip : (p.text.drop ((signed p.id).length + 1)).take p.ip.length = p.ip := by
    rw [← List.drop_drop, hdrop]
    exact List.take_left
  have hport : p.text.drop ((signed p.id).length + (p.ip.length + 1) + 1) = signed p.port := by
    rw [Nat.add_assoc, ← List.drop_drop, hdrop]
    have hlen : p.ip.length + 1 + 1 = ((atSign :: p.ip) ++ [colon]).length := by simp
    rw [hlen, ← List.append_assoc, List.drop_left]
  have hwidth : (signed p.id).length + (p.ip.length + 1) - (signed p.id).length - 1 =
      p.ip.length := by omega
  simp only [parsePeer, hat, hdrop, hcolon, hid, hport, stoi_signed_self h.id,
    stoi_signed_self h.port, hwidth, hip]

theorem parsePeers_text {ps : List PeerAddress} (h : ∀ p ∈ ps, p.Valid) :
    parsePeers (tokens [] (peersText ps)) = some ps := by
  rw [tokens_peersText h]
  induction ps with
  | nil => rfl
  | cons p ps ih =>
    rw [List.map_cons, parsePeers, parsePeer_text (h p List.mem_cons_self),
      ih fun q hq => h q (List.mem_cons_of_mem _ hq)]
    rfl

/-! ## Whole command lines -/

/-- An argument as it is meant, with its value. -/
inductive Argument where
  | id (nodeId : Int)
  | port (clientPort : Int)
  /-- The same, as `-port`. -/
  | shortPort (clientPort : Int)
  | raftPort (raftPort : Int)
  | peers (peers : List PeerAddress)
  | data (dir : Bytes)
  /-- A number by itself. -/
  | bare (nodeId : Nat)
  /-- Anything else. -/
  | other (arg : Bytes)

def optionNames : List Bytes :=
  ["--id", "--port", "-port", "--raft-port", "--peers", "--data"].map ofString

def Argument.text : Argument → List Bytes
  | .id z => [ofString "--id", signed z]
  | .port z => [ofString "--port", signed z]
  | .shortPort z => [ofString "-port", signed z]
  | .raftPort z => [ofString "--raft-port", signed z]
  | .peers ps => [ofString "--peers", peersText ps]
  | .data dir => [ofString "--data", dir]
  | .bare n => [numeral n]
  | .other arg => [arg]

def Argument.Valid : Argument → Prop
  | .id z | .port z | .shortPort z | .raftPort z => InRange z
  | .peers ps => ∀ p ∈ ps, p.Valid
  | .data _ => True
  | .bare n => InRange n
  | .other arg => arg ∉ optionNames ∧ arg.head?.any isDigit = false

instance : (a : Argument) → Decidable a.Valid
  | .id z | .port z | .shortPort z | .raftPort z => inferInstanceAs (Decidable (InRange z))
  | .peers ps => inferInstanceAs (Decidable (∀ p ∈ ps, p.Valid))
  | .data _ => .isTrue trivial
  | .bare n => inferInstanceAs (Decidable (InRange n))
  | .other arg =>
    inferInstanceAs (Decidable (arg ∉ optionNames ∧ arg.head?.any isDigit = false))

/-- What an argument sets: numbers replace what was there, peers and directories add to it. -/
def Options.set (o : Options) : Argument → Options
  | .id z => { o with nodeId := z }
  | .port z | .shortPort z => { o with clientPort := z }
  | .raftPort z => { o with raftPort := z }
  | .peers ps => { o with peers := o.peers ++ ps }
  | .data dir => { o with dataDirs := o.dataDirs ++ [dir] }
  | .bare n => { o with nodeId := n }
  | .other _ => o

/-- An argument that is no option name is looked at by itself. -/
theorem parseArgs_other {o : Options} {arg : Bytes} (h : arg ∉ optionNames) (rest : List Bytes) :
    parseArgs o (arg :: rest) = (bareArgument o arg).bind fun o => parseArgs o rest := by
  simp only [optionNames, List.map_cons, List.map_nil, List.mem_cons, List.not_mem_nil, or_false,
    not_or] at h
  obtain ⟨hid, hport, hshort, hraft, hpeers, hdata⟩ := h
  cases rest with
  | nil =>
    rw [parseArgs]
    cases bareArgument o arg <;> rfl
  | cons value rest =>
    rw [parseArgs, if_neg hid, if_neg hport, if_neg hraft, if_neg hpeers, if_neg hdata,
      if_neg hshort]

theorem head_numeral (n : Nat) : (numeral n).head?.any isDigit = true := by
  cases hcons : numeral n with
  | nil => exact absurd hcons (numeral_ne_nil n)
  | cons b bs => exact isDigit_of_mem_numeral (n := n) (hcons ▸ List.mem_cons_self)

theorem numeral_notMem_optionNames (n : Nat) : numeral n ∉ optionNames := by
  intro h
  have hnames : ∀ name ∈ optionNames, name.head?.any isDigit = false := by decide +kernel
  have hhead := head_numeral n
  rw [hnames _ h] at hhead
  cases hhead

theorem signed_natCast (n : Nat) : signed (n : Int) = numeral n := by
  rw [signed, if_neg (by omega), Int.natAbs_natCast]

/-- One argument of a command line. -/
theorem parseArgs_text {a : Argument} (ha : a.Valid) (o : Options) (rest : List Bytes) :
    parseArgs o (a.text ++ rest) = parseArgs (o.set a) rest := by
  cases a with
  | id z =>
    show parseArgs o (ofString "--id" :: signed z :: rest) = _
    rw [parseArgs, if_pos rfl, stoi_signed_self ha]
    rfl
  | port z =>
    show parseArgs o (ofString "--port" :: signed z :: rest) = _
    rw [parseArgs, if_neg (by decide +kernel), if_pos rfl, stoi_signed_self ha]
    rfl
  | shortPort z =>
    show parseArgs o (ofString "-port" :: signed z :: rest) = _
    rw [parseArgs, if_neg (by decide +kernel), if_neg (by decide +kernel),
      if_neg (by decide +kernel), if_neg (by decide +kernel), if_neg (by decide +kernel),
      if_pos rfl, stoi_signed_self ha]
    rfl
  | raftPort z =>
    show parseArgs o (ofString "--raft-port" :: signed z :: rest) = _
    rw [parseArgs, if_neg (by decide +kernel), if_neg (by decide +kernel), if_pos rfl,
      stoi_signed_self ha]
    rfl
  | peers ps =>
    show parseArgs o (ofString "--peers" :: peersText ps :: rest) = _
    rw [parseArgs, if_neg (by decide +kernel), if_neg (by decide +kernel),
      if_neg (by decide +kernel), if_pos rfl, parsePeers_text ha]
    rfl
  | data dir =>
    show parseArgs o (ofString "--data" :: dir :: rest) = _
    rw [parseArgs, if_neg (by decide +kernel), if_neg (by decide +kernel),
      if_neg (by decide +kernel), if_neg (by decide +kernel), if_pos rfl]
    rfl
  | bare n =>
    show parseArgs o (numeral n :: rest) = _
    rw [parseArgs_other (numeral_notMem_optionNames n), bareArgument, if_pos (head_numeral n),
      ← signed_natCast, stoi_signed_self ha]
    rfl
  | other arg =>
    show parseArgs o (arg :: rest) = _
    rw [parseArgs_other ha.1, bareArgument, if_neg (by rw [ha.2]; exact Bool.false_ne_true)]
    rfl

theorem parseArgs_append {args : List Argument} (hargs : ∀ a ∈ args, a.Valid) (o : Options)
    (rest : List Bytes) :
    parseArgs o (args.flatMap Argument.text ++ rest) = parseArgs (args.foldl Options.set o) rest := by
  induction args generalizing o with
  | nil => rfl
  | cons a args ih =>
    rw [List.flatMap_cons, List.append_assoc, parseArgs_text (hargs a List.mem_cons_self),
      ih fun a' ha' => hargs a' (List.mem_cons_of_mem _ ha')]
    rfl

/-- A command line means what its arguments mean, in any order and number: the last value of a
number counts, peers and directories add up, and what is no option is passed over, as is a name
at the end with no value. -/
theorem parseArgs_texts {args : List Argument} (hargs : ∀ a ∈ args, a.Valid) {trailing : List Bytes}
    (hlen : trailing.length ≤ 1) (htrailing : ∀ arg ∈ trailing, arg.head?.any isDigit = false)
    (o : Options) :
    parseArgs o (args.flatMap Argument.text ++ trailing) = some (args.foldl Options.set o) := by
  rw [parseArgs_append hargs]
  match trailing, hlen with
  | [], _ => rfl
  | [arg], _ =>
    have harg := htrailing arg List.mem_cons_self
    show bareArgument _ arg = some _
    rw [bareArgument, if_neg (by rw [harg]; exact Bool.false_ne_true)]

/-- The number is given twice, there are two peers, and the last name has no value. -/
theorem parseArgs_texts_mixed :
    parseArgs {} [ofString "7", ofString "-v", ofString "--peers",
      ofString "2@10.0.0.2:7002,3@h:-1", ofString "-port", ofString "6004", ofString "--id",
      ofString "4", ofString "--id"] =
    some { nodeId := 4, clientPort := 6004,
           peers := [⟨2, ofString "10.0.0.2", 7002⟩, ⟨3, ofString "h", -1⟩] } := by
  let args : List Argument := [.bare 7, .other (ofString "-v"),
    .peers [⟨2, ofString "10.0.0.2", 7002⟩, ⟨3, ofString "h", -1⟩], .shortPort 6004, .id 4]
  have htext : args.flatMap Argument.text ++ [ofString "--id"] =
      [ofString "7", ofString "-v", ofString "--peers", ofString "2@10.0.0.2:7002,3@h:-1",
        ofString "-port", ofString "6004", ofString "--id", ofString "4", ofString "--id"] := by
    decide +kernel
  rw [← htext]
  have hargs : ∀ a ∈ args, a.Valid := by decide +kernel
  exact parseArgs_texts hargs (by decide) (by decide +kernel) {}

/-! ## The start scripts -/

end RaftKv.Wire
