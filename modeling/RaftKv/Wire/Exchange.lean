-- SUMMARY: A reply is never taken for the reply to another request: the connections between two nodes implement remote calls.
import RaftKv.Wire.Peer
import RaftKv.Wire.Framing
import RaftKv.Wire.RoundTrip
import RaftKv.Wire.Recovery
import RaftKv.Lib.Calls

/-!
# Requests and replies

A connection carries one request at a time: it is written to only when everything on it was read,
and it is closed when a reply does not come. So where every message is taken in one piece, what
`recv` returns answers the request of the call that reads it, and the threads of `handleRaft` see
each request once.
-/

namespace RaftKv.Wire

open TransitionSystem

/-! ## Steps of a connection -/

namespace Stream

/-- Every request was read and answered. -/
structure Settled (st : Stream) : Prop where
  requests : st.requests = st.answered.map Prod.fst
  toServer : st.toServer = []

/-- The last request is not read yet, and may never be. -/
structure Pending (st : Stream) (q : Bytes) : Prop where
  requests : st.requests = st.answered.map Prod.fst ++ [q]
  toPeer : st.toPeer = []
  toServer : st.serving = true → st.toServer = q

theorem Settled.write {st : Stream} (h : st.Settled) (hidle : st.toPeer = []) (q : Bytes) :
    ({ st with toServer := st.toServer ++ q, requests := st.requests ++ [q] } : Stream).Pending q where
  requests := by rw [h.requests]
  toPeer := hidle
  toServer _ := by rw [h.toServer, List.nil_append]

theorem Settled.read {st : Stream} (h : st.Settled) (toPeer : Bytes) :
    ({ st with toPeer } : Stream).Settled := ⟨h.requests, h.toServer⟩

theorem Settled.hangUp {st : Stream} (h : st.Settled) (toPeer : Bytes) :
    ({ st with serving := false, toServer := [], toPeer } : Stream).Settled := ⟨h.requests, rfl⟩

theorem Pending.hangUp {st : Stream} {q : Bytes} (h : st.Pending q) (lost : Bool) :
    ({ st with serving := false, toServer := [], toPeer := if lost then [] else st.toPeer } :
      Stream).Pending q where
  requests := h.requests
  toPeer := by rw [h.toPeer, ite_self]
  toServer hserving := by cases hserving

/-- The thread reads the request whole. -/
theorem Pending.handle {st : Stream} {q : Bytes} (h : st.Pending q) (r : Bytes) :
    ({ st with toServer := [], toPeer := r, answered := st.answered ++ [(q, r)] } : Stream).Settled where
  requests := by rw [h.requests, List.map_append, List.map_cons, List.map_nil]
  toServer := rfl

theorem Pending.lt {st : Stream} {q : Bytes} (h : st.Pending q) :
    st.requests.length = st.answered.length + 1 := by
  rw [h.requests, List.length_append, List.length_map, List.length_singleton]

theorem Settled.length {st : Stream} (h : st.Settled) :
    st.requests.length = st.answered.length := by
  rw [h.requests, List.length_map]

end Stream

/-! ## Which call wrote which request -/

theorem getElem?_set_cases {α : Type} {xs : List α} {i j : Nat} {a b : α}
    (h : (xs.set i a)[j]? = some b) : (j = i ∧ b = a) ∨ (j ≠ i ∧ xs[j]? = some b) := by
  rw [List.getElem?_set] at h
  split at h
  · rename_i hij
    split at h
    · exact Or.inl ⟨hij.symm, (Option.some.inj h).symm⟩
    · cases h
  · rename_i hij
    exact Or.inr ⟨Ne.symm hij, h⟩

theorem getElem?_concat_cases {α : Type} {xs : List α} {j : Nat} {a b : α}
    (h : (xs ++ [a])[j]? = some b) : (j = xs.length ∧ b = a) ∨ xs[j]? = some b := by
  rcases Nat.lt_trichotomy j xs.length with hlt | rfl | hgt
  · rw [List.getElem?_append_left hlt] at h
    exact Or.inr h
  · rw [List.getElem?_concat_length] at h
    exact Or.inl ⟨rfl, (Option.some.inj h).symm⟩
  · have hlt := (List.getElem?_eq_some_iff.mp h).1
    rw [List.length_append, List.length_singleton] at hlt
    omega

theorem getElem?_set_of_some {α : Type} {xs : List α} {i : Nat} {a b : α} (h : xs[i]? = some a) :
    (xs.set i b)[i]? = some b :=
  List.getElem?_set_self (List.getElem?_eq_some_iff.mp h).1

theorem getElem?_concat_of_some {α : Type} {xs : List α} {i : Nat} {a b : α}
    (h : xs[i]? = some a) : (xs ++ [b])[i]? = some a := by
  rw [List.getElem?_append_left (List.getElem?_eq_some_iff.mp h).1, h]

/-- Every request on a connection was written by one call, and `sentOn` says by which. -/
structure Booked (calls : List RPCCall) (streams : List Stream) : Prop where
  sent : ∀ (i : Nat) call s j, calls[i]? = some call → call.sentOn = some (s, j) →
    ∃ st, streams[s]? = some st ∧ st.requests[j]? = some call.request
  caller : ∀ (s : Nat) st j, streams[s]? = some st → j < st.requests.length →
    ∃ (i : Nat) (call : _), calls[i]? = some call ∧ call.sentOn = some (s, j)
  once : ∀ (i i' : Nat) call call' p, calls[i]? = some call → calls[i']? = some call' →
    call.sentOn = some p → call'.sentOn = some p → i = i'

theorem Booked.sendRPC {calls : List RPCCall} {streams : List Stream} (hb : Booked calls streams)
    (request : Bytes) : Booked (calls ++ [({ request } : RPCCall)]) streams where
  sent i call s j hcall hsent := by
    rcases getElem?_concat_cases hcall with ⟨-, rfl⟩ | hcall
    · cases hsent
    · exact hb.sent i call s j hcall hsent
  caller s st j hst hj := by
    obtain ⟨i, call, hcall, hsent⟩ := hb.caller s st j hst hj
    exact ⟨i, call, getElem?_concat_of_some hcall, hsent⟩
  once i i' call call' p hcall hcall' hp hp' := by
    rcases getElem?_concat_cases hcall with ⟨-, rfl⟩ | hcall
    · cases hp
    rcases getElem?_concat_cases hcall' with ⟨-, rfl⟩ | hcall'
    · cases hp'
    exact hb.once i i' call call' p hcall hcall' hp hp'

/-- A call that returns was written where it was. -/
theorem Booked.result {calls : List RPCCall} {streams : List Stream} (hb : Booked calls streams)
    {i : Nat} {call : RPCCall} (hcall : calls[i]? = some call) (r : Bytes) :
    Booked (calls.set i { call with result := some r }) streams := by
  have hold : ∀ (k : Nat) call', (calls.set i { call with result := some r })[k]? = some call' →
      ∃ old, calls[k]? = some old ∧ old.sentOn = call'.sentOn ∧ old.request = call'.request := by
    intro k call' hcall'
    rcases getElem?_set_cases hcall' with ⟨rfl, rfl⟩ | ⟨-, hcall'⟩
    · exact ⟨call, hcall, rfl, rfl⟩
    · exact ⟨call', hcall', rfl, rfl⟩
  refine ⟨fun k call' s j hcall' hsent => ?_, fun s st j hst hj => ?_,
    fun k k' call₁ call₂ p h₁ h₂ hp hp' => ?_⟩
  · obtain ⟨old, hget, hs, hreq⟩ := hold k call' hcall'
    rw [← hreq]
    exact hb.sent k old s j hget (hs.trans hsent)
  · obtain ⟨k, old, hget, hsent⟩ := hb.caller s st j hst hj
    by_cases hk : k = i
    · subst hk
      rw [hcall] at hget
      cases hget
      exact ⟨k, _, getElem?_set_of_some hcall, hsent⟩
    · exact ⟨k, old, by rwa [List.getElem?_set_ne (Ne.symm hk)], hsent⟩
  · obtain ⟨old, hget, hs, -⟩ := hold k call₁ h₁
    obtain ⟨old', hget', hs', -⟩ := hold k' call₂ h₂
    exact hb.once k k' old old' p hget hget' (hs.trans hp) (hs'.trans hp')

/-- A stream whose requests stay. -/
theorem Booked.stream {calls : List RPCCall} {streams : List Stream} (hb : Booked calls streams)
    {s : Nat} {st st' : Stream} (hst : streams[s]? = some st) (hreq : st'.requests = st.requests) :
    Booked calls (streams.set s st') where
  sent i call k j hcall hsent := by
    obtain ⟨old, hold, hj⟩ := hb.sent i call k j hcall hsent
    by_cases hk : k = s
    · subst hk
      rw [hst] at hold
      cases hold
      exact ⟨st', getElem?_set_of_some hst, hreq ▸ hj⟩
    · exact ⟨old, by rwa [List.getElem?_set_ne (Ne.symm hk)], hj⟩
  caller k st₁ j hst₁ hj := by
    rcases getElem?_set_cases hst₁ with ⟨rfl, rfl⟩ | ⟨-, hst₁⟩
    · exact hb.caller k st j hst (hreq ▸ hj)
    · exact hb.caller k st₁ j hst₁ hj
  once := hb.once

theorem Booked.connect {calls : List RPCCall} {streams : List Stream} (hb : Booked calls streams) :
    Booked calls (streams ++ [({} : Stream)]) where
  sent i call s j hcall hsent := by
    obtain ⟨st, hst, hj⟩ := hb.sent i call s j hcall hsent
    exact ⟨st, getElem?_concat_of_some hst, hj⟩
  caller s st j hst hj := by
    rcases getElem?_concat_cases hst with ⟨-, rfl⟩ | hst
    · cases hj
    · exact hb.caller s st j hst hj
  once := hb.once

theorem Booked.send {calls : List RPCCall} {streams : List Stream} (hb : Booked calls streams)
    {i s : Nat} {call : RPCCall} {st st' : Stream} (hcall : calls[i]? = some call)
    (hst : streams[s]? = some st) (hfresh : call.sentOn = none)
    (hreq : st'.requests = st.requests ++ [call.request]) :
    Booked (calls.set i { call with sentOn := some (s, st.requests.length) }) (streams.set s st') where
  sent k call' s' j hcall' hsent := by
    rcases getElem?_set_cases hcall' with ⟨rfl, rfl⟩ | ⟨-, hcall'⟩
    · cases hsent
      exact ⟨st', getElem?_set_of_some hst, by rw [hreq, List.getElem?_concat_length]⟩
    · obtain ⟨old, hold, hj⟩ := hb.sent k call' s' j hcall' hsent
      by_cases hs : s' = s
      · subst hs
        rw [hst] at hold
        cases hold
        exact ⟨st', getElem?_set_of_some hst, by rw [hreq, getElem?_concat_of_some hj]⟩
      · exact ⟨old, by rwa [List.getElem?_set_ne (Ne.symm hs)], hj⟩
  caller s' st₁ j hst₁ hj := by
    have hkeep : ∀ st₀, streams[s']? = some st₀ → j < st₀.requests.length →
        ∃ (k : Nat) (call' : _), (calls.set i { call with sentOn := some (s, st.requests.length) })[k]? =
          some call' ∧ call'.sentOn = some (s', j) := by
      intro st₀ hst₀ hj₀
      obtain ⟨k, call', hcall', hsent⟩ := hb.caller s' st₀ j hst₀ hj₀
      have hk : k ≠ i := by
        rintro rfl
        rw [hcall] at hcall'
        cases hcall'
        rw [hfresh] at hsent
        cases hsent
      exact ⟨k, call', by rwa [List.getElem?_set_ne (Ne.symm hk)], hsent⟩
    rcases getElem?_set_cases hst₁ with ⟨rfl, rfl⟩ | ⟨-, hst₁⟩
    · rw [hreq, List.length_append, List.length_singleton] at hj
      rcases Nat.lt_succ_iff_lt_or_eq.mp hj with hlt | rfl
      · exact hkeep st hst hlt
      · exact ⟨i, _, getElem?_set_of_some hcall, rfl⟩
    · exact hkeep st₁ hst₁ hj
  once k k' call₁ call₂ p h₁ h₂ hp hp' := by
    -- the new position is past everything written before
    have hnew : ∀ (k : Nat) call', calls[k]? = some call' →
        call'.sentOn ≠ some (s, st.requests.length) := by
      intro k call' hcall' hsent
      obtain ⟨old, hold, hj⟩ := hb.sent k call' _ _ hcall' hsent
      rw [hst] at hold
      cases hold
      exact absurd (List.getElem?_eq_some_iff.mp hj).1 (Nat.lt_irrefl _)
    rcases getElem?_set_cases h₁ with ⟨hk, rfl⟩ | ⟨-, hold₁⟩ <;>
      rcases getElem?_set_cases h₂ with ⟨hk', rfl⟩ | ⟨-, hold₂⟩
    · rw [hk, hk']
    · cases hp
      exact absurd hp' (hnew k' call₂ hold₂)
    · cases hp'
      exact absurd hp (hnew k call₁ hold₁)
    · exact hb.once k k' call₁ call₂ p hold₁ hold₂ hp hp'

/-! ## The invariant -/

namespace Link

variable {σ : Type} {l : Link σ}

/-- Between calls nothing is on the way, and a call in `recv` waits for the reply to the last
request of its connection. -/
structure InStep (l : Link σ) : Prop where
  booked : Booked l.calls l.streams
  streams : ∀ (s : Nat) st, l.streams[s]? = some st → st.Settled ∨ ∃ q, st.Pending q
  idle : l.receiving = none → ∀ s ∈ l.sockFd, ∀ st ∈ l.streams[s]?, st.Settled ∧ st.toPeer = []
  busy : ∀ i ∈ l.receiving, ∃ call s j st, l.calls[i]? = some call ∧ l.sockFd = some s ∧
    l.streams[s]? = some st ∧ call.result = none ∧ call.sentOn = some (s, j) ∧
    j + 1 = st.requests.length ∧ (st.Settled → ∃ r, st.answered[j]? = some (call.request, r) ∧
      (st.toPeer = [] ∨ st.toPeer = r))

theorem InStep.init (raft : σ) : InStep ({ raft } : Link σ) where
  booked := ⟨fun _ _ _ _ h => (by cases h), fun _ _ _ h => (by cases h),
    fun _ _ _ _ _ h => (by cases h)⟩
  streams _ _ h := by cases h
  idle _ _ h := by cases h
  busy _ h := by cases h

/-- Streams after one is replaced. -/
theorem InStep.streams_set (hl : InStep l) {s : Nat} {st' : Stream}
    (hst' : st'.Settled ∨ ∃ q, st'.Pending q) :
    ∀ (k : Nat) st, (l.streams.set s st')[k]? = some st → st.Settled ∨ ∃ q, st.Pending q := by
  intro k st hst
  rcases getElem?_set_cases hst with ⟨-, rfl⟩ | ⟨-, hst⟩
  · exact hst'
  · exact hl.streams k st hst

theorem InStep.close (hl : InStep l) : InStep l.close where
  booked := hl.booked
  streams := hl.streams
  idle _ _ h := by cases h
  busy _ h := by cases h

theorem InStep.fail (hl : InStep l) {i : Nat} {call : RPCCall}
    (hcall : l.calls[i]? = some call) (hfree : l.receiving = none) : InStep (l.fail i call) where
  booked := hl.booked.result hcall []
  streams := hl.streams
  idle := hl.idle
  busy k hk := by
    have hk' : l.receiving = some k := hk
    rw [hfree] at hk'
    cases hk'

/-! ## The calls of a link -/

/-- What the thread at the other end answered to a call. -/
def answerOn (streams : List Stream) (call : RPCCall) : Option Bytes :=
  call.sentOn.bind fun p => streams[p.1]?.bind fun st => st.answered[p.2]?.map Prod.snd

def record (streams : List Stream) (call : RPCCall) : CallRecord Bytes Bytes where
  request := call.request
  answer := answerOn streams call
  result := call.result.map fun reply => if reply = [] then none else some reply

/-- The calls of a link, without the connections. -/
def records (l : Link σ) : CallRecord.State Bytes Bytes σ where
  server := l.raft
  records := l.calls.map (record l.streams)

theorem answerOn_of_sentOn {streams : List Stream} {call : RPCCall} {s j : Nat} {st : Stream}
    (hsent : call.sentOn = some (s, j)) (hst : streams[s]? = some st) :
    answerOn streams call = st.answered[j]?.map Prod.snd := by
  rw [answerOn, hsent, Option.bind_some, hst, Option.bind_some]

/-- A record changes only with the answer at its place. -/
theorem record_set_of {streams : List Stream} {s : Nat} {st st' : Stream}
    (hst : streams[s]? = some st) {call : RPCCall}
    (hsame : ∀ j, call.sentOn = some (s, j) → st'.answered[j]? = st.answered[j]?) :
    record (streams.set s st') call = record streams call := by
  have hanswer : answerOn (streams.set s st') call = answerOn streams call := by
    cases hsent : call.sentOn with
    | none => rw [answerOn, answerOn, hsent, Option.bind_none, Option.bind_none]
    | some p =>
      by_cases hs : p.1 = s
      · subst hs
        rw [answerOn_of_sentOn hsent (getElem?_set_of_some hst), answerOn_of_sentOn hsent hst,
          hsame p.2 hsent]
      · rw [answerOn, answerOn, hsent, Option.bind_some, Option.bind_some,
          List.getElem?_set_ne (Ne.symm hs)]
  rw [record, record, hanswer]

theorem record_set {streams : List Stream} {s : Nat} {st st' : Stream} (hst : streams[s]? = some st)
    (hanswered : st'.answered = st.answered) : record (streams.set s st') = record streams :=
  funext fun _ => record_set_of hst fun _ _ => by rw [hanswered]

theorem getElem?_concat_ne {α : Type} {xs : List α} {a : α} {j : Nat} (hj : j ≠ xs.length) :
    (xs ++ [a])[j]? = xs[j]? := by
  rcases Nat.lt_or_gt_of_ne hj with hlt | hgt
  · exact List.getElem?_append_left hlt
  · have hout : (xs ++ [a]).length ≤ j := by
      rw [List.length_append, List.length_singleton]
      exact hgt
    rw [List.getElem?_eq_none hout, List.getElem?_eq_none (Nat.le_of_lt hgt)]

/-- Records where the answer to one call has come. -/
theorem map_record_set {calls : List RPCCall} {f g : RPCCall → CallRecord Bytes Bytes} {i : Nat}
    {call : RPCCall} (hcall : calls[i]? = some call)
    (hother : ∀ (k : Nat) call', k ≠ i → calls[k]? = some call' → g call' = f call') :
    calls.map g = (calls.map f).set i (g call) := by
  refine List.ext_getElem? fun k => ?_
  by_cases hk : k = i
  · subst hk
    have hmap : (calls.map f)[k]? = some (f call) := by rw [List.getElem?_map, hcall, Option.map_some]
    rw [getElem?_set_of_some hmap, List.getElem?_map, hcall, Option.map_some]
  · rw [List.getElem?_map, List.getElem?_set_ne (Ne.symm hk), List.getElem?_map]
    cases hget : calls[k]? with
    | none => rfl
    | some call' => rw [Option.map_some, Option.map_some, hother k call' hk hget]

theorem set_of_getElem? {α : Type} {xs : List α} {i : Nat} {a : α} (h : xs[i]? = some a) :
    xs.set i a = xs := by
  obtain ⟨hlt, rfl⟩ := List.getElem?_eq_some_iff.mp h
  exact List.set_getElem_self hlt

/-- A call returns, with the answer to it or with nothing. -/
theorem finish_step {serve : σ → Bytes → Option (σ × Bytes)} {i : Nat} {call : RPCCall}
    {reply : Bytes} (hcall : l.calls[i]? = some call) (hres : call.result = none)
    (hreply : reply = [] ∨ answerOn l.streams call = some reply) :
    CallRecord.Step serve l.records () (l.setCall i { call with result := some reply }).records := by
  have hget : l.records.records[i]? = some (record l.streams call) := by
    rw [records, List.getElem?_map, hcall, Option.map_some]
  have hnone : (record l.streams call).result = none := by rw [record, hres, Option.map_none]
  have hresult : (if reply = [] then none else some reply) = none ∨
      (if reply = [] then none else some reply) = (record l.streams call).answer := by
    rcases hreply with rfl | hanswer
    · exact Or.inl (if_pos rfl)
    · by_cases hempty : reply = []
      · exact Or.inl (if_pos hempty)
      · exact Or.inr ((if_neg hempty).trans hanswer.symm)
  have hrecords : (l.setCall i { call with result := some reply }).records =
      { l.records with
        records := l.records.records.set i
          { record l.streams call with result := some (if reply = [] then none else some reply) } } :=
    congrArg (CallRecord.State.mk l.raft) List.map_set
  rw [hrecords]
  exact .finish hget hnone hresult

/-! ## Steps of a link -/

section Runs

variable [Host] {h : RaftHandlers σ} {l' : Link σ}

/-- What a step does where messages are taken whole. -/
inductive Move (h : RaftHandlers σ) (l : Link σ) : Link σ → Prop where
  | sendRPC (request : Bytes) : Move h l { l with calls := l.calls ++ [{ request }] }
  | connect : l.receiving = none → Move h l
      { l with connected := true, sockFd := some l.streams.length, streams := l.streams ++ [{}] }
  | send {i s : Nat} {call : RPCCall} {st : Stream} : l.calls[i]? = some call → l.sockFd = some s →
      l.streams[s]? = some st → l.receiving = none → call.Waiting → Move h l
        (({ l with receiving := some i }.setCall i
            { call with sentOn := some (s, st.requests.length) }).setStream s
          { st with
            toServer := st.toServer ++ call.request, requests := st.requests ++ [call.request] })
  | closed {i : Nat} {call : RPCCall} : l.calls[i]? = some call →
      call.Waiting ∨ l.receiving = some i → Move h l (l.close.fail i call)
  | giveUp {i : Nat} {call : RPCCall} : l.calls[i]? = some call → call.Waiting →
      l.receiving = none → Move h l (l.fail i call)
  | recv {i s : Nat} {call : RPCCall} {st : Stream} : l.calls[i]? = some call → l.sockFd = some s →
      l.streams[s]? = some st → l.receiving = some i → st.toPeer ≠ [] → Move h l
        (({ l with receiving := none }.setCall i { call with result := some st.toPeer }).setStream s
          { st with toPeer := [] })
  | handle {s : Nat} {st : Stream} {raft : σ} {reply : Bytes} : l.streams[s]? = some st →
      st.serving = true → st.toServer ≠ [] → st.toServer.length ≤ readSize →
      h.round l.raft st.toServer = some (.ok (raft, reply)) → Move h l
        ({ l with raft }.setStream s
          { st with
            toServer := []
            toPeer := st.toPeer ++ reply
            answered := st.answered ++ [(st.toServer, reply)] })
  | hangUp {s : Nat} {st : Stream} (lost : Bool) : l.streams[s]? = some st → Move h l
      (l.setStream s { st with
        serving := false, toServer := [], toPeer := if lost then [] else st.toPeer })
  | restart : Move h l l.close
  | node (raft : σ) : Move h l { l with raft }

theorem move_of_step {a : LinkAction σ} (hwhole : l.Whole a) (hstep : l.step h a = some l') :
    Move h l l' := by
  cases a with
  | sendRPC request =>
    cases hstep
    exact .sendRPC request
  | connect =>
    simp only [step] at hstep
    split at hstep
    · rename_i hguard
      cases hstep
      exact .connect hguard.2
    · cases hstep
  | send i n =>
    simp only [step, Option.bind_eq_bind, Option.bind_eq_some_iff] at hstep
    obtain ⟨call, hcall, s, hs, st, hst, hstep⟩ := hstep
    split at hstep
    · rename_i hguard
      cases hstep
      have hn : n = call.request.length := hwhole call hcall
      rw [hn, List.take_length]
      exact .send hcall hs hst hguard.2.1 hguard.2.2.1
    · cases hstep
  | sendFailed i =>
    simp only [step, Option.bind_eq_bind, Option.bind_eq_some_iff] at hstep
    obtain ⟨call, hcall, hstep⟩ := hstep
    split at hstep
    · rename_i hguard
      cases hstep
      exact .closed hcall (Or.inl hguard.2.2)
    · cases hstep
  | giveUp i =>
    simp only [step, Option.bind_eq_bind, Option.bind_eq_some_iff] at hstep
    obtain ⟨call, hcall, hstep⟩ := hstep
    split at hstep
    · rename_i hguard
      cases hstep
      exact .giveUp hcall hguard.2.2 hguard.2.1
    · cases hstep
  | recv i n =>
    simp only [step, Option.bind_eq_bind, Option.bind_eq_some_iff] at hstep
    obtain ⟨call, hcall, s, hs, st, hst, hstep⟩ := hstep
    split at hstep
    · rename_i hguard
      cases hstep
      have hn : n = st.toPeer.length := hwhole s hs st hst
      rw [hn, List.take_length, List.drop_length]
      exact .recv hcall hs hst hguard.1 (List.length_pos_iff.mp (hn ▸ hguard.2.1))
    · cases hstep
  | recvFailed i =>
    simp only [step, Option.bind_eq_bind, Option.bind_eq_some_iff] at hstep
    obtain ⟨call, hcall, hstep⟩ := hstep
    split at hstep
    · rename_i hguard
      cases hstep
      exact .closed hcall (Or.inr hguard)
    · cases hstep
  | handle s n =>
    simp only [step, Option.bind_eq_bind, Option.bind_eq_some_iff] at hstep
    obtain ⟨st, hst, hstep⟩ := hstep
    split at hstep
    · rename_i hguard
      obtain ⟨result, hresult, hstep⟩ := Option.bind_eq_some_iff.mp hstep
      obtain ⟨⟨raft, reply⟩, hreply, hstep⟩ := Option.bind_eq_some_iff.mp hstep
      cases hstep
      have hn : n = st.toServer.length := hwhole st hst
      rw [hn, List.take_length] at hresult ⊢
      rw [List.drop_length]
      obtain rfl := toOption_eq_some_iff.mp hreply
      exact .handle hst hguard.1 (List.length_pos_iff.mp (hn ▸ hguard.2.1)) (hn ▸ hguard.2.2.2)
        hresult
    · cases hstep
  | hangUp s lost =>
    simp only [step, Option.bind_eq_bind, Option.bind_eq_some_iff] at hstep
    obtain ⟨st, hst, hstep⟩ := hstep
    cases hstep
    exact .hangUp lost hst
  | restart =>
    cases hstep
    exact .restart
  | node raft =>
    cases hstep
    exact .node raft

theorem Move.inStep (hmove : Move h l l') (hl : InStep l) : InStep l' := by
  cases hmove with
  | sendRPC request =>
    refine ⟨hl.booked.sendRPC request, hl.streams, hl.idle, fun i hi => ?_⟩
    obtain ⟨call, s, j, st, hcall, hrest⟩ := hl.busy i hi
    exact ⟨call, s, j, st, getElem?_concat_of_some hcall, hrest⟩
  | connect hfree =>
    refine ⟨hl.booked.connect, fun s st hst => ?_, fun _ s hs st hst => ?_, fun i hi => ?_⟩
    · rcases getElem?_concat_cases hst with ⟨-, rfl⟩ | hst
      · exact Or.inl ⟨rfl, rfl⟩
      · exact hl.streams s st hst
    · cases hs
      have hnew := List.getElem?_concat_length (l := l.streams) (a := ({} : Stream))
      rw [Option.mem_def, hnew] at hst
      cases hst
      exact ⟨⟨rfl, rfl⟩, rfl⟩
    · have hi' : l.receiving = some i := hi
      rw [hfree] at hi'
      cases hi'
  | @send i s call st hcall hs hst hfree hwait =>
    obtain ⟨hsettled, hidle⟩ := hl.idle hfree s hs st hst
    have hpending := hsettled.write hidle call.request
    refine ⟨hl.booked.send hcall hst hwait.1 rfl, hl.streams_set (Or.inr ⟨_, hpending⟩),
      fun h => (by cases h), fun k hk => ?_⟩
    cases hk
    refine ⟨_, s, st.requests.length, _, getElem?_set_of_some hcall, hs, getElem?_set_of_some hst,
      hwait.2, rfl, by simp, fun hset => ?_⟩
    have hlen := hset.length
    rw [hpending.lt] at hlen
    exact absurd hlen (Nat.succ_ne_self _)
  | closed hcall _ => exact hl.close.fail hcall rfl
  | giveUp hcall _ hfree => exact hl.fail hcall hfree
  | @recv i s call st hcall hs hst hrecv hne =>
    have hsettled : st.Settled := by
      rcases hl.streams s st hst with hset | ⟨q, hpend⟩
      · exact hset
      · exact absurd hpend.toPeer hne
    refine ⟨(hl.booked.result hcall _).stream hst rfl, hl.streams_set (Or.inl (hsettled.read [])),
      fun _ s' hs' st' hst' => ?_, fun _ h => (by cases h)⟩
    have hs'' : l.sockFd = some s' := hs'
    rw [hs] at hs''
    cases hs''
    have hnew := getElem?_set_of_some (b := ({ st with toPeer := [] } : Stream)) hst
    have hst'' := hnew.symm.trans hst'
    cases hst''
    exact ⟨hsettled.read [], rfl⟩
  | @handle s st raft reply hst hserving hne hfits hread =>
    have hnot : ¬ st.Settled := fun hset => hne hset.toServer
    obtain ⟨q, hpend⟩ := (hl.streams s st hst).resolve_left hnot
    obtain rfl := hpend.toServer hserving
    have hreply : st.toPeer ++ reply = reply := by
      rw [hpend.toPeer, List.nil_append]
    rw [hreply]
    refine ⟨hl.booked.stream hst rfl, hl.streams_set (Or.inl (hpend.handle _)),
      fun hfree s' hs' st' hst' => ?_, fun i hi => ?_⟩
    · rcases getElem?_set_cases hst' with ⟨rfl, -⟩ | ⟨-, hold⟩
      · exact absurd (hl.idle hfree s' hs' st hst).1 hnot
      · exact hl.idle hfree s' hs' st' hold
    · obtain ⟨call, s', j, st', hcall, hs', hst', hres, hsent, hj, hlast⟩ := hl.busy i hi
      by_cases hss : s' = s
      · subst hss
        rw [hst] at hst'
        cases hst'
        refine ⟨call, s', j, _, hcall, hs', getElem?_set_of_some hst, hres, hsent, hj,
          fun _ => ⟨reply, ?_, Or.inr rfl⟩⟩
        have hlen : j = (st.answered.map Prod.fst).length := by
          have hlt := hpend.lt
          rw [List.length_map]
          omega
        -- the request read is the last one written, and that is this call's
        have hrequest : call.request = st.toServer := by
          obtain ⟨st', hst', hreq⟩ := hl.booked.sent i call s' j hcall hsent
          rw [hst] at hst'
          cases hst'
          rw [hpend.requests, hlen, List.getElem?_concat_length] at hreq
          exact (Option.some.inj hreq).symm
        rw [hlen, List.length_map, List.getElem?_concat_length, hrequest]
      · exact ⟨call, s', j, st', hcall, hs', (List.getElem?_set_ne (Ne.symm hss)).trans hst', hres,
          hsent, hj, hlast⟩
  | @hangUp s st lost hst =>
    refine ⟨hl.booked.stream hst rfl, hl.streams_set ?_, fun hfree s' hs' st' hst' => ?_,
      fun i hi => ?_⟩
    · rcases hl.streams s st hst with hset | ⟨q, hpend⟩
      · exact Or.inl (hset.hangUp _)
      · exact Or.inr ⟨q, hpend.hangUp lost⟩
    · rcases getElem?_set_cases hst' with ⟨rfl, rfl⟩ | ⟨-, hold⟩
      · obtain ⟨hset, hidle⟩ := hl.idle hfree s' hs' st hst
        exact ⟨hset.hangUp _, by rw [hidle, ite_self]⟩
      · exact hl.idle hfree s' hs' st' hold
    · obtain ⟨call, s', j, st', hcall, hs', hst', hres, hsent, hj, hlast⟩ := hl.busy i hi
      by_cases hss : s' = s
      · subst hss
        rw [hst] at hst'
        cases hst'
        refine ⟨call, s', j, _, hcall, hs', getElem?_set_of_some hst, hres, hsent, hj,
          fun hset => ?_⟩
        rcases hl.streams s' st hst with hold | ⟨q, hpend⟩
        · obtain ⟨r, hr, hpeer⟩ := hlast hold
          refine ⟨r, hr, ?_⟩
          cases lost
          · exact hpeer
          · exact Or.inl rfl
        · have hlen := hset.length
          rw [(hpend.hangUp lost).lt] at hlen
          exact absurd hlen (Nat.succ_ne_self _)
      · exact ⟨call, s', j, st', hcall, hs', (List.getElem?_set_ne (Ne.symm hss)).trans hst', hres,
          hsent, hj, hlast⟩
  | restart => exact hl.close
  | node raft => exact ⟨hl.booked, hl.streams, hl.idle, hl.busy⟩

theorem inStep_of_reach {raft : σ} (hreach : (system h raft).Reach Whole l) : InStep l :=
  hreach.invariant (I := InStep) (InStep.init raft)
    fun _ _ _ _ hl hwhole hstep => (move_of_step hwhole hstep).inStep hl

/-! ## The link implements remote calls -/

/-- What the thread does with a request that one read takes whole. -/
def serve (h : RaftHandlers σ) (raft : σ) (request : Bytes) : Option (σ × Bytes) :=
  if request.length ≤ readSize then
    (h.round raft request).bind Except.toOption
  else none

theorem Move.records_step (hmove : Move h l l') (hl : InStep l) :
    CallRecord.Step (serve h) l.records () l'.records ∨ l'.records = l.records := by
  cases hmove with
  | sendRPC request =>
    refine Or.inl ?_
    simp only [records, List.map_append, List.map_cons, List.map_nil]
    exact .call request
  | connect _ =>
    refine Or.inr (congrArg (CallRecord.State.mk l.raft) (List.map_congr_left fun call hcall => ?_))
    obtain ⟨i, hi⟩ := List.mem_iff_getElem?.mp hcall
    cases hsent : call.sentOn with
    | none => simp only [record, answerOn, hsent, Option.bind_none]
    | some p =>
      obtain ⟨st, hst, -⟩ := hl.booked.sent i call p.1 p.2 hi hsent
      simp only [record, answerOn_of_sentOn hsent hst,
        answerOn_of_sentOn hsent (getElem?_concat_of_some hst)]
  | @send i s call st hcall hs hst hfree hwait =>
    obtain ⟨hsettled, -⟩ := hl.idle hfree s hs st hst
    -- nothing is answered at the place of the new request
    have hsame : record l.streams { call with sentOn := some (s, st.requests.length) } =
        record l.streams call := by
      have hnone : st.answered[st.requests.length]? = none :=
        List.getElem?_eq_none (Nat.le_of_eq hsettled.length.symm)
      have hnew : answerOn l.streams { call with sentOn := some (s, st.requests.length) } = none := by
        rw [answerOn_of_sentOn rfl hst, hnone, Option.map_none]
      have hold : answerOn l.streams call = none := by
        rw [answerOn, hwait.1, Option.bind_none]
      rw [record, record, hnew, hold]
    have hget : (l.calls.map (record l.streams))[i]? = some (record l.streams call) := by
      rw [List.getElem?_map, hcall, Option.map_some]
    refine Or.inr (congrArg (CallRecord.State.mk l.raft) ?_)
    show (l.calls.set i _).map (record (l.streams.set s _)) = l.calls.map (record l.streams)
    rw [record_set hst, List.map_set, hsame, set_of_getElem? hget]
    rfl
  | @closed i call hcall hopen =>
    have hres : call.result = none := by
      rcases hopen with hwait | hrecv
      · exact hwait.2
      · obtain ⟨call', s, j, st, hcall', -, -, hres, -⟩ := hl.busy i hrecv
        rw [hcall] at hcall'
        cases hcall'
        exact hres
    exact Or.inl (finish_step hcall hres (Or.inl rfl))
  | @giveUp i call hcall hwait hfree => exact Or.inl (finish_step hcall hwait.2 (Or.inl rfl))
  | @recv i s call st hcall hs hst hrecv hne =>
    obtain ⟨call', s', j, st', hcall', hs', hst', hres, hsent, hj, hlast⟩ := hl.busy i hrecv
    rw [hcall] at hcall'
    cases hcall'
    rw [hs] at hs'
    cases hs'
    rw [hst] at hst'
    cases hst'
    have hsettled : st.Settled := by
      rcases hl.streams s st hst with hset | ⟨q, hpend⟩
      · exact hset
      · exact absurd hpend.toPeer hne
    obtain ⟨r, hr, hpeer⟩ := hlast hsettled
    obtain rfl : st.toPeer = r := hpeer.resolve_left hne
    have hanswer : answerOn l.streams call = some st.toPeer := by
      rw [answerOn_of_sentOn hsent hst, hr, Option.map_some]
    have hsame : (({ l with receiving := none }.setCall i
        { call with result := some st.toPeer }).setStream s { st with toPeer := [] }).records =
        (l.setCall i { call with result := some st.toPeer }).records := by
      refine congrArg (CallRecord.State.mk l.raft) ?_
      show List.map (record (l.streams.set s _)) _ = _
      rw [record_set hst]
      · rfl
      · rfl
    rw [hsame]
    exact Or.inl (finish_step hcall hres (Or.inr hanswer))
  | @handle s st raft reply hst hserving hne hfits hread =>
    have hnot : ¬ st.Settled := fun hset => hne hset.toServer
    obtain ⟨q, hpend⟩ := (hl.streams s st hst).resolve_left hnot
    obtain rfl := hpend.toServer hserving
    -- the call whose turn it is
    have hlen : st.answered.length < st.requests.length := by
      rw [hpend.lt]
      exact Nat.lt_succ_self _
    obtain ⟨i, call, hcall, hsent⟩ := hl.booked.caller s st _ hst hlen
    have hrequest : call.request = st.toServer := by
      obtain ⟨st', hst', hreq⟩ := hl.booked.sent i call s _ hcall hsent
      rw [hst] at hst'
      cases hst'
      rw [hpend.requests, ← List.length_map (f := Prod.fst), List.getElem?_concat_length] at hreq
      exact (Option.some.inj hreq).symm
    let st' : Stream :=
      { st with
        toServer := []
        toPeer := st.toPeer ++ reply
        answered := st.answered ++ [(st.toServer, reply)] }
    have hst' : (l.streams.set s st')[s]? = some st' := getElem?_set_of_some hst
    have hothers : ∀ (k : Nat) call', k ≠ i → l.calls[k]? = some call' →
        record (l.streams.set s st') call' = record l.streams call' := by
      intro k call' hk hcall'
      refine record_set_of hst fun j hsent' => getElem?_concat_ne fun hj => hk ?_
      rw [hj] at hsent'
      exact hl.booked.once k i call' call _ hcall' hcall hsent' hsent
    have hanswer : record (l.streams.set s st') call =
        { record l.streams call with answer := some reply } := by
      have hnew : answerOn (l.streams.set s st') call = some reply := by
        rw [answerOn_of_sentOn hsent hst', List.getElem?_concat_length, Option.map_some]
      rw [record, hnew, record]
    have hget : l.records.records[i]? = some (record l.streams call) := by
      rw [records, List.getElem?_map, hcall, Option.map_some]
    have hnone : (record l.streams call).answer = none := by
      rw [record, answerOn_of_sentOn hsent hst, List.getElem?_eq_none (Nat.le_refl _),
        Option.map_none]
    have hserve : serve h l.records.server (record l.streams call).request =
        some (raft, reply) := by
      show serve h l.raft call.request = _
      rw [serve, hrequest, if_pos hfits, hread]
      rfl
    have hrecords : ({ l with raft }.setStream s st').records =
        { server := raft, records := l.records.records.set i
            { record l.streams call with answer := some reply } } := by
      rw [← hanswer]
      exact congrArg (CallRecord.State.mk raft) (map_record_set hcall hothers)
    rw [hrecords]
    exact Or.inl (.serve hget hnone hserve)
  | @hangUp s st lost hst =>
    refine Or.inr (congrArg (CallRecord.State.mk l.raft) ?_)
    show l.calls.map (record (l.streams.set s _)) = l.calls.map (record l.streams)
    rw [record_set hst]
    rfl
  | restart => exact Or.inr rfl
  | node raft => exact Or.inl (.other raft)

theorem reach_records {raft : σ} (hreach : (system h raft).Reach Whole l) :
    (CallRecord.system (serve h) raft).Reach (fun _ _ => True) l.records := by
  obtain ⟨t, ht, rfl⟩ := hreach.simulate (CallRecord.system (serve h) raft) (fun _ _ => True)
    (R := fun l t => l.records = t) rfl
    (fun l a l' t hl ht hR hwhole hstep => by
      rcases (move_of_step hwhole hstep).records_step (inStep_of_reach hl) with hnext | hsame
      · exact ⟨l'.records, .single (a := ()) trivial (hR ▸ hnext), rfl⟩
      · exact ⟨l'.records, by rw [hsame, hR]; exact .refl t, rfl⟩)
  exact ht

/-- The reply holds what the node answers to the message. -/
def Answers (h : RaftHandlers σ) (raft : σ) (reply : Bytes) : Request → Prop
  | .vote rpc => ∃ voteResp raft', h.handleRequestVote raft rpc = some (.ok (voteResp, raft')) ∧
      RequestVoteResponse.deserialize reply = .ok voteResp
  | .append rpc => ∃ aeResp raft', h.handleAppendEntries raft rpc = some (.ok (aeResp, raft')) ∧
      AppendEntriesResponse.deserialize reply = .ok aeResp

omit [Host] in
theorem answers_of_handle {raft raft' : σ} {msg : Request} {reply : Bytes}
    (hreply : h.handle raft msg = some (.ok (reply, raft'))) : Answers h raft reply msg := by
  cases msg with
  | vote rpc =>
    obtain ⟨result, hcall, hresult⟩ := Option.map_eq_some_iff.mp hreply
    cases result with
    | error fault => cases hresult
    | ok answer =>
      cases hresult
      exact ⟨answer.1, answer.2, hcall, RequestVoteResponse.deserialize_serialize answer.1⟩
  | append rpc =>
    obtain ⟨result, hcall, hresult⟩ := Option.map_eq_some_iff.mp hreply
    cases result with
    | error fault => cases hresult
    | ok answer =>
      cases hresult
      exact ⟨answer.1, answer.2, hcall, AppendEntriesResponse.deserialize_serialize answer.1⟩

theorem answers_of_serve {raft raft' : σ} {msg : Request} {reply : Bytes} (hmsg : msg.Sendable)
    (hserve : serve h raft msg.serialize = some (raft', reply)) : Answers h raft reply msg := by
  rw [serve] at hserve
  split at hserve
  · rename_i hfits
    have hdec := msg.decodes_serialize hmsg (lt_of_le_of_lt hfits (by decide))
    rw [RaftHandlers.round_of_decodes raft hdec] at hserve
    obtain ⟨result, hresult, hok⟩ := Option.bind_eq_some_iff.mp hserve
    obtain rfl := toOption_eq_some_iff.mp hok
    obtain ⟨answer, hanswer, hmap⟩ := Option.map_eq_some_iff.mp hresult
    cases answer with
    | error fault => cases hmap
    | ok answer =>
      cases hmap
      exact answers_of_handle hanswer
  · cases hserve

/-- The connections implement remote calls: every run of a link, over any number of connections, is
a run of call records, in which each call is served once at most and returns with its own answer or
with none. So a reply to a message of the protocol is what the node made of that message. -/
theorem sendRPC_refines {raft : σ} (hreach : (system h raft).Reach Whole l) :
    (CallRecord.system (serve h) raft).Reach (fun _ _ => True) l.records ∧
    ∀ call ∈ l.calls, ∀ msg : Request, msg.Sendable → call.request = msg.serialize →
      ∀ reply, call.result = some reply → reply ≠ [] → ∃ raft, Answers h raft reply msg := by
  refine ⟨reach_records hreach, fun call hcall msg hmsg hrequest reply hres hne => ?_⟩
  have hrecord := CallRecord.valid_of_reach (reach_records hreach) _
    (List.mem_map_of_mem (f := record l.streams) hcall)
  have hresult : (record l.streams call).result = some (some reply) := by
    rw [record, hres, Option.map_some, if_neg hne]
  obtain ⟨raft, raft', hserve⟩ := hrecord.answer reply (hrecord.result reply hresult)
  have hserve' : serve h raft call.request = some (raft', reply) := hserve
  rw [hrequest] at hserve'
  exact ⟨raft, answers_of_serve hmsg hserve'⟩

end Runs

/-- The first call runs into the timeout; its request is read after that of the second call was
sent, on a new connection. -/
def lateHandling : List (LinkAction Unit) :=
  [.sendRPC (RequestVote.serialize ⟨1, 1, 0, 0⟩), .connect, .send 0 33, .recvFailed 0,
    .sendRPC (RequestVote.serialize ⟨2, 1, 0, 0⟩), .connect, .send 1 33, .handle 0 33,
    .handle 1 33, .recv 1 10]

theorem sendRPC_refines_late :
    ∃ l : Link Unit, l.calls.map RPCCall.result =
        [some [], some (RequestVoteResponse.serialize ⟨2, true⟩)] ∧
      (CallRecord.system (serve yesNode) ()).Reach (fun _ _ => True) l.records ∧
      ∀ call ∈ l.calls, ∀ msg : Request, msg.Sendable → call.request = msg.serialize →
        ∀ reply, call.result = some reply → reply ≠ [] → ∃ raft, Answers yesNode raft reply msg := by
  have hrun : (runFrom (fun l a => l.step yesNode a) Whole { raft := () } lateHandling).any
      (fun l => decide (l.calls.map RPCCall.result =
        [some [], some (RequestVoteResponse.serialize ⟨2, true⟩)])) = true := by
    decide +kernel
  obtain ⟨l, hl, hresults⟩ := (Option.any_eq_true _ _).mp hrun
  have hreach : (system yesNode ()).Reach Whole l :=
    steps_of_runFrom (S := system yesNode ()) (fun _ _ _ h => h) hl
  exact ⟨l, of_decide_eq_true hresults, sendRPC_refines hreach⟩

end Link

end RaftKv.Wire
