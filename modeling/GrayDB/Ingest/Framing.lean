import GrayDB.Lib.Framing
import GrayDB.Registry.Pgoutput

/-!
# The replication connection

The client of the replication protocol keeps what has come in on the socket, and takes whole
messages off the front.  A task waits for the next message and can be dropped while it waits.

* `tryParse_framing`: `try_parse` takes a whole message and leaves a cut one alone.
* `advance_spec`: what a call of `next_replication_message` does until it returns or waits.
* `framing`: over every run of calls, reads and dropped calls, the messages are taken in
  order, each once, and the buffer is what has been read of the others.
-/

namespace GrayDB.Ingest

open Lib Log Registry

structure BackendMessage where
  tag : UInt8
  body : Bytes
  deriving DecidableEq, Repr

/-- A message from the stream. -/
inductive ReplMsg where
  | xLogData (walStart : UInt64) (payload : Bytes)
  | keepalive (walEnd : UInt64) (replyRequested : Bool)
  deriving DecidableEq, Repr

inductive ReplError where
  | bail (text : String)
  | closed
  /-- A read past the end of a body. -/
  | panic
  deriving DecidableEq, Repr

def ReplError.text : ReplError → String
  | .bail text => text
  | .closed => "replication connection closed by peer"
  | .panic => "advance out of bounds"

/-! ## Messages -/

/-- `send_msg`, and what the server sends. -/
def sendMsg (tag : UInt8) (body : Bytes) : Bytes :=
  tag :: (beBytes 4 (BitVec.ofNat 32 body.length + 4).toNat ++ body)

def BackendMessage.encode (msg : BackendMessage) : Bytes := sendMsg msg.tag msg.body

/-- The length of a message has room in an `i32`. -/
def Sendable (msg : BackendMessage) : Prop := msg.body.length < 2 ^ 31 - 4

/-- The `i32` behind the tag. -/
def lengthField (buf : Bytes) : Int := (BitVec.ofNat 32 (beNat ((buf.drop 1).take 4))).toInt

/-- What `try_parse` returns, and what it leaves in the buffer. -/
def tryParse (buf : Bytes) : Except String (Option BackendMessage) × Bytes :=
  if buf.length < 5 then (.ok none, buf)
  else
    let len := lengthField buf
    if len < 4 then (.error ("invalid message length " ++ toString len), buf)
    else
      let total := 1 + len.toNat
      if buf.length < total then (.ok none, buf)
      else
        let msg := buf.take total
        (.ok (some ⟨msg.headD 0, (msg.drop 1).drop 4⟩), buf.drop total)

/-! ## The stream -/

/-- The fields of an error, up to the end of the body or a zero byte. -/
def errorFields : Nat → Bytes → List (UInt8 × String)
  | 0, _ => []
  | _ + 1, [] => []
  | fuel + 1, field :: body =>
    if field = 0 then []
    else
      let val := body.takeWhile (· != 0)
      (field, utf8Lossy val) :: errorFields fuel (body.drop (val.length + 1))

/-- Severity, code and message; of a field that is there twice, the last. -/
def parseError (body : Bytes) : String :=
  let fields := errorFields body.length body
  let val (tag : UInt8) : String :=
    ((fields.filter fun field => field.1 == tag).getLast?.map Prod.snd).getD ""
  val 0x53 ++ " " ++ val 0x43 ++ ": " ++ val 0x4D

/-- The body of a CopyData message. -/
def copyData : Bytes → Except ReplError ReplMsg
  | [] => .error (.bail "empty CopyData")
  | kind :: b =>
    if kind = 0x77 then
      if b.length < 24 then .error .panic
      else .ok (.xLogData (UInt64.ofNat (beNat (b.take 8))) (b.drop 24))
    else if kind = 0x6B then
      if b.length < 17 then .error .panic
      else .ok (.keepalive (UInt64.ofNat (beNat (b.take 8))) (b.getD 16 0 == 1))
    else .error (.bail ("unknown CopyData kind " ++ debugChar kind))

/-- What `next_replication_message` returns for a message, if it does not wait for another. -/
def reply (msg : BackendMessage) : Option (Except ReplError ReplMsg) :=
  if msg.tag = 0x64 then some (copyData msg.body)
  else if msg.tag = 0x4E ∨ msg.tag = 0x53 then none
  else if msg.tag = 0x45 then
    some (.error (.bail ("replication stream error: " ++ parseError msg.body)))
  else if msg.tag = 0x63 ∨ msg.tag = 0x43 ∨ msg.tag = 0x5A then
    some (.error (.bail "replication stream ended by server"))
  else some (.error (.bail ("unexpected tag " ++ debugChar msg.tag ++ " in CopyBoth")))

/-- The client, with the messages that `try_parse` has taken, the bytes that are still on the
wire, and what the calls have returned. -/
structure ReplClient extends Feed BackendMessage UInt8 where
  /-- A call of `next_replication_message` waits for the socket. -/
  waiting : Bool := false
  results : List (Except ReplError ReplMsg) := []

theorem tryParse_shrinks {buf rest : Bytes} {msg : BackendMessage}
    (h : tryParse buf = (.ok (some msg), rest)) : rest.length < buf.length := by
  unfold tryParse at h
  dsimp only at h
  split_ifs at h with hshort hlen htotal
  · simp at h
  · simp at h
  · simp at h
  · obtain ⟨-, rfl⟩ := Prod.mk.inj h
    rw [List.length_drop]
    omega

/-- `next_replication_message` from the top of its loop, until it returns or waits for the
socket in `read_message`. -/
def advance (c : ReplClient) : ReplClient :=
  match _h : tryParse c.buf with
  | (.error text, buf) =>
    { c with buf, waiting := false, results := c.results ++ [.error (.bail text)] }
  | (.ok none, buf) => { c with buf, waiting := true }
  | (.ok (some msg), buf) =>
    let c' := { c with buf, taken := c.taken ++ [msg] }
    match reply msg with
    | none => advance c'
    | some result => { c' with waiting := false, results := c.results ++ [result] }
termination_by c.buf.length
decreasing_by exact tryParse_shrinks ‹_›

inductive Event where
  /-- `next_replication_message` is called. -/
  | call
  /-- The socket has up to `n` bytes for the call that waits. -/
  | ready (n : Nat)
  /-- The server has closed the connection. -/
  | closed
  /-- The call that waits is dropped. -/
  | abandon
  deriving DecidableEq, Repr

def step (c : ReplClient) : Event → ReplClient
  | .call => if c.waiting then c else advance c
  | .ready n =>
    if c.waiting ∧ c.wire.take n ≠ [] then
      advance { c with buf := c.buf ++ c.wire.take n, wire := c.wire.drop n }
    else c
  | .closed =>
    if c.waiting then { c with waiting := false, results := c.results ++ [.error .closed] } else c
  | .abandon => { c with waiting := false }

def run (c : ReplClient) (events : List Event) : ReplClient := events.foldl step c

/-- A connection on which the server sends these messages. -/
def ReplClient.start (msgs : List BackendMessage) : ReplClient where
  taken := []
  buf := []
  wire := msgs.flatMap BackendMessage.encode

/-! ## The decoder -/

/-- `try_parse` fails for a length below 4, and for nothing else. -/
theorem tryParse_error_iff {buf : Bytes} :
    (∃ text, (tryParse buf).1 = .error text) ↔ 5 ≤ buf.length ∧ lengthField buf < 4 := by
  unfold tryParse
  dsimp only
  split_ifs with hshort hlen htotal
  · exact ⟨nofun, fun h => absurd h.1 (by omega)⟩
  · exact ⟨fun _ => ⟨by omega, hlen⟩, fun _ => ⟨_, rfl⟩⟩
  · exact ⟨nofun, fun h => absurd h.2 hlen⟩
  · exact ⟨nofun, fun h => absurd h.2 hlen⟩

/-- A call that takes nothing leaves the buffer as it is. -/
theorem tryParse_keeps {buf : Bytes} (h : ∀ msg, (tryParse buf).1 ≠ .ok (some msg)) :
    (tryParse buf).2 = buf := by
  unfold tryParse at h ⊢
  dsimp only at h ⊢
  split_ifs with hshort hlen htotal
  · rfl
  · rfl
  · rfl
  · rw [if_neg hshort, if_neg hlen, if_neg htotal] at h
    exact absurd rfl (h _)

theorem length_encode (msg : BackendMessage) : msg.encode.length = 5 + msg.body.length := by
  simp only [BackendMessage.encode, sendMsg, List.length_cons, List.length_append, length_beBytes]
  omega

/-- The length that is read is the one that was sent. -/
theorem lengthField_encode {msg : BackendMessage} (h : Sendable msg) (rest : Bytes) :
    lengthField (msg.encode ++ rest) = msg.body.length + 4 := by
  unfold Sendable at h
  have hsum : (BitVec.ofNat 32 msg.body.length + 4).toNat = msg.body.length + 4 := by
    rw [BitVec.toNat_add, BitVec.toNat_ofNat, Nat.mod_eq_of_lt (by omega : msg.body.length < _)]
    exact Nat.mod_eq_of_lt (by simp; omega)
  have hfield : ((msg.encode ++ rest).drop 1).take 4 = beBytes 4 (msg.body.length + 4) := by
    rw [BackendMessage.encode, sendMsg, hsum, List.cons_append, List.drop_succ_cons, List.drop_zero,
      List.append_assoc]
    exact List.take_left' (length_beBytes 4 _)
  rw [lengthField, hfield, beNat_beBytes (by omega), BitVec.toInt_eq_toNat_of_lt, BitVec.toNat_ofNat,
    Nat.mod_eq_of_lt (by omega)]
  · rfl
  · rw [BitVec.toNat_ofNat, Nat.mod_eq_of_lt (by omega)]
    omega

/-- `try_parse` takes a whole message and leaves a cut one alone. -/
theorem tryParse_framing : Framing Sendable BackendMessage.encode tryParse where
  nil := rfl
  whole := by
    intro msg rest h
    have hlen := length_encode msg
    have hfield := lengthField_encode h rest
    have htotal : 1 + ((msg.body.length : Int) + 4).toNat = msg.encode.length := by omega
    have hbody : (msg.encode.drop 1).drop 4 = msg.body := by
      rw [BackendMessage.encode, sendMsg, List.drop_succ_cons, List.drop_zero]
      exact List.drop_left' (length_beBytes 4 _)
    unfold tryParse
    dsimp only
    rw [hfield, htotal, List.length_append, if_neg (by omega), if_neg (by omega), if_neg (by omega),
      List.take_left, List.drop_left, hbody]
    rfl
  cut := by
    intro msg b h hb hne
    obtain ⟨rest, heq⟩ := hb
    have hlt : b.length < msg.encode.length := by
      refine Nat.lt_of_le_of_ne (List.IsPrefix.length_le ⟨rest, heq⟩) fun hsame => hne ?_
      exact List.IsPrefix.eq_of_length ⟨rest, heq⟩ hsame
    rw [length_encode] at hlt
    unfold tryParse
    dsimp only
    by_cases hshort : b.length < 5
    · rw [if_pos hshort]
    · -- the header is there, and says more than there is
      have hfield : lengthField b = msg.body.length + 4 := by
        have hwhole := lengthField_encode h []
        rw [List.append_nil, ← heq, lengthField, List.drop_append_of_le_length (by omega),
          List.take_append_of_le_length (by rw [List.length_drop]; omega)] at hwhole
        exact hwhole
      rw [if_neg hshort, hfield, if_neg (by omega), if_pos (by omega)]

/-! ## Runs -/

variable {msgs : List BackendMessage} {c : ReplClient}

/-- The messages are taken in order, each once, and what the calls have returned is what they
say. -/
structure InOrder (msgs : List BackendMessage) (c : ReplClient) : Prop where
  feed : c.toFeed.Of BackendMessage.encode msgs
  results : c.results.filter (· ≠ .error .closed) = c.taken.filterMap reply

/-- A call that waits waits for the rest of a message. -/
def WaitsForRest (msgs : List BackendMessage) (c : ReplClient) : Prop :=
  c.waiting = true → c.toFeed.Cut BackendMessage.encode tryParse msgs

theorem copyData_ne_closed (b : Bytes) : copyData b ≠ .error .closed := by
  cases b with
  | nil => exact nofun
  | cons kind b =>
    rw [copyData]
    split_ifs <;> exact nofun

theorem reply_ne_closed (msg : BackendMessage) : reply msg ≠ some (.error .closed) := by
  unfold reply
  split_ifs
  · exact fun h => copyData_ne_closed msg.body (Option.some.inj h)
  all_goals exact nofun

/-- What a call has done when it returns or waits. -/
structure Advanced (msgs : List BackendMessage) (c c' : ReplClient) : Prop where
  inOrder : InOrder msgs c'
  rest : WaitsForRest msgs c'
  wire : c'.wire = c.wire
  /-- A call that returns has taken a message. -/
  taken : c.taken.length + (if c'.waiting then 0 else 1) ≤ c'.taken.length

theorem advance_spec (hmsgs : ∀ msg ∈ msgs, Sendable msg) (h : InOrder msgs c) :
    Advanced msgs c (advance c) := by
  fun_induction advance c with
  | case1 c text buf heq => exact absurd heq (h.feed.next_ne_error tryParse_framing hmsgs)
  | case2 c buf heq =>
    obtain ⟨hcut, rfl⟩ := h.feed.cut tryParse_framing hmsgs heq
    exact ⟨⟨h.feed, h.results⟩, fun _ => hcut, rfl, Nat.le_refl _⟩
  | case3 c msg buf heq c' hreply ih =>
    have hc' : InOrder msgs c' := by
      refine ⟨h.feed.take tryParse_framing hmsgs heq, ?_⟩
      rw [List.filterMap_append, List.filterMap_cons_none hreply, List.filterMap_nil,
        List.append_nil]
      exact h.results
    have hrest := ih hc'
    refine ⟨hrest.inOrder, hrest.rest, hrest.wire, ?_⟩
    have htaken := hrest.taken
    rw [List.length_append, List.length_singleton] at htaken
    omega
  | case4 c msg buf heq c' result hreply =>
    refine ⟨⟨h.feed.take tryParse_framing hmsgs heq, ?_⟩, nofun, rfl, ?_⟩
    · have hne : result ≠ .error .closed := fun hclosed => reply_ne_closed msg (hclosed ▸ hreply)
      rw [List.filter_append, h.results, List.filterMap_append, List.filterMap_cons_some hreply,
        List.filterMap_nil, List.filter_cons_of_pos (by simpa using hne), List.filter_nil]
    · rw [List.length_append]
      exact Nat.le_refl _

/-! ### Steps -/

theorem InOrder.start : InOrder msgs (.start msgs) := ⟨Feed.Of.start, rfl⟩

/-- What one step keeps. -/
theorem step_inOrder (hmsgs : ∀ msg ∈ msgs, Sendable msg) (h : InOrder msgs c)
    (hrest : WaitsForRest msgs c) (event : Event) :
    InOrder msgs (step c event) ∧ WaitsForRest msgs (step c event) := by
  cases event with
  | call =>
    rw [step]
    split_ifs
    · exact ⟨h, hrest⟩
    · have hadvanced := advance_spec hmsgs h
      exact ⟨hadvanced.inOrder, hadvanced.rest⟩
  | ready n =>
    rw [step]
    split_ifs
    · have hread : InOrder msgs
          { c with buf := c.buf ++ c.wire.take n, wire := c.wire.drop n } :=
        ⟨h.feed.read n, h.results⟩
      have hadvanced := advance_spec hmsgs hread
      exact ⟨hadvanced.inOrder, hadvanced.rest⟩
    · exact ⟨h, hrest⟩
  | closed =>
    rw [step]
    split_ifs
    · refine ⟨⟨h.feed, ?_⟩, nofun⟩
      rw [List.filter_append, h.results]
      simp
    · exact ⟨h, hrest⟩
  | abandon => exact ⟨⟨h.feed, h.results⟩, nofun⟩

theorem run_inOrder (hmsgs : ∀ msg ∈ msgs, Sendable msg) (events : List Event) :
    InOrder msgs c → WaitsForRest msgs c →
      InOrder msgs (run c events) ∧ WaitsForRest msgs (run c events) := by
  induction events generalizing c with
  | nil => exact fun h hrest => ⟨h, hrest⟩
  | cons event events ih =>
    intro h hrest
    obtain ⟨h', hrest'⟩ := step_inOrder hmsgs h hrest event
    exact ih h' hrest'

/-- When all has been read, so many calls take what is left. -/
theorem run_calls (hmsgs : ∀ msg ∈ msgs, Sendable msg) (n : Nat) (h : InOrder msgs c)
    (hrest : WaitsForRest msgs c) (hwire : c.wire = [])
    (hn : msgs.length ≤ c.taken.length + n) :
    (run c (List.replicate n .call)).taken = msgs ∧ (run c (List.replicate n .call)).buf = [] := by
  induction n generalizing c with
  | zero =>
    obtain ⟨later, rfl, hlater⟩ := h.feed
    obtain rfl : later = [] := by
      rw [List.length_append] at hn
      exact List.eq_nil_of_length_eq_zero (by omega)
    rw [hwire, List.append_nil] at hlater
    exact ⟨(List.append_nil _).symm, hlater⟩
  | succ n ih =>
    rw [List.replicate_succ]
    change (run (step c .call) _).taken = _ ∧ (run (step c .call) _).buf = _
    rw [step]
    split_ifs with hwaiting
    · -- it waits for a message that is not sent
      have hall := h.feed.drained (hrest hwaiting) hwire
      exact ih h hrest hwire (by rw [hall.1]; omega)
    · have hadvanced := advance_spec hmsgs h
      refine ih hadvanced.inOrder hadvanced.rest (hadvanced.wire.trans hwire) ?_
      have htaken := hadvanced.taken
      cases hwaiting' : (advance c).waiting with
      | false =>
        rw [hwaiting'] at htaken
        simp only [Bool.false_eq_true, if_false] at htaken
        omega
      | true =>
        have hall := hadvanced.inOrder.feed.drained (hadvanced.rest hwaiting')
          (hadvanced.wire.trans hwire)
        rw [hall.1]
        omega

/-- The messages that a server can send. -/
abbrev Sent := {msg : BackendMessage // Sendable msg}

/-- What holds of a connection on which these messages are sent, wherever the stream is cut. -/
structure Framed (msgs : List BackendMessage) (c : ReplClient) : Prop where
  /-- The messages that have been taken are the first. -/
  first : c.taken <+: msgs
  /-- The buffer is what has been read and is not taken. -/
  split : c.taken.flatMap BackendMessage.encode ++ c.buf ++ c.wire
    = msgs.flatMap BackendMessage.encode
  /-- `try_parse` takes the next message, or nothing while some of it is missing. -/
  next : c.toFeed.Whole BackendMessage.encode tryParse msgs ∨
    c.toFeed.Cut BackendMessage.encode tryParse msgs
  /-- The calls have returned what the messages say. -/
  results : c.results.filter (· ≠ .error .closed) = c.taken.filterMap reply
  /-- When all has been read, further calls take what is left. -/
  drained : c.wire = [] → (run c (List.replicate msgs.length .call)).taken = msgs ∧
    (run c (List.replicate msgs.length .call)).buf = []

/-- **The framing of messages** does not depend on where the stream is cut and which calls
are dropped; and `try_parse` fails for a length below 4, and for nothing else. -/
theorem framing :
    (∀ (msgs : List Sent) (events : List Event),
      Framed (msgs.map Subtype.val) (run (.start (msgs.map Subtype.val)) events)) ∧
    ∀ buf : Bytes,
      ((∃ text, (tryParse buf).1 = .error text) ↔ 5 ≤ buf.length ∧ lengthField buf < 4) ∧
      ((∀ msg, (tryParse buf).1 ≠ .ok (some msg)) → (tryParse buf).2 = buf) := by
  refine ⟨fun msgs events => ?_, fun buf => ⟨tryParse_error_iff, tryParse_keeps⟩⟩
  have hmsgs : ∀ msg ∈ msgs.map Subtype.val, Sendable msg := by
    intro msg hmem
    obtain ⟨sent, -, rfl⟩ := List.mem_map.mp hmem
    exact sent.property
  obtain ⟨h, hrest⟩ := run_inOrder hmsgs events InOrder.start nofun
  refine ⟨?_, h.feed.split, h.feed.whole_or_cut tryParse_framing hmsgs, h.results, fun hwire => ?_⟩
  · obtain ⟨later, heq, -⟩ := h.feed
    exact ⟨later, heq.symm⟩
  · exact run_calls hmsgs _ h hrest hwire (Nat.le_add_left _ _)

end GrayDB.Ingest
