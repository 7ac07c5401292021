import GrayDB.Ingest.Slot

/-!
# A session of the slot

The slot sends the transactions that its consumer has not confirmed, and in between keepalives
with a position up to which it has sent everything.  The consumer takes messages off the wire,
in order.

* `Stream.Step` is one step of the source or of the slot.
* `Arrived` says that all transactions up to a position have been taken.  `Inv.taken` says it
  of the position of each message that is taken, and `Later.arrived` that it stays so.
-/

namespace GrayDB.Ingest

open Lib

/-- Only the Commit of a transaction carries a position that is not below its end. -/
def Slot.Timely {T : Type} (slot : Slot T) : Prop :=
  ∀ t ms, slot.Sends t ms → ∀ m ∈ ms, commitEndLsn m.2 = none → m.1.toNat < slot.position t

/-- The source, one session of its slot, and what the consumer has taken. -/
structure Stream (T : Type) where
  /-- The transactions of the source, in the order of their commits. -/
  txns : List T
  /-- The end of the source's WAL. -/
  head : Nat
  /-- The consumer has what is not above this position, and has taken the rest. -/
  start : Nat
  /-- What the slot still has to send. -/
  queue : List T
  /-- What is left of the transaction that the slot is sending. -/
  sending : List Data := []
  /-- What is sent and not read. -/
  wire : List ReplMsg := []
  taken : List Data := []

namespace Stream

variable {T : Type}

inductive Step (slot : Slot T) : Stream T → Stream T → Prop
  /-- WAL that belongs to no transaction of the publication. -/
  | wal {σ : Stream T} {lsn : Nat} (h : σ.head ≤ lsn) : Step slot σ { σ with head := lsn }
  | commit {σ : Stream T} {t : T} (h : σ.head < slot.position t) :
      Step slot σ
        { σ with txns := σ.txns ++ [t], queue := σ.queue ++ [t], head := slot.position t }
  | next {σ : Stream T} {t : T} {queue : List T} {ms : List Data} (hidle : σ.sending = [])
      (hq : σ.queue = t :: queue) (hs : slot.Sends t ms) :
      Step slot σ { σ with queue := queue, sending := ms }
  | send {σ : Stream T} {m : Data} {rest : List Data} (h : σ.sending = m :: rest) :
      Step slot σ { σ with sending := rest, wire := σ.wire ++ [.xLogData m.1 m.2] }
  /-- A keepalive says that all is sent up to its position. -/
  | keepalive {σ : Stream T} {walEnd : UInt64} {replyRequested : Bool}
      (hhead : walEnd.toNat ≤ σ.head) (hqueue : ∀ t ∈ σ.queue, walEnd.toNat < slot.position t)
      (hsending : ∀ lsn ∈ ends σ.sending, walEnd.toNat < lsn) :
      Step slot σ { σ with wire := σ.wire ++ [.keepalive walEnd replyRequested] }

/-- The consumer takes messages. -/
def take (σ : Stream T) (msgs wire : List ReplMsg) : Stream T :=
  { σ with wire := wire, taken := σ.taken ++ msgs.filterMap ReplMsg.data }

/-- All transactions above the start and up to the position are complete in the messages. -/
def Arrived (slot : Slot T) (start : Nat) (txns : List T) (ms : List Data) (lsn : Nat) : Prop :=
  ∀ t ∈ txns, start < slot.position t → slot.position t ≤ lsn → slot.position t ∈ ends ms

/-- The rest of a transaction, with its Commit at the end. -/
def Closing (slot : Slot T) (ms : List Data) : Prop :=
  ∃ t body last, ms = body ++ [last] ∧ commitEndLsn last.2 = some (slot.endLsn t) ∧
    ∀ m ∈ body, commitEndLsn m.2 = none ∧ m.1.toNat < slot.position t

structure Inv (slot : Slot T) (lsn0 : Nat) (σ : Stream T) : Prop where
  ascending : slot.Ascending lsn0 σ.txns
  low : lsn0 ≤ σ.head
  below : ∀ t ∈ σ.txns, slot.position t ≤ σ.head
  sent : ∃ old ts blocks, σ.txns = old ++ ts ++ σ.queue ∧
    (∀ t ∈ old, slot.position t ≤ σ.start) ∧ List.Forall₂ slot.Sends ts blocks ∧
    blocks.flatten = σ.taken ++ σ.wire.filterMap ReplMsg.data ++ σ.sending
  sending : σ.sending = [] ∨ Closing slot σ.sending
  announces : ∀ pre msg post, σ.wire = pre ++ msg :: post → msg.position ≤ σ.head ∧
    Arrived slot σ.start σ.txns (σ.taken ++ (pre ++ [msg]).filterMap ReplMsg.data) msg.position

/-! ## Positions that have arrived -/

section Arrivals

variable {slot : Slot T} {txns : List T} {ms ms' : List Data} {start lsn lsn' : Nat}

theorem Arrived.mono (h : Arrived slot start txns ms lsn) (hms : ms <+: ms') (hlsn : lsn' ≤ lsn) :
    Arrived slot start txns ms' lsn' :=
  fun t ht hnew hle => (ends_mono hms).subset (h t ht hnew (hle.trans hlsn))

theorem Arrived.max (h : Arrived slot start txns ms lsn) (h' : Arrived slot start txns ms lsn') :
    Arrived slot start txns ms (max lsn lsn') := by
  intro t ht hnew hle
  rcases Nat.le_total lsn lsn' with hl | hl
  · exact h' t ht hnew (Nat.max_eq_right hl ▸ hle)
  · exact h t ht hnew (Nat.max_eq_left hl ▸ hle)

/-- A later transaction is behind every position that the source has reached. -/
theorem Arrived.concat {t : T} (h : Arrived slot start txns ms lsn) (hlt : lsn < slot.position t) :
    Arrived slot start (txns ++ [t]) ms lsn := by
  intro x hx hnew hle
  rcases List.mem_append.mp hx with hx | hx
  · exact h x hx hnew hle
  · rw [List.mem_singleton.mp hx] at hle
    exact absurd hle (Nat.not_le.mpr hlt)

theorem closing_of_sends (ht : slot.Timely) {t : T} (h : slot.Sends t ms) : Closing slot ms := by
  obtain ⟨body, last, rfl, hlast, hbody⟩ := slot.commit h
  refine ⟨t, body, last, rfl, hlast, fun m hm => ⟨hbody m hm, ?_⟩⟩
  exact ht t _ h m (List.mem_append_left _ hm) (hbody m hm)

/-- A split of a list that has grown at its end. -/
theorem split_concat {α : Type} {pre post xs : List α} {a b : α}
    (h : xs ++ [b] = pre ++ a :: post) :
    (xs = pre ∧ a = b) ∨ ∃ post', xs = pre ++ a :: post' := by
  rcases List.eq_nil_or_concat post with rfl | ⟨post', c, rfl⟩
  · obtain ⟨hxs, hb⟩ := List.append_inj' h rfl
    exact Or.inl ⟨hxs, (List.singleton_inj.mp hb).symm⟩
  · rw [List.concat_eq_append, ← List.cons_append, ← List.append_assoc] at h
    exact Or.inr ⟨post', (List.append_inj' h rfl).1⟩

end Arrivals

/-! ## The steps -/

section Steps

variable {slot : Slot T} {lsn0 : Nat} {σ σ' : Stream T}

/-- A session with nothing sent yet, behind whole transactions. -/
theorem Inv.start {old ts : List T} {blocks : List (List Data)}
    (hascending : slot.Ascending lsn0 σ.txns) (hlow : lsn0 ≤ σ.head)
    (hbelow : ∀ t ∈ σ.txns, slot.position t ≤ σ.head) (htxns : σ.txns = old ++ ts ++ σ.queue)
    (hold : ∀ t ∈ old, slot.position t ≤ σ.start) (hsends : List.Forall₂ slot.Sends ts blocks)
    (hflat : blocks.flatten = σ.taken) (hsending : σ.sending = []) (hwire : σ.wire = []) :
    Inv slot lsn0 σ := by
  refine ⟨hascending, hlow, hbelow, ⟨old, ts, blocks, htxns, hold, hsends, ?_⟩, Or.inl hsending,
    fun pre msg post hw => ?_⟩
  · rw [hflat, hwire, hsending, List.filterMap_nil, List.append_nil, List.append_nil]
  · exact absurd (hwire.symm.trans hw) (by simp)

theorem Inv.wal (h : Inv slot lsn0 σ) {lsn : Nat} (hle : σ.head ≤ lsn) :
    Inv slot lsn0 { σ with head := lsn } :=
  { h with
    low := h.low.trans hle
    below := fun t ht => (h.below t ht).trans hle
    announces := fun pre msg post hw => (h.announces pre msg post hw).imp_left (·.trans hle) }

theorem Inv.commit (h : Inv slot lsn0 σ) {t : T} (hlt : σ.head < slot.position t) :
    Inv slot lsn0
      { σ with txns := σ.txns ++ [t], queue := σ.queue ++ [t], head := slot.position t } := by
  obtain ⟨old, ts, blocks, htxns, hold, hsends, hflat⟩ := h.sent
  refine { h with
    ascending := h.ascending.concat (Nat.lt_of_le_of_lt h.low hlt) fun x hx =>
      Nat.lt_of_le_of_lt (h.below x hx) hlt
    low := h.low.trans (Nat.le_of_lt hlt)
    below := fun x hx => ?_
    sent := ⟨old, ts, blocks, ?_, hold, hsends, hflat⟩
    announces := fun pre msg post hw => ?_ }
  · rcases List.mem_append.mp hx with hx | hx
    · exact (h.below x hx).trans (Nat.le_of_lt hlt)
    · rw [List.mem_singleton.mp hx]
  · show σ.txns ++ [t] = old ++ ts ++ (σ.queue ++ [t])
    rw [htxns, List.append_assoc _ σ.queue]
  · obtain ⟨hhead, harrived⟩ := h.announces pre msg post hw
    have hmsg := Nat.lt_of_le_of_lt hhead hlt
    exact ⟨Nat.le_of_lt hmsg, harrived.concat hmsg⟩

theorem Inv.next (h : Inv slot lsn0 σ) (ht : slot.Timely) {t : T} {queue : List T}
    {ms : List Data} (hidle : σ.sending = []) (hq : σ.queue = t :: queue)
    (hs : slot.Sends t ms) : Inv slot lsn0 { σ with queue := queue, sending := ms } := by
  obtain ⟨old, ts, blocks, htxns, hold, hsends, hflat⟩ := h.sent
  refine { h with
    sent := ⟨old, ts ++ [t], blocks ++ [ms], ?_, hold, List.rel_append hsends (.cons hs .nil), ?_⟩
    sending := Or.inr (closing_of_sends ht hs) }
  · show σ.txns = _
    rw [htxns, hq]
    simp
  · show _ = σ.taken ++ σ.wire.filterMap ReplMsg.data ++ ms
    rw [List.flatten_append, hflat, hidle, List.append_nil, List.flatten_singleton]

/-- A message at the end of the wire, which says nothing that has not been sent. -/
theorem Inv.announces_concat (h : Inv slot lsn0 σ) {msg : ReplMsg} (hhead : msg.position ≤ σ.head)
    (harrived : Arrived slot σ.start σ.txns
      (σ.taken ++ (σ.wire ++ [msg]).filterMap ReplMsg.data) msg.position)
    (pre : List ReplMsg) (msg' : ReplMsg) (post : List ReplMsg)
    (hw : σ.wire ++ [msg] = pre ++ msg' :: post) :
    msg'.position ≤ σ.head ∧ Arrived slot σ.start σ.txns
      (σ.taken ++ (pre ++ [msg']).filterMap ReplMsg.data) msg'.position := by
  rcases split_concat hw with ⟨rfl, rfl⟩ | ⟨post', hw'⟩
  · exact ⟨hhead, harrived⟩
  · exact h.announces pre msg' post' hw'

theorem Inv.send (h : Inv slot lsn0 σ) {m : Data} {rest : List Data}
    (hs : σ.sending = m :: rest) :
    Inv slot lsn0 { σ with sending := rest, wire := σ.wire ++ [.xLogData m.1 m.2] } := by
  obtain ⟨old, ts, blocks, htxns, hold, hsends, hflat⟩ := h.sent
  obtain ⟨u, body, last, hclosing, hlast, hbody⟩ :=
    h.sending.resolve_left fun hnil => by simp [hs] at hnil
  have hnone : ∀ m ∈ body, commitEndLsn m.2 = none := fun m hm => (hbody m hm).1
  have hends : ts.map slot.position
      = ends (σ.taken ++ σ.wire.filterMap ReplMsg.data) ++ [slot.position u] := by
    rw [← Slot.ends_flatten hsends, hflat, ends_append, hclosing, ends_concat hlast hnone]
    rfl
  have hu : slot.position u ∈ ts.map slot.position := by simp [hends]
  have hwire : (σ.wire ++ [ReplMsg.xLogData m.1 m.2]).filterMap ReplMsg.data
      = σ.wire.filterMap ReplMsg.data ++ [m] := by
    rw [List.filterMap_append]
    rfl
  -- the message is the Commit, and the last one, or its position is below the Commit's
  have hm : (rest = [] ∧ commitEndLsn m.2 = some (slot.endLsn u)) ∨
      (Closing slot rest ∧ commitEndLsn m.2 = none ∧ m.1.toNat < slot.position u) := by
    rw [hs] at hclosing
    cases body with
    | nil =>
      obtain ⟨rfl, rfl⟩ := List.cons.inj hclosing
      exact Or.inl ⟨rfl, hlast⟩
    | cons b body =>
      obtain ⟨rfl, rfl⟩ := List.cons.inj hclosing
      obtain ⟨hb, hlt⟩ := hbody m List.mem_cons_self
      exact Or.inr ⟨⟨u, body, last, rfl, hlast, fun x hx =>
        hbody x (List.mem_cons_of_mem _ hx)⟩, hb, hlt⟩
  have hposition : (ReplMsg.xLogData m.1 m.2).position ≤ slot.position u := by
    show ((commitEndLsn m.2).getD m.1).toNat ≤ _
    rcases hm with ⟨-, hc⟩ | ⟨-, hc, hlt⟩
    · rw [hc]
      exact Nat.le_refl _
    · rw [hc]
      exact Nat.le_of_lt hlt
  have hhead : slot.position u ≤ σ.head := by
    obtain ⟨t, ht, heq⟩ := List.mem_map.mp hu
    rw [← heq]
    exact h.below t (by
      rw [htxns]
      exact List.mem_append_left _ (List.mem_append_right _ ht))
  refine { h with
    sent := ⟨old, ts, blocks, htxns, hold, hsends, ?_⟩
    sending := hm.imp And.left And.left
    announces := h.announces_concat (hposition.trans hhead) fun t ht hnew hle => ?_ }
  · show _ = σ.taken ++ (σ.wire ++ _).filterMap ReplMsg.data ++ rest
    rw [hflat, hwire, hs]
    simp
  · rw [hwire, ← List.append_assoc, ends_append]
    rw [htxns, List.append_assoc, List.mem_append, List.mem_append] at ht
    rcases ht with ht | ht | ht
    · exact absurd (hold t ht) (Nat.not_le.mpr hnew)
    · have hmem := List.mem_map_of_mem (f := slot.position) ht
      rw [hends, List.mem_append, List.mem_singleton] at hmem
      refine List.mem_append.mpr (hmem.imp id fun heq => ?_)
      rw [heq] at hle ⊢
      rcases hm with ⟨-, hc⟩ | ⟨-, hc, hlt⟩
      · simp [ends, hc, Slot.position]
      · have hle : slot.position u ≤ ((commitEndLsn m.2).getD m.1).toNat := hle
        rw [hc] at hle
        exact absurd hle (Nat.not_le.mpr hlt)
    · have hpair := h.ascending.1
      rw [htxns, List.map_append, List.pairwise_append] at hpair
      have hmem : slot.position u ∈ (old ++ ts).map slot.position := by
        rw [List.map_append]
        exact List.mem_append_right _ hu
      have hlt := hpair.2.2 _ hmem _ (List.mem_map_of_mem ht)
      exact absurd (hle.trans hposition) (Nat.not_le.mpr hlt)

theorem Inv.keepalive (h : Inv slot lsn0 σ) {walEnd : UInt64} (replyRequested : Bool)
    (hhead : walEnd.toNat ≤ σ.head) (hqueue : ∀ t ∈ σ.queue, walEnd.toNat < slot.position t)
    (hsending : ∀ lsn ∈ ends σ.sending, walEnd.toNat < lsn) :
    Inv slot lsn0 { σ with wire := σ.wire ++ [.keepalive walEnd replyRequested] } := by
  obtain ⟨old, ts, blocks, htxns, hold, hsends, hflat⟩ := h.sent
  have hwire : (σ.wire ++ [ReplMsg.keepalive walEnd replyRequested]).filterMap ReplMsg.data
      = σ.wire.filterMap ReplMsg.data := by
    rw [List.filterMap_append]
    exact List.append_nil _
  refine { h with
    sent := ⟨old, ts, blocks, htxns, hold, hsends, ?_⟩
    announces := h.announces_concat hhead fun t ht hnew hle => ?_ }
  · show _ = σ.taken ++ (σ.wire ++ _).filterMap ReplMsg.data ++ σ.sending
    rw [hflat, hwire]
  · rw [hwire]
    have hle : slot.position t ≤ walEnd.toNat := hle
    rw [htxns, List.append_assoc, List.mem_append, List.mem_append] at ht
    rcases ht with ht | ht | ht
    · exact absurd (hold t ht) (Nat.not_le.mpr hnew)
    · have hmem := List.mem_map_of_mem (f := slot.position) ht
      rw [← Slot.ends_flatten hsends, hflat, ends_append, List.mem_append] at hmem
      exact hmem.resolve_right fun hin => absurd hle (Nat.not_le.mpr (hsending _ hin))
    · exact absurd hle (Nat.not_le.mpr (hqueue t ht))

theorem Inv.step (h : Inv slot lsn0 σ) (ht : slot.Timely) (hstep : Step slot σ σ') :
    Inv slot lsn0 σ' := by
  cases hstep with
  | wal hle => exact h.wal hle
  | commit hlt => exact h.commit hlt
  | next hidle hq hs => exact h.next ht hidle hq hs
  | send hs => exact h.send hs
  | keepalive hhead hqueue hsending => exact h.keepalive _ hhead hqueue hsending

theorem Inv.take (h : Inv slot lsn0 σ) {msgs wire : List ReplMsg} (hw : σ.wire = msgs ++ wire) :
    Inv slot lsn0 (σ.take msgs wire) := by
  obtain ⟨old, ts, blocks, htxns, hold, hsends, hflat⟩ := h.sent
  refine { h with
    sent := ⟨old, ts, blocks, htxns, hold, hsends, ?_⟩
    announces := fun pre msg post hpost => ?_ }
  · rw [hflat, hw, List.filterMap_append, Stream.take]
    simp
  · have hpost : wire = pre ++ msg :: post := hpost
    have hnext := h.announces (msgs ++ pre) msg post (by rw [hw, hpost, List.append_assoc])
    rwa [List.append_assoc msgs, List.filterMap_append, ← List.append_assoc] at hnext

/-- What a message carries has arrived when the message is taken. -/
theorem Inv.taken (h : Inv slot lsn0 σ) {msg : ReplMsg} {wire : List ReplMsg}
    (hw : σ.wire = msg :: wire) : msg.position ≤ σ.head ∧
      Arrived slot σ.start σ.txns (σ.take [msg] wire).taken msg.position :=
  h.announces [] msg wire hw

theorem Inv.fits (h : Inv slot lsn0 σ) : ∀ m ∈ σ.taken, m.2.length < 2 ^ 32 := by
  obtain ⟨old, ts, blocks, -, -, hsends, hflat⟩ := h.sent
  intro m hm
  refine Slot.fits_flatten hsends m ?_
  rw [hflat, List.append_assoc]
  exact List.mem_append_left _ hm

/-- The messages behind the start of all positions begin those of all transactions. -/
theorem Inv.begins (h : Inv slot lsn0 σ) (hstart : σ.start = lsn0) :
    slot.Begins σ.txns σ.taken := by
  obtain ⟨old, ts, blocks, htxns, hold, hsends, hflat⟩ := h.sent
  obtain rfl : old = [] := by
    refine List.eq_nil_iff_forall_not_mem.mpr fun t ht => ?_
    have hlow := h.ascending.2 t (by
      rw [htxns]
      exact List.mem_append_left _ (List.mem_append_left _ ht))
    exact absurd (hold t ht) (Nat.not_le.mpr (hstart ▸ hlow))
  rw [List.nil_append] at htxns
  rw [List.append_assoc] at hflat
  exact ⟨ts, blocks, ⟨σ.queue, htxns.symm⟩, hsends, ⟨_, hflat.symm⟩⟩

end Steps

/-! ## Later states -/

/-- The transactions and the messages are more, and new transactions are behind the head. -/
structure Later (slot : Slot T) (σ σ' : Stream T) : Prop where
  head : σ.head ≤ σ'.head
  start : σ'.start = σ.start
  taken : σ.taken <+: σ'.taken
  new : ∀ t ∈ σ'.txns, t ∈ σ.txns ∨ σ.head < slot.position t

section Later

variable {slot : Slot T} {σ σ' τ : Stream T}

theorem Later.refl (σ : Stream T) : Later slot σ σ :=
  ⟨Nat.le_refl _, rfl, List.prefix_rfl, fun _ => Or.inl⟩

theorem Later.trans (h : Later slot σ σ') (h' : Later slot σ' τ) : Later slot σ τ := by
  refine ⟨h.head.trans h'.head, h'.start.trans h.start, h.taken.trans h'.taken, fun t ht => ?_⟩
  rcases h'.new t ht with hold | hnew
  · exact h.new t hold
  · exact Or.inr (Nat.lt_of_le_of_lt h.head hnew)

theorem Step.later (hstep : Step slot σ σ') : Later slot σ σ' := by
  cases hstep with
  | wal hle => exact ⟨hle, rfl, List.prefix_rfl, fun _ => Or.inl⟩
  | commit hlt =>
    refine ⟨Nat.le_of_lt hlt, rfl, List.prefix_rfl, fun x hx => ?_⟩
    rcases List.mem_append.mp hx with hx | hx
    · exact Or.inl hx
    · rw [List.mem_singleton.mp hx]
      exact Or.inr hlt
  | next _ _ _ => exact ⟨Nat.le_refl _, rfl, List.prefix_rfl, fun _ => Or.inl⟩
  | send _ => exact ⟨Nat.le_refl _, rfl, List.prefix_rfl, fun _ => Or.inl⟩
  | keepalive _ _ _ => exact ⟨Nat.le_refl _, rfl, List.prefix_rfl, fun _ => Or.inl⟩

theorem take_later (σ : Stream T) (msgs wire : List ReplMsg) :
    Later slot σ (σ.take msgs wire) :=
  ⟨Nat.le_refl _, rfl, List.prefix_append _ _, fun _ => Or.inl⟩

/-- What has arrived once stays so. -/
theorem Later.arrived (h : Later slot σ σ') {lsn : Nat} (hlsn : lsn ≤ σ.head)
    (ha : Arrived slot σ.start σ.txns σ.taken lsn) :
    Arrived slot σ'.start σ'.txns σ'.taken lsn := by
  intro t ht hstart hle
  rw [h.start] at hstart
  rcases h.new t ht with hold | hnew
  · exact (ends_mono h.taken).subset (ha t hold hstart hle)
  · exact absurd (hle.trans hlsn) (Nat.not_le.mpr hnew)

end Later

end Stream

end GrayDB.Ingest
