import GrayDB.Ingest.Pump
import GrayDB.Lib.Positions
import Mathlib.Data.List.Forall2

/-!
# What a log holds of its slot

A slot sends each transaction as messages, of which the last one is a Commit.  A session sends
Relation messages of its own, so one transaction is not the same list of messages each time.
`logged` are the frames of messages, and `ends` the commits among them.

* `committed_logged` and `reach_logged` read recovery and the last commit off the messages.
* `Slot.Delivers` says that frames are transactions, each of them once and whole.
  `Slot.delivers_committed` says it of the committed frames of every log whose messages begin
  those of the slot.
-/

namespace GrayDB.Ingest

open Lib Log Registry

def Data.isCommit (m : Data) : Bool := (commitEndLsn m.2).isSome

/-- The frames of messages, numbered from zero. -/
def logged (ms : List Data) : List Frame := ms.mapIdx fun i m => taskFrame commitEndLsn i m.1 m.2

/-- Where the transactions end that are complete in these messages. -/
def ends (ms : List Data) : List Nat := ms.filterMap fun m => (commitEndLsn m.2).map UInt64.toNat

/-- The position of the last commit, or the one to start from. -/
def reach (start : Nat) (fs : List Frame) : Nat := ((lastCommit fs).map Prod.snd).getD start

/-! ## Messages and frames -/

theorem logged_concat (ms : List Data) (m : Data) :
    logged (ms ++ [m]) = logged ms ++ [taskFrame commitEndLsn ms.length m.1 m.2] :=
  List.mapIdx_concat

@[simp] theorem length_logged (ms : List Data) : (logged ms).length = ms.length :=
  List.length_mapIdx

theorem logged_mono {ms ms' : List Data} (h : ms <+: ms') : logged ms <+: logged ms' := by
  obtain ⟨rest, rfl⟩ := h
  rw [logged, logged, List.mapIdx_append]
  exact List.prefix_append _ _

/-- The first frames are those of the first messages. -/
theorem exists_logged {fs : List Frame} {ms : List Data} (h : fs <+: logged ms) :
    ∃ ms', ms' <+: ms ∧ fs = logged ms' := by
  refine ⟨ms.take fs.length, List.take_prefix _ _, ?_⟩
  have hlen : (ms.take fs.length).length = fs.length := by
    rw [List.length_take_of_le]
    simpa using h.length_le
  have hpre : logged (ms.take fs.length) <+: logged ms := logged_mono (List.take_prefix _ _)
  exact (List.prefix_of_prefix_length_le h hpre (by simp [hlen])).eq_of_length (by simp [hlen])

theorem committed_logged (ms : List Data) :
    committed (logged ms) = logged (uptoLast Data.isCommit ms) := by
  induction ms using List.reverseRecOn with
  | nil => rfl
  | append_singleton ms m ih =>
    rw [logged_concat, committed_snoc, ih]
    show (if m.isCommit then _ else _) = _
    cases hm : m.isCommit with
    | true => rw [if_pos rfl, uptoLast_eq_self_of_getLast hm, logged_concat]
    | false =>
      rw [if_neg Bool.false_ne_true, uptoLast_append_of_unmarked]
      exact fun a ha => by rw [List.mem_singleton.mp ha, hm]

theorem reach_logged (start : Nat) (ms : List Data) :
    reach start (logged ms) = (ends ms).getLastD start := by
  induction ms using List.reverseRecOn with
  | nil => rfl
  | append_singleton ms m ih =>
    rw [logged_concat, reach, lastCommit_snoc, commitOf, ends, List.filterMap_append]
    show (((if m.isCommit then some (ms.length, ((commitEndLsn m.2).getD m.1).toNat) else none).or
      _).map _).getD _ = _
    unfold Data.isCommit
    cases hm : commitEndLsn m.2 with
    | none =>
      have hends : ms.filterMap (fun m => (commitEndLsn m.2).map UInt64.toNat)
          ++ [m].filterMap (fun m => (commitEndLsn m.2).map UInt64.toNat) = ends ms := by
        simp [ends, hm]
      rw [Option.isSome_none, if_neg Bool.false_ne_true, Option.none_or, hends]
      exact ih
    | some e =>
      rw [Option.isSome_some, if_pos rfl]
      simp [hm]

/-- A commit frame is the end of a transaction. -/
theorem mem_ends {ms : List Data} {seq lsn : Nat} (h : CommitAt (logged ms) seq lsn) :
    lsn ∈ ends ms := by
  obtain ⟨f, hf, hc, rfl⟩ := h
  rw [logged, List.getElem?_mapIdx] at hf
  obtain ⟨m, hm, rfl⟩ := Option.map_eq_some_iff.mp hf
  have hc : (commitEndLsn m.2).isSome = true := hc
  obtain ⟨e, he⟩ := Option.isSome_iff_exists.mp hc
  refine List.mem_filterMap.mpr ⟨m, List.mem_of_getElem? hm, ?_⟩
  show _ = some ((commitEndLsn m.2).getD m.1).toNat
  rw [he]
  rfl

theorem length_ends (ms : List Data) : (ends ms).length = ms.countP Data.isCommit := by
  rw [ends, List.length_filterMap_eq_countP]
  congr 1
  funext m
  rw [Data.isCommit, Option.isSome_map]

theorem ends_append (ms ms' : List Data) : ends (ms ++ ms') = ends ms ++ ends ms' :=
  List.filterMap_append

theorem ends_mono {ms ms' : List Data} (h : ms <+: ms') : ends ms <+: ends ms' := by
  obtain ⟨rest, rfl⟩ := h
  rw [ends_append]
  exact List.prefix_append _ _

/-- Messages without a commit, and one with. -/
theorem ends_concat {body : List Data} {last : Data} {lsn : UInt64}
    (hlast : commitEndLsn last.2 = some lsn) (hbody : ∀ m ∈ body, commitEndLsn m.2 = none) :
    ends (body ++ [last]) = [lsn.toNat] := by
  have hnone : ends body = [] := by
    rw [ends, List.filterMap_eq_nil_iff]
    intro m hm
    rw [hbody m hm]
    rfl
  rw [ends_append, hnone, ends]
  simp [hlast]

/-! ## The slot -/

/-- The transactions of a source, and the lists of messages that its slot may send for one. -/
structure Slot (T : Type) where
  endLsn : T → UInt64
  Sends : T → List Data → Prop
  /-- The last message is the Commit, and no other one is. -/
  commit : ∀ {t ms}, Sends t ms → ∃ body last, ms = body ++ [last] ∧
    commitEndLsn last.2 = some (endLsn t) ∧ ∀ m ∈ body, commitEndLsn m.2 = none
  fits : ∀ {t ms}, Sends t ms → ∀ m ∈ ms, m.2.length < 2 ^ 32

namespace Slot

variable {T : Type} {slot : Slot T} {lsn0 start : Nat} {ts txns txns' : List T}
  {blocks : List (List Data)} {ms ms' : List Data} {fs gs : List Frame}

def position (slot : Slot T) (t : T) : Nat := (slot.endLsn t).toNat

/-- The frames are these transactions in this order, each of them once and whole. -/
def Delivers (slot : Slot T) (ts : List T) (fs : List Frame) : Prop :=
  ∃ blocks, List.Forall₂ slot.Sends ts blocks ∧ fs = logged blocks.flatten

theorem endsMarked (h : List.Forall₂ slot.Sends ts blocks) : EndsMarked Data.isCommit blocks := by
  induction h with
  | nil => exact fun b hb => absurd hb List.not_mem_nil
  | cons hsends _ ih =>
    intro b hb
    rcases List.mem_cons.mp hb with rfl | hb
    · obtain ⟨body, last, rfl, hlast, hbody⟩ := slot.commit hsends
      refine ⟨body, last, rfl, ?_, fun m hm => ?_⟩
      · rw [Data.isCommit, hlast]
        rfl
      · rw [Data.isCommit, hbody m hm]
        rfl
    · exact ih b hb

theorem ends_flatten (h : List.Forall₂ slot.Sends ts blocks) :
    ends blocks.flatten = ts.map slot.position := by
  induction h with
  | nil => rfl
  | cons hsends _ ih =>
    obtain ⟨body, last, rfl, hlast, hbody⟩ := slot.commit hsends
    rw [List.flatten_cons, ends_append, ends_concat hlast hbody, ih]
    rfl

theorem fits_flatten (h : List.Forall₂ slot.Sends ts blocks) :
    ∀ m ∈ blocks.flatten, m.2.length < 2 ^ 32 := by
  induction h with
  | nil => exact fun m hm => absurd hm List.not_mem_nil
  | cons hsends _ ih =>
    intro m hm
    rw [List.flatten_cons, List.mem_append] at hm
    exact hm.elim (slot.fits hsends m) (ih m)

/-- The commits of the first messages are those of the first transactions. -/
theorem ends_of_isPrefix (h : List.Forall₂ slot.Sends ts blocks) (hms : ms <+: blocks.flatten) :
    ends ms = (ts.take (ms.countP Data.isCommit)).map slot.position := by
  have hpre := ends_mono hms
  rw [ends_flatten h] at hpre
  rw [List.map_take, ← length_ends]
  exact List.prefix_iff_eq_take.mp hpre

/-- Recovery keeps whole transactions, from the first one on. -/
theorem delivers_committed (h : List.Forall₂ slot.Sends ts blocks) (hms : ms <+: blocks.flatten) :
    slot.Delivers (ts.take (ms.countP Data.isCommit)) (committed (logged ms)) := by
  refine ⟨blocks.take (ms.countP Data.isCommit), List.forall₂_take _ h, ?_⟩
  rw [committed_logged, (endsMarked h).uptoLast_eq hms]

/-- The transactions have ascending positions above the start. -/
def Ascending (slot : Slot T) (lsn0 : Nat) (txns : List T) : Prop :=
  (txns.map slot.position).Pairwise (· < ·) ∧ ∀ t ∈ txns, lsn0 < slot.position t

/-- These messages are the first ones of the first transactions. -/
def Begins (slot : Slot T) (txns : List T) (ms : List Data) : Prop :=
  ∃ ts blocks, ts <+: txns ∧ List.Forall₂ slot.Sends ts blocks ∧ ms <+: blocks.flatten

/-! ## Positions in what was sent -/

theorem Ascending.concat {t : T} (h : slot.Ascending lsn0 txns) (hlow : lsn0 < slot.position t)
    (hnew : ∀ x ∈ txns, slot.position x < slot.position t) :
    slot.Ascending lsn0 (txns ++ [t]) := by
  constructor
  · rw [List.map_append, List.pairwise_append]
    refine ⟨h.1, List.pairwise_singleton _ _, fun x hx y hy => ?_⟩
    obtain ⟨a, ha, rfl⟩ := List.mem_map.mp hx
    obtain rfl := List.mem_singleton.mp hy
    exact hnew a ha
  · intro x hx
    rcases List.mem_append.mp hx with hx | hx
    · exact h.2 x hx
    · rw [List.mem_singleton.mp hx]
      exact hlow

theorem Begins.of_isPrefix (h : slot.Begins txns ms) (hms : ms' <+: ms) : slot.Begins txns ms' := by
  obtain ⟨ts, blocks, hts, hsends, hpre⟩ := h
  exact ⟨ts, blocks, hts, hsends, hms.trans hpre⟩

theorem Begins.mono (h : slot.Begins txns ms) (ht : txns <+: txns') : slot.Begins txns' ms := by
  obtain ⟨ts, blocks, hts, hsends, hpre⟩ := h
  exact ⟨ts, blocks, hts.trans ht, hsends, hpre⟩

theorem Begins.ends (h : slot.Begins txns ms) : ends ms <+: txns.map slot.position := by
  obtain ⟨ts, blocks, hts, hsends, hpre⟩ := h
  rw [ends_of_isPrefix hsends hpre]
  exact ((List.take_prefix _ _).trans hts).map slot.position

theorem Begins.ends_ascend (h : slot.Begins txns ms) (ha : slot.Ascending lsn0 txns) :
    (Ingest.ends ms).Pairwise (· < ·) ∧ ∀ x ∈ Ingest.ends ms, lsn0 < x := by
  refine ⟨ha.1.sublist h.ends.sublist, fun x hx => ?_⟩
  obtain ⟨t, ht, rfl⟩ := List.mem_map.mp (h.ends.subset hx)
  exact ha.2 t ht

/-- More frames reach further. -/
theorem Begins.reach_mono (h : slot.Begins txns ms) (ha : slot.Ascending lsn0 txns) (hf : fs <+: gs)
    (hg : gs <+: logged ms) : reach lsn0 fs ≤ reach lsn0 gs := by
  obtain ⟨ms₂, hms₂, rfl⟩ := exists_logged hg
  obtain ⟨ms₁, hms₁, rfl⟩ := exists_logged hf
  obtain ⟨hpair, hlow⟩ := (h.of_isPrefix hms₂).ends_ascend ha
  rw [reach_logged, reach_logged]
  exact getLastD_mono hpair hlow (ends_mono hms₁)

theorem Begins.low_le_reach (h : slot.Begins txns ms) (ha : slot.Ascending lsn0 txns)
    (hf : fs <+: logged ms) : lsn0 ≤ reach lsn0 fs :=
  h.reach_mono ha List.nil_prefix hf

/-- A status is not above what the frames reach that back it. -/
theorem Begins.backed_le (h : slot.Begins txns ms) (ha : slot.Ascending lsn0 txns)
    (hf : fs <+: logged ms) {st : StandbyStatus} (hst : Pump.Backed start fs st)
    (hstart : start ≤ reach lsn0 fs) : st.lsn ≤ reach lsn0 fs := by
  rcases hst with hst | ⟨seq, hc⟩
  · rw [hst]
    exact hstart
  · obtain ⟨ms₁, hms₁, rfl⟩ := exists_logged hf
    rw [reach_logged]
    exact le_getLastD ((h.of_isPrefix hms₁).ends_ascend ha).1 (mem_ends hc)

/-- The committed frames of the messages are the first transactions. -/
theorem Begins.delivers (h : slot.Begins txns ms) :
    ∃ k, slot.Delivers (txns.take k) (committed (logged ms)) ∧
      Ingest.ends ms = (txns.take k).map slot.position := by
  obtain ⟨ts, blocks, hts, hsends, hpre⟩ := h
  have htake : ts.take (ms.countP Data.isCommit) <+: txns := (List.take_prefix _ _).trans hts
  refine ⟨(ts.take (ms.countP Data.isCommit)).length, ?_, ?_⟩
  · rw [← List.prefix_iff_eq_take.mp htake]
    exact delivers_committed hsends hpre
  · rw [← List.prefix_iff_eq_take.mp htake, ends_of_isPrefix hsends hpre]

/-- A transaction is known by its position. -/
theorem Ascending.mem_take (h : slot.Ascending lsn0 txns) {t : T} (ht : t ∈ txns) {k : Nat}
    (hmem : slot.position t ∈ (txns.take k).map slot.position) : t ∈ txns.take k := by
  obtain ⟨u, hu, heq⟩ := List.mem_map.mp hmem
  have hnodup : (txns.map slot.position).Nodup := h.1.imp Nat.ne_of_lt
  rwa [← List.inj_on_of_nodup_map hnodup (List.mem_of_mem_take hu) ht heq]

end Slot

/-! ## A slot for runs on fixed inputs -/

theorem commitEndLsn_commitMessage (n : UInt64) :
    commitEndLsn (commitMessage n.toNat) = some n := by
  have hbytes : ((commitMessage n.toNat).drop 10).take 8 = beBytes 8 n.toNat := by
    simp [commitMessage]
  rw [commitEndLsn, hbytes, if_pos ⟨by simp [commitMessage], rfl⟩, beNat_beBytes n.toNat_lt]
  simp

/-- Transactions without a change. -/
def emptyTxns : Slot UInt64 where
  endLsn := id
  Sends t ms := ms = [(t, beginMessage t.toNat 1), (t, commitMessage t.toNat)]
  commit := by
    rintro t _ rfl
    exact ⟨[_], _, rfl, commitEndLsn_commitMessage t, by simp [commitEndLsn, beginMessage]⟩
  fits := by
    rintro t _ rfl m hm
    rcases List.mem_pair.mp hm with rfl | rfl
    · simp [beginMessage]
    · simp [commitMessage]

/-- Each transaction inserts the same row of `p.u`. -/
def rowTxns : Slot UInt64 where
  endLsn := id
  Sends t ms := 0 < t.toNat ∧ ms = [(0, beginMessage t.toNat 1),
    (0, relationMessage 1 "p" "u" ["a"]), (0, insertMessage 1 ["x"]), (t, commitMessage t.toNat)]
  commit := by
    rintro t _ ⟨-, rfl⟩
    refine ⟨[_, _, _], _, rfl, commitEndLsn_commitMessage t, fun m hm => ?_⟩
    simp only [List.mem_cons, List.not_mem_nil, or_false] at hm
    rcases hm with rfl | rfl | rfl
    · simp [commitEndLsn, beginMessage]
    · decide +kernel
    · decide +kernel
  fits := by
    rintro t _ ⟨-, rfl⟩ m hm
    simp only [List.mem_cons, List.not_mem_nil, or_false] at hm
    rcases hm with rfl | rfl | rfl | rfl
    · simp [beginMessage]
    · decide +kernel
    · decide +kernel
    · simp [commitMessage]

end GrayDB.Ingest
