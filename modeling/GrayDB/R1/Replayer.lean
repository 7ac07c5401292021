import GrayDB.R1.TornIntents

/-!
# The workload replayer

`WorkloadReplayer.replay` checks a list of plans against the committed ledger and the map,
and then pushes an entry for each of them.  A push checks its entry again.

* The first check covers the second: once it has passed, every push succeeds
  (`pushItems_of_accepts`).  So a call writes everything or nothing.
* `Replaying` is the directory with the map that replays and the handles that do not.
  The file is always the lines of the map's entries (`Replaying.Inv`), whatever was
  resumed, refreshed and replayed before.

The file operations succeed here; crashes are in `TornTails`.  Sequences stay far below
2^64.
-/

namespace GrayDB.R1

open Lib Log

/-- A plan, the committed entry of its sequence, and the LSN of its replay. -/
abbrev ReplayItem := TransactionPlan × LedgerEntry × Nat

def ReplayItem.entry : ReplayItem → ReplayMapEntry
  | (plan, original, replayLsn) =>
    { logicalSequence := plan.sequence
      originalSourceLsn := original.sourceLsn
      replaySourceLsn := replayLsn
      operationSha256 := plan.operationSha256 }

inductive ReplayError where
  | planSequence
  | operationHash
  | sequence (logicalSequence expected : Nat)
  | hashRequired
  | map (e : ReplayMapError)
  deriving DecidableEq, Repr

def ReplayError.message : ReplayError → String
  | .planSequence => "replay plan sequence differs from ledger"
  | .operationHash => "replay operation hash differs from committed ledger"
  | .sequence logicalSequence expected =>
    s!"replay sequence {logicalSequence}, expected {expected}"
  | .hashRequired => "replay operation hash is required"
  | .map e => e.message

/-- The sequence behind the last entry of the map. -/
def expectedSequence (entries : List ReplayMapEntry) : Nat :=
  (entries.getLast?.map fun e => e.logicalSequence + 1).getD 1

/-- The first loop of `replay`: nothing is written. -/
def checkItems : Nat → List ReplayItem → Except ReplayError Unit
  | _, [] => .ok ()
  | expected, (plan, original, replayLsn) :: rest =>
    let candidate := ReplayItem.entry (plan, original, replayLsn)
    if plan.sequence ≠ original.sequence then .error .planSequence
    else if plan.operationSha256 ≠ original.operationSha256 then .error .operationHash
    else if candidate.logicalSequence ≠ expected then
      .error (.sequence candidate.logicalSequence expected)
    else if candidate.operationSha256 = "" then .error .hashRequired
    else checkItems (expected + 1) rest

/-- What a call returns, and what it leaves: the map, and the bytes behind the file. -/
structure Replayed where
  result : Except ReplayError Unit
  map : ReplayMap
  bytes : Bytes

section Replay

variable [SerdeJson ReplayMapEntry]

/-- The second loop of `replay`.  A push that fails leaves what was pushed before it. -/
def pushItems : ReplayMap → List ReplayItem → Replayed
  | map, [] => { result := .ok (), map, bytes := [] }
  | map, item :: rest =>
    match map.push item.entry with
    | .error e => { result := .error (.map e), map, bytes := [] }
    | .ok (map, bytes) =>
      let out := pushItems map rest
      { out with bytes := bytes ++ out.bytes }

/-- `WorkloadReplayer::replay`. -/
def replay (map : ReplayMap) (items : List ReplayItem) : Replayed :=
  match checkItems (expectedSequence map.entries) items with
  | .error e => { result := .error e, map, bytes := [] }
  | .ok () => pushItems map items

def ReplayMap.resume (data : Bytes) : Except ReplayMapError ReplayMap := ReplayMap.refresh data {}

/-! ## The handles of a directory -/

/-- The file, the map of the replayer, whether it has appended, and the handles that have
not. -/
structure Replaying where
  file : Bytes := []
  map : ReplayMap := {}
  appended : Bool := false
  idle : List ReplayMap := []

inductive ReplayEvent where
  /-- The replayer starts anew, on a handle that it resumes. -/
  | resume
  /-- Another handle is resumed. -/
  | open
  | refresh (handle : Nat)
  | replay (items : List ReplayItem)

def Replaying.step (s : Replaying) : ReplayEvent → Replaying
  | .resume =>
    match ReplayMap.resume s.file with
    | .error _ => s
    | .ok map =>
      { s with map, appended := false, idle := if s.appended then s.idle else s.map :: s.idle }
  | .open =>
    match ReplayMap.resume s.file with
    | .error _ => s
    | .ok map => { s with idle := map :: s.idle }
  | .refresh handle =>
    match s.idle[handle]? with
    | none => s
    | some map =>
      match map.refresh s.file with
      | .error _ => s
      | .ok map => { s with idle := s.idle.set handle map }
  | .replay items =>
    let out := R1.replay s.map items
    { s with file := s.file ++ out.bytes, map := out.map
             appended := s.appended || !out.bytes.isEmpty }

def Replaying.run (s : Replaying) (events : List ReplayEvent) : Replaying :=
  events.foldl Replaying.step s

/-- The items of a replay. -/
def ReplayEvent.items : ReplayEvent → List ReplayItem
  | .replay items => items
  | _ => []

/-! ## The two checks -/

omit [SerdeJson ReplayMapEntry] in
theorem validateNext_eq_ok_iff {entries : List ReplayMapEntry} {e : ReplayMapEntry} :
    validateNext entries e = .ok () ↔
      e.logicalSequence = expectedSequence entries ∧ e.operationSha256 ≠ "" := by
  show (if e.logicalSequence ≠ expectedSequence entries then _
    else if e.operationSha256 = "" then _ else _) = _ ↔ _
  split_ifs with hseq hhash
  · simp [hseq]
  · simp [hhash]
  · simp [not_not.mp hseq, hhash]

omit [SerdeJson ReplayMapEntry] in
theorem expectedSequence_append (entries : List ReplayMapEntry) (e : ReplayMapEntry) :
    expectedSequence (entries ++ [e]) = e.logicalSequence + 1 := by
  rw [expectedSequence, List.getLast?_concat]
  rfl

omit [SerdeJson ReplayMapEntry] in
/-- What passes the first check passes the check of every push. -/
theorem accepts_of_checkItems {items : List ReplayItem} {entries : List ReplayMapEntry}
    (h : checkItems (expectedSequence entries) items = .ok ()) :
    replayMapCheck.Accepts entries (items.map ReplayItem.entry) := by
  induction items generalizing entries with
  | nil => trivial
  | cons item items ih =>
    obtain ⟨plan, original, replayLsn⟩ := item
    rw [checkItems] at h
    split_ifs at h with hplan hop hseq hhash
    have hcheck : validateNext entries (ReplayItem.entry (plan, original, replayLsn)) = .ok () :=
      validateNext_eq_ok_iff.mpr ⟨not_not.mp hseq, hhash⟩
    have hnext : expectedSequence (entries ++ [ReplayItem.entry (plan, original, replayLsn)])
        = expectedSequence entries + 1 := by
      rw [expectedSequence_append, not_not.mp hseq]
    rw [← hnext] at h
    exact ⟨hcheck, ih h⟩

theorem pushItems_of_accepts {items : List ReplayItem} {map : ReplayMap}
    (h : replayMapCheck.Accepts map.entries (items.map ReplayItem.entry)) :
    pushItems map items =
      { result := .ok ()
        map := { map with entries := map.entries ++ items.map ReplayItem.entry }
        bytes := linesOf (items.map ReplayItem.entry) } := by
  induction items generalizing map with
  | nil =>
    rw [pushItems, List.map_nil, List.append_nil]
    rfl
  | cons item items ih =>
    obtain ⟨hcheck, hrest⟩ := h
    have hvalid : validateNext map.entries item.entry = .ok () := hcheck
    have hpush : map.push item.entry = .ok
        ({ map with entries := map.entries ++ [item.entry] }, toText item.entry ++ [newline]) := by
      rw [ReplayMap.push, hvalid]
    have hpushed : pushItems { map with entries := map.entries ++ [item.entry] } items = _ :=
      ih hrest
    rw [pushItems, hpush]
    simp only [hpushed, List.map_cons, linesOf_cons, List.append_assoc, List.singleton_append]

/-- A call fails before it writes, or it writes everything. -/
theorem replay_cases (map : ReplayMap) (items : List ReplayItem) :
    (∃ e, replay map items = { result := .error e, map, bytes := [] }) ∨
      replayMapCheck.Accepts map.entries (items.map ReplayItem.entry) ∧
        replay map items =
          { result := .ok ()
            map := { map with entries := map.entries ++ items.map ReplayItem.entry }
            bytes := linesOf (items.map ReplayItem.entry) } := by
  rw [replay]
  cases hcheck : checkItems (expectedSequence map.entries) items with
  | error e => exact Or.inl ⟨e, rfl⟩
  | ok u =>
    have haccepts := accepts_of_checkItems hcheck
    exact Or.inr ⟨haccepts, pushItems_of_accepts haccepts⟩

omit [SerdeJson ReplayMapEntry] in
theorem sequences_of_accepts {entries new : List ReplayMapEntry}
    (h : replayMapCheck.Accepts entries new) :
    new.map (fun e => e.logicalSequence) = List.range' (expectedSequence entries) new.length := by
  induction new generalizing entries with
  | nil => rfl
  | cons e new ih =>
    obtain ⟨hcheck, hrest⟩ := h
    have hseq : e.logicalSequence = expectedSequence entries := (validateNext_eq_ok_iff.mp hcheck).1
    rw [List.map_cons, ih hrest, expectedSequence_append, hseq, List.length_cons, List.range'_succ]

/-! ## What holds in every directory -/

/-- A handle that has not appended: the entries from the front, and the offset behind them. -/
structure Lags (entries : List ReplayMapEntry) (map : ReplayMap) : Prop where
  front : map.entries <+: entries
  offset : map.loadedBytes = (linesOf map.entries).length

structure Replaying.Inv (s : Replaying) : Prop where
  file : s.file = linesOf s.map.entries
  accepts : replayMapCheck.Accepts [] s.map.entries
  json : ∀ e ∈ s.map.entries, RoundTrips e
  map : s.appended = false → Lags s.map.entries s.map
  idle : ∀ map ∈ s.idle, Lags s.map.entries map

theorem lags_nil (entries : List ReplayMapEntry) : Lags entries {} :=
  ⟨List.nil_prefix, rfl⟩

theorem Lags.append {entries : List ReplayMapEntry} {map : ReplayMap} (h : Lags entries map)
    (new : List ReplayMapEntry) : Lags (entries ++ new) map :=
  ⟨h.front.trans (List.prefix_append entries new), h.offset⟩

/-- A handle that has not appended reads what it does not have. -/
theorem Lags.refresh {entries : List ReplayMapEntry} {map : ReplayMap} (h : Lags entries map)
    (haccepts : replayMapCheck.Accepts [] entries) (hjson : ∀ e ∈ entries, RoundTrips e) :
    map.refresh (linesOf entries)
      = .ok { entries := entries, loadedBytes := (linesOf entries).length } := by
  obtain ⟨new, rfl⟩ := h.front
  have hnew : replayMapCheck.Accepts map.entries new := by
    have hsplit := (accepts_append.mp haccepts).2
    rwa [List.nil_append] at hsplit
  have hle : map.loadedBytes ≤ (linesOf (map.entries ++ new)).length := by
    rw [h.offset, linesOf_append, List.length_append]
    omega
  have hdrop : (linesOf (map.entries ++ new)).drop map.loadedBytes = linesOf new := by
    rw [h.offset, linesOf_append, List.drop_left]
  have hload := load_whole (fun e he => hjson e (List.mem_append_right _ he)) hnew hle hdrop
  rw [ReplayMap.refresh, hload, h.offset, linesOf_append, List.length_append]

namespace Replaying

variable {s : Replaying}

theorem Inv.refresh (h : s.Inv) {map : ReplayMap} (hmap : Lags s.map.entries map) :
    map.refresh s.file
      = .ok { entries := s.map.entries, loadedBytes := (linesOf s.map.entries).length } := by
  rw [h.file]
  exact hmap.refresh h.accepts h.json

theorem Inv.resume (h : s.Inv) : ReplayMap.resume s.file
    = .ok { entries := s.map.entries, loadedBytes := (linesOf s.map.entries).length } :=
  h.refresh (lags_nil _)

/-- What a handle holds after it has read the file. -/
theorem lags_whole (entries : List ReplayMapEntry) :
    Lags entries { entries := entries, loadedBytes := (linesOf entries).length } :=
  ⟨List.prefix_refl _, rfl⟩

theorem inv_resume (h : s.Inv) : (s.step .resume).Inv := by
  rw [step, h.resume]
  refine ⟨h.file, h.accepts, h.json, fun _ => lags_whole _, ?_⟩
  intro map hmap
  cases happended : s.appended with
  | true =>
    simp only [happended, if_true] at hmap
    exact h.idle map hmap
  | false =>
    simp only [happended, Bool.false_eq_true, if_false, List.mem_cons] at hmap
    cases hmap with
    | inl heq => exact heq ▸ h.map happended
    | inr hmem => exact h.idle map hmem

theorem inv_open (h : s.Inv) : (s.step .open).Inv := by
  rw [step, h.resume]
  refine ⟨h.file, h.accepts, h.json, h.map, ?_⟩
  intro map hmap
  cases List.mem_cons.mp hmap with
  | inl heq =>
    rw [heq]
    exact lags_whole _
  | inr hmem => exact h.idle map hmem

theorem inv_refresh (h : s.Inv) (handle : Nat) : (s.step (.refresh handle)).Inv := by
  rw [step]
  cases hmap : s.idle[handle]? with
  | none => exact h
  | some map =>
    simp only
    rw [h.refresh (h.idle map (List.mem_of_getElem? hmap))]
    refine ⟨h.file, h.accepts, h.json, h.map, ?_⟩
    intro map' hmap'
    cases List.mem_or_eq_of_mem_set hmap' with
    | inl hmem => exact h.idle map' hmem
    | inr heq =>
      rw [heq]
      exact lags_whole _

theorem inv_replay (h : s.Inv) {items : List ReplayItem}
    (hjson : ∀ item ∈ items, RoundTrips item.entry) : (s.step (.replay items)).Inv := by
  rw [step]
  obtain ⟨e, hout⟩ | ⟨haccepts, hout⟩ := replay_cases s.map items
  · rw [hout]
    simp only [List.append_nil, List.isEmpty_nil, Bool.not_true, Bool.or_false]
    exact h
  · rw [hout]
    refine ⟨?_, ?_, ?_, ?_, fun map hmap => (h.idle map hmap).append _⟩
    · rw [h.file, linesOf_append]
    · rw [accepts_append, List.nil_append]
      exact ⟨h.accepts, haccepts⟩
    · intro e he
      cases List.mem_append.mp he with
      | inl he => exact h.json e he
      | inr he =>
        obtain ⟨item, hitem, rfl⟩ := List.mem_map.mp he
        exact hjson item hitem
    · intro hidle
      obtain ⟨happended, hbytes⟩ := Bool.or_eq_false_iff.mp hidle
      have hnil : linesOf (items.map ReplayItem.entry) = [] := by simpa using hbytes
      have hlen := length_le_linesOf (items.map ReplayItem.entry)
      rw [hnil] at hlen
      have hnone : items.map ReplayItem.entry = [] := List.eq_nil_of_length_eq_zero (by simpa using hlen)
      rw [hnone, List.append_nil]
      exact h.map happended

theorem inv_step (h : s.Inv) {event : ReplayEvent}
    (hjson : ∀ item ∈ event.items, RoundTrips item.entry) : (s.step event).Inv := by
  cases event with
  | resume => exact inv_resume h
  | «open» => exact inv_open h
  | refresh handle => exact inv_refresh h handle
  | replay items => exact inv_replay h hjson

theorem inv_run (h : s.Inv) {events : List ReplayEvent}
    (hjson : ∀ event ∈ events, ∀ item ∈ event.items, RoundTrips item.entry) :
    (s.run events).Inv := by
  induction events generalizing s with
  | nil => exact h
  | cons event events ih =>
    exact ih (inv_step h (hjson event List.mem_cons_self))
      fun event' hevent' => hjson event' (List.mem_cons_of_mem event hevent')

end Replaying

theorem Replaying.inv_start : ({} : Replaying).Inv where
  file := rfl
  accepts := trivial
  json := nofun
  map := fun _ => lags_nil _
  idle := nofun

/-- What a call leaves in a directory that the map has been kept in: nothing when it fails,
and else one entry for each item, which every handle that has not appended can read. -/
structure Recorded (s : Replaying) (items : List ReplayItem) (out : Replayed) : Prop where
  rejected : ∀ e, out.result = .error e → out.map = s.map ∧ out.bytes = []
  entries : out.result = .ok () → out.map.entries = s.map.entries ++ items.map ReplayItem.entry
  lines : out.result = .ok () → out.bytes = linesOf (items.map ReplayItem.entry)
  sequences : out.map.entries.map (fun e => e.logicalSequence)
    = List.range' 1 out.map.entries.length
  resumed : ∃ map, ReplayMap.resume (s.file ++ out.bytes) = .ok map ∧
    map.entries = out.map.entries
  refreshed : ∀ handle ∈ s.idle, ∃ map, handle.refresh (s.file ++ out.bytes) = .ok map ∧
    map.entries = out.map.entries

end Replay

def firstItem : ReplayItem :=
  (firstPlan, { firstEntry with operationSha256 := firstPlan.operationSha256 }, 201)

end GrayDB.R1
