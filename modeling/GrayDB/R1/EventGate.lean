import GrayDB.Columnar.Rendering
import GrayDB.R1.VersionRows
import Mathlib.Data.List.Dedup

/-!
# The event uniqueness gate

Before each query, `verify_event_ids_unique` compares the number of rows of
`r1_order_events_raw` with the number of event ids in it.  A row that is stored twice makes
the first number the greater one.  So does a tombstone, which has the id of the row that it
deletes.

`gate_exact_iff` says that the gate tells the tables in which each row is stored once
exactly for the histories that delete no event.
-/

namespace GrayDB.R1.ClickHouseSink

open Lib Lib.Crash Registry Source

/-! ## The gate -/

inductive GateError where
  | request
  | duplicateEvents (rows unique : Nat)
  deriving DecidableEq, Repr

def GateError.message : GateError → String
  | .request => "ClickHouse request failed"
  | .duplicateEvents rows unique =>
    s!"duplicate event IDs at checkpoint: count()={rows}, uniqExact(event_id)={unique}"

/-- `event_id Int64`; a NULL is stored as the default. -/
def eventId (r : VersionRow) : Int := ((keyOf r.cells).bind Columnar.parseI64).getD 0

/-- The rows of `r1_order_events_raw`. -/
def storedEvents (db : ClickHouse) : List VersionRow := (db.raw orderEvents.raw).rows

/-- `SELECT count(), uniqExact(event_id)`, with the two numbers that the server sends back. -/
def verifyEventIdsUnique : IoM GateError World Unit := do
  IoM.call .request id fun _ w => w
  let w ← IoM.get
  let rows := (storedEvents w.db).length
  let unique := ((storedEvents w.db).map eventId).dedup.length
  if rows = unique then return ()
  else IoM.throw (.duplicateEvents rows unique)

variable {w : World}

/-- The two numbers are the same when no id is there twice. -/
theorem verifyEventIdsUnique_ends : Ends verifyEventIdsUnique w
    (fun _ _ => ((storedEvents w.db).map eventId).Nodup)
    (fun _ _ => ¬((storedEvents w.db).map eventId).Nodup) := by
  have hiff : (storedEvents w.db).length = ((storedEvents w.db).map eventId).dedup.length ↔
      ((storedEvents w.db).map eventId).Nodup := by
    rw [← List.length_map (f := eventId), ← List.dedup_eq_self]
    constructor
    · intro h
      exact (List.dedup_sublist _).eq_of_length h.symm
    · intro h
      rw [h]
  unfold verifyEventIdsUnique
  refine Ends.bind_call (Ends.bind_get ?_)
  by_cases hequal : (storedEvents w.db).length = ((storedEvents w.db).map eventId).dedup.length
  · rw [id, if_pos hequal]
    exact Ends.pure (hiff.mp hequal)
  · rw [id, if_neg hequal]
    exact Ends.throw fun h => hequal (hiff.mpr h)

/-- The gate is exact for the rows of a server `loaded`: it lets a server pass on which each of
them is stored once, and none on which a row is stored twice. -/
def GateExact (loaded : World) : Prop :=
  ∀ w : World,
    ((storedEvents w.db).Perm (storedEvents loaded.db) → (verifyEventIdsUnique.exec w).1 = .ok ()) ∧
    ((∃ r, 2 ≤ (storedEvents w.db).count r) → ∃ e, (verifyEventIdsUnique.exec w).1 = .error e)

theorem verify_ok_iff :
    (verifyEventIdsUnique.exec w).1 = .ok () ↔ ((storedEvents w.db).map eventId).Nodup := by
  obtain ⟨_, r, hrun, hnodup⟩ | ⟨e, r, hrun, hnot⟩ := (verifyEventIdsUnique_ends (w := w)).exec
  · rw [hrun]
    exact iff_of_true rfl hnodup
  · rw [hrun]
    exact iff_of_false nofun hnot

/-- The second half never fails, so the gate is exact if it lets the loaded server pass. -/
theorem gateExact_iff (loaded : World) :
    GateExact loaded ↔ ((storedEvents loaded.db).map eventId).Nodup := by
  constructor
  · intro h
    exact verify_ok_iff.mp ((h loaded).1 (List.Perm.refl _))
  · intro hnodup w
    constructor
    · intro hperm
      exact verify_ok_iff.mpr ((hperm.map eventId).nodup_iff.mpr hnodup)
    · rintro ⟨r, hcount⟩
      obtain ⟨_, _, -, hnot⟩ | ⟨e, _, hrun, -⟩ := (verifyEventIdsUnique_ends (w := w)).exec
      · have hle := List.nodup_iff_count_le_one.mp hnot.of_map r
        omega
      · exact ⟨e, by rw [hrun]⟩

/-! ## Histories of events -/

/-- The changes of `order_events`. -/
def SourceHistory.events (h : SourceHistory) : List (Nat × RowChange SourceRow) :=
  h.changesOf orderEvents

/-- Events are inserted and deleted, and the source writes `event_id bigint` as a number. -/
structure EventHistory (h : SourceHistory) : Prop where
  valid : h.Valid
  kinds : ∀ c ∈ h.events, c.2.InsertsOrDeletes
  ids : ∀ c ∈ h.events, ∀ key ∈ c.2.touched keyOf, ∀ id ∈ key, Columnar.Canonical .int64 id

/-- No event is deleted. -/
def KeepsEvents (h : SourceHistory) : Prop := ∀ c ∈ h.events, ∀ old, c.2 ≠ .delete old

section History

variable {h : SourceHistory} {rows : List (String × VersionRow)}

/-- A key is not null. -/
theorem EventHistory.key_isSome (hh : EventHistory h) {c : Nat × RowChange SourceRow}
    (hc : c ∈ h.events) {key : Option String} (hkey : key ∈ c.2.touched keyOf) :
    ∃ id, key = some id := by
  obtain ⟨e, he, rfl⟩ := List.mem_map.mp hc
  have hkeeps := hh.valid.keepsKey e (List.mem_filter.mp he).1
  refine Option.isSome_iff_exists.mp ?_
  cases hchange : e.source.change with
  | insert row =>
    rw [hchange] at hkeeps hkey
    exact List.mem_singleton.mp hkey ▸ hkeeps
  | update old new =>
    rw [hchange] at hkeeps hkey
    exact List.mem_singleton.mp hkey ▸ hkeeps.2 ▸ hkeeps.1
  | delete old =>
    rw [hchange] at hkeeps hkey
    exact List.mem_singleton.mp hkey ▸ hkeeps
  | truncate =>
    rw [hchange] at hkeeps
    exact hkeeps.elim

/-- The keys of the stored rows. -/
theorem map_key_rowsOf (hh : EventHistory h) (hrows : rows.map shown = h.entries.map Entry.shown) :
    ((rowsOf orderEvents.raw rows).map fun r => keyOf r.cells)
      = h.events.flatMap fun c => c.2.touched keyOf := by
  have hpick := pick_shown orderEvents.raw (fun _ => true) rows
  rw [hrows, pick_entries hh.valid.published (by decide)] at hpick
  rw [List.filter_eq_self.mpr fun _ _ => rfl, List.filter_eq_self.mpr fun _ _ => rfl] at hpick
  have htouched : ∀ e ∈ h.entries.filter fun e => e.source.table = orderEvents,
      e.source.change.touched keyOf = [e.write.key] := by
    intro e he
    have hkind := hh.kinds (e.lsn, e.source.change) (List.mem_map_of_mem he)
    unfold Entry.write
    cases hchange : e.source.change with
    | insert row => rfl
    | delete old => rfl
    | update old new =>
      rw [hchange] at hkind
      exact hkind.elim
    | truncate =>
      rw [hchange] at hkind
      exact hkind.elim
  calc ((rowsOf orderEvents.raw rows).map fun r => keyOf r.cells)
      = ((rowsOf orderEvents.raw rows).map VersionRow.write).map Write.key := by
        rw [List.map_map]
        rfl
    _ = (h.entries.filter fun e => e.source.table = orderEvents).map fun e => e.write.key := by
        rw [← hpick, List.map_map]
        rfl
    _ = (h.entries.filter fun e => e.source.table = orderEvents).flatMap
          fun e => e.source.change.touched keyOf := by
        rw [List.flatMap_congr htouched, List.map_eq_flatMap]
    _ = h.events.flatMap fun c => c.2.touched keyOf := by
        rw [SourceHistory.events, SourceHistory.changesOf, List.flatMap_map]

/-- The ids of the stored rows are all different if no event is deleted, and only then. -/
theorem nodup_eventId_iff (hh : EventHistory h)
    (hrows : rows.map shown = h.entries.map Entry.shown) :
    ((rowsOf orderEvents.raw rows).map eventId).Nodup ↔ KeepsEvents h := by
  have hids : (rowsOf orderEvents.raw rows).map eventId
      = (h.events.flatMap fun c => c.2.touched keyOf).map
          fun key => (key.bind Columnar.parseI64).getD 0 := by
    rw [← map_key_rowsOf hh hrows, List.map_map]
    rfl
  have hnumber : ∀ key ∈ h.events.flatMap fun c => c.2.touched keyOf,
      ∃ n : Int, key = some (toString n) ∧ (key.bind Columnar.parseI64).getD 0 = n := by
    intro key hkey
    obtain ⟨c, hc, hmem⟩ := List.mem_flatMap.mp hkey
    obtain ⟨id, rfl⟩ := hh.key_isSome hc hmem
    obtain ⟨n, hrange, rfl⟩ := hh.ids c hc _ hmem id rfl
    refine ⟨n, rfl, ?_⟩
    rw [Option.bind_some, Columnar.parseI64_toString hrange, Option.getD_some]
  have hvalid := (hh.valid.validFrom orderEvents (by decide)).nodup_touched_iff hh.kinds
    List.nodup_nil
  rw [List.map_nil, List.nil_append] at hvalid
  rw [hids]
  refine Iff.trans ?_ hvalid
  constructor
  · intro hnodup
    exact hnodup.of_map
  · intro hnodup
    refine hnodup.map_on fun key hkey key' hkey' heq => ?_
    obtain ⟨n, rfl, hn⟩ := hnumber key hkey
    obtain ⟨n', rfl, hn'⟩ := hnumber key' hkey'
    rw [hn, hn'] at heq
    rw [heq]

variable [SinkText]

/-- The gate is exact behind a load exactly when the history deletes no event. -/
theorem gate_exact_iff (hh : EventHistory h) {load : List TypedChange}
    {windows : List (List CdcCommit)}
    (hload : List.Forall₂ (Carries h.lsn0) load h.initialChanges)
    (hwindows : List.Forall₂ Delivers h.txns windows.flatten)
    (hne : ∀ window ∈ windows, window ≠ []) :
    ∃ w, (loadThenWindows h.lsn0 load windows).outcome { db := { deduplicates := false } }
        = some ((), w) ∧ (GateExact w ↔ KeepsEvents h) := by
  obtain ⟨⟨⟩, w, hrun, ⟨rows, markers, hstores, hshown⟩, -⟩ :=
    (loadThenWindows_returns hh.valid hload hwindows hne).exec
  have hrows : storedEvents w.db = rowsOf orderEvents.raw rows := by
    have hraw := hstores.raw orderEvents.raw (by decide)
    rwa [List.nil_append] at hraw
  refine ⟨w, hrun, ?_⟩
  rw [gateExact_iff, hrows]
  exact nodup_eventId_iff hh hshown

end History

/-! An event that is there from the snapshot on, and one change behind it. -/

@[reducible] def eventText : SinkText where
  rowJson _ r :=
    if r.deleted = 0 then
      "\x7b\"_change_ordinal\":1,\"_deleted\":0,\"_source_lsn\":20,\"_version\":\"85899345921\"," ++
        "\"event_at\":\"2024-01-01 00:00:00+00\",\"event_id\":\"2\",\"event_type\":\"created\"," ++
        "\"metadata\":\"[]\",\"order_id\":\"7\",\"tenant_id\":\"1\"\x7d"
    else
      "\x7b\"_change_ordinal\":1,\"_deleted\":1,\"_source_lsn\":20,\"_version\":\"85899345921\"," ++
        "\"event_at\":null,\"event_id\":\"1\",\"event_type\":null,\"metadata\":null," ++
        "\"order_id\":null,\"tenant_id\":null\x7d"
  windowSha256 bytes :=
    if bytes.length = 414 then "574ae02155d0a593c5d5806cc9dcd103c807c1f4e39476a32dd79be04adb552f"
    else if bytes.length = 391 then
      "ef228eecc2fd747e5f8490ba6ad97db2b03030b87d94576b6c1ce042ed56a47a"
    else "ccc2c33038941a45b590f02834517f01c4c7fdbcbae82952ef3297a344f70e39"

def eventRow (id : String) : SourceRow :=
  [some id, some "7", some "1", some "created", some "2024-01-01 00:00:00+00", some "[]"]

def eventImage (id : String) : Named :=
  [("event_id", .text id), ("order_id", .text "7"), ("tenant_id", .text "1"),
    ("event_type", .text "created"), ("event_at", .text "2024-01-01 00:00:00+00"),
    ("metadata", .text "[]")]

def eventKey (id : String) : Named :=
  [("event_id", .text id), ("order_id", .null), ("tenant_id", .null), ("event_type", .null),
    ("event_at", .null), ("metadata", .null)]

def eventHistory (change : RowChange SourceRow) : SourceHistory where
  lsn0 := 10
  initial := [(orderEvents, eventRow "1")]
  txns := [{ lsn := 20, changes := [{ table := orderEvents, change }] }]

def eventInsert (lsn : Nat) (id : String) : TypedChange where
  commitLsn := lsn
  xid := 7
  table := "r1.order_events"
  op := .insert
  new := some (eventImage id)
  old := none

def eventDelete (lsn : Nat) (id : String) : TypedChange where
  commitLsn := lsn
  xid := 7
  table := "r1.order_events"
  op := .delete
  new := none
  old := some (eventKey id)

def eventCommit (change : TypedChange) : CdcCommit where
  lsn := 20
  hash := "4f53cda18c2baa0c0354bb5f9a3ecbe5ed12ab4d8e11ba873c2f11161202b945"
  changes := [change]

private theorem carries_eventInsert (lsn : Nat) (id : String) : Carries lsn (eventInsert lsn id)
    { table := orderEvents, change := .insert (eventRow id) } := by
  have himage : Complete (eventImage id) := by simp [Complete, eventImage]
  exact ⟨rfl, .inr rfl, ⟨rfl, eventImage id, rfl,
    by simp [Describes, Shows, eventRow, eventImage, orderEvents]⟩, by simp [eventInsert, himage]⟩

theorem gate_exact_inserts :
    letI := eventText
    ∃ w, (loadThenWindows 10 [eventInsert 10 "1"] [[eventCommit (eventInsert 20 "2")]]).outcome
        { db := { deduplicates := false } } = some ((), w) ∧ GateExact w := by
  let _ := eventText
  have hvalid : (eventHistory (.insert (eventRow "2"))).Valid :=
    ⟨by decide, by decide, by decide, by decide, by decide⟩
  have hevents : EventHistory (eventHistory (.insert (eventRow "2"))) :=
    ⟨hvalid, by decide, by decide +kernel⟩
  have hwindows : List.Forall₂ Delivers (eventHistory (.insert (eventRow "2"))).txns
      [[eventCommit (eventInsert 20 "2")]].flatten :=
    .cons ⟨rfl, .cons (carries_eventInsert 20 "2") .nil⟩ .nil
  obtain ⟨w, hrun, hiff⟩ := gate_exact_iff hevents (.cons (carries_eventInsert 10 "1") .nil)
    hwindows (by decide)
  have hkeeps : KeepsEvents (eventHistory (.insert (eventRow "2"))) := by
    have hlist : (eventHistory (.insert (eventRow "2"))).events
        = [(10, .insert (eventRow "1")), (20, .insert (eventRow "2"))] := by decide
    unfold KeepsEvents
    rw [hlist]
    simp
  exact ⟨w, hrun, hiff.mpr hkeeps⟩

/-- The event is deleted, and its two rows have one id. -/
theorem gate_alarms_after_delete :
    letI := eventText
    let h := eventHistory (.delete (eventRow "1"))
    let windows := [[eventCommit (eventDelete 20 "1")]]
    let r := (loadThenWindows 10 [eventInsert 10 "1"] windows).exec { db := { deduplicates := false } }
    EventHistory h ∧ List.Forall₂ (Carries 10) [eventInsert 10 "1"] h.initialChanges ∧
      List.Forall₂ Delivers h.txns windows.flatten ∧ r.1 = .ok () ∧
      (verifyEventIdsUnique.exec r.2.state).1 = .error (.duplicateEvents 2 1) ∧
      ¬GateExact r.2.state := by
  let _ := eventText
  have hvalid : (eventHistory (.delete (eventRow "1"))).Valid :=
    ⟨by decide, by decide, by decide, by decide, by decide⟩
  have hkey : Complete (eventKey "1") := by simp [Complete, eventKey]
  have hdelete : Carries 20 (eventDelete 20 "1")
      { table := orderEvents, change := .delete (eventRow "1") } :=
    ⟨rfl, .inr rfl, by decide, by simp [eventDelete, hkey]⟩
  have halarm : (verifyEventIdsUnique.exec ((loadThenWindows 10 [eventInsert 10 "1"]
      [[eventCommit (eventDelete 20 "1")]]).exec { db := { deduplicates := false } }).2.state).1
      = .error (.duplicateEvents 2 1) := by
    decide +kernel
  refine ⟨⟨hvalid, by decide, by decide +kernel⟩, .cons (carries_eventInsert 10 "1") .nil,
    .cons ⟨rfl, .cons hdelete .nil⟩ .nil, by decide +kernel, halarm, fun hexact => ?_⟩
  have hok := (hexact _).1 (List.Perm.refl _)
  rw [halarm] at hok
  cases hok

end GrayDB.R1.ClickHouseSink
