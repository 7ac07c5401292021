import GrayDB.R1.WindowCalls

/-!
# What the markers are worth

The sink loads the snapshot and then applies windows.  Each time it inserts the rows before the
markers, so a reader who finds a marker can rely on the rows up to its LSN.

* `Over base db' db` puts what the windows insert behind a server that holds other rows, as it
  does after the load.  `Over.after` carries it along.
* `tokens_reproduce`: a load and the windows behind it, without a failure, on a server that
  looks at the tokens.
* `Led base windows db`: the markers are not ahead of the rows.  `Reached.led` says so of each
  moment of the calls.
* `markers_honest`: at each moment of a load and the windows behind it, whatever fails, the raw
  tables have at the LSN of each marker what the source had.
-/

namespace GrayDB.R1.ClickHouseSink

open Lib Lib.Crash Registry

/-! ## Behind a server that holds other rows -/

section Over

variable [SinkText] {base db' db : ClickHouse}

/-- No token of the server is that of a window. -/
structure Foreign (base : ClickHouse) : Prop where
  raw : ∀ raw table boundary body,
    windowDeduplicationToken table boundary body ∉ (base.raw raw).tokens
  applied : ∀ table boundary body, windowDeduplicationToken table boundary body ∉ base.applied.tokens

/-- The rows of `db'` are behind those of `base`. -/
structure Over (base db' db : ClickHouse) : Prop where
  looks : db.deduplicates = true
  looks' : db'.deduplicates = true
  raw : ∀ raw, (base.raw raw).Over (db'.raw raw) (db.raw raw)
  applied : base.applied.Over db'.applied db.applied

omit [SinkText] in
theorem Over.start (hlooks : base.deduplicates = true) : Over base {} base :=
  ⟨hlooks, rfl, fun _ => .refl _, .refl _⟩

/-- A request of a window. -/
def IsRequest (f : ClickHouse → ClickHouse) : Prop :=
  (∃ raw table boundary body rows,
    f = ClickHouse.insertRows raw (windowDeduplicationToken table boundary body) rows) ∨
  ∃ table boundary body markers,
    f = ClickHouse.insertMarkers (windowDeduplicationToken table boundary body) markers

theorem isRequest_of_mem {commits : List CdcCommit} {f : ClickHouse → ClickHouse}
    (h : f ∈ requests commits) : IsRequest f := by
  rcases List.mem_append.mp h with h | h
  · obtain ⟨raw, -, rfl⟩ := List.mem_map.mp h
    exact Or.inl ⟨_, _, _, _, _, rfl⟩
  · rw [List.mem_singleton.mp h]
    exact Or.inr ⟨_, _, _, _, rfl⟩

theorem Over.request (h : Over base db' db) (hbase : Foreign base) {f : ClickHouse → ClickHouse}
    (hf : IsRequest f) : Over base (f db') (f db) := by
  obtain ⟨hlooks, hlooks', hraw, happlied⟩ := h
  rcases hf with ⟨raw, table, boundary, body, rows, rfl⟩ | ⟨table, boundary, body, markers, rfl⟩
  · refine ⟨hlooks, hlooks', fun t => ?_, happlied⟩
    unfold ClickHouse.insertRows
    rw [hlooks, hlooks']
    by_cases heq : t = raw
    · simp only [if_pos heq]
      exact heq ▸ (hraw t).insert (hbase.raw t _ _ _) rows
    · simp only [if_neg heq]
      exact hraw t
  · refine ⟨hlooks, hlooks', hraw, ?_⟩
    unfold ClickHouse.insertMarkers
    rw [hlooks, hlooks']
    exact happlied.insert (hbase.applied _ _ _) markers

theorem Over.after (h : Over base db' db) (hbase : Foreign base)
    {fs : List (ClickHouse → ClickHouse)} (hfs : ∀ f ∈ fs, IsRequest f) :
    Over base (db'.after fs) (db.after fs) := by
  induction fs generalizing db' db with
  | nil => exact h
  | cons f fs ih =>
    exact ih (h.request hbase (hfs f List.mem_cons_self)) fun g hg =>
      hfs g (List.mem_cons_of_mem _ hg)

end Over

/-! ## The initial load -/

section Load

variable {db : ClickHouse} {w : World}

/-- The groups go to different tables. -/
theorem after_groups (token : String → List VersionRow → String) (rows : String → List VersionRow)
    (names : List String) (hnodup : names.Nodup) (db : ClickHouse) :
    let db' := db.after
      (groupRequests token ((names.map fun raw => (raw, rows raw)).filter fun g => g.2 ≠ []))
    db'.deduplicates = db.deduplicates ∧ db'.applied = db.applied ∧ ∀ raw, db'.raw raw =
      if raw ∈ names ∧ rows raw ≠ [] then
        (db.raw raw).insert db.deduplicates (token raw (rows raw)) (rows raw)
      else db.raw raw := by
  induction names generalizing db with
  | nil => exact ⟨rfl, rfl, fun raw => (if_neg fun h => absurd h.1 List.not_mem_nil).symm⟩
  | cons name names ih =>
    obtain ⟨hname, hnodup⟩ := List.nodup_cons.mp hnodup
    rw [List.map_cons, List.filter_cons]
    by_cases hnil : rows name = []
    · rw [if_neg (by simpa using hnil)]
      obtain ⟨hlooks, happlied, hraw⟩ := ih hnodup db
      refine ⟨hlooks, happlied, fun raw => (hraw raw).trans ?_⟩
      by_cases heq : raw = name
      · subst heq
        simp [hname, hnil]
      · simp [heq]
    · rw [if_pos (by simpa using hnil)]
      obtain ⟨hlooks, happlied, hraw⟩ :=
        ih hnodup (db.insertRows name (token name (rows name)) (rows name))
      refine ⟨hlooks, happlied, fun raw => (hraw raw).trans ?_⟩
      unfold ClickHouse.insertRows
      by_cases heq : raw = name
      · subst heq
        simp [hname, hnil]
      · simp [heq]

/-- The rows of the load, and its marker, under tokens of their own. -/
structure Holds (rows : List (String × VersionRow)) (lsn : Nat) (db : ClickHouse) : Prop where
  looks : db.deduplicates = true
  rows : ∀ raw ∈ rawNames, (db.raw raw).rows = rowsOf raw rows
  tokens : ∀ raw, ∀ t ∈ (db.raw raw).tokens, t.toList.head? = some 'i'
  markers : ∀ m ∈ db.applied.rows, m.sourceLsn = lsn
  appliedTokens : ∀ t ∈ db.applied.tokens, t.toList.head? = some 'i'

theorem head_initial (lsn : Nat) (rest : String) :
    ("initial-" ++ toString lsn ++ rest).toList.head? = some 'i' := by
  rw [String.append_assoc, String.toList_append, List.head?_append]
  have hi : "initial-".toList.head? = some 'i' := by decide +kernel
  rw [hi]
  rfl

theorem head_markerToken (lsn : Nat) :
    (markerToken ("initial-" ++ toString lsn)).toList.head? = some 'i' := by
  unfold markerToken Columnar.replaceChar
  rw [String.toList_append, String.toList_append, String.toList_ofList, String.toList_append,
    List.flatMap_append, List.append_assoc, List.append_assoc, List.head?_append]
  have hi : ("initial-".toList.flatMap fun x => if x = '\'' then "''".toList else [x]).head?
      = some 'i' := by decide +kernel
  rw [hi]
  rfl

/-- The server behind a load. -/
def loadedDb (lsn : Nat) (rows : List (String × VersionRow)) : ClickHouse :=
  ClickHouse.insertMarkers (markerToken ("initial-" ++ toString lsn))
    [{ operationSha256 := "initial-" ++ toString lsn, sourceLsn := lsn }]
    (ClickHouse.after {} (groupRequests (fun raw _ => rowToken ("initial-" ++ toString lsn) raw)
      (rowsByTable rows)))

theorem applied_loadedDb (lsn : Nat) (rows : List (String × VersionRow)) :
    (loadedDb lsn rows).applied = {
      rows := [{ operationSha256 := "initial-" ++ toString lsn, sourceLsn := lsn }]
      tokens := [markerToken ("initial-" ++ toString lsn)] } := by
  obtain ⟨hlooks, happlied, -⟩ := after_groups
    (fun raw _ => rowToken ("initial-" ++ toString lsn) raw) (fun raw => rowsOf raw rows)
    rawNames (by decide) {}
  show Tokened.insert _ _ _ _ = _
  rw [rowsByTable, happlied, hlooks]
  rfl

theorem holds_loadedDb (lsn : Nat) (rows : List (String × VersionRow)) :
    Holds rows lsn (loadedDb lsn rows) := by
  obtain ⟨hlooks, -, hraw⟩ := after_groups
    (fun raw _ => rowToken ("initial-" ++ toString lsn) raw) (fun raw => rowsOf raw rows)
    rawNames (by decide) {}
  have hraw : ∀ raw, (loadedDb lsn rows).raw raw =
      if raw ∈ rawNames ∧ rowsOf raw rows ≠ [] then
        { rows := rowsOf raw rows, tokens := [rowToken ("initial-" ++ toString lsn) raw] }
      else {} := hraw
  refine ⟨hlooks, fun raw hmem => ?_, fun raw t ht => ?_, fun m hm => ?_, fun t ht => ?_⟩
  · rw [hraw]
    split
    · rfl
    · rename_i hnot
      exact (not_not.mp fun hrows => hnot ⟨hmem, hrows⟩).symm
  · rw [hraw] at ht
    split at ht
    · rw [List.mem_singleton.mp ht]
      unfold rowToken
      rw [String.append_assoc]
      exact head_initial lsn _
    · exact absurd ht List.not_mem_nil
  · rw [applied_loadedDb] at hm
    rw [List.mem_singleton.mp hm]
  · rw [applied_loadedDb] at ht
    rw [List.mem_singleton.mp ht]
    exact head_markerToken lsn

/-- The load of an empty server. -/
theorem applyInitialLoad_loads {lsn : Nat} {changes : List TypedChange}
    {rows : List (String × VersionRow)} (hne : changes ≠ [])
    (hrows : versionRows .transactionLsn lsn true changes = .ok rows) :
    Returns (applyInitialLoad lsn changes) {} fun _ w' => w'.db = loadedDb lsn rows := by
  apply Spec.bind (transactionIsApplied_none _ rfl)
  rintro b w₀ ⟨hb, hw₀⟩
  subst hb hw₀
  unfold insertVersionRows
  rw [if_neg hne]
  apply Spec.bind (Q := fun _ w' => w'.db = ClickHouse.after {}
    (groupRequests (fun raw _ => rowToken ("initial-" ++ toString lsn) raw) (rowsByTable rows)))
  · apply Spec.bind (liftExcept_returns hrows)
    rintro rows' w₁ ⟨hrows', hw₁⟩
    subst hrows' hw₁
    exact insertGroups_after _ _
  rintro _ w₂ hw₂
  apply Spec.bind (postInsert_returns _)
  intro _ w₃ hw₃
  rw [hw₂] at hw₃
  have hone : w₃.db.hashesAt lsn = ["initial-" ++ toString lsn] := by
    have hdb : w₃.db = loadedDb lsn rows := hw₃
    rw [ClickHouse.hashesAt, hdb, applied_loadedDb]
    simp
  apply Spec.bind (transactionIsApplied_one (legible_initial lsn) hone)
  rintro b w₄ ⟨hb, hw₄⟩
  subst hb hw₄
  exact Spec.pure hw₃

/-- A request that reads leaves the server as it is. -/
theorem postSelect_fallible {α : Type} (f : ClickHouse → α) (w : World) (plan : List Outcome) :
    Fallible (postSelect f) w plan (fun t => t = w) (fun a t _ => a = f w.db ∧ t = w)
      fun t => t = w := by
  refine Fallible.bind (Q := fun _ t _ => t = w)
    (Fallible.call (fun _ => ⟨rfl, rfl⟩) fun _ _ => ⟨rfl, rfl⟩) ?_
  rintro _ _ plan₁ rfl
  exact Fallible.bind_get (Fallible.pure ⟨rfl, rfl⟩)

theorem transactionIsApplied_fallible (lsn : Nat) (hash : String) (w : World)
    (plan : List Outcome) :
    Fallible (transactionIsApplied lsn hash) w plan (fun t => t = w)
      (fun b t _ => t = w ∧ (b = true → w.db.applied.rows ≠ [])) fun t => t = w := by
  refine Fallible.bind (postSelect_fallible _ w plan) ?_
  rintro lines _ plan₁ ⟨hlines, rfl⟩
  split
  · exact Fallible.pure ⟨rfl, fun h => absurd h Bool.false_ne_true⟩
  · rename_i recorded hone
    split
    · refine Fallible.pure ⟨rfl, fun _ hnil => ?_⟩
      rw [hlines, hnil] at hone
      exact absurd hone (by simp)
    · exact Fallible.throw rfl
  · exact Fallible.throw rfl

/-- The server during a load: the marker comes last. -/
def Loading (lsn : Nat) (rows : List (String × VersionRow)) (w : World) : Prop :=
  w.db.applied.rows = [] ∨ w.db = loadedDb lsn rows

theorem applied_groupRequests (token : String → List VersionRow → String)
    (groups : List (String × List VersionRow)) (db : ClickHouse) :
    (db.after (groupRequests token groups)).applied = db.applied := by
  induction groups generalizing db with
  | nil => rfl
  | cons g groups ih => exact ih _

/-- At each moment of a load, whatever fails. -/
theorem applyInitialLoad_fallible {lsn : Nat} {changes : List TypedChange}
    {rows : List (String × VersionRow)} (hne : changes ≠ [])
    (hrows : versionRows .transactionLsn lsn true changes = .ok rows) (plan : List Outcome) :
    Fallible (applyInitialLoad lsn changes) {} plan (Loading lsn rows)
      (fun _ w' _ => w'.db = loadedDb lsn rows) (Loading lsn rows) := by
  have hempty : ∀ w : World, w = {} → Loading lsn rows w := fun _ h => Or.inl (h ▸ rfl)
  refine Fallible.bind ((transactionIsApplied_fallible lsn _ {} plan).imp hempty
    (fun _ _ _ h => h) hempty) ?_
  rintro b _ plan₁ ⟨rfl, hmarked⟩
  cases b with
  | true => exact absurd rfl (hmarked rfl)
  | false =>
  let token := fun raw (_ : List VersionRow) => rowToken ("initial-" ++ toString lsn) raw
  have hgroups : ∀ w' : World,
      Began {} ([] ++ (groupRequests token (rowsByTable rows) ++ [])) w' → Loading lsn rows w' := by
    rintro w' ⟨n, hn⟩
    rw [List.nil_append, List.append_nil, groupRequests, ← List.map_take] at hn
    have happlied := applied_groupRequests token ((rowsByTable rows).take n) {}
    exact Or.inl (by rw [hn]; exact congrArg Tokened.rows happlied)
  refine Fallible.bind (Q := fun _ w' _ =>
    w'.db = ClickHouse.after {} (groupRequests token (rowsByTable rows))) ?_ ?_
  · unfold insertVersionRows
    rw [if_neg hne, hrows]
    refine Fallible.bind (Q := fun rows' w' _ => rows' = rows ∧ w' = {})
      (Fallible.pure ⟨rfl, rfl⟩) ?_
    rintro _ _ plan₂ ⟨rfl, rfl⟩
    exact (insertGroups_fallible token _ [] [] plan₂ rfl).imp hgroups (fun _ _ _ h => h) hgroups
  rintro _ w₂ plan₂ hw₂
  have hbefore : Loading lsn rows w₂ := by
    have happlied := applied_groupRequests token (rowsByTable rows) {}
    exact Or.inl (by rw [hw₂]; exact congrArg Tokened.rows happlied)
  have hdone : ClickHouse.insertMarkers (markerToken ("initial-" ++ toString lsn))
      [{ operationSha256 := "initial-" ++ toString lsn, sourceLsn := lsn }] w₂.db
        = loadedDb lsn rows := by
    rw [hw₂]
    rfl
  refine Fallible.bind (Q := fun _ w' _ => w'.db = loadedDb lsn rows) ?_ ?_
  · unfold recordMarker postInsert
    refine Fallible.call (fun _ => ⟨Or.inr hdone, hdone⟩) fun k _ => ?_
    split
    · exact ⟨hbefore, hbefore⟩
    · exact ⟨Or.inr hdone, Or.inr hdone⟩
  rintro _ w₃ plan₃ hw₃
  have hsame : ∀ w' : World, w' = w₃ → Loading lsn rows w' := fun _ h => Or.inr (h ▸ hw₃)
  refine Fallible.bind ((transactionIsApplied_fallible lsn _ w₃ plan₃).imp hsame
    (fun _ _ _ h => h) hsame) ?_
  rintro b _ plan₄ ⟨rfl, -⟩
  cases b with
  | true => exact Fallible.pure hw₃
  | false => exact Fallible.throw (Or.inr hw₃)

variable [SinkText]

theorem windowToken_ne {token : String} (h : token.toList.head? = some 'i')
    (table boundary body : String) : windowDeduplicationToken table boundary body ≠ token := by
  rintro rfl
  unfold windowDeduplicationToken at h
  rw [String.toList_append, List.head?_append] at h
  have hg : "graydb-r1-window-v2-".toList.head? = some 'g' := by decide +kernel
  rw [hg] at h
  have hsame : 'g' = 'i' := Option.some.inj h
  exact absurd hsame (by decide)

theorem Holds.foreign {rows : List (String × VersionRow)} {lsn : Nat} (h : Holds rows lsn db) :
    Foreign db :=
  ⟨fun raw _ _ _ hmem => windowToken_ne (h.tokens raw _ hmem) _ _ _ rfl,
    fun _ _ _ hmem => windowToken_ne (h.appliedTokens _ hmem) _ _ _ rfl⟩

end Load

/-! ## Windows behind the load -/

section Windows

variable [SinkText] {base db' db : ClickHouse} {w : World} {windows : List (List CdcCommit)}
  {v : List CdcCommit}

theorem Over.window (h : Over base db' db) (hbase : Foreign base) (v : List CdcCommit) :
    Over base (db'.after (requests v)) (db.after (requests v)) :=
  h.after hbase fun _ => isRequest_of_mem

theorem Over.afterAll (h : Over base db' db) (hbase : Foreign base)
    (windows : List (List CdcCommit)) : Over base (db'.afterAll windows) (db.afterAll windows) := by
  induction windows generalizing db' db with
  | nil => exact h
  | cons v windows ih => exact ih (h.window hbase v)

omit [SinkText] in
/-- Markers below the window are not counted. -/
theorem Over.counted (h : Over base db' db)
    (hlow : ∀ m ∈ base.applied.rows, m.sourceLsn < firstLsn v) (hcounted : Counted v db') :
    Counted v db := by
  have hnone : base.applied.rows.filter (fun m =>
      firstLsn v ≤ m.sourceLsn ∧ m.sourceLsn ≤ lastLsn v) = [] := by
    refine List.filter_eq_nil_iff.mpr fun m hm => ?_
    have hlt := hlow m hm
    rw [decide_eq_true_eq]
    omega
  unfold Counted at hcounted ⊢
  rw [h.applied.rows, List.filter_append, hnone, List.nil_append]
  exact hcounted

theorem Over.accepted (h : Over base db' db) (hbase : Foreign base)
    (hlow : ∀ v ∈ windows, ∀ m ∈ base.applied.rows, m.sourceLsn < firstLsn v)
    (haccepted : Accepted windows db') : Accepted windows db := by
  induction windows generalizing db' db with
  | nil => trivial
  | cons v windows ih =>
    obtain ⟨⟨hrenders, hcounted⟩, hrest⟩ := haccepted
    have hwindow := h.window hbase v
    refine ⟨⟨hrenders, hwindow.counted (hlow v List.mem_cons_self) hcounted⟩, ?_⟩
    exact ih hwindow (fun v' hv' => hlow v' (List.mem_cons_of_mem _ hv')) hrest

theorem behind_empty : Behind [] {} := ⟨rfl, fun _ _ => rfl, rfl⟩

/-- An empty server accepts the windows. -/
theorem accepted_empty (hascend : Ascending windows) (hbound : ∀ v ∈ windows, lastLsn v < 2 ^ 64)
    (hsha : NoCollisions windows) (hrenders : ∀ c ∈ windows.flatten, c.Renders) :
    Accepted windows {} := by
  have hfirst : ∀ v ∈ windows.head?, Tokened.received (([] ++ [whole v]).flatMap markersTaken)
      = Tokened.received (([] ++ [v]).flatMap markerInserts) := by
    intro v _
    rw [List.nil_append, List.nil_append, List.flatMap_singleton, List.flatMap_singleton,
      markersTaken_whole]
  exact behind_empty.accepted hfirst (tells_markers hsha hascend.nonempty hbound) hascend hrenders

/-- The inserts of calls of which all requests are taken. -/
theorem flatMap_rowsTaken {raw : String} (hraw : raw ∈ rawNames) (windows : List (List CdcCommit)) :
    (windows.map whole).flatMap (rowsTaken raw)
      = windows.flatMap (insertsOf (rowsToken raw) (rowsIn raw)) := by
  rw [List.flatMap_map]
  exact List.flatMap_congr fun v _ => rowsTaken_whole hraw

/-- Without collisions the server drops no rows of the windows. -/
theorem rows_afterAll (hascend : Ascending windows) (hbound : ∀ v ∈ windows, lastLsn v < 2 ^ 64)
    (hsha : NoCollisions windows) {raw : String} (hraw : raw ∈ rawNames) :
    ((ClickHouse.afterAll {} windows).raw raw).rows = rowsIn raw windows.flatten := by
  have hbehind := behind_empty.afterAll windows hascend.nonempty
  rw [hbehind.raw raw hraw, List.nil_append, flatMap_rowsTaken hraw,
    rows_received_windows (tells_rows hsha hbound hraw) hascend, rowsIn_flatten]

/-- The windows behind a load: each call returns, and their rows are behind those of the load. -/
theorem Holds.apply {rows : List (String × VersionRow)} {lsn : Nat} (h : Holds rows lsn w.db)
    (hascend : Ascending windows) (hbound : ∀ v ∈ windows, lastLsn v < 2 ^ 64)
    (hsha : NoCollisions windows) (hrenders : ∀ c ∈ windows.flatten, c.Renders)
    (hlow : ∀ c ∈ windows.flatten, lsn < c.lsn) :
    Ends (applyWindows windows) w (fun _ w' => ∀ raw ∈ rawNames,
      (w'.db.raw raw).rows = rowsOf raw (rows ++ windows.flatten.flatMap CdcCommit.windowRows))
      (fun _ _ => False) := by
  have hstart : Over w.db {} w.db := Over.start h.looks
  have haccepted : Accepted windows w.db := by
    refine hstart.accepted h.foreign (fun v hv m hm => ?_)
      (accepted_empty hascend hbound hsha hrenders)
    obtain ⟨first, last, hfirst, -, hfirstLsn, -⟩ := head?_getLast? (hascend.nonempty v hv)
    rw [h.markers m hm, hfirstLsn]
    exact hlow first (List.mem_flatten_of_mem hv (List.mem_of_mem_head? hfirst))
  refine (applyWindows_ends hascend.nonempty).weaken (fun _ w' hw' raw hraw => ?_)
    fun _ _ hnot => hnot haccepted
  have hover := (hstart.afterAll h.foreign windows).raw raw
  rw [hw'.2, hover.rows, h.rows raw hraw, rows_afterAll hascend hbound hsha hraw, rowsOf_append]
  rfl

/-! ## Calls that fail -/

/-- The server behind the first windows and some requests for the next one. -/
def Reached (db : ClickHouse) (windows : List (List CdcCommit)) (w : World) : Prop :=
  ∃ done v rest n, windows = done ++ v :: rest ∧
    w.db = (db.afterAll done).after ((requests v).take n)

/-- At each moment of the calls, whatever fails. -/
theorem applyWindows_fallible (windows : List (List CdcCommit)) (w : World) (plan : List Outcome) :
    Fallible (applyWindows windows) w plan (Reached w.db windows)
      (fun _ w' _ => w'.db = w.db.afterAll windows) (Reached w.db windows) := by
  induction windows generalizing w plan with
  | nil => exact Fallible.pure rfl
  | cons v windows ih =>
    have hfirst : ∀ w', Began w.db (requests v) w' → Reached w.db (v :: windows) w' :=
      fun _ ⟨n, hn⟩ => ⟨[], v, windows, n, rfl, hn⟩
    refine Fallible.bind ((applyWindow_fallible v w plan).imp hfirst (fun _ _ _ h => h) hfirst) ?_
    rintro _ w₁ plan₁ ⟨-, -, -, hw₁⟩
    have hrest : ∀ w', Reached w₁.db windows w' → Reached w.db (v :: windows) w' := by
      rintro w' ⟨done, v', rest, n, rfl, hn⟩
      refine ⟨v :: done, v', rest, n, rfl, ?_⟩
      rw [hn, hw₁]
      rfl
    refine (ih w₁ plan₁).imp hrest (fun _ w' _ hw' => ?_) hrest
    rw [hw', hw₁]
    rfl

theorem Reached.of_afterAll (hne : windows ≠ []) (h : w.db = db.afterAll windows) :
    Reached db windows w := by
  obtain ⟨done, v, rfl⟩ := (List.eq_nil_or_concat windows).resolve_left hne
  rw [List.concat_eq_append] at h ⊢
  refine ⟨done, v, [], (requests v).length, rfl, ?_⟩
  rw [List.take_length, h, ClickHouse.afterAll, List.foldl_append]
  rfl

/-- The markers are not ahead of the rows. -/
def Led (base : ClickHouse) (windows : List (List CdcCommit)) (db : ClickHouse) : Prop :=
  ∃ j, db.applied.rows = base.applied.rows ++ (windows.take j).flatten.map CdcCommit.marker ∧
    ∀ raw ∈ rawNames, ∃ k, j ≤ k ∧
      (db.raw raw).rows = (base.raw raw).rows ++ rowsIn raw (windows.take k).flatten

omit [SinkText] in
theorem Led.refl (base : ClickHouse) (windows : List (List CdcCommit)) : Led base windows base :=
  ⟨0, (List.append_nil _).symm, fun _ _ => ⟨0, Nat.le_refl 0, (List.append_nil _).symm⟩⟩

section Partial

variable {done : List (List CdcCommit)} {n : Nat}

/-- The rows that the first requests leave in a table. -/
theorem rows_partial (hascend : Ascending (done ++ [v]))
    (hbound : ∀ u ∈ done ++ [v], lastLsn u < 2 ^ 64) (hsha : NoCollisions (done ++ [v]))
    {raw : String} (hraw : raw ∈ rawNames) :
    (Tokened.received ((done.map whole ++ [(v, n)]).flatMap (rowsTaken raw))).rows
      = rowsIn raw (if raw ∈ (tablesIn v).take n then done ++ [v] else done).flatten := by
  have htells := tells_rows hsha hbound hraw
  rw [List.flatMap_append, List.flatMap_singleton, flatMap_rowsTaken hraw, rowsTaken,
    rowsIn_flatten]
  split
  · have hall := rows_received_windows htells hascend
    rw [List.flatMap_append, List.flatMap_singleton] at hall
    exact hall
  · rw [List.append_nil]
    exact rows_received_windows (htells.mono (List.subset_append_left _ _))
      (ascending_append.mp hascend).1

/-- The markers behind the first requests. -/
theorem markers_partial (hascend : Ascending (done ++ [v]))
    (hbound : ∀ u ∈ done ++ [v], lastLsn u < 2 ^ 64) (hsha : NoCollisions (done ++ [v])) :
    (Tokened.received ((done.map whole ++ [(v, n)]).flatMap markersTaken)).rows
      = (if (tablesIn v).length < n then done ++ [v] else done).flatten.map CdcCommit.marker := by
  have htells := tells_markers hsha hascend.nonempty hbound
  have hdone : (done.map whole).flatMap markersTaken = done.flatMap markerInserts := by
    rw [List.flatMap_map]
    exact List.flatMap_congr fun u _ => markersTaken_whole u
  rw [List.flatMap_append, List.flatMap_singleton, hdone, markersTaken, markers_flatten]
  split
  · have hall := rows_received_windows htells hascend
    rw [List.flatMap_append, List.flatMap_singleton] at hall
    exact hall
  · rw [List.append_nil]
    exact rows_received_windows (htells.mono (List.subset_append_left _ _))
      (ascending_append.mp hascend).1

end Partial

/-- The markers of a window are inserted behind its rows. -/
theorem Reached.led (h : Reached base windows w) (hlooks : base.deduplicates = true)
    (hbase : Foreign base) (hascend : Ascending windows)
    (hbound : ∀ v ∈ windows, lastLsn v < 2 ^ 64) (hsha : NoCollisions windows) :
    Led base windows w.db := by
  obtain ⟨done, v, rest, n, rfl, hdb⟩ := h
  have hsub : done ++ [v] ⊆ done ++ v :: rest := by
    rw [List.append_cons done v rest]
    exact List.subset_append_left _ _
  rw [List.append_cons] at hascend
  have hfront := (ascending_append.mp hascend).1
  have hbound := fun u hu => hbound u (hsub hu)
  have hsha := hsha.mono hsub
  have hwithout : (done ++ v :: rest).take done.length = done := List.take_left
  have hwith : (done ++ v :: rest).take (done.length + 1) = done ++ [v] := by
    rw [List.take_length_add_append]
    rfl
  have hbehind := (behind_empty.afterAll done fun u hu =>
    hfront.nonempty u (List.mem_append_left _ hu)).call (hfront.nonempty v (by simp)) n
  have hover := ((Over.start hlooks).afterAll hbase done).after hbase
    fun f hf => isRequest_of_mem (List.mem_of_mem_take (i := n) (l := requests v) hf)
  rw [← hdb] at hover
  have hmarkers := hover.applied.rows
  rw [hbehind.applied, List.nil_append, markers_partial hfront hbound hsha] at hmarkers
  have hrows : ∀ raw ∈ rawNames, (w.db.raw raw).rows = (base.raw raw).rows
      ++ rowsIn raw (if raw ∈ (tablesIn v).take n then done ++ [v] else done).flatten := by
    intro raw hraw
    rw [(hover.raw raw).rows, hbehind.raw raw hraw, List.nil_append,
      rows_partial hfront hbound hsha hraw]
  by_cases hlast : (tablesIn v).length < n
  · rw [if_pos hlast] at hmarkers
    refine ⟨done.length + 1, hwith.symm ▸ hmarkers, fun raw hraw => ⟨_, Nat.le_refl _, ?_⟩⟩
    rw [hrows raw hraw, hwith, List.take_of_length_le (Nat.le_of_lt hlast)]
    split
    · rfl
    · rename_i hnot
      have hnone : rowsIn raw v = [] := by
        by_contra hne
        exact hnot (mem_tablesIn.mpr ⟨hraw, hne⟩)
      rw [List.flatten_append, List.flatten_singleton, rowsIn_append, hnone, List.append_nil]
  · rw [if_neg hlast] at hmarkers
    refine ⟨done.length, hwithout.symm ▸ hmarkers, fun raw hraw => ?_⟩
    have hraw := hrows raw hraw
    split at hraw
    · exact ⟨done.length + 1, Nat.le_succ _, hwith.symm ▸ hraw⟩
    · exact ⟨done.length, Nat.le_refl _, hwithout.symm ▸ hraw⟩

/-! ## The rows of a commit -/

omit [SinkText] in
/-- The rows of a commit have its LSN. -/
theorem sourceLsn_windowRows {xs : List SourceTxn} {commits : List CdcCommit}
    (h : List.Forall₂ Delivers xs commits) (hxs : Storable xs) :
    ∀ c ∈ commits, ∀ r ∈ c.windowRows, r.2.sourceLsn = c.lsn := by
  induction h with
  | nil => exact fun c hc => absurd hc List.not_mem_nil
  | @cons x c xs commits hx _ ih =>
    have hcons : Storable ([x] ++ xs) := hxs
    obtain ⟨hfirst, hrest⟩ := hcons.of_append
    intro c' hc'
    rcases List.mem_cons.mp hc' with rfl | hc'
    · obtain ⟨rows, hrows, hshown⟩ := windowRows_spec (.cons hx .nil) hfirst
      rw [mapM_windowRows_of_renders (renders_of_mapM hrows)] at hrows
      obtain rfl := Except.ok.inj hrows
      rw [List.map_singleton, List.flatten_singleton, List.flatMap_singleton] at hshown
      intro r hr
      have hmem := List.mem_map_of_mem (f := shown) hr
      rw [hshown] at hmem
      obtain ⟨e, he, heq⟩ := List.mem_map.mp hmem
      obtain ⟨s, -, rfl⟩ := List.mem_map.mp he
      have hlsn : x.lsn = r.2.sourceLsn := congrArg (fun p => p.2.1) heq
      rw [← hlsn, hx.lsn]
    · exact ih hrest c' hc'

omit [SinkText] in
theorem exists_of_mem_rowsIn {raw : String} {commits : List CdcCommit} {r : VersionRow}
    (h : r ∈ rowsIn raw commits) : ∃ c ∈ commits, (raw, r) ∈ c.windowRows := by
  obtain ⟨⟨name, r'⟩, hmem, hpick⟩ := List.mem_filterMap.mp h
  obtain ⟨rfl, hrow⟩ := Option.ite_none_right_eq_some.mp hpick
  obtain rfl := Option.some.inj hrow
  exact List.mem_flatMap.mp hmem

end Windows

/-! ## A history, loaded and applied -/

section Histories

variable [SinkText] {h : SourceHistory} {windows : List (List CdcCommit)} {load : List TypedChange}
  {base db : ClickHouse}

omit [SinkText] in
theorem SourceHistory.Valid.storable (hv : h.Valid) : Storable h.txns :=
  ⟨fun e he => hv.published e (List.mem_append_right _ he),
    fun e he => hv.keepsKey e (List.mem_append_right _ he), hv.bounded⟩

omit [SinkText] in
theorem SourceHistory.Valid.ascending (hv : h.Valid)
    (hwindows : List.Forall₂ Delivers h.txns windows.flatten) (hne : ∀ v ∈ windows, v ≠ []) :
    Ascending windows ∧ ∀ c ∈ windows.flatten, h.lsn0 < c.lsn := by
  obtain ⟨hbefore, hincreasing⟩ := List.pairwise_cons.mp hv.ascend
  rw [← Delivers.map_lsn hwindows] at hbefore hincreasing
  exact ⟨⟨hne, List.pairwise_map.mp hincreasing⟩, fun c hc => hbefore _ (List.mem_map_of_mem hc)⟩

omit [SinkText] in
theorem SourceHistory.lastLsn_lt (hwindows : List.Forall₂ Delivers h.txns windows.flatten)
    (hne : ∀ v ∈ windows, v ≠ []) (hbound : ∀ x ∈ h.txns, x.lsn < 2 ^ 64) :
    ∀ v ∈ windows, lastLsn v < 2 ^ 64 := by
  intro v hv
  obtain ⟨c, hc, hlsn⟩ := exists_lastLsn (hne v hv)
  have hmem := List.mem_map_of_mem (f := CdcCommit.lsn) (List.mem_flatten_of_mem hv hc)
  rw [Delivers.map_lsn hwindows] at hmem
  obtain ⟨x, hx, hxlsn⟩ := List.mem_map.mp hmem
  rw [← hlsn, ← hxlsn]
  exact hbound x hx

omit [SinkText] in
/-- The rows of the windows are those of the transactions. -/
theorem SourceHistory.Valid.windowRows (hv : h.Valid)
    (hwindows : List.Forall₂ Delivers h.txns windows.flatten) :
    (∀ c ∈ windows.flatten, c.Renders) ∧
      (windows.flatten.flatMap CdcCommit.windowRows).map shown
        = (h.txns.flatMap SourceTxn.entries).map Entry.shown := by
  obtain ⟨behind, hrows, hshown⟩ := windowRows_spec hwindows hv.storable
  have hrenders := renders_of_mapM hrows
  rw [mapM_windowRows_of_renders hrenders] at hrows
  obtain rfl := Except.ok.inj hrows
  rw [← List.flatMap_def] at hshown
  exact ⟨hrenders, hshown⟩

/-- The rows of the snapshot. -/
def Snapshot (h : SourceHistory) (rows : List (String × VersionRow)) : Prop :=
  rows.map shown = h.initialChanges.map
    fun s => Entry.shown { lsn := h.lsn0, ordinal := 0, source := s }

omit [SinkText] in
theorem Snapshot.append {rows : List (String × VersionRow)} (hrows : Snapshot h rows) (hv : h.Valid)
    (hwindows : List.Forall₂ Delivers h.txns windows.flatten) :
    (rows ++ windows.flatten.flatMap CdcCommit.windowRows).map shown
      = h.entries.map Entry.shown := by
  rw [List.map_append, hrows, (hv.windowRows hwindows).2]
  unfold SourceHistory.entries
  rw [List.map_append, List.map_map]
  rfl

omit [SinkText] in
/-- The sink can write the snapshot. -/
theorem SourceHistory.Valid.snapshot (hv : h.Valid)
    (hload : List.Forall₂ (Carries h.lsn0) load h.initialChanges) :
    ∃ rows, versionRows .transactionLsn h.lsn0 true load = .ok rows ∧ Snapshot h rows := by
  have hinitial : ∀ s ∈ h.initialChanges,
      ({ lsn := h.lsn0, ordinal := 0, source := s } : Entry) ∈ h.entries := fun s hs =>
    List.mem_append_left _ (List.mem_map_of_mem hs)
  obtain ⟨rows, hrows, hshown⟩ := versionRows_spec .transactionLsn true hload
    (fun s hs => hv.published _ (hinitial s hs)) (fun s hs => hv.keepsKey _ (hinitial s hs))
    (fun h => absurd h.symm Bool.false_ne_true)
  refine ⟨rows, hrows, ?_⟩
  calc rows.map shown = (h.initialChanges.zipIdx.map Prod.fst).map
        (fun s => Entry.shown { lsn := h.lsn0, ordinal := 0, source := s }) := by
        rw [hshown, List.map_map]
        rfl
    _ = _ := by rw [List.zipIdx_map_fst]

/-- The server behind the snapshot. -/
def Loaded (h : SourceHistory) (db : ClickHouse) : Prop :=
  ∃ rows, Holds rows h.lsn0 db ∧ Snapshot h rows

omit [SinkText] in
/-- A snapshot without rows is not loaded. -/
theorem loaded_empty (hnil : h.initialChanges = []) : Loaded h {} := by
  refine ⟨[], ⟨rfl, fun _ _ => rfl, ?_, ?_, ?_⟩, ?_⟩
  · exact fun _ t ht => absurd ht List.not_mem_nil
  · exact fun m hm => absurd hm List.not_mem_nil
  · exact fun t ht => absurd ht List.not_mem_nil
  · rw [Snapshot, hnil]
    rfl

omit [SinkText] in
theorem loadSnapshot_loads (hv : h.Valid)
    (hload : List.Forall₂ (Carries h.lsn0) load h.initialChanges) :
    Returns (loadSnapshot h.lsn0 load) {} fun _ w' => Loaded h w'.db := by
  unfold loadSnapshot
  split
  · rename_i hnil
    rw [hnil] at hload
    exact Spec.pure (loaded_empty (List.forall₂_nil_left_iff.mp hload))
  · rename_i hne
    obtain ⟨rows, hrows, hsnapshot⟩ := hv.snapshot hload
    refine (applyInitialLoad_loads hne hrows).weaken fun _ w' hw' => ?_
    exact ⟨rows, hw'.symm ▸ holds_loadedDb _ _, hsnapshot⟩

omit [SinkText] in
/-- At each moment of the load there is no marker, or the load is complete. -/
theorem loadSnapshot_fallible (hv : h.Valid)
    (hload : List.Forall₂ (Carries h.lsn0) load h.initialChanges) (plan : List Outcome) :
    Fallible (loadSnapshot h.lsn0 load) {} plan
      (fun w' => w'.db.applied.rows = [] ∨ Loaded h w'.db) (fun _ w' _ => Loaded h w'.db)
      (fun w' => w'.db.applied.rows = [] ∨ Loaded h w'.db) := by
  unfold loadSnapshot
  split
  · rename_i hnil
    rw [hnil] at hload
    exact Fallible.pure (loaded_empty (List.forall₂_nil_left_iff.mp hload))
  · rename_i hne
    obtain ⟨rows, hrows, hsnapshot⟩ := hv.snapshot hload
    have hloaded : ∀ w' : World, w'.db = loadedDb h.lsn0 rows → Loaded h w'.db :=
      fun w' hw' => ⟨rows, hw'.symm ▸ holds_loadedDb _ _, hsnapshot⟩
    exact (applyInitialLoad_fallible hne hrows plan).imp (fun w' hw' => hw'.imp_right (hloaded w'))
      (fun _ w' _ hw' => hloaded w' hw') fun w' hw' => hw'.imp_right (hloaded w')

/-- On a server that looks at the tokens, the raw tables give the source tables at any LSN from
the snapshot on, if SHA-256 has no collision on what is hashed for the tokens. -/
theorem tokens_reproduce (hv : h.Valid)
    (hload : List.Forall₂ (Carries h.lsn0) load h.initialChanges)
    (hwindows : List.Forall₂ Delivers h.txns windows.flatten) (hne : ∀ v ∈ windows, v ≠ [])
    (hbound : ∀ x ∈ h.txns, x.lsn < 2 ^ 64) (hsha : NoCollisions windows) :
    ∃ w, (loadThenWindows h.lsn0 load windows).outcome {} = some ((), w) ∧
      ∀ t ∈ rawTables,
        (∀ L, h.lsn0 ≤ L → (reduceAt L (w.db.raw t.raw).rows).Perm (h.tableAt t L)) ∧
        (w.db.raw t.raw).rows.Pairwise fun r r' =>
          keyOf r.cells = keyOf r'.cells → r.version ≠ r'.version := by
  obtain ⟨hascend, hlow⟩ := hv.ascending hwindows hne
  have hrun : Ends (loadThenWindows h.lsn0 load windows) {} (fun _ w' => ∃ rows,
      (∀ raw ∈ rawNames, (w'.db.raw raw).rows = rowsOf raw rows) ∧
        rows.map shown = h.entries.map Entry.shown) (fun _ _ => False) := by
    refine Ends.bind (Ends.of_spec (loadSnapshot_loads hv hload)) ?_
    rintro _ w ⟨rows, hholds, hsnapshot⟩
    refine (hholds.apply hascend (SourceHistory.lastLsn_lt hwindows hne hbound) hsha
      (hv.windowRows hwindows).1 hlow).weaken (fun _ w' hw' => ?_) fun _ _ hfalse => hfalse
    exact ⟨_, hw', hsnapshot.append hv hwindows⟩
  obtain ⟨⟨⟩, r, hexec, rows, hraw, hshown⟩ | ⟨_, _, _, hfalse⟩ := hrun.exec
  · have hname : ∀ t ∈ rawTables, t.raw ∈ rawNames := by decide
    refine ⟨r.state, by rw [IoM.outcome, hexec], fun t ht => ?_⟩
    rw [hraw t.raw (hname t ht)]
    exact ⟨fun L _ => reduceAt_perm hv hshown ht L, versions_differ hv hshown ht⟩
  · exact hfalse.elim

/-! ## What the markers say -/

/-- At the LSN of each marker, the raw tables give the source tables. -/
def Honest (h : SourceHistory) (db : ClickHouse) : Prop :=
  ∀ m ∈ db.applied.rows, ∀ t ∈ rawTables,
    (reduceAt m.sourceLsn (db.raw t.raw).rows).Perm (h.tableAt t m.sourceLsn)

omit [SinkText] in
/-- A server with the snapshot, where the markers are not ahead of the rows. -/
theorem Led.honest (hled : Led base windows db) (hloaded : Loaded h base) (hv : h.Valid)
    (hwindows : List.Forall₂ Delivers h.txns windows.flatten) (hne : ∀ v ∈ windows, v ≠ []) :
    Honest h db := by
  obtain ⟨hascend, hlow⟩ := hv.ascending hwindows hne
  obtain ⟨rows, hholds, hsnapshot⟩ := hloaded
  obtain ⟨j, hmarkers, htables⟩ := hled
  intro m hm t ht
  have hname : ∀ t ∈ rawTables, t.raw ∈ rawNames := by decide
  obtain ⟨k, hjk, hrows⟩ := htables t.raw (hname t ht)
  have hcut : windows.flatten = (windows.take k).flatten ++ (windows.drop k).flatten := by
    rw [← List.flatten_append, List.take_append_drop]
  have hmem : ∀ c ∈ (windows.drop k).flatten, c ∈ windows.flatten := fun c hc =>
    hcut.symm ▸ List.mem_append_right _ hc
  -- the commits whose rows may be missing are behind the marker
  have habove : ∀ c ∈ (windows.drop k).flatten, m.sourceLsn < c.lsn := by
    intro c hc
    rw [hmarkers] at hm
    rcases List.mem_append.mp hm with hm | hm
    · rw [hholds.markers m hm]
      exact hlow c (hmem c hc)
    · obtain ⟨c', hc', rfl⟩ := List.mem_map.mp hm
      obtain ⟨v, hv, hc'⟩ := List.mem_flatten.mp hc'
      have htaken := List.mem_flatten_of_mem (List.take_subset_take_left _ hjk hv) hc'
      have hpairs := hascend.ascend
      rw [hcut] at hpairs
      exact (List.pairwise_append.mp hpairs).2.2 c' htaken c hc
  have hnone : (rowsIn t.raw (windows.drop k).flatten).filter
      (fun r => r.sourceLsn ≤ m.sourceLsn) = [] := by
    refine List.filter_eq_nil_iff.mpr fun r hr => ?_
    obtain ⟨c, hc, hr⟩ := exists_of_mem_rowsIn hr
    have hlsn : r.sourceLsn = c.lsn :=
      sourceLsn_windowRows hwindows hv.storable c (hmem c hc) _ hr
    have hlt := habove c hc
    rw [decide_eq_true_eq]
    omega
  have hall : rowsOf t.raw (rows ++ windows.flatten.flatMap CdcCommit.windowRows)
      = (db.raw t.raw).rows ++ rowsIn t.raw (windows.drop k).flatten := by
    rw [hrows, hholds.rows _ (hname t ht), rowsOf_append, List.append_assoc, ← rowsIn_append,
      ← hcut]
    rfl
  have hsame := reduceAt_perm hv (hsnapshot.append hv hwindows) ht m.sourceLsn
  rw [hall, reduceAt, List.filter_append, hnone, List.append_nil] at hsame
  exact hsame

/-- At each moment of a load and the windows behind it, whatever fails, a reader of the raw
tables finds at the LSN of each marker what the source had. -/
theorem markers_honest (hv : h.Valid)
    (hload : List.Forall₂ (Carries h.lsn0) load h.initialChanges)
    (hwindows : List.Forall₂ Delivers h.txns windows.flatten) (hne : ∀ v ∈ windows, v ≠ [])
    (hbound : ∀ x ∈ h.txns, x.lsn < 2 ^ 64) (hsha : NoCollisions windows) (plan : List Outcome) :
    let r := loadThenWindows h.lsn0 load windows ⟨{}, plan, []⟩
    Honest h r.2.state.db ∧ ∀ w ∈ r.2.seen, Honest h w.db := by
  obtain ⟨hascend, -⟩ := hv.ascending hwindows hne
  have hlast := SourceHistory.lastLsn_lt hwindows hne hbound
  have hled : ∀ {base db : ClickHouse}, Led base windows db → Loaded h base → Honest h db :=
    fun hled hloaded => hled.honest hloaded hv hwindows hne
  have hfirst : ∀ w' : World, w'.db.applied.rows = [] ∨ Loaded h w'.db → Honest h w'.db := by
    rintro w' (hnone | hloaded)
    · intro m hm
      rw [hnone] at hm
      exact absurd hm List.not_mem_nil
    · exact hled (.refl _ _) hloaded
  have hrun : Fallible (loadThenWindows h.lsn0 load windows) {} plan (fun w' => Honest h w'.db)
      (fun _ w' _ => Honest h w'.db) fun w' => Honest h w'.db := by
    refine Fallible.bind ((loadSnapshot_fallible hv hload plan).imp hfirst (fun _ _ _ h => h)
      hfirst) ?_
    intro _ w plan₁ hloaded
    have ⟨rows, hholds, _⟩ := hloaded
    have hreached : ∀ w', Reached w.db windows w' → Honest h w'.db := fun w' hw' =>
      hled (hw'.led hholds.looks hholds.foreign hascend hlast hsha) hloaded
    refine (applyWindows_fallible windows w plan₁).imp hreached (fun _ w' _ hw' => ?_) hreached
    by_cases hnil : windows = []
    · rw [hw', hnil]
      exact hled (.refl _ _) hloaded
    · exact hreached w' (.of_afterAll hnil hw')
  exact hrun.final

end Histories

/-- The two texts that are hashed have different digests. -/
private theorem noCollisions_tenant :
    letI := tenantText
    NoCollisions [[tenantCommit]] := by
  let _ := tenantText
  have hlengths : (hashed [[tenantCommit]]).map List.length = [140, 517] := by
    decide +kernel
  have hdigest : ∀ x y : List UInt8, x.length ∈ [140, 517] → y.length ∈ [140, 517] →
      windowSha256 x = windowSha256 y → x.length = y.length := by
    intro x y hx hy h
    change (if x.length = 517 then _ else _) = if y.length = 517 then _ else _ at h
    rcases List.mem_pair.mp hx with hx | hx
    · rcases List.mem_pair.mp hy with hy | hy
      · rw [hx, hy]
      · rw [hx, hy] at h
        exact absurd h (by decide)
    · rcases List.mem_pair.mp hy with hy | hy
      · rw [hx, hy] at h
        exact absurd h (by decide)
      · rw [hx, hy]
  have hnodup : ((hashed [[tenantCommit]]).map List.length).Nodup := by
    rw [hlengths]
    decide
  intro x hx y hy h
  have hx' := List.mem_map_of_mem (f := List.length) hx
  have hy' := List.mem_map_of_mem (f := List.length) hy
  rw [hlengths] at hx' hy'
  exact List.inj_on_of_nodup_map hnodup hx hy (hdigest x y hx' hy' h)

/-- The window of the tenant fails when its rows are written: the marker of the load is honest. -/
theorem markers_honest_tenant :
    letI := tenantText
    ∃ w : World, w.db.applied.rows.map Marker.sourceLsn = [10] ∧
      (w.db.raw tenants.raw).rows.length = 3 ∧ Honest tenantHistory w.db := by
  let _ := tenantText
  have hvalid : tenantHistory.Valid :=
    ⟨by decide, by decide, by decide, by decide, by decide⟩
  have himage : ∀ plan, Complete (tenantImage plan) := by simp [Complete, tenantImage]
  have hkey : Complete tenantKey := by simp [Complete, tenantKey]
  have hload : Carries 10 tenantLoad { table := tenants, change := .insert (tenantRow "free") } :=
    ⟨rfl, .inr rfl, by decide, by simp [tenantLoad, himage]⟩
  have hupdate : Carries 20 tenantUpdate
      { table := tenants, change := .update (tenantRow "free") (tenantRow "pro") } :=
    ⟨rfl, .inr rfl, by decide, by simp [tenantUpdate, himage]⟩
  have hdelete : Carries 20 tenantDelete { table := tenants, change := .delete (tenantRow "pro") } :=
    ⟨rfl, .inr rfl, by decide, by simp [tenantDelete, hkey]⟩
  have hhonest := markers_honest hvalid (.cons hload .nil)
    (.cons ⟨rfl, .cons hupdate (.cons hdelete .nil)⟩ .nil) (by decide) (by decide)
    noCollisions_tenant [.done, .done, .done, .done, .done, .failed 0]
  exact ⟨_, by decide +kernel, by decide +kernel, hhonest.1⟩

end GrayDB.R1.ClickHouseSink
