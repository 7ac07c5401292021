import GrayDB.R1.ApplyOnce

/-!
# The requests of a window

`apply_window` inserts the rows of a window, table by table, then its markers, and counts
the markers in the LSN range of the window.  `requests` are the inserts, and
`ClickHouse.after` is the server behind some of them.

* `applyWindow_ends` is a call without failures: it returns exactly when all changes can be
  written and the markers are counted.
* `applyWindow_fails` is a call with one: the server has taken the first requests.
* `applyWindows_returns_iff` is a list of calls.
-/

namespace GrayDB.R1.ClickHouseSink

open Lib Lib.Crash Registry

/-! ## What a window holds -/

/-- The rows of a commit, as a part of a window. -/
def CdcCommit.windowRows (c : CdcCommit) : List (String × VersionRow) :=
  (versionRows .windowLsn c.lsn false c.changes).toOption.getD []

/-- All changes of the commit can be written. -/
def CdcCommit.Renders (c : CdcCommit) : Prop :=
  (versionRows .windowLsn c.lsn false c.changes).isOk = true

instance (c : CdcCommit) : Decidable c.Renders := inferInstanceAs (Decidable (_ = true))

/-- The rows of some commits for a raw table. -/
def rowsIn (raw : String) (commits : List CdcCommit) : List VersionRow :=
  rowsOf raw (commits.flatMap CdcCommit.windowRows)

/-- The raw tables that they have rows for. -/
def tablesIn (commits : List CdcCommit) : List String :=
  rawNames.filter fun raw => rowsIn raw commits ≠ []

def firstLsn (commits : List CdcCommit) : Nat := (commits.head?.map CdcCommit.lsn).getD 0

def lastLsn (commits : List CdcCommit) : Nat := (commits.getLast?.map CdcCommit.lsn).getD 0

def boundary (commits : List CdcCommit) : String := "window-" ++ toString (lastLsn commits)

def markersText (commits : List CdcCommit) : String := ",".intercalate (commits.map markerText)

theorem versionRows_of_renders {c : CdcCommit} (h : c.Renders) :
    versionRows .windowLsn c.lsn false c.changes = .ok c.windowRows := by
  unfold CdcCommit.Renders at h
  unfold CdcCommit.windowRows
  cases hrows : versionRows .windowLsn c.lsn false c.changes with
  | error e =>
    rw [hrows] at h
    exact nomatch h
  | ok rows => rfl

/-- The rows of a window are those of its commits, if these can all be written. -/
theorem mapM_windowRows_of_renders {commits : List CdcCommit} (h : ∀ c ∈ commits, c.Renders) :
    (commits.mapM fun c => versionRows .windowLsn c.lsn false c.changes)
      = .ok (commits.map CdcCommit.windowRows) := by
  induction commits with
  | nil => rfl
  | cons c commits ih =>
    rw [List.mapM_cons, versionRows_of_renders (h c List.mem_cons_self),
      ih fun c' hc' => h c' (List.mem_cons_of_mem _ hc')]
    rfl

theorem renders_of_mapM {commits : List CdcCommit} {rows : List (List (String × VersionRow))}
    (h : (commits.mapM fun c => versionRows .windowLsn c.lsn false c.changes) = .ok rows) :
    ∀ c ∈ commits, c.Renders := by
  induction commits generalizing rows with
  | nil => simp
  | cons c commits ih =>
    rw [List.mapM_cons] at h
    cases hfirst : versionRows .windowLsn c.lsn false c.changes with
    | error e =>
      rw [hfirst] at h
      exact nomatch h
    | ok first =>
      rw [hfirst] at h
      cases hrest : commits.mapM fun c => versionRows .windowLsn c.lsn false c.changes with
      | error e =>
        rw [hrest] at h
        exact nomatch h
      | ok rest =>
        intro c' hc'
        rcases List.mem_cons.mp hc' with rfl | hc'
        · unfold CdcCommit.Renders
          rw [hfirst]
          rfl
        · exact ih hrest c' hc'

theorem rowsIn_append (raw : String) (commits commits' : List CdcCommit) :
    rowsIn raw (commits ++ commits') = rowsIn raw commits ++ rowsIn raw commits' := by
  rw [rowsIn, List.flatMap_append, rowsOf_append]
  rfl

theorem rowsIn_flatten (raw : String) (windows : List (List CdcCommit)) :
    rowsIn raw windows.flatten = windows.flatMap (rowsIn raw) := by
  induction windows with
  | nil => rfl
  | cons window windows ih => rw [List.flatten_cons, rowsIn_append, ih, List.flatMap_cons]

/-- The groups of a window, by its tables. -/
theorem rowsByTable_eq (commits : List CdcCommit) :
    rowsByTable (commits.map CdcCommit.windowRows).flatten
      = (tablesIn commits).map fun raw => (raw, rowsIn raw commits) := by
  unfold rowsByTable tablesIn rowsIn
  rw [← List.flatMap_def, List.filter_map]
  rfl

/-! ## The requests -/

section Requests

variable [SinkText]

def rowsToken (raw : String) (commits : List CdcCommit) : String :=
  windowDeduplicationToken raw (boundary commits) (insertBody raw (rowsIn raw commits))

def markersToken (commits : List CdcCommit) : String :=
  windowDeduplicationToken appliedTransactions (boundary commits) (markersText commits)

/-- The inserts of a window, in order. -/
def requests (commits : List CdcCommit) : List (ClickHouse → ClickHouse) :=
  (tablesIn commits).map (fun raw =>
      ClickHouse.insertRows raw (rowsToken raw commits) (rowsIn raw commits))
    ++ [ClickHouse.insertMarkers (markersToken commits) (commits.map CdcCommit.marker)]

end Requests

/-- The server behind some requests. -/
def ClickHouse.after (db : ClickHouse) (fs : List (ClickHouse → ClickHouse)) : ClickHouse :=
  fs.foldl (fun db f => f db) db

/-- The markers in the range of the window are as many as its commits. -/
def Counted (commits : List CdcCommit) (db : ClickHouse) : Prop :=
  (db.applied.rows.filter fun m =>
    firstLsn commits ≤ m.sourceLsn ∧ m.sourceLsn ≤ lastLsn commits).length = commits.length

/-- How many requests take effect, where one of them fails. -/
def effective : List Outcome → Nat
  | .done :: plan => effective plan + 1
  | .failed (_ + 1) :: _ => 1
  | _ => 0

@[simp] theorem ClickHouse.after_append (db : ClickHouse) (fs gs : List (ClickHouse → ClickHouse)) :
    db.after (fs ++ gs) = (db.after fs).after gs := List.foldl_append

/-! ## A call without failures -/

section Calls

variable {w : World} {plan : List Outcome} {commits : List CdcCommit}

/-- The inserts of some groups. -/
def groupRequests (token : String → List VersionRow → String)
    (groups : List (String × List VersionRow)) : List (ClickHouse → ClickHouse) :=
  groups.map fun g => ClickHouse.insertRows g.1 (token g.1 g.2) g.2

theorem insertGroups_after (token : String → List VersionRow → String)
    (groups : List (String × List VersionRow)) :
    Returns (insertGroups token groups) w fun _ w' =>
      w'.db = w.db.after (groupRequests token groups) := by
  induction groups generalizing w with
  | nil => exact Spec.pure rfl
  | cons g groups ih =>
    apply Spec.bind (postInsert_returns _)
    intro _ w₁ hw₁
    refine ih.weaken fun _ w' hw' => ?_
    rw [hw', hw₁]
    rfl

theorem head?_getLast? (hne : commits ≠ []) :
    ∃ first last, commits.head? = some first ∧ commits.getLast? = some last ∧
      firstLsn commits = first.lsn ∧ lastLsn commits = last.lsn := by
  refine ⟨_, _, List.head?_eq_some_head hne, List.getLast?_eq_some_getLast hne, ?_, ?_⟩
  · rw [firstLsn, List.head?_eq_some_head hne]
    rfl
  · rw [lastLsn, List.getLast?_eq_some_getLast hne]
    rfl

variable [SinkText]

/-- The inserts of a window are its groups, and its markers. -/
theorem requests_eq (commits : List CdcCommit) {last : CdcCommit} (hlast : lastLsn commits = last.lsn) :
    requests commits = groupRequests
        (fun raw rows => windowDeduplicationToken raw ("window-" ++ toString last.lsn)
          (insertBody raw rows)) (rowsByTable (commits.map CdcCommit.windowRows).flatten)
      ++ [ClickHouse.insertMarkers (windowDeduplicationToken appliedTransactions
          ("window-" ++ toString last.lsn) (",".intercalate (commits.map markerText)))
        (commits.map fun c => { operationSha256 := c.hash, sourceLsn := c.lsn })] := by
  rw [rowsByTable_eq, groupRequests, List.map_map, ← hlast]
  rfl

/-- A call without failures: it returns when all changes can be written and the markers are
counted, and only then. -/
theorem applyWindow_ends (hne : commits ≠ []) :
    Ends (applyWindow commits) w
      (fun _ w' => ((∀ c ∈ commits, c.Renders) ∧ Counted commits (w.db.after (requests commits))) ∧
        w'.db = w.db.after (requests commits))
      (fun _ _ => ¬ ((∀ c ∈ commits, c.Renders) ∧
        Counted commits (w.db.after (requests commits)))) := by
  obtain ⟨first, last, hfirst, hlast, hfirstLsn, hlastLsn⟩ := head?_getLast? hne
  unfold applyWindow
  simp only [hfirst, hlast]
  cases hrows : commits.mapM fun c => versionRows .windowLsn c.lsn false c.changes with
  | error e =>
    refine Ends.bind (Q := fun _ _ => False) (Ends.throw fun h => ?_) fun _ _ hfalse => hfalse.elim
    rw [mapM_windowRows_of_renders h.1] at hrows
    exact nomatch hrows
  | ok rows =>
    have hrenders := renders_of_mapM hrows
    rw [mapM_windowRows_of_renders hrenders] at hrows
    obtain rfl := Except.ok.inj hrows
    have hrequests := requests_eq commits hlastLsn
    refine Ends.bind (Ends.of_spec (liftExcept_returns rfl)) ?_
    intro rows w₀ ⟨hrows', hw₀⟩
    rw [hrows', hw₀]
    refine Ends.bind (Ends.of_spec (insertGroups_after _ _)) ?_
    intro _ w₁ hw₁
    refine Ends.bind (Ends.of_spec (postInsert_returns _)) ?_
    intro _ w₂ hw₂
    rw [hw₁] at hw₂
    have hdb : w₂.db = w.db.after (requests commits) := by
      rw [hw₂, hrequests, ClickHouse.after_append]
      rfl
    refine Ends.bind (Ends.of_spec (postSelect_returns _)) ?_
    rintro verified _ ⟨hverified, rfl⟩
    have hcount : verified = commits.length ↔ Counted commits (w.db.after (requests commits)) := by
      rw [hverified, hdb, Counted, hfirstLsn, hlastLsn]
    by_cases hequal : verified = commits.length
    · rw [if_pos hequal]
      exact Ends.pure ⟨⟨hrenders, hcount.mp hequal⟩, hdb⟩
    · rw [if_neg hequal]
      exact Ends.throw fun h => hequal (hcount.mpr h.2)

/-- Each window can be written, and its markers are counted behind it. -/
def Accepted : List (List CdcCommit) → ClickHouse → Prop
  | [], _ => True
  | window :: windows, db =>
    ((∀ c ∈ window, c.Renders) ∧ Counted window (db.after (requests window))) ∧
      Accepted windows (db.after (requests window))

/-- The server behind some windows. -/
def ClickHouse.afterAll (db : ClickHouse) (windows : List (List CdcCommit)) : ClickHouse :=
  windows.foldl (fun db window => db.after (requests window)) db

theorem applyWindows_ends {windows : List (List CdcCommit)} (hne : ∀ v ∈ windows, v ≠ []) :
    Ends (applyWindows windows) w
      (fun _ w' => Accepted windows w.db ∧ w'.db = w.db.afterAll windows)
      (fun _ _ => ¬ Accepted windows w.db) := by
  induction windows generalizing w with
  | nil => exact Ends.pure ⟨trivial, rfl⟩
  | cons window windows ih =>
    have hwindow := applyWindow_ends (w := w) (hne window List.mem_cons_self)
    refine Ends.bind (hwindow.weaken (fun _ _ h => h) fun _ _ h haccepted => h haccepted.1) ?_
    intro _ w₁ ⟨hfirst, hw₁⟩
    have hrest := ih (w := w₁) fun v hv => hne v (List.mem_cons_of_mem _ hv)
    rw [hw₁] at hrest
    exact hrest.weaken (fun _ _ h => ⟨⟨hfirst, h.1⟩, h.2⟩) fun _ _ h haccepted => h haccepted.2

/-- The windows are applied in a row exactly when each is accepted. -/
theorem applyWindows_returns_iff {windows : List (List CdcCommit)} (hne : ∀ v ∈ windows, v ≠ []) :
    ((applyWindows windows).exec w).1 = .ok () ↔ Accepted windows w.db := by
  obtain ⟨_, r, hrun, haccepted, -⟩ | ⟨e, r, hrun, hnot⟩ := (applyWindows_ends (w := w) hne).exec
  · rw [hrun]
    exact iff_of_true rfl haccepted
  · rw [hrun]
    exact iff_of_false nofun hnot

theorem applyWindows_db {windows : List (List CdcCommit)} (hne : ∀ v ∈ windows, v ≠ [])
    (h : Accepted windows w.db) :
    ((applyWindows windows).exec w).2.state.db = w.db.afterAll windows := by
  obtain ⟨_, r, hrun, -, hdb⟩ | ⟨e, r, hrun, hnot⟩ := (applyWindows_ends (w := w) hne).exec
  · rw [hrun]
    exact hdb
  · exact absurd h hnot

end Calls

/-! ## A call with a failure -/

/-- The call has made the requests `made`, with `plan` for those to come. -/
structure Midway (db : ClickHouse) (whole : List Outcome) (made : List (ClickHouse → ClickHouse))
    (w : World) (plan : List Outcome) : Prop where
  db : w.db = db.after made
  took : plan = [] ∨ effective whole = made.length + effective plan

section Failures

variable {db : ClickHouse} {whole plan : List Outcome} {made : List (ClickHouse → ClickHouse)}
  {f : ClickHouse → ClickHouse} {w : World}

/-- A request succeeds, or the server has taken as many as are effective. -/
theorem Midway.postInsert (h : Midway db whole made w plan) (rest : List (ClickHouse → ClickHouse)) :
    Fallible (postInsert f) w plan (fun _ => True)
      (fun _ w' plan' => Midway db whole (made ++ [f]) w' plan')
      (fun w' => w'.db = db.after ((made ++ f :: rest).take (effective whole))) := by
  have hdb := h.db
  refine Fallible.call (fun hplan => ⟨trivial, ?_, ?_⟩) fun k hplan => ⟨trivial, ?_⟩
  · show f w.db = _
    rw [hdb, ClickHouse.after_append]
    rfl
  · cases plan with
    | nil => exact Or.inl rfl
    | cons o plan =>
      obtain rfl : o = .done := by simpa using hplan
      right
      have heffective := h.took.resolve_left nofun
      rw [heffective, List.length_append, List.length_singleton, List.tail_cons]
      show made.length + (effective plan + 1) = _
      omega
  · cases plan with
    | nil => exact nomatch hplan
    | cons o plan =>
      obtain rfl : o = .failed k := by simpa using hplan
      rw [h.took.resolve_left nofun]
      cases k with
      | zero =>
        show w.db = db.after ((made ++ f :: rest).take made.length)
        rw [List.take_left, hdb]
      | succ k =>
        show f w.db = db.after ((made ++ f :: rest).take (made.length + 1))
        rw [List.take_length_add_append, List.take_one, hdb, ClickHouse.after_append]
        rfl

theorem Midway.insertGroups {token : String → List VersionRow → String}
    {groups : List (String × List VersionRow)} (rest : List (ClickHouse → ClickHouse)) :
    ∀ {made : List (ClickHouse → ClickHouse)} {w : World} {plan : List Outcome},
      Midway db whole made w plan →
      Fallible (insertGroups token groups) w plan (fun _ => True)
        (fun _ w' plan' => Midway db whole (made ++ groupRequests token groups) w' plan')
        (fun w' => w'.db
          = db.after ((made ++ (groupRequests token groups ++ rest)).take (effective whole))) := by
  induction groups with
  | nil =>
    intro made w plan h
    apply Fallible.pure
    rw [groupRequests, List.map_nil, List.append_nil]
    exact h
  | cons g groups ih =>
    intro made w plan h
    refine Fallible.bind (h.postInsert (groupRequests token groups ++ rest)) ?_
    intro _ w₁ plan₁ h₁
    have hrest := ih h₁
    simp only [List.append_assoc, List.singleton_append] at hrest
    exact hrest

variable [SinkText] {commits : List CdcCommit}

/-- A call that fails has made as many inserts as were effective, if the changes can be
written and the verification would have agreed. -/
theorem applyWindow_fails (hne : commits ≠ []) (hrenders : ∀ c ∈ commits, c.Renders)
    (hcounted : Counted commits (w.db.after (requests commits))) {e : SinkError} {r : Flight World}
    (h : applyWindow commits ⟨w, plan, []⟩ = (.error e, r)) :
    r.state.db = w.db.after ((requests commits).take (effective plan)) := by
  obtain ⟨first, last, hfirst, hlast, hfirstLsn, hlastLsn⟩ := head?_getLast? hne
  have hrequests := requests_eq commits hlastLsn
  have hcall : Fallible (applyWindow commits) w plan (fun _ => True) (fun _ _ _ => True)
      (fun w' => w'.db = w.db.after ((requests commits).take (effective plan))) := by
    unfold applyWindow
    simp only [hfirst, hlast]
    rw [mapM_windowRows_of_renders hrenders]
    refine Fallible.bind (Q := fun rows w₀ plan₀ =>
      rows = commits.map CdcCommit.windowRows ∧ w₀ = w ∧ plan₀ = plan)
      (Fallible.pure ⟨rfl, rfl, rfl⟩) ?_
    intro rows w₀ plan₀ ⟨hrows, hw₀, hplan₀⟩
    rw [hrows, hw₀, hplan₀, hrequests]
    have hstart : Midway w.db plan [] w plan := ⟨rfl, Or.inr (Nat.zero_add _).symm⟩
    refine Fallible.bind (Midway.insertGroups [_] hstart) ?_
    intro _ w₁ plan₁ h₁
    refine Fallible.bind (h₁.postInsert []) ?_
    intro _ w₂ plan₂ h₂
    have hall : w₂.db = w.db.after (requests commits) := by
      rw [h₂.db, hrequests]
      rfl
    refine Fallible.bind (Q := fun verified w' _ => w' = w₂ ∧ verified = commits.length) ?_ ?_
    · refine Fallible.bind (Q := fun _ w' _ => w' = w₂)
        (Fallible.call (fun _ => ⟨trivial, rfl⟩) fun k hplan => ⟨trivial, ?_⟩) ?_
      · -- the verification fails: the inserts before it are all there
        rw [← hrequests, List.take_of_length_le ?_]
        · exact hall
        · cases plan₂ with
          | nil => exact nomatch hplan
          | cons o plan₂ =>
            rw [h₂.took.resolve_left nofun, hrequests]
            exact Nat.le_add_right _ _
      · intro _ w₃ plan₃ hw₃
        rw [hw₃]
        refine Fallible.bind_get (Fallible.pure ⟨rfl, ?_⟩)
        rw [hall, ← hcounted, hfirstLsn, hlastLsn]
    · intro verified w₃ plan₃ ⟨_, hverified⟩
      rw [if_pos hverified]
      exact Fallible.pure trivial
  obtain ⟨s', plan', new, -, ⟨_, hrun, -⟩ | ⟨e', hrun, hdb⟩⟩ := hcall []
  · rw [hrun] at h
    exact nomatch (Prod.mk.inj h).1
  · rw [hrun] at h
    obtain ⟨-, rfl⟩ := Prod.mk.inj h
    exact hdb

end Failures

end GrayDB.R1.ClickHouseSink
