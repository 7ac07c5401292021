import GrayDB.Lib.Codes
import GrayDB.R1.Windows

/-!
# Windows that are retried

A call of `apply_window` fails when the server has taken some of its requests.  The commits
from this window on come again, in windows that may be cut elsewhere.

The token of an insert covers the whole body, so an insert is dropped only if the same rows
come again in the window with the same last commit.  `recovered_iff` says that the tables
end with each row and each marker once exactly when this is so for each insert that the
server has taken.

* `Behind calls db` is the server behind some calls, each with the number of requests taken.
* `upto_last` cuts a list of ascending windows at an LSN.  A window with the last commit of
  the failed one is therefore an end of it.
-/

namespace GrayDB.R1.ClickHouseSink

open Lib Lib.Crash Registry

/-! ## Ascending windows -/

/-- Windows with commits, in the order of the LSNs. -/
structure Ascending (windows : List (List CdcCommit)) : Prop where
  nonempty : ∀ v ∈ windows, v ≠ []
  ascend : windows.flatten.Pairwise fun c c' => c.lsn < c'.lsn

section Windows

variable {windows before : List (List CdcCommit)} {v w : List CdcCommit}

theorem ascending_append : Ascending (before ++ windows) ↔ Ascending before ∧ Ascending windows ∧
    ∀ c ∈ before.flatten, ∀ c' ∈ windows.flatten, c.lsn < c'.lsn := by
  constructor
  · rintro ⟨hne, hascend⟩
    rw [List.flatten_append, List.pairwise_append] at hascend
    exact ⟨⟨fun v hv => hne v (List.mem_append_left _ hv), hascend.1⟩,
      ⟨fun v hv => hne v (List.mem_append_right _ hv), hascend.2.1⟩, hascend.2.2⟩
  · rintro ⟨hbefore, hwindows, hacross⟩
    constructor
    · intro v hv
      exact (List.mem_append.mp hv).elim (hbefore.nonempty v) (hwindows.nonempty v)
    · rw [List.flatten_append, List.pairwise_append]
      exact ⟨hbefore.ascend, hwindows.ascend, hacross⟩

theorem markers_flatten (windows : List (List CdcCommit)) :
    windows.flatten.map CdcCommit.marker = windows.flatMap fun v => v.map CdcCommit.marker := by
  rw [List.map_flatten, List.flatMap_def]

theorem lastLsn_of_mem (hw : w.Pairwise fun c c' => c.lsn < c'.lsn) {c : CdcCommit} (hc : c ∈ w) :
    c.lsn ≤ lastLsn w := by
  have hne : w ≠ [] := List.ne_nil_of_mem hc
  rw [lastLsn, List.getLast?_eq_some_getLast hne]
  exact (hw.imp Nat.le_of_lt).rel_getLast_of_rel_getLast_getLast hc (Nat.le_refl _)

theorem exists_lastLsn (hne : w ≠ []) : ∃ c ∈ w, c.lsn = lastLsn w := by
  refine ⟨w.getLast hne, List.getLast_mem hne, ?_⟩
  rw [lastLsn, List.getLast?_eq_some_getLast hne]
  rfl

theorem lastLsn_append (front : List CdcCommit) (hne : w ≠ []) :
    lastLsn (front ++ w) = lastLsn w := by
  rw [lastLsn, lastLsn, List.getLast?_append_of_ne_nil _ hne]

/-- The commits up to the last one of a window. -/
theorem upto_last {behind : List CdcCommit} (hne : w ≠ [])
    (h : (w ++ behind).Pairwise fun c c' => c.lsn < c'.lsn) :
    ((w ++ behind).filter fun c => c.lsn ≤ lastLsn w) = w := by
  obtain ⟨hw, -, hacross⟩ := List.pairwise_append.mp h
  obtain ⟨last, hmem, hlast⟩ := exists_lastLsn hne
  rw [List.filter_append, List.filter_eq_self.mpr, List.filter_eq_nil_iff.mpr, List.append_nil]
  · intro c hc
    have hlt := hacross last hmem c hc
    rw [decide_eq_true_eq]
    omega
  · intro c hc
    rw [decide_eq_true_eq]
    exact lastLsn_of_mem hw hc

/-- The commits from `w` on are cut again: a window with the last commit of `w` is an end
of `w`. -/
theorem flatten_append_eq {front back : List (List CdcCommit)} {later : List CdcCommit}
    (hascend : Ascending (front ++ v :: back)) (hw : w ≠ [])
    (hcut : (front ++ v :: back).flatten = w ++ later) (hlast : lastLsn v = lastLsn w) :
    front.flatten ++ v = w := by
  have hv : v ≠ [] := hascend.nonempty v (by simp)
  have hne : front.flatten ++ v ≠ [] := List.append_ne_nil_of_right_ne_nil _ hv
  have hsplit : front.flatten ++ v ++ back.flatten = w ++ later := by
    rw [← hcut, List.flatten_append, List.flatten_cons, List.append_assoc]
  have h : (w ++ later).Pairwise fun c c' => c.lsn < c'.lsn := hcut ▸ hascend.ascend
  calc front.flatten ++ v
      = (front.flatten ++ v ++ back.flatten).filter
          (fun c => c.lsn ≤ lastLsn (front.flatten ++ v)) := (upto_last hne (hsplit ▸ h)).symm
    _ = (w ++ later).filter fun c => c.lsn ≤ lastLsn w := by
        rw [hsplit, lastLsn_append _ hv, hlast]
    _ = w := upto_last hw h

/-- The last LSNs rise. -/
theorem Ascending.pairwise_lastLsn (h : Ascending windows) :
    windows.Pairwise fun v v' => lastLsn v < lastLsn v' := by
  have hacross := (List.pairwise_flatten.mp h.ascend).2
  refine hacross.imp_of_mem fun {v v'} hv hv' hlt => ?_
  obtain ⟨c, hc, hlsn⟩ := exists_lastLsn (h.nonempty v hv)
  obtain ⟨c', hc', hlsn'⟩ := exists_lastLsn (h.nonempty v' hv')
  rw [← hlsn, ← hlsn']
  exact hlt c hc c' hc'

/-- The markers of a window are counted if no other marker is in its range. -/
theorem counted_of_rows {db : ClickHouse} (h : Ascending (before ++ [w]))
    (hrows : db.applied.rows = (before ++ [w]).flatten.map CdcCommit.marker) : Counted w db := by
  have hne : w ≠ [] := h.nonempty w (by simp)
  have hascend := h.ascend
  rw [List.flatten_append, List.flatten_singleton] at hascend hrows
  obtain ⟨-, hw, hacross⟩ := List.pairwise_append.mp hascend
  have hlsns : (w.map CdcCommit.lsn).Pairwise (· < ·) := List.pairwise_map.mpr hw
  obtain ⟨first, hfirst, last, hhead, hlast, hrange⟩ := window_range hlsns hne
  have hfirstLsn : firstLsn w = first.lsn := by rw [firstLsn, hhead]; rfl
  have hlastLsn : lastLsn w = last.lsn := by rw [lastLsn, hlast]; rfl
  unfold Counted
  rw [hrows, List.filter_map, List.length_map, List.filter_append, List.filter_eq_nil_iff.mpr,
    List.filter_eq_self.mpr, List.nil_append]
  · intro c hc
    show decide (firstLsn w ≤ c.lsn ∧ c.lsn ≤ lastLsn w) = true
    rw [hfirstLsn, hlastLsn, decide_eq_true_eq]
    exact hrange c hc
  · intro c hc
    have hlt := hacross c hc first hfirst
    show ¬decide (firstLsn w ≤ c.lsn ∧ c.lsn ≤ lastLsn w) = true
    rw [hfirstLsn, decide_eq_true_eq]
    omega

end Windows

/-! ## Tokens -/

/-- What the token of an insert is a hash of. -/
def tokenInput (table boundary body : String) : List UInt8 :=
  [table, boundary, body].flatMap fun value =>
    beBytes 8 value.utf8ByteSize ++ value.toUTF8.toList

/-- A text with its length in front; the length is a `u64`. -/
theorem selfDelimiting_text :
    SelfDelimiting (fun value : String => beBytes 8 value.utf8ByteSize ++ value.toUTF8.toList)
      {value | value.utf8ByteSize < 256 ^ 8} := by
  simp only [utf8ByteSize_eq]
  have hinj : Set.InjOn (fun value : String => value.toUTF8.toList)
      {value | value.toUTF8.toList.length < 256 ^ 8} := fun _ _ _ _ h => toUTF8_toList_injective h
  refine SelfDelimiting.counted hinj (fun n => length_beBytes 8 n) ?_
  rintro _ ⟨a, ha, rfl⟩ _ ⟨b, hb, rfl⟩ h
  have hnat := congrArg beNat h
  rwa [beNat_beBytes ha, beNat_beBytes hb] at hnat

/-- The body may be longer than a `u64` says; it is the last of the three. -/
theorem tokenInput_inj {table boundary boundary' body body' : String}
    (hb : boundary.utf8ByteSize < 256 ^ 8) (hb' : boundary'.utf8ByteSize < 256 ^ 8)
    (h : tokenInput table boundary body = tokenInput table boundary' body') :
    boundary = boundary' ∧ body = body' := by
  simp only [tokenInput, List.flatMap_cons, List.flatMap_nil, List.append_nil] at h
  obtain ⟨hboundary, hrest⟩ := selfDelimiting_text _ hb _ hb' _ _ (List.append_cancel_left h)
  obtain ⟨-, hbody⟩ := List.append_inj hrest (by rw [length_beBytes, length_beBytes])
  exact ⟨hboundary, toUTF8_toList_injective hbody⟩

theorem boundary_size {v : List CdcCommit} (h : lastLsn v < 2 ^ 64) :
    (boundary v).utf8ByteSize < 256 ^ 8 := by
  have hlist : (boundary v).toList = "window-".toList ++ Nat.toDigits 10 (lastLsn v) := by
    rw [boundary, String.toList_append]
    exact congrArg _ Nat.toList_repr
  have hdigits : (Nat.toDigits 10 (lastLsn v)).length ≤ 20 :=
    (Nat.length_toDigits_le_iff (by omega) (by omega)).mpr (by omega)
  have hsize := utf8ByteSize_le (boundary v)
  have hprefix : "window-".toList.length = 7 := rfl
  rw [hlist, List.length_append, hprefix] at hsize
  omega

theorem lastLsn_of_boundary {v v' : List CdcCommit} (h : boundary v = boundary v') :
    lastLsn v = lastLsn v' := by
  unfold boundary at h
  exact toString_nat_injective ((String.append_right_inj _).mp h)

/-- An end of a window with the same body has the same rows. -/
theorem rowsIn_of_insertBody {raw : String} [SinkText] {front back : List VersionRow}
    (h : insertBody raw (front ++ back) = insertBody raw back) : front ++ back = back := by
  have hlength : ∀ (columns : List String) (rows : List VersionRow) (body : String),
      (rows.foldl (fun body row => body ++ "\n" ++ rowJson columns row) body).length
        = body.length + (rows.map fun row => 1 + (rowJson columns row).length).sum := by
    intro columns rows
    induction rows with
    | nil => simp
    | cons row rows ih =>
      intro body
      have hnewline : "\n".length = 1 := rfl
      rw [List.foldl_cons, ih, String.length_append, String.length_append, hnewline, List.map_cons,
        List.sum_cons]
      omega
  have hbody := congrArg String.length h
  simp only [insertBody, hlength, List.map_append, List.sum_append] at hbody
  cases front with
  | nil => rfl
  | cons row rows =>
    rw [List.map_cons, List.sum_cons] at hbody
    omega

/-- An end of a window with the same markers is the whole window. -/
theorem eq_of_markersText {front back : List CdcCommit} (hne : back ≠ [])
    (h : markersText (front ++ back) = markersText back) : front ++ back = back := by
  by_cases hfront : front = []
  · rw [hfront, List.nil_append]
  · unfold markersText at h
    rw [List.map_append, String.intercalate_append_of_ne_nil (by simpa using hfront)
      (by simpa using hne)] at h
    have hlength := congrArg String.length h
    have hcomma : ",".length = 1 := rfl
    rw [String.length_append, String.length_append, hcomma] at hlength
    omega

section Tokens

variable [SinkText]

/-- All that is hashed for the tokens of some windows. -/
def hashed (windows : List (List CdcCommit)) : List (List UInt8) :=
  windows.flatMap fun v =>
    tokenInput appliedTransactions (boundary v) (markersText v) ::
      (tablesIn v).map fun raw => tokenInput raw (boundary v) (insertBody raw (rowsIn raw v))

/-- SHA-256 has no collision on it. -/
def NoCollisions (windows : List (List CdcCommit)) : Prop :=
  ∀ x ∈ hashed windows, ∀ y ∈ hashed windows, windowSha256 x = windowSha256 y → x = y

theorem sha_of_token {table boundary boundary' body body' : String}
    (h : windowDeduplicationToken table boundary body
      = windowDeduplicationToken table boundary' body') :
    windowSha256 (tokenInput table boundary body) = windowSha256 (tokenInput table boundary' body') := by
  unfold windowDeduplicationToken at h
  exact (String.append_right_inj _).mp h

theorem NoCollisions.mono {few windows : List (List CdcCommit)} (h : NoCollisions windows)
    (hsub : few ⊆ windows) : NoCollisions few := by
  intro x hx y hy
  obtain ⟨v, hv, hx⟩ := List.mem_flatMap.mp hx
  obtain ⟨v', hv', hy⟩ := List.mem_flatMap.mp hy
  exact h x (List.mem_flatMap.mpr ⟨v, hsub hv, hx⟩) y (List.mem_flatMap.mpr ⟨v', hsub hv', hy⟩)

/-- The insert of a window into a table, if there is one. -/
def insertsOf {α : Type} (token : List CdcCommit → String) (rows : List CdcCommit → List α)
    (v : List CdcCommit) : List (String × List α) :=
  if rows v = [] then [] else [(token v, rows v)]

/-- The tokens tell the windows apart, and a window from its ends as far as the rows go. -/
structure Tells {α : Type} (token : List CdcCommit → String) (rows : List CdcCommit → List α)
    (windows : List (List CdcCommit)) : Prop where
  last : ∀ v ∈ windows, ∀ v' ∈ windows, rows v ≠ [] → rows v' ≠ [] → token v = token v' →
    lastLsn v = lastLsn v'
  back : ∀ v ∈ windows, ∀ front, front ++ v ∈ windows → rows v ≠ [] → rows (front ++ v) ≠ [] →
    token (front ++ v) = token v → rows (front ++ v) = rows v
  again : ∀ v ∈ windows, ∀ v' ∈ windows, lastLsn v = lastLsn v' → rows v = rows v' →
    token v = token v'

variable {windows : List (List CdcCommit)} {raw : String}

omit [SinkText] in
theorem mem_tablesIn {v : List CdcCommit} :
    raw ∈ tablesIn v ↔ raw ∈ rawNames ∧ rowsIn raw v ≠ [] := by
  rw [tablesIn, List.mem_filter, decide_eq_true_eq]

theorem mem_hashed_rows {v : List CdcCommit} (hv : v ∈ windows) (hraw : raw ∈ rawNames)
    (hrows : rowsIn raw v ≠ []) :
    tokenInput raw (boundary v) (insertBody raw (rowsIn raw v)) ∈ hashed windows :=
  List.mem_flatMap.mpr ⟨v, hv, List.mem_cons_of_mem _
    (List.mem_map_of_mem (mem_tablesIn.mpr ⟨hraw, hrows⟩))⟩

theorem mem_hashed_markers {v : List CdcCommit} (hv : v ∈ windows) :
    tokenInput appliedTransactions (boundary v) (markersText v) ∈ hashed windows :=
  List.mem_flatMap.mpr ⟨v, hv, List.mem_cons_self⟩

omit [SinkText] in
theorem boundary_eq {v v' : List CdcCommit} (h : lastLsn v = lastLsn v') :
    boundary v = boundary v' := by
  unfold boundary
  rw [h]

theorem tells_rows (hsha : NoCollisions windows) (hbound : ∀ v ∈ windows, lastLsn v < 2 ^ 64)
    (hraw : raw ∈ rawNames) : Tells (rowsToken raw) (rowsIn raw) windows := by
  have hinj : ∀ v ∈ windows, ∀ v' ∈ windows, rowsIn raw v ≠ [] → rowsIn raw v' ≠ [] →
      rowsToken raw v = rowsToken raw v' → boundary v = boundary v' ∧
        insertBody raw (rowsIn raw v) = insertBody raw (rowsIn raw v') := by
    intro v hv v' hv' hrows hrows' h
    have heq := hsha _ (mem_hashed_rows hv hraw hrows) _ (mem_hashed_rows hv' hraw hrows')
      (sha_of_token h)
    exact tokenInput_inj (boundary_size (hbound v hv)) (boundary_size (hbound v' hv')) heq
  constructor
  · intro v hv v' hv' hrows hrows' h
    exact lastLsn_of_boundary (hinj v hv v' hv' hrows hrows' h).1
  · intro v hv front hfront hrows hrows' h
    have hbody := (hinj _ hfront v hv hrows' hrows h).2
    rw [rowsIn_append] at hbody ⊢
    exact rowsIn_of_insertBody hbody
  · intro v _ v' _ hlast hrows
    unfold rowsToken
    rw [boundary_eq hlast, hrows]

theorem tells_markers (hsha : NoCollisions windows) (hne : ∀ v ∈ windows, v ≠ [])
    (hbound : ∀ v ∈ windows, lastLsn v < 2 ^ 64) :
    Tells markersToken (fun v => v.map CdcCommit.marker) windows := by
  have hinj : ∀ v ∈ windows, ∀ v' ∈ windows, markersToken v = markersToken v' →
      boundary v = boundary v' ∧ markersText v = markersText v' := by
    intro v hv v' hv' h
    have heq := hsha _ (mem_hashed_markers hv) _ (mem_hashed_markers hv') (sha_of_token h)
    exact tokenInput_inj (boundary_size (hbound v hv)) (boundary_size (hbound v' hv')) heq
  constructor
  · intro v hv v' hv' _ _ h
    exact lastLsn_of_boundary (hinj v hv v' hv' h).1
  · intro v hv front hfront _ _ h
    rw [eq_of_markersText (hne v hv) (hinj _ hfront v hv h).2]
  · intro v _ v' _ hlast hmarkers
    have htext : ∀ u : List CdcCommit, markersText u = ",".intercalate
        ((u.map CdcCommit.marker).map fun m =>
          markerText { lsn := m.sourceLsn, hash := m.operationSha256, changes := [] }) := by
      intro u
      rw [List.map_map]
      rfl
    unfold markersToken
    rw [boundary_eq hlast, htext v, htext v', hmarkers]

end Tokens

/-! ## Inserts that come again -/

section Inserts

variable {α : Type} {token : List CdcCommit → String} {rows : List CdcCommit → List α}
  {windows done : List (List CdcCommit)}

theorem Tells.mono {few : List (List CdcCommit)} (h : Tells token rows windows)
    (hsub : few ⊆ windows) : Tells token rows few where
  last := fun v hv v' hv' => h.last v (hsub hv) v' (hsub hv')
  back := fun v hv front hfront => h.back v (hsub hv) front (hsub hfront)
  again := fun v hv v' hv' => h.again v (hsub hv) v' (hsub hv')

theorem flatMap_insertsOf (windows : List (List CdcCommit)) :
    (windows.flatMap (insertsOf token rows)).flatMap Prod.snd = windows.flatMap rows := by
  rw [List.flatMap_assoc]
  apply List.flatMap_congr
  intro v _
  unfold insertsOf
  split <;> simp_all

theorem mem_insertsOf {v : List CdcCommit} {i : String × List α} (h : i ∈ insertsOf token rows v) :
    i = (token v, rows v) ∧ rows v ≠ [] := by
  unfold insertsOf at h
  split at h
  · exact absurd h List.not_mem_nil
  · rename_i hrows
    exact ⟨List.mem_singleton.mp h, hrows⟩

/-- Ascending windows have different tokens. -/
theorem nodup_tokens (htells : Tells token rows windows) (hascend : Ascending windows) :
    ((windows.flatMap (insertsOf token rows)).map Prod.fst).Nodup := by
  refine List.pairwise_map.mpr (List.pairwise_flatMap.mpr ⟨fun v _ => ?_, ?_⟩)
  · unfold insertsOf
    split
    · exact List.Pairwise.nil
    · exact List.pairwise_singleton _ _
  · refine hascend.pairwise_lastLsn.imp_of_mem fun {v v'} hv hv' hlt i hi i' hi' heq => ?_
    obtain ⟨hi, hrows⟩ := mem_insertsOf hi
    obtain ⟨hi', hrows'⟩ := mem_insertsOf hi'
    rw [hi, hi'] at heq
    have hlast := htells.last v hv v' hv' hrows hrows' heq
    omega

/-- Without a failure, every row is stored. -/
theorem rows_received_windows (htells : Tells token rows windows) (hascend : Ascending windows) :
    (Tokened.received (windows.flatMap (insertsOf token rows))).rows = windows.flatMap rows := by
  rw [Tokened.rows_received (nodup_tokens htells hascend), flatMap_insertsOf]

/-- An insert of the failed window was taken.  The rows are stored once exactly when a window
that comes again has the same last commit and the same rows. -/
theorem perm_received_iff {failed later : List CdcCommit}
    (htells : Tells token rows (failed :: (done ++ windows))) (hascend : Ascending (done ++ windows))
    (hfailed : failed ≠ []) (hcut : windows.flatten = failed ++ later) (hrows : rows failed ≠ []) :
    (Tokened.received (done.flatMap (insertsOf token rows) ++
        (token failed, rows failed) :: windows.flatMap (insertsOf token rows))).rows.Perm
      ((done ++ windows).flatMap rows) ↔
        ∃ v ∈ windows, lastLsn v = lastLsn failed ∧ rows v = rows failed := by
  obtain ⟨-, hwindows, hacross⟩ := ascending_append.mp hascend
  have hold : ∀ v ∈ done, lastLsn v < lastLsn failed := by
    intro v hv
    obtain ⟨c, hc, hlsn⟩ := exists_lastLsn (hascend.nonempty v (List.mem_append_left _ hv))
    obtain ⟨c', hc', hlsn'⟩ := exists_lastLsn hfailed
    rw [← hlsn, ← hlsn']
    exact hacross c (List.mem_flatten_of_mem hv hc) c' (hcut ▸ List.mem_append_left _ hc')
  have hself : failed ∈ failed :: (done ++ windows) := List.mem_cons_self
  have hagain : ∀ v ∈ windows, v ∈ failed :: (done ++ windows) := fun v hv =>
    List.mem_cons_of_mem _ (List.mem_append_right _ hv)
  have hsame : ∀ v ∈ windows, rows v ≠ [] → token v = token failed → rows v = rows failed := by
    intro v hv hne htoken
    have hlast := htells.last v (hagain v hv) failed hself hne hrows htoken
    obtain ⟨front, back, hsplit⟩ := List.append_of_mem hv
    have hback := flatten_append_eq (hsplit ▸ hwindows) hfailed (hsplit ▸ hcut) hlast
    have heq := htells.back v (hagain v hv) front.flatten (hback ▸ hself) hne (hback ▸ hrows)
      (hback ▸ htoken.symm)
    rw [← heq, hback]
  have hall : (done ++ windows).flatMap rows = (done.flatMap (insertsOf token rows) ++
      windows.flatMap (insertsOf token rows)).flatMap Prod.snd := by
    rw [← List.flatMap_append, flatMap_insertsOf]
  rw [hall, Tokened.rows_received_again]
  · constructor
    · intro hmem
      obtain ⟨i, hi, htoken⟩ := List.mem_map.mp hmem
      obtain ⟨v, hv, hi⟩ := List.mem_flatMap.mp hi
      obtain ⟨hi, hne⟩ := mem_insertsOf hi
      rw [hi] at htoken
      exact ⟨v, hv, htells.last v (hagain v hv) failed hself hne hrows htoken,
        hsame v hv hne htoken⟩
    · rintro ⟨v, hv, hlast, heq⟩
      have hi : (token v, rows v) ∈ insertsOf token rows v := by
        rw [insertsOf, if_neg (heq ▸ hrows)]
        exact List.mem_singleton_self _
      refine List.mem_map.mpr ⟨_, List.mem_flatMap.mpr ⟨v, hv, hi⟩, ?_⟩
      exact htells.again v (hagain v hv) failed hself hlast heq
  · rw [← List.flatMap_append]
    exact nodup_tokens (htells.mono fun v hv => List.mem_cons_of_mem _ hv) hascend
  · intro hmem
    obtain ⟨i, hi, htoken⟩ := List.mem_map.mp hmem
    obtain ⟨v, hv, hi⟩ := List.mem_flatMap.mp hi
    obtain ⟨hi, hne⟩ := mem_insertsOf hi
    rw [hi] at htoken
    have hlast := htells.last v (List.mem_cons_of_mem _ (List.mem_append_left _ hv)) failed hself
      hne hrows htoken
    have hlt := hold v hv
    omega
  · intro i hi htoken
    obtain ⟨v, hv, hi⟩ := List.mem_flatMap.mp hi
    obtain ⟨hi, hne⟩ := mem_insertsOf hi
    rw [hi] at htoken ⊢
    exact hsame v hv hne htoken
  · exact hrows

end Inserts

/-! ## The server behind some calls -/

section Server

variable [SinkText] {calls : List (List CdcCommit × Nat)} {db : ClickHouse} {v : List CdcCommit}
  {windows before : List (List CdcCommit)} {raw : String}

/-- The markers of a window, as the insert of its last request. -/
def markerInserts : List CdcCommit → List (String × List Marker) :=
  insertsOf markersToken fun v => v.map CdcCommit.marker

/-- The insert into a raw table by a call of which `c.2` requests are taken. -/
def rowsTaken (raw : String) (c : List CdcCommit × Nat) : List (String × List VersionRow) :=
  if raw ∈ (tablesIn c.1).take c.2 then insertsOf (rowsToken raw) (rowsIn raw) c.1 else []

def markersTaken (c : List CdcCommit × Nat) : List (String × List Marker) :=
  if (tablesIn c.1).length < c.2 then markerInserts c.1 else []

/-- A call of which all requests are taken. -/
def whole (v : List CdcCommit) : List CdcCommit × Nat := (v, (requests v).length)

/-- The server behind some calls. -/
structure Behind (calls : List (List CdcCommit × Nat)) (db : ClickHouse) : Prop where
  looks : db.deduplicates = true
  raw : ∀ raw ∈ rawNames, db.raw raw = Tokened.received (calls.flatMap (rowsTaken raw))
  applied : db.applied = Tokened.received (calls.flatMap markersTaken)

theorem length_requests (v : List CdcCommit) : (requests v).length = (tablesIn v).length + 1 := by
  rw [requests, List.length_append, List.length_map, List.length_singleton]

omit [SinkText] in
theorem nodup_tablesIn (v : List CdcCommit) : (tablesIn v).Nodup :=
  List.Nodup.filter _ (by decide)

theorem markerInserts_eq (hne : v ≠ []) :
    markerInserts v = [(markersToken v, v.map CdcCommit.marker)] :=
  if_neg fun h => hne (List.map_eq_nil_iff.mp h)

theorem rowsTaken_whole (hraw : raw ∈ rawNames) :
    rowsTaken raw (whole v) = insertsOf (rowsToken raw) (rowsIn raw) v := by
  have hlength : (tablesIn v).length ≤ (requests v).length := by
    rw [length_requests]
    omega
  unfold rowsTaken whole
  rw [List.take_of_length_le hlength]
  by_cases hrows : rowsIn raw v = []
  · rw [if_neg fun hmem => (mem_tablesIn.mp hmem).2 hrows, insertsOf, if_pos hrows]
  · rw [if_pos (mem_tablesIn.mpr ⟨hraw, hrows⟩)]

theorem markersTaken_whole (v : List CdcCommit) : markersTaken (whole v) = markerInserts v := by
  unfold markersTaken whole
  rw [length_requests, if_pos (Nat.lt_succ_self _)]

/-- The inserts of the rows into some of the tables. -/
def rowRequests (v : List CdcCommit) (tables : List String) : List (ClickHouse → ClickHouse) :=
  tables.map fun raw => ClickHouse.insertRows raw (rowsToken raw v) (rowsIn raw v)

/-- The tables are all different. -/
theorem after_rowRequests (v : List CdcCommit) {tables : List String} (hnodup : tables.Nodup)
    (db : ClickHouse) :
    let db' := db.after (rowRequests v tables)
    db'.deduplicates = db.deduplicates ∧ db'.applied = db.applied ∧ ∀ raw, db'.raw raw =
      if raw ∈ tables then (db.raw raw).insert db.deduplicates (rowsToken raw v) (rowsIn raw v)
      else db.raw raw := by
  induction tables generalizing db with
  | nil => exact ⟨rfl, rfl, fun _ => rfl⟩
  | cons table tables ih =>
    obtain ⟨hnew, hnodup⟩ := List.nodup_cons.mp hnodup
    obtain ⟨hlooks, happlied, hraw⟩ :=
      ih hnodup (db.insertRows table (rowsToken table v) (rowsIn table v))
    refine ⟨hlooks, happlied, fun raw => (hraw raw).trans ?_⟩
    unfold ClickHouse.insertRows
    by_cases heq : raw = table
    · subst heq
      simp [hnew]
    · simp [heq]

/-- A call of which some requests are taken. -/
theorem Behind.call (h : Behind calls db) (hne : v ≠ []) (n : Nat) :
    Behind (calls ++ [(v, n)]) (db.after ((requests v).take n)) := by
  obtain ⟨hlooks, happlied, hraw⟩ :=
    after_rowRequests v ((nodup_tablesIn v).sublist (List.take_sublist n _)) db
  have hsplit : db.after ((requests v).take n)
      = (db.after (rowRequests v ((tablesIn v).take n))).after
        ([ClickHouse.insertMarkers (markersToken v) (v.map CdcCommit.marker)].take
          (n - (tablesIn v).length)) := by
    rw [requests, List.take_append, List.length_map, ClickHouse.after_append, rowRequests,
      List.map_take]
  generalize db.after (rowRequests v ((tablesIn v).take n)) = db₁ at hsplit hlooks happlied hraw
  have hrows : ∀ raw ∈ rawNames,
      db₁.raw raw = Tokened.received ((calls ++ [(v, n)]).flatMap (rowsTaken raw)) := by
    intro raw hmem
    rw [hraw, h.looks, h.raw raw hmem, List.flatMap_append, List.flatMap_singleton, rowsTaken]
    by_cases htaken : raw ∈ (tablesIn v).take n
    · rw [if_pos htaken, if_pos htaken, insertsOf,
        if_neg (mem_tablesIn.mp (List.mem_of_mem_take htaken)).2, Tokened.received_append_singleton]
    · rw [if_neg htaken, if_neg htaken, List.append_nil]
  by_cases hmarkers : (tablesIn v).length < n
  · have htake : [ClickHouse.insertMarkers (markersToken v) (v.map CdcCommit.marker)].take
        (n - (tablesIn v).length) = [ClickHouse.insertMarkers (markersToken v)
          (v.map CdcCommit.marker)] := List.take_of_length_le (by simp; omega)
    rw [htake] at hsplit
    rw [hsplit]
    refine ⟨hlooks.trans h.looks, hrows, ?_⟩
    show db₁.applied.insert db₁.deduplicates _ _ = _
    rw [hlooks, h.looks, happlied, h.applied, List.flatMap_append, List.flatMap_singleton,
      markersTaken, if_pos hmarkers, markerInserts_eq hne, Tokened.received_append_singleton]
  · rw [Nat.sub_eq_zero_of_le (Nat.le_of_not_lt hmarkers), List.take_zero] at hsplit
    rw [hsplit]
    refine ⟨hlooks.trans h.looks, hrows, ?_⟩
    show db₁.applied = _
    rw [happlied, h.applied, List.flatMap_append, List.flatMap_singleton, markersTaken,
      if_neg hmarkers, List.append_nil]

/-- Calls without failures. -/
theorem Behind.afterAll (h : Behind calls db) (windows : List (List CdcCommit))
    (hne : ∀ v ∈ windows, v ≠ []) :
    Behind (calls ++ windows.map whole) (db.afterAll windows) := by
  induction windows generalizing calls db with
  | nil =>
    rw [List.map_nil, List.append_nil]
    exact h
  | cons v windows ih =>
    have hfirst := h.call (hne v List.mem_cons_self) (requests v).length
    rw [List.take_length] at hfirst
    have hrest := ih hfirst fun v' hv' => hne v' (List.mem_cons_of_mem _ hv')
    rw [List.append_assoc] at hrest
    exact hrest

theorem markerInserts_received (hne : v ≠ []) (before : List (List CdcCommit)) :
    Tokened.received ((before ++ [v]).flatMap markerInserts)
      = (Tokened.received (before.flatMap markerInserts)).insert true (markersToken v)
        (v.map CdcCommit.marker) := by
  rw [List.flatMap_append, List.flatMap_singleton, markerInserts_eq hne,
    Tokened.received_append_singleton]

theorem markersTaken_received (hne : v ≠ []) (calls : List (List CdcCommit × Nat)) :
    Tokened.received ((calls ++ [whole v]).flatMap markersTaken)
      = (Tokened.received (calls.flatMap markersTaken)).insert true (markersToken v)
        (v.map CdcCommit.marker) := by
  rw [List.flatMap_append, List.flatMap_singleton, markersTaken_whole, markerInserts_eq hne,
    Tokened.received_append_singleton]

/-- The windows are accepted if the markers behind the first of them are those of `before`
and of itself. -/
theorem Behind.accepted (h : Behind calls db)
    (hfirst : ∀ v ∈ windows.head?, Tokened.received ((calls ++ [whole v]).flatMap markersTaken)
      = Tokened.received ((before ++ [v]).flatMap markerInserts))
    (htells : Tells markersToken (fun v => v.map CdcCommit.marker) (before ++ windows))
    (hascend : Ascending (before ++ windows)) (hrenders : ∀ c ∈ windows.flatten, c.Renders) :
    Accepted windows db := by
  induction windows generalizing calls before db with
  | nil => trivial
  | cons v windows ih =>
    have hv : v ≠ [] := hascend.nonempty v (by simp)
    have hmarkers := hfirst v rfl
    have hbehind := h.call hv (requests v).length
    rw [List.take_length] at hbehind
    rw [List.append_cons] at htells hascend
    have hbefore := (ascending_append.mp hascend).1
    rw [List.flatten_cons] at hrenders
    refine ⟨⟨fun c hc => hrenders c (List.mem_append_left _ hc), counted_of_rows hbefore ?_⟩, ?_⟩
    · have hrows := rows_received_windows (htells.mono (List.subset_append_left _ _)) hbefore
      rw [hbehind.applied]
      calc (Tokened.received ((calls ++ [whole v]).flatMap markersTaken)).rows
          = (Tokened.received ((before ++ [v]).flatMap markerInserts)).rows := by rw [hmarkers]
        _ = (before ++ [v]).flatMap fun v => v.map CdcCommit.marker := hrows
        _ = (before ++ [v]).flatten.map CdcCommit.marker := (markers_flatten _).symm
    · refine ih hbehind (fun v' hv' => ?_) htells hascend
        fun c hc => hrenders c (List.mem_append_right _ hc)
      have hne : v' ≠ [] :=
        hascend.nonempty v' (List.mem_append_right _ (List.mem_of_mem_head? hv'))
      rw [markersTaken_received hne, markerInserts_received hne]
      exact congrArg _ hmarkers

theorem Accepted.renders (h : Accepted windows db) : ∀ c ∈ windows.flatten, c.Renders := by
  induction windows generalizing db with
  | nil => simp
  | cons v windows ih =>
    intro c hc
    rw [List.flatten_cons, List.mem_append] at hc
    exact hc.elim (h.1.1 c) (ih h.2 c)

end Server

/-! ## The retry -/

/-- The windows `done`, a call for the window `failed` whose requests go by `plan`, the commits
behind it, and the windows in which the commits from `failed` on come again. -/
structure Retry where
  done : List (List CdcCommit)
  failed : List CdcCommit
  plan : List Outcome
  later : List CdcCommit
  windows : List (List CdcCommit)

/-- Each marker and each row is stored once. -/
def AppliedOnce (commits : List CdcCommit) (db : ClickHouse) : Prop :=
  db.applied.rows.Perm (commits.map CdcCommit.marker) ∧
    ∀ raw ∈ rawNames, (db.raw raw).rows.Perm (rowsIn raw commits)

namespace Retry

def commits (r : Retry) : List CdcCommit := r.done.flatten ++ r.failed ++ r.later

section Runs

variable [SinkText]

/-- Behind the windows `done`. -/
def world (r : Retry) : World := ((applyWindows r.done).exec {}).2.state

/-- The call for the window `failed`. -/
def attempt (r : Retry) : Except SinkError Nat × Flight World :=
  applyWindow r.failed ⟨r.world, r.plan, []⟩

/-- The calls that follow. -/
def retried (r : Retry) : Except SinkError Unit × Flight World :=
  (applyWindows r.windows).exec r.attempt.2.state

structure Valid (r : Retry) : Prop where
  nonempty : ∀ v ∈ r.failed :: (r.done ++ r.windows), v ≠ []
  ascend : r.commits.Pairwise fun c c' => c.lsn < c'.lsn
  bounded : ∀ c ∈ r.commits, c.lsn < 2 ^ 64
  applied : ((applyWindows r.done).exec {}).1 = .ok ()
  fails : ∃ e, r.attempt.1 = .error e
  again : r.windows.flatten = r.failed ++ r.later

/-- All calls return, and everything is stored once. -/
def Recovered (r : Retry) : Prop :=
  r.retried.1 = .ok () ∧ AppliedOnce r.commits r.retried.2.state.db

/-- All changes can be written, and each insert that was taken comes again. -/
structure Repeats (r : Retry) : Prop where
  renders : ∀ c ∈ r.failed ++ r.later, c.Renders
  rows : ∀ raw ∈ (tablesIn r.failed).take (effective r.plan), ∃ v ∈ r.windows,
    lastLsn v = lastLsn r.failed ∧ rowsIn raw v = rowsIn raw r.failed
  markers : (tablesIn r.failed).length < effective r.plan → r.failed ∈ r.windows

variable {r : Retry}

theorem Valid.failed_ne (hv : r.Valid) : r.failed ≠ [] := hv.nonempty _ List.mem_cons_self

theorem Valid.windows_ne (hv : r.Valid) : ∀ v ∈ r.windows, v ≠ [] := fun v hmem =>
  hv.nonempty v (List.mem_cons_of_mem _ (List.mem_append_right _ hmem))

theorem Valid.flatten (hv : r.Valid) : (r.done ++ r.windows).flatten = r.commits := by
  rw [List.flatten_append, hv.again, commits, List.append_assoc]

theorem Valid.ascending (hv : r.Valid) : Ascending (r.done ++ r.windows) where
  nonempty := fun v hmem => hv.nonempty v (List.mem_cons_of_mem _ hmem)
  ascend := hv.flatten ▸ hv.ascend

theorem Valid.lastLsn_lt (hv : r.Valid) :
    ∀ v ∈ r.failed :: (r.done ++ r.windows), lastLsn v < 2 ^ 64 := by
  intro v hmem
  obtain ⟨c, hc, hlsn⟩ := exists_lastLsn (hv.nonempty v hmem)
  rw [← hlsn]
  apply hv.bounded
  cases hmem with
  | head =>
    unfold commits
    exact List.mem_append_left _ (List.mem_append_right _ hc)
  | tail _ hmem => exact hv.flatten ▸ List.mem_flatten_of_mem hmem hc

theorem Valid.behind (hv : r.Valid) : Behind (r.done.map whole) r.world.db := by
  have hne : ∀ v ∈ r.done, v ≠ [] := fun v hmem =>
    hv.nonempty v (List.mem_cons_of_mem _ (List.mem_append_left _ hmem))
  have hempty : Behind [] ({} : ClickHouse) := ⟨rfl, fun _ _ => rfl, rfl⟩
  have haccepted := (applyWindows_returns_iff (w := {}) hne).mp hv.applied
  rw [world, applyWindows_db hne haccepted]
  exact hempty.afterAll r.done hne

theorem Valid.tells_markers (hv : r.Valid) (hsha : NoCollisions (r.failed :: (r.done ++ r.windows))) :
    Tells markersToken (fun v => v.map CdcCommit.marker) (r.failed :: (r.done ++ r.windows)) :=
  ClickHouseSink.tells_markers hsha hv.nonempty hv.lastLsn_lt

/-- The failed call leaves the inserts that were taken. -/
theorem Valid.attempt_behind (hv : r.Valid)
    (hsha : NoCollisions (r.failed :: (r.done ++ r.windows)))
    (hrenders : ∀ c ∈ r.failed ++ r.later, c.Renders) :
    Behind (r.done.map whole ++ [(r.failed, effective r.plan)]) r.attempt.2.state.db := by
  have hfailed := hv.failed_ne
  obtain ⟨e, he⟩ := hv.fails
  have hcounted : Counted r.failed (r.world.db.after (requests r.failed)) := by
    have hsub : r.done ++ [r.failed] ⊆ r.failed :: (r.done ++ r.windows) := fun v hmem => by
      simp only [List.mem_append, List.mem_cons] at hmem ⊢
      tauto
    have hascend : Ascending (r.done ++ [r.failed]) := by
      have hall := hv.ascend
      rw [commits, List.pairwise_append] at hall
      refine ⟨fun v hmem => hv.nonempty v (hsub hmem), ?_⟩
      rw [List.flatten_append, List.flatten_singleton]
      exact hall.1
    refine (hv.behind.accepted (fun v hmem => ?_) ((hv.tells_markers hsha).mono hsub) hascend ?_).1.2
    · obtain rfl : r.failed = v := Option.some.inj hmem
      rw [markersTaken_received hfailed, markerInserts_received hfailed, List.flatMap_map]
      simp only [markersTaken_whole]
    · intro c hc
      rw [List.flatten_singleton] at hc
      exact hrenders c (List.mem_append_left _ hc)
  have hdb := applyWindow_fails hfailed (fun c hc => hrenders c (List.mem_append_left _ hc))
    hcounted (r := r.attempt.2) (Prod.ext he rfl)
  rw [hdb]
  exact hv.behind.call hfailed _

/-- The last calls are accepted if the failed window comes again whole, or its markers were
not taken. -/
theorem Valid.accepted (hv : r.Valid) (hsha : NoCollisions (r.failed :: (r.done ++ r.windows)))
    (h : r.Repeats) : Accepted r.windows r.attempt.2.state.db := by
  have hfailed := hv.failed_ne
  have htells := (hv.tells_markers hsha).mono (List.subset_cons_self _ _)
  have hrenders : ∀ c ∈ r.windows.flatten, c.Renders := hv.again ▸ h.renders
  refine (hv.attempt_behind hsha h.renders).accepted (fun v hmem => ?_) htells hv.ascending hrenders
  have hne : v ≠ [] := hv.windows_ne v (List.mem_of_mem_head? hmem)
  have hdone : (r.done.map whole).flatMap markersTaken = r.done.flatMap markerInserts := by
    rw [List.flatMap_map]
    simp only [markersTaken_whole]
  rw [markersTaken_received hne, markerInserts_received hne, List.flatMap_append,
    List.flatMap_singleton, hdone, markersTaken]
  by_cases hmarkers : (tablesIn r.failed).length < effective r.plan
  · -- the failed window is the first that comes again
    obtain ⟨front, back, hsplit⟩ := List.append_of_mem (h.markers hmarkers)
    have hwindows := (ascending_append.mp hv.ascending).2.1
    have hback := flatten_append_eq (hsplit ▸ hwindows) hfailed (hsplit ▸ hv.again) rfl
    have hfront : front = [] := by
      have hnil := List.flatten_eq_nil_iff.mp (List.append_left_eq_self.mp hback)
      refine List.eq_nil_iff_forall_not_mem.mpr fun u hu => ?_
      exact hwindows.nonempty u (by simp [hsplit, hu]) (hnil u hu)
    have hhead : r.failed = v := by
      rw [hsplit, hfront] at hmem
      exact Option.some.inj hmem
    rw [if_pos hmarkers, ← hhead, markerInserts_eq hfailed, Tokened.received_append_singleton,
      Tokened.insert_insert]
  · rw [if_neg hmarkers, List.append_nil]

/-- What a table holds in the end, where `taken` is what the failed call has put in. -/
theorem Valid.perm_iff {α : Type} {token : List CdcCommit → String}
    {rows : List CdcCommit → List α} (hv : r.Valid)
    (htells : Tells token rows (r.failed :: (r.done ++ r.windows))) {p : Prop} [Decidable p]
    (hrows : p → rows r.failed ≠ []) :
    (Tokened.received (r.done.flatMap (insertsOf token rows) ++
        (if p then insertsOf token rows r.failed else []) ++
          r.windows.flatMap (insertsOf token rows))).rows.Perm ((r.done ++ r.windows).flatMap rows) ↔
      (p → ∃ v ∈ r.windows, lastLsn v = lastLsn r.failed ∧ rows v = rows r.failed) := by
  by_cases hp : p
  · rw [if_pos hp, insertsOf, if_neg (hrows hp), List.append_assoc, List.singleton_append,
      perm_received_iff htells hv.ascending hv.failed_ne hv.again (hrows hp)]
    exact ⟨fun h _ => h, fun h => h hp⟩
  · rw [if_neg hp, List.append_nil, ← List.flatMap_append,
      rows_received_windows (htells.mono (List.subset_cons_self _ _)) hv.ascending]
    exact iff_of_true (List.Perm.refl _) fun h => absurd h hp

/-- The tables behind all calls hold each row and each marker once exactly when the inserts
that were taken come again. -/
theorem Valid.appliedOnce_iff (hv : r.Valid)
    (hsha : NoCollisions (r.failed :: (r.done ++ r.windows)))
    (hrenders : ∀ c ∈ r.failed ++ r.later, c.Renders) :
    AppliedOnce r.commits (r.attempt.2.state.db.afterAll r.windows) ↔ r.Repeats := by
  have hfailed := hv.failed_ne
  have hbehind := (hv.attempt_behind hsha hrenders).afterAll r.windows hv.windows_ne
  have hmarkers : (r.attempt.2.state.db.afterAll r.windows).applied.rows.Perm
      (r.commits.map CdcCommit.marker) ↔
        ((tablesIn r.failed).length < effective r.plan → r.failed ∈ r.windows) := by
    have hiff := hv.perm_iff (hv.tells_markers hsha) (p := (tablesIn r.failed).length < effective r.plan)
      fun _ h => hfailed (List.map_eq_nil_iff.mp h)
    rw [hbehind.applied, ← hv.flatten, markers_flatten]
    simp only [List.flatMap_append, List.flatMap_map, List.flatMap_singleton, markersTaken_whole]
      at hiff ⊢
    refine hiff.trans (forall_congr' fun _ => ⟨?_, fun h => ⟨_, h, rfl, rfl⟩⟩)
    rintro ⟨v, hmem, hlast, hsame⟩
    -- as many commits with the same end
    obtain ⟨front, back, hsplit⟩ := List.append_of_mem hmem
    have hwindows := (ascending_append.mp hv.ascending).2.1
    have hback := flatten_append_eq (hsplit ▸ hwindows) hfailed (hsplit ▸ hv.again) hlast
    have hlength := congrArg List.length hback
    have hlength' := congrArg List.length hsame
    rw [List.length_append] at hlength
    rw [List.length_map, List.length_map] at hlength'
    have hnil : front.flatten = [] := List.eq_nil_of_length_eq_zero (by omega)
    rw [hnil, List.nil_append] at hback
    exact hback ▸ hmem
  have hrows : ∀ raw ∈ rawNames, ((r.attempt.2.state.db.afterAll r.windows).raw raw).rows.Perm
      (rowsIn raw r.commits) ↔ (raw ∈ (tablesIn r.failed).take (effective r.plan) →
        ∃ v ∈ r.windows, lastLsn v = lastLsn r.failed ∧ rowsIn raw v = rowsIn raw r.failed) := by
    intro raw hraw
    have hiff := hv.perm_iff (tells_rows hsha hv.lastLsn_lt hraw)
      (p := raw ∈ (tablesIn r.failed).take (effective r.plan))
      fun h => (mem_tablesIn.mp (List.mem_of_mem_take h)).2
    rw [hbehind.raw raw hraw, ← hv.flatten, rowsIn_flatten]
    simp only [List.flatMap_append, List.flatMap_map, List.flatMap_singleton, rowsTaken_whole hraw]
      at hiff ⊢
    exact hiff
  constructor
  · rintro ⟨happlied, hraw⟩
    refine ⟨hrenders, fun raw hmem => ?_, hmarkers.mp happlied⟩
    have hraw' := (mem_tablesIn.mp (List.mem_of_mem_take hmem)).1
    exact (hrows raw hraw').mp (hraw raw hraw') hmem
  · intro h
    exact ⟨hmarkers.mpr h.markers, fun raw hraw => (hrows raw hraw).mpr (h.rows raw)⟩

/-- The commits of a failed window that come again in other windows are applied once exactly
when each insert that was taken comes again with them. -/
theorem recovered_iff (hv : r.Valid) (hsha : NoCollisions (r.failed :: (r.done ++ r.windows))) :
    r.Recovered ↔ r.Repeats := by
  have hreturns := applyWindows_returns_iff (w := r.attempt.2.state) hv.windows_ne
  constructor
  · rintro ⟨hok, honce⟩
    have haccepted := hreturns.mp hok
    have hrenders : ∀ c ∈ r.failed ++ r.later, c.Renders := hv.again ▸ haccepted.renders
    rw [retried, applyWindows_db hv.windows_ne haccepted] at honce
    exact (hv.appliedOnce_iff hsha hrenders).mp honce
  · intro h
    have haccepted := hv.accepted hsha h
    refine ⟨hreturns.mpr haccepted, ?_⟩
    rw [retried, applyWindows_db hv.windows_ne haccepted]
    exact (hv.appliedOnce_iff hsha h.renders).mpr h

end Runs

/-! Two updates of a customer in one window, of which the last reply is lost. -/

/-- The digests of the texts that are hashed, by their lengths. -/
def customerDigest : Nat → String
  | 140 => "1f9ece5af75b341fa46b7be550faa91902d625600680d83b14bc83aff5dd7c22"
  | 142 => "22689ab069de147a340f7aaae31881a1078ffd822bc4e2c62d2f780adaaa5144"
  | 222 => "ae7c229159e123c24757904ac8e333109f38563cc4ae8e9efd0738348b6c7de0"
  | 425 => "29caddb2109f1ddf25251f9f0f2e96a0d88e9a0d89e136b301537c97559d234c"
  | 428 => "620e2bd5fd32125ad6205944c9da9a878fda5af20a8e0d4abbd56a3bd64652f4"
  | _ => "331fa8b93ce21d4eb6362971f39197a5a5111f4b827d3e4869211b4267311652"

@[reducible] def customerText : SinkText where
  rowJson _ r :=
    if r.sourceLsn = 90 then
      "\x7b\"_change_ordinal\":1,\"_deleted\":0,\"_source_lsn\":90,\"_version\":\"386547056641\"," ++
        "\"created_at\":\"2024-01-01 00:00:00+00\",\"customer_id\":\"4\"," ++
        "\"email_domain\":\"example.com\",\"profile\":\"[]\",\"segment\":\"smb\"," ++
        "\"tenant_id\":\"1\"\x7d"
    else
      "\x7b\"_change_ordinal\":1,\"_deleted\":0,\"_source_lsn\":600,\"_version\":\"2576980377601\"," ++
        "\"created_at\":\"2024-01-01 00:00:00+00\",\"customer_id\":\"4\"," ++
        "\"email_domain\":\"example.com\",\"profile\":\"[]\",\"segment\":\"smb\"," ++
        "\"tenant_id\":\"1\"\x7d"
  windowSha256 bytes := customerDigest bytes.length

def lostReply (windows : List (List CdcCommit)) : Retry where
  done := []
  failed := [customerCommit 90 someDigest, customerCommit 600 otherDigest]
  plan := [.done, .failed 1]
  later := []
  windows

/-- No two of the texts that are hashed have one length. -/
private theorem noCollisions_customer :
    letI := customerText
    NoCollisions [[customerCommit 90 someDigest, customerCommit 600 otherDigest],
      [customerCommit 90 someDigest], [customerCommit 600 otherDigest]] := by
  let _ := customerText
  let windows := [[customerCommit 90 someDigest, customerCommit 600 otherDigest],
    [customerCommit 90 someDigest], [customerCommit 600 otherDigest]]
  have hlengths : (hashed windows).map List.length = [222, 638, 140, 425, 142, 428] := by
    decide +kernel
  have hdigest : ∀ m ∈ [222, 638, 140, 425, 142, 428], ∀ n ∈ [222, 638, 140, 425, 142, 428],
      customerDigest m = customerDigest n → m = n := by
    decide +kernel
  have hnodup : ((hashed windows).map List.length).Nodup := by
    rw [hlengths]
    decide
  intro x hx y hy h
  have hx' := List.mem_map_of_mem (f := List.length) hx
  have hy' := List.mem_map_of_mem (f := List.length) hy
  rw [hlengths] at hx' hy'
  exact List.inj_on_of_nodup_map hnodup hx hy (hdigest _ hx' _ hy' h)

theorem recovered_same_window :
    letI := customerText
    (lostReply [[customerCommit 90 someDigest, customerCommit 600 otherDigest]]).Recovered := by
  let _ := customerText
  refine (recovered_iff ⟨by decide, by decide, by decide, rfl, ⟨.request, ?_⟩, rfl⟩
    (noCollisions_customer.mono ?_)).mpr ⟨?_, ?_, ?_⟩
  · decide +kernel
  · simp [lostReply]
  · decide +kernel
  · decide +kernel
  · decide +kernel

/-- The window is cut in two: the markers are there twice, and the calls never return. -/
theorem not_recovered_split :
    letI := customerText
    let r := lostReply [[customerCommit 90 someDigest], [customerCommit 600 otherDigest]]
    r.Valid ∧ NoCollisions (r.failed :: (r.done ++ r.windows)) ∧ ¬r.Recovered := by
  let _ := customerText
  refine ⟨⟨by decide, by decide, by decide, rfl, ⟨.request, ?_⟩, rfl⟩, noCollisions_customer, ?_⟩
  · decide +kernel
  · intro h
    have hok := h.1
    revert hok
    decide +kernel

end Retry

end GrayDB.R1.ClickHouseSink
