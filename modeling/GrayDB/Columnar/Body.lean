import GrayDB.Columnar.Effects
import GrayDB.Columnar.Rendering
import GrayDB.Columnar.Scan
import GrayDB.Lib.Pages

/-!
# The rows behind a store

The rows of a store as the pages of a list: a closed page for each segment, and the open
rows.  Each row has the text it was inserted with and the LSNs at which it came and went,
also when it is flushed.  `Body` says that the store holds these rows: the segment files
have them rendered, and the sidecars have their delete marks.  The three ways in which rows
move keep it.
-/

namespace GrayDB.Columnar

open Lib Log Registry

def OpenRow.isLive (row : OpenRow) : Bool := row.deleteLsn.isNone

def OpenRow.kill (lsn : Nat) (row : OpenRow) : OpenRow := { row with deleteLsn := some lsn }

/-- The address that a location stands for. -/
def Loc.addr (loc : Loc) : Addr := (if loc.seg = openSegment then none else some loc.seg, loc.row)

theorem Loc.addr_injective {loc loc' : Loc} (h : loc.addr = loc'.addr) : loc = loc' := by
  obtain ⟨seg, row⟩ := loc
  obtain ⟨seg', row'⟩ := loc'
  obtain ⟨hseg, rfl⟩ := Prod.mk.inj h
  dsimp only at hseg
  split at hseg <;> split at hseg <;> simp_all

/-- What a row is later: the same, or deleted if it was live. -/
def OpenRow.Becomes (r r' : OpenRow) : Prop :=
  r' = r ∨ r.isLive = true ∧ ∃ lsn, r' = OpenRow.kill lsn r

theorem OpenRow.Becomes.refl (r : OpenRow) : r.Becomes r := Or.inl rfl

theorem OpenRow.Becomes.trans (r r' r'' : OpenRow) (h : r.Becomes r') (h' : r'.Becomes r'') :
    r.Becomes r'' := by
  rcases h with rfl | ⟨hlive, lsn, rfl⟩
  · exact h'
  · rcases h' with rfl | ⟨hdead, -⟩
    · exact Or.inr ⟨hlive, lsn, rfl⟩
    · exact nomatch hdead

theorem OpenRow.Becomes.values_eq {r r' : OpenRow} (h : r.Becomes r') : r'.values = r.values := by
  rcases h with rfl | ⟨-, lsn, rfl⟩
  · rfl
  · rfl

/-- The rows later, when rows with these texts have been inserted. -/
def Later (rows : List OpenRow) (texts : List Row) (rows' : List OpenRow) : Prop :=
  ∃ old new, rows' = old ++ new ∧ List.Forall₂ OpenRow.Becomes rows old ∧
    new.map OpenRow.values = texts

namespace Later

variable {rows rows' rows'' : List OpenRow} {texts texts' : List Row} {pages : Pages OpenRow}

theorem of_forall₂ (h : List.Forall₂ OpenRow.Becomes rows rows') : Later rows [] rows' :=
  ⟨rows', [], (List.append_nil _).symm, h, rfl⟩

theorem refl (rows : List OpenRow) : Later rows [] rows :=
  of_forall₂ (List.forall₂_same.mpr fun r _ => OpenRow.Becomes.refl r)

theorem trans (h : Later rows texts rows') (h' : Later rows' texts' rows'') :
    Later rows (texts ++ texts') rows'' := by
  obtain ⟨old, new, rfl, hold, rfl⟩ := h
  obtain ⟨old', new', rfl, hold', rfl⟩ := h'
  have htake := List.forall₂_take old.length hold'
  have hdrop := List.forall₂_drop old.length hold'
  rw [List.take_left] at htake
  rw [List.drop_left] at hdrop
  refine ⟨old'.take old.length, old'.drop old.length ++ new', ?_, ?_, ?_⟩
  · rw [← List.append_assoc, List.take_append_drop]
  · exact Pages.forall₂_trans OpenRow.Becomes.trans hold htake
  · rw [List.map_append]
    congr 1
    have hsame : List.Forall₂ (fun v v' => v = v') (new.map OpenRow.values)
        ((old'.drop old.length).map OpenRow.values) := by
      rw [List.forall₂_map_left_iff, List.forall₂_map_right_iff]
      exact hdrop.imp fun _ _ h => h.values_eq.symm
    exact (List.forall₂_eq_eq_eq ▸ hsame : _ = _).symm

theorem push (pages : Pages OpenRow) (r : OpenRow) :
    Later pages.flat [r.values] (pages.push r).flat :=
  ⟨pages.flat, [r], Pages.flat_push pages r,
    List.forall₂_same.mpr fun r _ => OpenRow.Becomes.refl r, rfl⟩

theorem kill {a : Addr} {r : OpenRow} (hget : pages.get? a = some r) (hlive : r.isLive = true)
    (lsn : Nat) : Later pages.flat [] (pages.modify a (OpenRow.kill lsn)).flat := by
  refine of_forall₂ (Pages.Rel.modify OpenRow.Becomes.refl fun x hx => ?_).flat
  obtain rfl := Option.some.inj (hget.symm.trans hx)
  exact Or.inr ⟨hlive, lsn, rfl⟩

end Later

section Modify

variable {α β : Type} {l : List α} {i : Nat} {g : α → α}

private theorem map_modify_of_eq {f : α → β} (h : ∀ a, f (g a) = f a) :
    (l.modify i g).map f = l.map f := by
  apply List.ext_getElem?
  intro j
  rw [List.getElem?_map, List.getElem?_map, List.getElem?_modify]
  by_cases hij : i = j
  · cases l[j]? <;> simp [hij, h]
  · simp [hij]

private theorem forall_mem_modify {P : α → Prop} (h : ∀ a ∈ l, P a) (hg : ∀ a, P a → P (g a)) :
    ∀ a ∈ l.modify i g, P a := by
  intro a ha
  obtain ⟨j, hj⟩ := List.mem_iff_getElem?.mp ha
  rw [List.getElem?_modify] at hj
  obtain ⟨b, hb, hba⟩ := Option.map_eq_some_iff.mp hj
  have hb' := h b (List.mem_of_getElem? hb)
  split at hba
  · rw [← hba]
    exact hg b hb'
  · rw [← hba]
    exact hb'

end Modify

/-- A sidecar marks the rows that are deleted, each of them once. -/
structure Marks (rows : List OpenRow) (deletes : List (Nat × Nat)) : Prop where
  once : (deletes.map Prod.fst).Nodup
  mem_iff : ∀ j lsn, (j, lsn) ∈ deletes ↔ ∃ r, rows[j]? = some r ∧ r.deleteLsn = some lsn

section Body

variable [FloatText]

/-- The store holds the rows of these pages. -/
structure TableStore.Body (s : TableStore) (pages : Pages OpenRow) : Prop where
  opened : pages.opened = s.opened
  segments : s.segments = pages.closed.mapIdx segmentMeta
  files : ∀ i rows, pages.closed[i]? = some rows →
    (∀ r ∈ rows, renderRow s.columns r = .ok (rendering s.columns r)) ∧
      s.files.lookup i = some (rows.map fun r => (rendering s.columns r, r.insertLsn))
  marks : ∀ i rows, pages.closed[i]? = some rows → Marks rows ((s.sidecars.lookup i).getD [])
  fresh : ∀ i, pages.closed.length ≤ i → s.files.lookup i = none ∧ s.sidecars.lookup i = none
  cache : s.CacheOk
  live : s.liveRows = pages.flat.countP OpenRow.isLive
  rows : ∀ r ∈ pages.flat, r.values.length = s.columns.length ∧ r.insertLsn ≤ maxLsn ∧
    ∀ d ∈ r.deleteLsn, d ≤ maxLsn
  pageFits : ∀ page ∈ pages.closed, page ≠ [] ∧ page.length ≤ 2 ^ 32
  openFits : pages.opened.length ≤ 2 ^ 32
  closedFit : pages.closed.length ≤ openSegment

namespace TableStore.Body

variable {s t : TableStore} {pages : Pages OpenRow}

theorem length_segments (h : s.Body pages) : s.segments.length = pages.closed.length := by
  rw [h.segments, List.length_mapIdx]

/-- The number of the next segment. -/
theorem newId (h : s.Body pages) (hroom : s.segments.length < openSegment) :
    s.segments.length % 2 ^ 32 = pages.closed.length := by
  have hlen := h.length_segments
  unfold openSegment at hroom
  rw [Nat.mod_eq_of_lt (by omega), hlen]

/-- Reading keeps everything but the cache. -/
theorem reads (h : s.Body pages) (hreads : s.Reads t) : t.Body pages := by
  obtain ⟨⟨segCache, rfl⟩, hcache⟩ := hreads
  exact { h with cache := hcache h.cache }

theorem withIndex (h : s.Body pages) (index : AList fun _ : Bytes => Loc) :
    Body { s with index } pages := { h with }

theorem withAppliedLsn (h : s.Body pages) (appliedLsn : Nat) :
    Body { s with appliedLsn } pages := { h with }

theorem withRow {values : Row} {lsn : Nat} (h : s.Body pages)
    (hwidth : values.length = s.columns.length) (hlsn : lsn ≤ maxLsn)
    (hroom : s.opened.length < 2 ^ 32) :
    (s.withRow values lsn).Body (pages.push { values, insertLsn := lsn }) :=
  { h with
    opened := by
      rw [Pages.push, h.opened]
      rfl
    live := by
      rw [Pages.flat_push, List.countP_append, ← h.live]
      rfl
    rows := by
      intro r hr
      rw [Pages.flat_push, List.mem_append, List.mem_singleton] at hr
      rcases hr with hr | rfl
      · exact h.rows r hr
      · exact ⟨hwidth, hlsn, by simp⟩
    openFits := by
      rw [Pages.push, List.length_append, h.opened]
      exact hroom }

omit [FloatText] in
private theorem segmentMeta_modify (i j lsn : Nat) (rows : List OpenRow) :
    segmentMeta i (rows.modify j (OpenRow.kill lsn)) = segmentMeta i rows := by
  have hstamps : (rows.modify j (OpenRow.kill lsn)).map OpenRow.insertLsn
      = rows.map OpenRow.insertLsn := map_modify_of_eq fun _ => rfl
  simp only [segmentMeta, List.length_modify, hstamps]

omit [FloatText] in
private theorem marks_modify {rows : List OpenRow} {deletes : List (Nat × Nat)} {j lsn : Nat}
    {r : OpenRow} (h : Marks rows deletes) (hr : rows[j]? = some r) (hlive : r.deleteLsn = none) :
    Marks (rows.modify j (OpenRow.kill lsn)) (deletes ++ [(j, lsn)]) where
  once := by
    rw [List.map_append, List.nodup_append]
    refine ⟨h.once, by simp, ?_⟩
    rintro i hi i' hi' rfl
    obtain ⟨d, hd, rfl⟩ := List.mem_map.mp hi
    obtain ⟨r', hr', hdead⟩ := (h.mem_iff d.1 d.2).mp hd
    simp only [List.map_cons, List.map_nil, List.mem_singleton] at hi'
    rw [hi', hr] at hr'
    rw [← Option.some.inj hr', hlive] at hdead
    exact nomatch hdead
  mem_iff := by
    intro i l
    rw [List.mem_append, h.mem_iff, List.mem_singleton, List.getElem?_modify]
    by_cases hij : j = i
    · subst hij
      simp [hr, hlive, OpenRow.kill, eq_comm]
    · have hne : i ≠ j := Ne.symm hij
      simp [hij, hne]

private theorem rows_modify {a : Addr} {r : OpenRow} {lsn : Nat} (h : s.Body pages)
    (hget : pages.get? a = some r) (hlsn : lsn ≤ maxLsn) :
    ∀ r ∈ (pages.modify a (OpenRow.kill lsn)).flat, r.values.length = s.columns.length ∧
      r.insertLsn ≤ maxLsn ∧ ∀ d ∈ r.deleteLsn, d ≤ maxLsn := by
  apply Pages.forall_mem_modify hget h.rows
  intro ⟨hwidth, hborn, _⟩
  refine ⟨hwidth, hborn, ?_⟩
  rintro d ⟨⟩
  exact hlsn

private theorem live_modify {a : Addr} {r : OpenRow} (h : s.Body pages)
    (hget : pages.get? a = some r) (hlive : r.isLive = true) (lsn : Nat) :
    s.liveRows - 1 = (pages.modify a (OpenRow.kill lsn)).flat.countP OpenRow.isLive := by
  have hone := Pages.countP_modify (f := OpenRow.kill lsn) hget hlive rfl
  rw [h.live]
  omega

/-- A live row is marked deleted. -/
theorem withMark {loc : Loc} {lsn : Nat} {r : OpenRow} (h : s.Body pages)
    (hget : pages.get? loc.addr = some r) (hlive : r.isLive = true) (hlsn : lsn ≤ maxLsn) :
    (s.withMark loc lsn).Body (pages.modify loc.addr (OpenRow.kill lsn)) := by
  have hrows := h.rows_modify hget hlsn
  have hcount := h.live_modify hget hlive lsn
  obtain ⟨seg, row⟩ := loc
  by_cases hopen : seg = openSegment
  · have haddr : Loc.addr ⟨seg, row⟩ = (none, row) := by rw [Loc.addr, if_pos hopen]
    rw [haddr] at hget hrows hcount ⊢
    unfold TableStore.withMark
    rw [if_pos hopen, if_pos hopen]
    exact { h with
      opened := by
        rw [Pages.modify, h.opened]
        rfl
      live := hcount
      rows := hrows
      openFits := by
        rw [Pages.length_opened_modify]
        exact h.openFits }
  · have haddr : Loc.addr ⟨seg, row⟩ = (some seg, row) := by rw [Loc.addr, if_neg hopen]
    rw [haddr] at hget hrows hcount ⊢
    obtain ⟨page, hpage, hrow⟩ := Option.bind_eq_some_iff.mp hget
    have hpage : pages.closed[seg]? = some page := hpage
    obtain ⟨hseg, -⟩ := List.getElem?_eq_some_iff.mp hpage
    -- A page of the new list is an old one, or the one with the row.
    have hpages : ∀ i rows, (pages.closed.modify seg fun page =>
          page.modify row (OpenRow.kill lsn))[i]? = some rows →
        i ≠ seg ∧ pages.closed[i]? = some rows ∨
          i = seg ∧ rows = page.modify row (OpenRow.kill lsn) := by
      intro i rows hi
      rw [List.getElem?_modify] at hi
      by_cases his : i = seg
      · subst his
        rw [hpage] at hi
        exact Or.inr ⟨rfl, by simpa using hi.symm⟩
      · rw [← List.getElem?_modify, List.getElem?_modify_ne _ _ (Ne.symm his)] at hi
        exact Or.inl ⟨his, hi⟩
    unfold TableStore.withMark
    rw [if_neg hopen, if_neg hopen]
    exact { h with
      opened := h.opened
      segments := by
        rw [h.segments]
        apply List.ext_getElem?
        intro i
        rw [Pages.modify, List.getElem?_mapIdx, List.getElem?_mapIdx, List.getElem?_modify]
        by_cases his : seg = i
        · cases pages.closed[i]? <;> simp [his, segmentMeta_modify]
        · simp [his]
      files := by
        intro i rows hi
        rcases hpages i rows hi with ⟨-, hold⟩ | ⟨rfl, rfl⟩
        · exact h.files i rows hold
        · obtain ⟨hrendered, hfile⟩ := h.files i page hpage
          refine ⟨forall_mem_modify hrendered fun _ hr => hr, ?_⟩
          have hsame : (page.modify row (OpenRow.kill lsn)).map
              (fun r => (rendering s.columns r, r.insertLsn))
              = page.map fun r => (rendering s.columns r, r.insertLsn) :=
            map_modify_of_eq fun _ => rfl
          show s.files.lookup i = some ((page.modify row (OpenRow.kill lsn)).map
            fun r => (rendering s.columns r, r.insertLsn))
          rw [hsame, hfile]
      marks := by
        intro i rows hi
        rcases hpages i rows hi with ⟨his, hold⟩ | ⟨rfl, rfl⟩
        · rw [AList.lookup_insert_ne his]
          exact h.marks i rows hold
        · rw [AList.lookup_insert]
          exact marks_modify (h.marks i page hpage) hrow (Option.isNone_iff_eq_none.mp hlive)
      fresh := by
        intro i hi
        rw [Pages.modify, List.length_modify] at hi
        have his : i ≠ seg := by omega
        rw [AList.lookup_insert_ne his]
        exact h.fresh i hi
      live := hcount
      rows := hrows
      pageFits := by
        intro rows hmem
        obtain ⟨i, hi⟩ := List.mem_iff_getElem?.mp hmem
        rcases hpages i rows hi with ⟨-, hold⟩ | ⟨-, rfl⟩
        · exact h.pageFits rows (List.mem_of_getElem? hold)
        · have hold := h.pageFits page (List.mem_of_getElem? hpage)
          rw [List.length_modify, Ne, List.modify_eq_nil_iff]
          exact hold
      openFits := h.openFits
      closedFit := by
        rw [Pages.modify, List.length_modify]
        exact h.closedFit }

omit [FloatText] in
private theorem marks_rowDeletes {rows : List OpenRow} (hfits : rows.length ≤ 2 ^ 32) :
    Marks rows (rowDeletes rows) := by
  have hmod : ∀ r ∈ rows.zipIdx, r.2 % 2 ^ 32 = r.2 := by
    intro r hr
    have hlt := (List.mem_zipIdx hr).2.1
    exact Nat.mod_eq_of_lt (by omega)
  have heq : rowDeletes rows
      = rows.zipIdx.filterMap fun r => r.1.deleteLsn.map fun lsn => (r.2, lsn) := by
    apply List.filterMap_congr
    intro r hr
    rw [hmod r hr]
  rw [heq]
  constructor
  · have hnumbers : rows.zipIdx.Pairwise fun r r' => r.2 ≠ r'.2 := by
      rw [← List.pairwise_map, List.zipIdx_map_snd]
      exact List.nodup_range'
    rw [List.Nodup, List.pairwise_map, List.pairwise_filterMap]
    refine hnumbers.imp ?_
    intro r r' hne d hd d' hd'
    obtain ⟨lsn, -, rfl⟩ := Option.map_eq_some_iff.mp hd
    obtain ⟨lsn', -, rfl⟩ := Option.map_eq_some_iff.mp hd'
    exact hne
  · intro j lsn
    rw [List.mem_filterMap]
    constructor
    · rintro ⟨⟨r, i⟩, hr, hd⟩
      obtain ⟨d, hdead, heq⟩ := Option.map_eq_some_iff.mp hd
      obtain ⟨rfl, rfl⟩ := Prod.mk.inj heq
      exact ⟨r, List.mk_mem_zipIdx_iff_getElem?.mp hr, hdead⟩
    · rintro ⟨r, hr, hdead⟩
      refine ⟨(r, j), List.mk_mem_zipIdx_iff_getElem?.mpr hr, ?_⟩
      rw [hdead]
      rfl

/-- The open rows become a segment. -/
theorem withSegment {rendered : List Row} (h : s.Body pages) (hopen : s.opened ≠ [])
    (hrendered : renderRows s.columns s.opened = .ok rendered)
    (hroom : s.segments.length < openSegment) :
    (s.withSegment rendered).Body pages.close := by
  have hlen := h.length_segments
  obtain ⟨hrows, rfl⟩ := renderRows_eq_map hrendered
  have hpages : ∀ i rows, pages.close.closed[i]? = some rows →
      i < pages.closed.length ∧ pages.closed[i]? = some rows ∨
        i = pages.closed.length ∧ rows = s.opened := by
    intro i rows hi
    rw [Pages.close, h.opened, List.getElem?_append] at hi
    split at hi
    · rename_i hlt
      exact Or.inl ⟨hlt, hi⟩
    · rename_i hge
      obtain ⟨hlt, hget⟩ := List.getElem?_eq_some_iff.mp hi
      simp only [List.length_cons, List.length_nil] at hlt
      exact Or.inr ⟨by omega, by simpa using hget.symm⟩
  have hfresh := h.fresh pages.closed.length (Nat.le_refl _)
  unfold TableStore.withSegment
  rw [h.newId hroom]
  exact { h with
    opened := rfl
    segments := by
      rw [Pages.close, List.mapIdx_append, h.segments, h.opened]
      simp
    files := by
      intro i rows hi
      rcases hpages i rows hi with ⟨hlt, hold⟩ | ⟨rfl, rfl⟩
      · rw [AList.lookup_insert_ne (by omega), AList.lookup_insert_ne (by omega)]
        exact h.files i rows hold
      · refine ⟨hrows, ?_⟩
        rw [AList.lookup_insert, List.zip_map']
    marks := by
      intro i rows hi
      rcases hpages i rows hi with ⟨hlt, hold⟩ | ⟨rfl, rfl⟩
      · rw [AList.lookup_insert_ne (by omega)]
        exact h.marks i rows hold
      · rw [AList.lookup_insert, hfresh.2]
        exact marks_rowDeletes (h.opened ▸ h.openFits)
    fresh := by
      intro i hi
      rw [Pages.close, List.length_append] at hi
      simp only [List.length_cons, List.length_nil] at hi
      rw [AList.lookup_insert_ne (by omega), AList.lookup_insert_ne (by omega),
        AList.lookup_insert_ne (by omega)]
      exact h.fresh i (by omega)
    cache := by
      intro seg rows hc
      have hold := h.cache seg rows hc
      have hne : seg ≠ pages.closed.length := by
        rintro rfl
        rw [fileRows, hfresh.1] at hold
        cases hold
      unfold fileRows at hold ⊢
      rw [AList.lookup_insert_ne hne, AList.lookup_insert_ne hne]
      exact hold
    live := by
      rw [Pages.flat_close]
      exact h.live
    rows := by
      rw [Pages.flat_close]
      exact h.rows
    pageFits := by
      intro page hpage
      rw [Pages.close, List.mem_append, List.mem_singleton] at hpage
      rcases hpage with hpage | rfl
      · exact h.pageFits page hpage
      · exact ⟨h.opened ▸ hopen, h.openFits⟩
    openFits := Nat.zero_le _
    closedFit := by
      rw [Pages.close, List.length_append]
      simp only [List.length_cons, List.length_nil]
      omega }

/-! ## What is read -/

/-- The rows of a segment file. -/
theorem fileRows_eq (h : s.Body pages) {i : Nat} {rows : List OpenRow}
    (hrows : pages.closed[i]? = some rows) :
    s.fileRows i = some (rows.map (rendering s.columns)) := by
  have hstamps : ∀ r ∈ rows, r.insertLsn ≤ maxLsn := by
    intro r hr
    refine (h.rows r (List.mem_append_left _ ?_)).2.1
    exact List.mem_flatten.mpr ⟨rows, List.mem_of_getElem? hrows, hr⟩
  rw [fileRows, (h.files i rows hrows).2, Option.map_some, appendRenderedRows_none hstamps]

omit [FloatText] in
theorem mem_deletedBy {rows : List OpenRow} {deletes : List (Nat × Nat)} {j : Nat}
    {r : OpenRow} (h : Marks rows deletes) (hr : rows[j]? = some r) (lsn : Nat) :
    j ∈ deletedBy deletes lsn ↔ r.deleteLsn.any (fun d => decide (d ≤ lsn)) = true := by
  simp only [deletedBy, List.mem_map, List.mem_filter, decide_eq_true_eq, Prod.exists,
    exists_and_right, exists_eq_right, h.mem_iff, hr, Option.any_eq_true]
  constructor
  · rintro ⟨d, ⟨r', hr', hdead⟩, hle⟩
    obtain rfl := Option.some.inj hr'
    exact ⟨d, hdead, hle⟩
  · rintro ⟨d, hdead, hle⟩
    exact ⟨d, ⟨r, rfl, hdead⟩, hle⟩

/-- A segment is pruned only if none of its rows is visible. -/
theorem scanSegment_eq (h : s.Body pages) (b : Batching) (lsn : Nat) {i : Nat}
    {rows : List OpenRow} (hrows : pages.closed[i]? = some rows) :
    s.scanSegment b lsn (segmentMeta i rows)
      = .ok ((rows.filter (OpenRow.visibleAt lsn)).map (rendering s.columns)) := by
  unfold scanSegment
  by_cases hprune : lsn < (segmentMeta i rows).lsnMin
  · have hnone : rows.filter (OpenRow.visibleAt lsn) = [] := by
      apply List.filter_eq_nil_iff.mpr
      intro r hr
      have hmin : (segmentMeta i rows).lsnMin ≤ r.insertLsn := by
        obtain ⟨m, hm⟩ := Option.isSome_iff_exists.mp
          (List.isSome_min?_of_mem (List.mem_map_of_mem (f := OpenRow.insertLsn) hr))
        simp only [segmentMeta, hm, Option.getD_some]
        exact (List.min?_eq_some_iff.mp hm).2 _ (List.mem_map_of_mem hr)
      have hlt : ¬ r.insertLsn ≤ lsn := by omega
      simp [OpenRow.visibleAt, hlt]
    rw [if_pos hprune, hnone, List.map_nil]
  · rw [if_neg hprune]
    have hfits := (h.pageFits rows (List.mem_of_getElem? hrows)).2
    have hid : (segmentMeta i rows).id = i := rfl
    rw [hid, (h.files i rows hrows).2]
    dsimp only
    rw [scanBatches_eq, b.flatten_cut, appendRenderedRows_eq]
    intro j r hr
    obtain ⟨hlt, -⟩ := List.getElem?_eq_some_iff.mp hr
    rw [Nat.mod_eq_of_lt (by omega)]
    exact mem_deletedBy (h.marks i rows hrows) hr lsn

/-- A scan gives the rows visible at the LSN, in the order in which they came. -/
theorem scanAt_eq (h : s.Body pages) (b : Batching) (lsn : Nat) : s.scanAt b lsn
    = .ok ((pages.closed.flatten.filter (OpenRow.visibleAt lsn)).map (rendering s.columns)
        ++ (pages.opened.filter (OpenRow.visibleAt lsn)).map OpenRow.values) := by
  have hparts : s.segments.mapM (s.scanSegment b lsn) = .ok (pages.closed.map fun rows =>
      (rows.filter (OpenRow.visibleAt lsn)).map (rendering s.columns)) := by
    rw [h.segments, mapM_eq_ok_iff, List.forall₂_iff_get]
    refine ⟨by simp, ?_⟩
    intro i hi hi'
    rw [List.length_mapIdx] at hi
    simp only [List.get_eq_getElem, List.getElem_mapIdx, List.getElem_map]
    exact h.scanSegment_eq b lsn (List.getElem?_eq_getElem hi)
  rw [scanAt, hparts, h.opened, List.filter_flatten, List.map_flatten, List.map_map]
  rfl

end TableStore.Body

end Body

end GrayDB.Columnar
