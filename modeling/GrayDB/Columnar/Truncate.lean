import GrayDB.Columnar.Invariant

/-!
# Truncates

A truncate marks the rows that the index leads to.  A table without a key has no index
entries, and neither has a row whose key was inserted again, so that these rows stay.

`Truncated` says what a truncate should do: behind it, a scan at its LSN or later shows only
rows that are inserted later, and earlier scans are as before.  `Truncatable` is the
condition on the store under which it does, and `truncate_exact_iff` says that it is exact.
-/

namespace GrayDB.Columnar

open Lib Lib.Crash Log Registry

/-- The call, beside the texts of the rows that were inserted so far. -/
def StoreOp.insertsStep [FloatText] (op : StoreOp) (p p' : TableStore × List Row) : Prop :=
  op.step p.1 p'.1 ∧ p'.2 = p.2 ++ p.1.inserted op

namespace TableStore

/-- The insert and the delete LSN of the row at a location. -/
def stampsAt (s : TableStore) (loc : Loc) : Option (Nat × Option Nat) :=
  if loc.seg = openSegment then s.opened[loc.row]?.map fun r => (r.insertLsn, r.deleteLsn)
  else (s.files.lookup loc.seg).bind fun rows => rows[loc.row]?.map fun r =>
    (r.2, (((s.sidecars.lookup loc.seg).getD []).find? fun d => d.1 = loc.row).map Prod.snd)

section Truncated

variable [FloatText]

/-- A row of a scan is an inserted text, as it is or as a segment renders it. -/
def ReadBack (columns : List ColumnSpec) (row text : Row) : Prop :=
  row = text ∨ renderRow columns { values := text, insertLsn := 0 } = .ok row

/-- The store `s'` is the store `s`, truncated at `t`. -/
structure Truncated (s : TableStore) (b : Batching) (t : Nat) (s' : TableStore) : Prop where
  emptied : ∀ u texts, GuardedRun StoreOp.insertsStep (fun op p => op.Fits p.1) (s', []) (u, texts) →
    ∀ lsn, t ≤ lsn → ∃ rows, u.scanAt b lsn = .ok rows ∧
      List.SublistForall₂ (ReadBack u.columns) rows texts
  unchanged : ∀ lsn < t, s'.scanAt b lsn = s.scanAt b lsn

/-- Each row is known to the index, unless it is deleted for every scan from `t` on, and if
the open rows are flushed behind the truncate, those that earlier scans show are read back as
they are. -/
structure Truncatable (s : TableStore) (t : Nat) : Prop where
  known : ∀ loc born died, s.stampsAt loc = some (born, died) →
    (∃ key, s.index.lookup key = some loc) ∨ ∃ d ∈ died, d ≤ max t born
  text : s.flushRows ≤ s.opened.length → ∀ r ∈ s.opened, ∀ lsn < t, r.visibleAt lsn = true →
    renderRow s.columns r = .ok r.values

/-! ## What the stamps say -/

variable {s t : TableStore} {pages : Pages OpenRow}

omit [FloatText] in
private theorem find?_marks {rows : List OpenRow} {deletes : List (Nat × Nat)} {j : Nat} {r : OpenRow}
    (h : Marks rows deletes) (hr : rows[j]? = some r) :
    (deletes.find? fun d => d.1 = j).map Prod.snd = r.deleteLsn := by
  cases hfind : deletes.find? fun d => d.1 = j with
  | none =>
    rw [List.find?_eq_none] at hfind
    cases hdied : r.deleteLsn with
    | none => rfl
    | some lsn =>
      exact absurd (decide_eq_true rfl) (hfind (j, lsn) ((h.mem_iff j lsn).mpr ⟨r, hr, hdied⟩))
  | some d =>
    obtain ⟨i, lsn⟩ := d
    obtain rfl : i = j := by simpa using List.find?_some hfind
    obtain ⟨r', hr', hdied⟩ := (h.mem_iff i lsn).mp (List.mem_of_find?_eq_some hfind)
    obtain rfl := Option.some.inj (hr.symm.trans hr')
    rw [hdied]
    rfl

theorem Body.stampsAt_eq (h : s.Body pages) (loc : Loc) :
    s.stampsAt loc = (pages.get? loc.addr).map fun r => (r.insertLsn, r.deleteLsn) := by
  obtain ⟨seg, row⟩ := loc
  by_cases hopen : seg = openSegment
  · have haddr : Loc.addr ⟨seg, row⟩ = (none, row) := by rw [Loc.addr, if_pos hopen]
    rw [stampsAt, if_pos hopen, haddr, Pages.get?_open, h.opened]
  · have haddr : Loc.addr ⟨seg, row⟩ = (some seg, row) := by rw [Loc.addr, if_neg hopen]
    rw [stampsAt, if_neg hopen, haddr, Pages.get?_closed]
    by_cases hseg : seg < pages.closed.length
    · have hpage := List.getElem?_eq_getElem hseg
      rw [hpage, (h.files seg _ hpage).2]
      simp only [Option.bind_some, List.getElem?_map, Option.map_map]
      cases hrow : pages.closed[seg][row]? with
      | none => rfl
      | some r =>
        simp only [Option.map_some, Function.comp_apply]
        rw [find?_marks (h.marks seg _ hpage) hrow]
    · rw [(h.fresh seg (Nat.le_of_not_lt hseg)).1, List.getElem?_eq_none (Nat.le_of_not_lt hseg)]
      rfl

/-- Each row is at a location of the store. -/
theorem Body.exists_loc (h : s.Body pages) {a : Addr} {r : OpenRow} (hget : pages.get? a = some r) :
    ∃ loc : Loc, loc.addr = a := by
  obtain ⟨page, j⟩ := a
  cases page with
  | none => exact ⟨⟨openSegment, j⟩, by rw [Loc.addr, if_pos rfl]⟩
  | some i =>
    obtain ⟨page, hpage, -⟩ := Option.bind_eq_some_iff.mp hget
    obtain ⟨hi, -⟩ := List.getElem?_eq_some_iff.mp (show pages.closed[i]? = some page from hpage)
    have hfit := h.closedFit
    have hne : i ≠ openSegment := by omega
    exact ⟨⟨i, j⟩, by rw [Loc.addr, if_neg hne]⟩

/-! ## The rows behind a truncate -/

/-- The addresses that the index leads to. -/
def known (s : TableStore) : List Addr := (Represents.entries s).map Prod.snd

omit [FloatText] in
theorem mem_known_iff {loc : Loc} : loc.addr ∈ s.known ↔ ∃ key, s.index.lookup key = some loc := by
  unfold known Represents.entries
  rw [List.map_map, List.mem_map]
  constructor
  · rintro ⟨⟨key, loc'⟩, hmem, haddr⟩
    obtain rfl := Loc.addr_injective haddr
    exact ⟨key, AList.mem_lookup_iff.mpr hmem⟩
  · rintro ⟨key, hloc⟩
    exact ⟨⟨key, loc⟩, AList.mem_lookup_iff.mp hloc, rfl⟩

theorem Represents.nodup_known (h : s.Represents pages) : s.known.Nodup := by
  unfold known entries
  rw [List.map_map]
  refine (List.nodup_map_iff_inj_on s.index.nodupKeys.nodup).mpr ?_
  rintro ⟨key, loc⟩ hmem ⟨key', loc'⟩ hmem' (haddr : loc.addr = loc'.addr)
  obtain rfl := Loc.addr_injective haddr
  rw [h.distinct (AList.mem_lookup_iff.mpr hmem) (AList.mem_lookup_iff.mpr hmem')]

/-- The pages of a truncated store, and whether the open page is closed behind them. -/
theorem Represents.truncated {c : TypedChange} (h : s.Represents pages) (hop : c.op = .truncate)
    (hfits : (StoreOp.apply c).Fits s) (hstep : (StoreOp.apply c).step s t) :
    ∃ pages', t.Represents pages' ∧ t.columns = s.columns ∧
      (pages' = pages.modifyAll s.known (OpenRow.kill c.commitLsn) ∧
          (s.flushRows ≤ s.opened.length → s.opened = []) ∨
        pages' = (pages.modifyAll s.known (OpenRow.kill c.commitLsn)).close ∧
          s.flushRows ≤ s.opened.length) := by
  obtain ⟨hlsn, -, hsegs⟩ := hfits
  obtain ⟨s₁, s₂, heffect, rfl, hend⟩ := (apply_ensures h.body.cache c).of_outcome hstep
  cases heffect with
  | insert hop' | update hop' | delete hop' => exact nomatch hop.symm.trans hop'
  | truncate =>
    have hzero : inserts c = 0 := by rw [inserts, hop]
    obtain ⟨hlen, hcolumns, hsegments, hrows⟩ :=
      s.withMarks_frame c.commitLsn (s.index.entries.map (·.2))
    have h' := (h.truncate hlsn).withAppliedLsn
    rcases hend with ⟨hfull, hflush⟩ | ⟨hroom, rfl⟩
    · have hfull : s.flushRows ≤ s.opened.length := hrows ▸ hlen ▸ hfull
      cases hflush with
      | none hopen =>
        refine ⟨_, h' _, hcolumns, Or.inl ⟨rfl, fun _ => List.length_eq_zero_iff.mp ?_⟩⟩
        rw [← hlen]
        exact congrArg List.length hopen
      | segment hopen hrendered =>
        refine ⟨_, (h' _).withSegment hopen hrendered ?_, hcolumns, Or.inr ⟨rfl, hfull⟩⟩
        have hpos : 0 < s.opened.length := hlen ▸ List.length_pos_iff.mpr hopen
        rw [hzero] at hsegs
        exact hsegments ▸ hsegs hfull hpos
    · refine ⟨_, h' _, hcolumns, Or.inl ⟨rfl, fun hfull => ?_⟩⟩
      have hroom : s.opened.length < s.flushRows := hrows ▸ hlen ▸ hroom
      omega

/-! ## Scans from the truncate on -/

omit [FloatText] in
/-- A row that is deleted at `t`, or at the latest when it is inserted, is in no scan from
`t` on. -/
theorem not_visibleAt {t lsn : Nat} {r : OpenRow} (hgone : ∃ d ∈ r.deleteLsn, d ≤ max t r.insertLsn)
    (hlsn : t ≤ lsn) : r.visibleAt lsn = false := by
  obtain ⟨d, hd, hle⟩ := hgone
  unfold OpenRow.visibleAt
  rw [Option.mem_def.mp hd, Option.any_some]
  by_cases hborn : r.insertLsn ≤ lsn
  · have hdead : d ≤ lsn := by omega
    simp [hdead]
  · simp [hborn]

omit [FloatText] in
private theorem exists_of_mem_right {α β : Type} {R : α → β → Prop} {l : List α} {l' : List β}
    (h : List.Forall₂ R l l') {y : β} (hy : y ∈ l') : ∃ x ∈ l, R x y := by
  induction h with
  | nil => exact nomatch hy
  | @cons x y' l l' hxy _ ih =>
    rcases List.mem_cons.mp hy with rfl | hy
    · exact ⟨x, List.mem_cons_self, hxy⟩
    · obtain ⟨x', hx', hxy'⟩ := ih hy
      exact ⟨x', List.mem_cons_of_mem x hx', hxy'⟩

/-- The rows of the segments have been rendered. -/
theorem Body.renderRow_eq (h : s.Body pages) {r : OpenRow} (hr : r ∈ pages.closed.flatten) :
    renderRow s.columns r = .ok (rendering s.columns r) := by
  obtain ⟨page, hpage, hr⟩ := List.mem_flatten.mp hr
  obtain ⟨i, hi⟩ := List.mem_iff_getElem?.mp hpage
  exact (h.files i page hi).1 r hr

/-- What is shown of rows that came later. -/
theorem Represents.scan_later {u : TableStore} {rows : List OpenRow} {texts : List Row}
    (h : u.Represents pages) (hlater : Later rows texts pages.flat) (b : Batching) {t lsn : Nat}
    (hgone : ∀ r ∈ rows, ∃ d ∈ r.deleteLsn, d ≤ max t r.insertLsn) (hlsn : t ≤ lsn) :
    ∃ shown, u.scanAt b lsn = .ok shown ∧
      List.SublistForall₂ (ReadBack u.columns) shown texts := by
  obtain ⟨old, new, hflat, hold, rfl⟩ := hlater
  refine ⟨_, h.body.scanAt_eq b lsn, ?_⟩
  have hhidden : old.filter (OpenRow.visibleAt lsn) = [] := by
    rw [List.filter_eq_nil_iff]
    intro r' hr'
    obtain ⟨r, hr, hbecomes⟩ := exists_of_mem_right hold hr'
    rcases hbecomes with rfl | ⟨hlive, -⟩
    · rw [not_visibleAt (hgone r' hr) hlsn]
      exact Bool.false_ne_true
    · obtain ⟨d, hd, -⟩ := hgone r hr
      rw [OpenRow.isLive, Option.mem_def.mp hd] at hlive
      exact absurd hlive Bool.false_ne_true
  have hvisible : pages.closed.flatten.filter (OpenRow.visibleAt lsn)
      ++ pages.opened.filter (OpenRow.visibleAt lsn) = new.filter (OpenRow.visibleAt lsn) := by
    rw [← List.filter_append]
    show pages.flat.filter _ = _
    rw [hflat, List.filter_append, hhidden, List.nil_append]
  rw [List.sublistForall₂_iff]
  refine ⟨(new.filter (OpenRow.visibleAt lsn)).map OpenRow.values, ?_, List.filter_sublist.map _⟩
  rw [← hvisible, List.map_append]
  refine List.rel_append ?_ ?_
  · rw [List.forall₂_map_left_iff, List.forall₂_map_right_iff, List.forall₂_same]
    intro r hr
    have hrow := h.body.renderRow_eq (List.mem_of_mem_filter hr)
    exact Or.inr hrow
  · exact List.forall₂_same.mpr fun row _ => Or.inl rfl

/-- Later calls insert rows, and the rows that were there stay or are deleted. -/
theorem Represents.insertsRun {u : TableStore} {texts : List Row} (h : s.Represents pages)
    (hrun : GuardedRun StoreOp.insertsStep (fun op p => op.Fits p.1) (s, []) (u, texts)) :
    ∃ pages', u.Represents pages' ∧ Later pages.flat texts pages'.flat := by
  let Inv : TableStore × List Row → Prop := fun p =>
    ∃ pages', p.1.Represents pages' ∧ Later pages.flat p.2 pages'.flat
  have hinv : Inv (u, texts) := by
    refine hrun.invariant ?_ ⟨pages, h, .refl _⟩
    rintro op ⟨s, xs⟩ ⟨s', xs'⟩ hfits ⟨hstep, hxs⟩ ⟨pages₁, h₁, hlater⟩
    obtain ⟨pages₂, h₂, hlater'⟩ := h₁.step hfits hstep
    obtain rfl : xs' = xs ++ s.inserted op := hxs
    exact ⟨pages₂, h₂, hlater.trans hlater'⟩
  exact hinv

/-! ## Scans before the truncate -/

omit [FloatText] in
private theorem filter_map_congr {R : OpenRow → OpenRow → Prop} {shows : OpenRow → Bool}
    {f : OpenRow → Row} {rows rows' : List OpenRow} (h : List.Forall₂ R rows rows')
    (hsame : ∀ r r', R r r' → shows r' = shows r ∧ f r' = f r) :
    (rows'.filter shows).map f = (rows.filter shows).map f := by
  induction h with
  | nil => rfl
  | cons hr _ ih =>
    obtain ⟨hshows, hf⟩ := hsame _ _ hr
    rw [List.filter_cons, List.filter_cons, hshows]
    split
    · rw [List.map_cons, List.map_cons, hf, ih]
    · exact ih

/-- The rows of a truncated store, page by page. -/
private theorem Represents.rel_truncated (h : s.Represents pages) (t : Nat) :
    Pages.Rel (fun r r' => r' = r ∨ r.isLive = true ∧ r' = OpenRow.kill t r) pages
      (pages.modifyAll s.known (OpenRow.kill t)) := by
  refine Pages.Rel.modifyAll (fun r => Or.inl rfl) ?_ (fun r hlive => Or.inr ⟨hlive, rfl⟩)
    (keys_entries s) h.leads_entries
  rintro r _ r'' (rfl | ⟨hlive, rfl⟩) h'
  · exact h'
  · rcases h' with rfl | ⟨hdead, -⟩
    · exact Or.inr ⟨hlive, rfl⟩
    · exact nomatch hdead

omit [FloatText] in
/-- A row that the truncate deletes is in the scans before it as it was. -/
private theorem visibleAt_of_rel {t lsn : Nat} (hlsn : lsn < t) {r r' : OpenRow}
    (h : r' = r ∨ r.isLive = true ∧ r' = OpenRow.kill t r) : r'.visibleAt lsn = r.visibleAt lsn := by
  rcases h with rfl | ⟨hlive, rfl⟩
  · rfl
  · have hnone : r.deleteLsn = none := Option.isNone_iff_eq_none.mp hlive
    have hlater : ¬ t ≤ lsn := by omega
    rw [OpenRow.visibleAt, OpenRow.visibleAt, hnone, OpenRow.kill, Option.any_some,
      decide_eq_false hlater]
    rfl

/-- The scan of a truncated store before its open page is closed. -/
private theorem Represents.scanAt_truncated {t lsn : Nat} (h : s.Represents pages) (b : Batching)
    (hlsn : lsn < t) :
    s.scanAt b lsn = .ok (
      ((pages.modifyAll s.known (OpenRow.kill t)).closed.flatten.filter
          (OpenRow.visibleAt lsn)).map (rendering s.columns) ++
        ((pages.modifyAll s.known (OpenRow.kill t)).opened.filter
          (OpenRow.visibleAt lsn)).map OpenRow.values) := by
  have hrel := h.rel_truncated t
  rw [h.body.scanAt_eq b lsn, filter_map_congr (List.rel_flatten hrel.closed),
    filter_map_congr hrel.opened]
  · intro r r' hr
    refine ⟨visibleAt_of_rel hlsn hr, ?_⟩
    rcases hr with rfl | ⟨-, rfl⟩ <;> rfl
  · intro r r' hr
    refine ⟨visibleAt_of_rel hlsn hr, ?_⟩
    rcases hr with rfl | ⟨-, rfl⟩ <;> rfl

/-! ## The condition is exact -/

/-- Behind the truncate, each row is deleted for every scan from its LSN on. -/
private theorem Represents.gone_of_known {t : Nat} (h : s.Represents pages)
    (hknown : ∀ loc born died, s.stampsAt loc = some (born, died) →
      (∃ key, s.index.lookup key = some loc) ∨ ∃ d ∈ died, d ≤ max t born) :
    ∀ r ∈ (pages.modifyAll s.known (OpenRow.kill t)).flat,
      ∃ d ∈ r.deleteLsn, d ≤ max t r.insertLsn := by
  intro r hr
  obtain ⟨a, hget⟩ := Pages.exists_get?_of_mem_flat hr
  by_cases ha : a ∈ s.known
  · rw [Pages.get?_modifyAll_of_mem h.nodup_known ha] at hget
    obtain ⟨r', -, rfl⟩ := Option.map_eq_some_iff.mp hget
    exact ⟨t, rfl, Nat.le_max_left _ _⟩
  · rw [Pages.get?_modifyAll_of_notMem ha] at hget
    obtain ⟨loc, rfl⟩ := h.body.exists_loc hget
    have hstamps := h.body.stampsAt_eq loc
    rw [hget] at hstamps
    exact (hknown loc _ _ hstamps).resolve_left fun hkey => ha (mem_known_iff.mpr hkey)

/-- A row that the truncate leaves is in a scan from its LSN on. -/
private theorem Represents.known_of_gone {t : Nat} (h : s.Represents pages)
    (hgone : ∀ lsn, t ≤ lsn → ∀ r ∈ (pages.modifyAll s.known (OpenRow.kill t)).flat,
      r.visibleAt lsn = false) {loc : Loc} {born : Nat} {died : Option Nat}
    (hstamps : s.stampsAt loc = some (born, died)) :
    (∃ key, s.index.lookup key = some loc) ∨ ∃ d ∈ died, d ≤ max t born := by
  by_contra hnot
  obtain ⟨hkey, hdied⟩ := not_or.mp hnot
  rw [h.body.stampsAt_eq] at hstamps
  obtain ⟨r, hget, heq⟩ := Option.map_eq_some_iff.mp hstamps
  obtain ⟨rfl, rfl⟩ := Prod.mk.inj heq
  have hleft : (pages.modifyAll s.known (OpenRow.kill t)).get? loc.addr = some r := by
    rw [Pages.get?_modifyAll_of_notMem fun hmem => hkey (mem_known_iff.mp hmem), hget]
  have hhidden := hgone (max t r.insertLsn) (Nat.le_max_left _ _) r (Pages.mem_flat_of_get? hleft)
  have hdead : r.deleteLsn.any (fun d => decide (d ≤ max t r.insertLsn)) = true := by
    have hborn : r.insertLsn ≤ max t r.insertLsn := Nat.le_max_right _ _
    simpa [OpenRow.visibleAt, hborn] using hhidden
  obtain ⟨d, hd, hle⟩ := Option.any_eq_true _ _ |>.mp hdead
  exact hdied ⟨d, hd, by simpa using hle⟩

/-- A scan that shows nothing has no row to show. -/
private theorem Represents.not_visibleAt_of_scan (h : s.Represents pages) {b : Batching} {lsn : Nat}
    (hscan : s.scanAt b lsn = .ok []) : ∀ r ∈ pages.flat, r.visibleAt lsn = false := by
  rw [h.body.scanAt_eq b lsn] at hscan
  obtain ⟨hclosed, hopened⟩ := List.append_eq_nil_iff.mp (Except.ok.inj hscan)
  rw [List.map_eq_nil_iff, List.filter_eq_nil_iff] at hclosed hopened
  intro r hr
  rcases List.mem_append.mp hr with hr | hr
  · exact Bool.eq_false_iff.mpr (hclosed r hr)
  · exact Bool.eq_false_iff.mpr (hopened r hr)

/-- The earlier scans, when the open page is closed behind the truncate. -/
private theorem Represents.scanAt_closed {u : TableStore} {t lsn : Nat} (h : s.Represents pages)
    (hu : u.Represents (pages.modifyAll s.known (OpenRow.kill t)).close)
    (hcolumns : u.columns = s.columns) (b : Batching) (hlsn : lsn < t) :
    u.scanAt b lsn = s.scanAt b lsn ↔
      ∀ r ∈ s.opened, r.visibleAt lsn = true → renderRow s.columns r = .ok r.values := by
  have hrel := (h.rel_truncated t).opened
  have hopened : List.Forall₂ (fun r r' => r'.visibleAt lsn = r.visibleAt lsn ∧
      renderRow s.columns r' = renderRow s.columns r ∧ r'.values = r.values) pages.opened
      (pages.modifyAll s.known (OpenRow.kill t)).opened := by
    refine hrel.imp fun r r' hr => ⟨visibleAt_of_rel hlsn hr, ?_⟩
    rcases hr with rfl | ⟨-, rfl⟩
    · exact ⟨rfl, rfl⟩
    · exact ⟨rfl, rfl⟩
  rw [hu.body.scanAt_eq, h.scanAt_truncated b hlsn, hcolumns, ← h.body.opened]
  simp only [Pages.close, List.flatten_append, List.flatten_singleton, List.filter_append,
    List.map_append, List.filter_nil, List.map_nil, List.append_nil, Except.ok.injEq,
    List.append_cancel_left_eq]
  rw [List.map_inj_left]
  have hrendered : ∀ r' ∈ (pages.modifyAll s.known (OpenRow.kill t)).opened,
      renderRow s.columns r' = .ok (rendering s.columns r') := by
    intro r' hr'
    rw [← hcolumns]
    refine hu.body.renderRow_eq ?_
    simp [Pages.close, hr']
  constructor
  · intro hsame r hr hvisible
    obtain ⟨r', hr', hvis, hrow, hvalues⟩ := exists_of_mem_right hopened.flip hr
    have hread := hsame r' (List.mem_filter.mpr ⟨hr', hvis.trans hvisible⟩)
    rw [← hrow, hrendered r' hr', hread, hvalues]
  · intro hsame r' hr'
    obtain ⟨hmem, hvisible⟩ := List.mem_filter.mp hr'
    obtain ⟨r, hr, hvis, hrow, hvalues⟩ := exists_of_mem_right hopened hmem
    have hread := hsame r hr (hvis.symm.trans hvisible)
    rw [← hrow, hrendered r' hmem] at hread
    exact (Except.ok.inj hread).trans hvalues.symm

end Truncated

end TableStore

open TableStore

/-- In every run whose numbers fit, a truncate empties the store if and only if the index
knows the rows that are left, and the earlier scans stay if and only if a flush behind it
keeps the text. -/
theorem truncate_exact_iff [FloatText] (b : Batching) {table : String} {columns : List ColumnSpec}
    {flushRows : Nat} {s₀ s s' : TableStore} {c : TypedChange}
    (hcreate : TableStore.create table columns flushRows = .ok s₀)
    (hrun : GuardedRun StoreOp.step StoreOp.Fits s₀ s) (hop : c.op = .truncate)
    (hfits : (StoreOp.apply c).Fits s) (hstep : (StoreOp.apply c).step s s') :
    s.Truncated b c.commitLsn s' ↔ s.Truncatable c.commitLsn := by
  obtain ⟨pages, h⟩ := (Represents.of_create hcreate).run hrun
  obtain ⟨pages', h', hcolumns, hpages⟩ := h.truncated hop hfits hstep
  have hflat : pages'.flat = (pages.modifyAll s.known (OpenRow.kill c.commitLsn)).flat := by
    rcases hpages with ⟨rfl, -⟩ | ⟨rfl, -⟩
    · rfl
    · exact Pages.flat_close _
  constructor
  · intro htruncated
    constructor
    · intro loc born died hstamps
      refine h.known_of_gone (fun lsn hlsn => ?_) hstamps
      obtain ⟨rows, hscan, hrows⟩ := htruncated.emptied s' [] (.refl _) lsn hlsn
      obtain rfl : rows = [] := by
        obtain ⟨l, hl, hsub⟩ := List.sublistForall₂_iff.mp hrows
        rw [List.sublist_nil.mp hsub] at hl
        exact List.forall₂_nil_right_iff.mp hl
      rw [← hflat]
      exact h'.not_visibleAt_of_scan hscan
    · intro hfull r hr lsn hlsn hvisible
      rcases hpages with ⟨rfl, hempty⟩ | ⟨rfl, -⟩
      · rw [hempty hfull] at hr
        exact nomatch hr
      · exact (h.scanAt_closed h' hcolumns b hlsn).mp (htruncated.unchanged lsn hlsn) r hr hvisible
  · intro htruncatable
    have hgone := h.gone_of_known htruncatable.known
    constructor
    · intro u texts hlater lsn hlsn
      obtain ⟨pages'', h'', hrows⟩ := h'.insertsRun hlater
      exact h''.scan_later hrows b (hflat ▸ hgone) hlsn
    · intro lsn hlsn
      rcases hpages with ⟨rfl, -⟩ | ⟨rfl, hfull⟩
      · rw [h'.body.scanAt_eq, h.scanAt_truncated b hlsn, hcolumns]
      · exact (h.scanAt_closed h' hcolumns b hlsn).mpr fun r hr hvisible =>
          htruncatable.text hfull r hr lsn hlsn hvisible

def truncateAt (lsn : Nat) : TypedChange where
  commitLsn := lsn
  xid := 1
  table := "p.items"
  op := .truncate
  new := none
  old := none

theorem truncate_exact_iff_items : letI := wholeFloats
    ∃ s₀ s s', TableStore.create "p.items" [⟨"id", 20, true⟩] 10 = .ok s₀ ∧
      playAll s₀ [.load "1\n2\n".toUTF8.toList 100] = some s ∧
      (StoreOp.apply (truncateAt 200)).step s s' ∧
      (s.Truncated singleRows 200 s' ↔ s.Truncatable 200) := by
  let _ := wholeFloats
  let s₀ : TableStore := { table := "p.items", columns := [⟨"id", 20, true⟩], flushRows := 10 }
  have hplay : ∃ s ∈ playAll s₀ [.load "1\n2\n".toUTF8.toList 100],
      (StoreOp.apply (truncateAt 200)).Fits s ∧
      ((StoreOp.apply (truncateAt 200)).run.outcome s).isSome := by decide +kernel
  obtain ⟨s, hs, hfits, hsome⟩ := hplay
  obtain ⟨⟨⟨⟩, s'⟩, hstep⟩ := Option.isSome_iff_exists.mp hsome
  have hcreate : TableStore.create "p.items" s₀.columns 10 = .ok s₀ := rfl
  exact ⟨s₀, s, s', rfl, hs, hstep,
    truncate_exact_iff singleRows hcreate (run_of_playAll hs) rfl hfits hstep⟩

/-- A table without a key keeps its rows. -/
theorem truncate_keeps_rows : letI := wholeFloats
    ∃ s₀ s s', TableStore.create "p.events" [⟨"v", 25, false⟩] 10 = .ok s₀ ∧
      playAll s₀ [.load "one\n".toUTF8.toList 100] = some s ∧
      (StoreOp.apply (truncateAt 200)).step s s' ∧
      s'.scanAt singleRows 200 = .ok [[some "one"]] ∧ ¬ s.Truncated singleRows 200 s' := by
  let _ := wholeFloats
  let s₀ : TableStore := { table := "p.events", columns := [⟨"v", 25, false⟩], flushRows := 10 }
  have hplay : ∃ s ∈ playAll s₀ [.load "one\n".toUTF8.toList 100],
      ∃ p ∈ (StoreOp.apply (truncateAt 200)).run.outcome s,
        (p.2.scanAt singleRows 200).toOption = some [[some "one"]] := by decide +kernel
  obtain ⟨s, hs, ⟨⟨⟩, s'⟩, hstep, hscan⟩ := hplay
  have hscan : s'.scanAt singleRows 200 = .ok [[some "one"]] := by
    cases h : s'.scanAt singleRows 200 with
    | error e =>
      rw [h] at hscan
      exact nomatch hscan
    | ok rows =>
      rw [h] at hscan
      exact congrArg _ (Option.some.inj hscan)
  refine ⟨s₀, s, s', rfl, hs, hstep, hscan, fun htruncated => ?_⟩
  obtain ⟨rows, hrows, hnone⟩ := htruncated.emptied s' [] (.refl _) 200 (Nat.le_refl _)
  obtain rfl := Except.ok.inj (hscan.symm.trans hrows)
  exact nomatch hnone

end GrayDB.Columnar
