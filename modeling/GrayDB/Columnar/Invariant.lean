import GrayDB.Columnar.Body
import GrayDB.Lib.Digits
import GrayDB.Lib.Guarded

/-!
# The representation invariant of a store

`Represents` is the invariant: the store holds the rows of some pages, and its index leads
to live rows by their keys.  Every call keeps it, as long as the rows of a segment and the
segments can be numbered with 32 bits: `StoreOp.Fits` is this condition on a call and the
store before it.  `Consistent` says what follows for the store itself.
-/

namespace GrayDB.Columnar

open Lib Lib.Crash Log Registry

namespace TableStore

def rowKey (s : TableStore) (row : OpenRow) : Option Bytes := s.keyOf row.values

/-- The index, as addresses. -/
def ix (s : TableStore) (key : Bytes) : Option Addr := (s.index.lookup key).map Loc.addr

/-- The store holds the rows of these pages, and finds live rows by their keys. -/
structure Represents [FloatText] (s : TableStore) (pages : Pages OpenRow) : Prop where
  body : s.Body pages
  sound : pages.Sound OpenRow.isLive s.rowKey s.ix
  keyless : s.hasKey = false → s.index = ∅

variable {s t : TableStore} {pages : Pages OpenRow} {key : Bytes} {loc : Loc}

theorem ix_eq_some {a : Addr} (h : s.ix key = some a) :
    ∃ loc, s.index.lookup key = some loc ∧ loc.addr = a :=
  Option.map_eq_some_iff.mp h

/-! ## Changing the index -/

theorem ix_withRow_of_keyed {values : Row} {lsn : Nat} (hkeyed : s.hasKey = true)
    (hkey : s.keyOf values = some key) (hroom : s.opened.length < 2 ^ 32) :
    (s.withRow values lsn).ix = Function.update s.ix key (some (none, s.opened.length)) := by
  funext k
  have hindex : (s.withRow values lsn).index
      = s.index.insert key { seg := openSegment, row := s.opened.length % 2 ^ 32 } := by
    simp only [withRow, hkeyed, hkey]
  rw [ix, hindex, Nat.mod_eq_of_lt hroom]
  by_cases hk : k = key
  · rw [hk, AList.lookup_insert, Function.update_self]
    simp [Loc.addr]
  · rw [AList.lookup_insert_ne hk, Function.update_of_ne hk]
    rfl

theorem index_withRow_of_keyless {values : Row} {lsn : Nat} (hkeyless : s.hasKey = false) :
    (s.withRow values lsn).index = s.index := by simp only [withRow, hkeyless]

theorem ix_withoutKey (s : TableStore) (key : Bytes) :
    (s.withoutKey key).ix = Function.update s.ix key none := by
  funext k
  by_cases hk : k = key
  · rw [hk, Function.update_self, ix, withoutKey, AList.lookup_erase]
    rfl
  · rw [Function.update_of_ne hk, ix, withoutKey, AList.lookup_erase_ne hk]
    rfl

/-- The last row with a key is what the new entries lead to; an entry without such a row
stays. -/
theorem lookup_reindexed (seg : Nat) (index : AList fun _ : Bytes => Loc)
    (rows : List (OpenRow × Nat)) (k : Bytes) :
    (∃ r ∈ rows, r.1.isLive = true ∧ s.keyOf r.1.values = some k ∧
        (s.reindexed seg index rows).lookup k = some { seg, row := r.2 % 2 ^ 32 }) ∨
      (∀ r ∈ rows, r.1.isLive = true → s.keyOf r.1.values ≠ some k) ∧
        (s.reindexed seg index rows).lookup k = index.lookup k := by
  induction rows using List.reverseRecOn with
  | nil => exact Or.inr ⟨by simp, rfl⟩
  | append_singleton rows r ih =>
    have hstep : s.reindexed seg index (rows ++ [r])
        = s.reindexed seg (s.reindexed seg index rows) [r] := List.foldl_append
    by_cases hr : r.1.isLive = true ∧ s.keyOf r.1.values = some k
    · refine Or.inl ⟨r, by simp, hr.1, hr.2, ?_⟩
      rw [hstep, reindexed, List.foldl_cons, Option.isNone_iff_eq_none.mp hr.1, hr.2]
      exact AList.lookup_insert _
    · have hsame : (s.reindexed seg index (rows ++ [r])).lookup k
          = (s.reindexed seg index rows).lookup k := by
        rw [hstep, reindexed, List.foldl_cons, List.foldl_nil]
        split
        · rename_i key hlive hkey
          apply AList.lookup_insert_ne
          rintro rfl
          exact hr ⟨Option.isNone_iff_eq_none.mpr hlive, hkey⟩
        · rfl
      rw [hsame]
      rcases ih with ⟨r', hr', h⟩ | ⟨hnone, h⟩
      · exact Or.inl ⟨r', List.mem_append_left _ hr', h⟩
      · refine Or.inr ⟨?_, h⟩
        intro r' hr' hlive hkey
        rcases List.mem_append.mp hr' with hr' | hr'
        · exact hnone r' hr' hlive hkey
        · obtain rfl := List.mem_singleton.mp hr'
          exact hr ⟨hlive, hkey⟩

/-! ## Keeping the invariant -/

namespace Represents

variable [FloatText]

/-- What the index leads to. -/
theorem row (h : s.Represents pages) (hloc : s.index.lookup key = some loc) :
    ∃ r, pages.get? loc.addr = some r ∧ r.isLive = true ∧ s.keyOf r.values = some key :=
  h.sound key loc.addr (by rw [ix, hloc]; rfl)

theorem reads (h : s.Represents pages) (hreads : s.Reads t) : t.Represents pages := by
  have hbody := h.body.reads hreads
  obtain ⟨⟨segCache, rfl⟩, -⟩ := hreads
  exact ⟨hbody, h.sound, h.keyless⟩

theorem withAppliedLsn (h : s.Represents pages) (appliedLsn : Nat) :
    Represents { s with appliedLsn } pages :=
  ⟨h.body.withAppliedLsn appliedLsn, h.sound, h.keyless⟩

theorem withRow {values : Row} {lsn : Nat} (h : s.Represents pages)
    (hwidth : values.length = s.columns.length) (hlsn : lsn ≤ maxLsn)
    (hroom : s.opened.length < 2 ^ 32) :
    (s.withRow values lsn).Represents (pages.push { values, insertLsn := lsn }) := by
  have hbody := h.body.withRow hwidth hlsn hroom
  cases hkeyed : s.hasKey with
  | true =>
    obtain ⟨key, hkey⟩ := Option.isSome_iff_exists.mp (keyOf_isSome hwidth)
    refine ⟨hbody, ?_, fun hkeyless => ?_⟩
    · rw [ix_withRow_of_keyed hkeyed hkey hroom, ← h.body.opened]
      exact h.sound.push_update rfl hkey
    · exact absurd (hkeyed.symm.trans hkeyless) (by simp)
  | false =>
    refine ⟨hbody, ?_, fun _ => ?_⟩
    · have hix : (s.withRow values lsn).ix = s.ix := by
        funext k
        rw [ix, index_withRow_of_keyless hkeyed, ix]
      rw [hix]
      exact h.sound.push _
    · rw [index_withRow_of_keyless hkeyed]
      exact h.keyless hkeyed

/-- The row of an index entry is deleted, and the entry with it. -/
theorem kill {lsn : Nat} (h : s.Represents pages) (hloc : s.index.lookup key = some loc)
    (hlsn : lsn ≤ maxLsn) :
    ((s.withMark loc lsn).withoutKey key).Represents
      (pages.modify loc.addr (OpenRow.kill lsn)) := by
  obtain ⟨r, hget, hlive, -⟩ := h.row hloc
  refine ⟨(h.body.withMark hget hlive hlsn).withIndex _, ?_, fun hkeyless => ?_⟩
  · rw [ix_withoutKey]
    exact h.sound.modify_update (by rw [ix, hloc]; rfl) _
  · have hempty := h.keyless hkeyless
    rw [hempty] at hloc
    exact nomatch hloc

private theorem body_markAll {lsn : Nat} (hlsn : lsn ≤ maxLsn)
    (entries : List (Sigma fun _ : Bytes => Loc)) {keyFn : OpenRow → Option Bytes}
    (hkeys : ((entries.map fun e => (e.1, e.2.addr)).map Prod.fst).Nodup)
    (hleads : pages.Leads OpenRow.isLive keyFn (entries.map fun e => (e.1, e.2.addr)))
    (h : s.Body pages) :
    (s.withMarks lsn (entries.map (·.2))).Body
      (pages.modifyAll ((entries.map fun e => (e.1, e.2.addr)).map Prod.snd) (OpenRow.kill lsn)) := by
  induction entries generalizing s pages with
  | nil => exact h
  | cons e entries ih =>
    obtain ⟨r, hget, hlive, -⟩ := hleads _ List.mem_cons_self
    exact ih (List.nodup_cons.mp hkeys).2 (hleads.modify hkeys _) (h.withMark hget hlive hlsn)

/-- What the index leads to, as a list. -/
def entries (s : TableStore) : List (Bytes × Addr) := s.index.entries.map fun e => (e.1, e.2.addr)

omit [FloatText] in
theorem keys_entries (s : TableStore) : ((entries s).map Prod.fst).Nodup := by
  rw [entries, List.map_map]
  exact s.index.keys_nodup

theorem leads_entries (h : s.Represents pages) :
    pages.Leads OpenRow.isLive s.rowKey (entries s) := by
  intro e he
  obtain ⟨⟨key, loc⟩, hmem, rfl⟩ := List.mem_map.mp he
  exact h.row (AList.mem_lookup_iff.mpr hmem)

/-- Every row that the index leads to is deleted. -/
theorem truncate {lsn : Nat} (h : s.Represents pages) (hlsn : lsn ≤ maxLsn) :
    Represents { s.withMarks lsn (s.index.entries.map (·.2)) with index := ∅ } (pages.modifyAll ((entries s).map Prod.snd) (OpenRow.kill lsn)) := by
  refine ⟨(body_markAll hlsn s.index.entries (keys_entries s) h.leads_entries h.body).withIndex ∅,
    ?_, fun _ => rfl⟩
  intro k a hk
  exact nomatch hk

/-- The open rows become a segment. -/
theorem withSegment {rendered : List Row} (h : s.Represents pages) (hopen : s.opened ≠ [])
    (hrendered : renderRows s.columns s.opened = .ok rendered)
    (hroom : s.segments.length < openSegment) :
    (s.withSegment rendered).Represents pages.close := by
  refine ⟨h.body.withSegment hopen hrendered hroom, ?_, fun hkeyless => ?_⟩
  · refine h.sound.close ?_
    intro k b hk
    obtain ⟨loc, hloc, rfl⟩ := ix_eq_some hk
    cases hkeyed : s.hasKey with
    | false =>
      have hempty : (s.withSegment rendered).index = ∅ := by
        simp [TableStore.withSegment, hkeyed, h.keyless hkeyed]
      rw [hempty] at hloc
      cases hloc
    | true =>
      have hindex : (s.withSegment rendered).index
          = s.reindexed (s.segments.length % 2 ^ 32) s.index s.opened.zipIdx := by
        simp [TableStore.withSegment, hkeyed]
      rw [hindex, h.body.newId hroom] at hloc
      rcases s.lookup_reindexed pages.closed.length s.index s.opened.zipIdx k with
        ⟨⟨r, j⟩, hr, hlive, hkey, hnew⟩ | ⟨hnone, hold⟩
      · have hget := List.mk_mem_zipIdx_iff_getElem?.mp hr
        obtain ⟨hj, -⟩ := List.getElem?_eq_some_iff.mp hget
        have hfits : s.opened.length ≤ 2 ^ 32 := h.body.opened ▸ h.body.openFits
        rw [hnew, Nat.mod_eq_of_lt (by omega)] at hloc
        obtain rfl := Option.some.inj hloc
        refine Or.inl ⟨j, r, ?_, hlive, hkey, ?_⟩
        · rw [h.body.opened]
          exact hget
        · have hne : pages.closed.length ≠ openSegment := by
            have hlen := h.body.length_segments
            omega
          rw [Loc.addr, if_neg hne]
      · rw [hold] at hloc
        refine Or.inr ⟨by rw [ix, hloc]; rfl, ?_⟩
        intro r hr hlive
        rw [h.body.opened] at hr
        obtain ⟨j, hj⟩ := List.mem_iff_getElem?.mp hr
        exact hnone (r, j) (List.mk_mem_zipIdx_iff_getElem?.mpr hj) hlive
  · have hkeyless' : s.hasKey = false := hkeyless
    simp [TableStore.withSegment, hkeyless', h.keyless hkeyless']

end Represents

end TableStore

open TableStore

/-! ## Calls -/

/-- The calls that change a store. -/
inductive StoreOp where
  | load (data : Bytes) (lsn0 : Nat)
  | apply (change : TypedChange)
  | flush
  | finalize
  deriving DecidableEq, Repr

/-- How many rows a change inserts. -/
def inserts (change : TypedChange) : Nat :=
  match change.op with
  | .insert | .update => 1
  | .delete | .truncate => 0

/-- The texts of the rows that a call inserts. -/
def TableStore.inserted (s : TableStore) : StoreOp → List Row
  | .load data _ => (copyLines data).map parseCopyLine
  | .apply c => match c.op with
    | .insert => (c.new.bind fun named => s.rowOf named none).toList
    | .update => (c.new.bind fun named => (s.keyOf (imageValues (c.old.getD named))).bind fun key =>
        (s.index.lookup key).bind fun loc => s.rowOf named (some loc)).toList
    | .delete | .truncate => []
  | .flush | .finalize => []

/-- The LSN is an `u64`, and the open rows and a segment that is due can be numbered. -/
def StoreOp.Fits (op : StoreOp) (s : TableStore) : Prop :=
  match op with
  | .load data lsn0 => lsn0 ≤ maxLsn ∧ s.opened.length + (copyLines data).length ≤ 2 ^ 32
  | .apply c => c.commitLsn ≤ maxLsn ∧ s.opened.length + inserts c ≤ 2 ^ 32 ∧
      (s.flushRows ≤ s.opened.length + inserts c → 0 < s.opened.length + inserts c →
        s.segments.length < openSegment)
  | .flush | .finalize => 0 < s.opened.length → s.segments.length < openSegment

instance (op : StoreOp) (s : TableStore) : Decidable (op.Fits s) := by
  unfold StoreOp.Fits
  cases op <;> infer_instance

section Calls

variable [FloatText]

def StoreOp.run : StoreOp → StoreM Unit
  | .load data lsn0 => do
    let _ ← loadCopyPart data lsn0
    pure ()
  | .apply c => Columnar.apply c
  | .flush => Columnar.flush
  | .finalize => do
    let _ ← Columnar.finalize
    pure ()

/-- The call returns without an error. -/
def StoreOp.step (op : StoreOp) (s s' : TableStore) : Prop := op.run.outcome s = some ((), s')

variable {s t : TableStore} {pages : Pages OpenRow} {c : TypedChange}

/-- A change inserts and kills rows, and leaves the columns, the segments and the size of a
segment. -/
theorem TableStore.Represents.opEffect (h : s.Represents pages) (heffect : OpEffect s c t)
    (hlsn : c.commitLsn ≤ maxLsn) (hroom : s.opened.length + inserts c ≤ 2 ^ 32) :
    (∃ pages', t.Represents pages' ∧ Later pages.flat (s.inserted (.apply c)) pages'.flat) ∧
      t.opened.length = s.opened.length + inserts c ∧ t.segments = s.segments ∧
      t.flushRows = s.flushRows := by
  cases heffect with
  | @insert named values s₁ hop hnew hrow hreads =>
    have hone : inserts c = 1 := by rw [inserts, hop]
    have hinserted : s.inserted (.apply c) = [values] := by
      simp only [inserted, hop, hnew, hrow, Option.bind_some, Option.toList_some]
    have hwidth : values.length = s.columns.length := length_of_rowOf hrow
    have h₁ := h.reads hreads
    obtain ⟨⟨segCache, rfl⟩, -⟩ := hreads
    have hlt : s.opened.length < 2 ^ 32 := by omega
    rw [hone, hinserted]
    exact ⟨⟨_, h₁.withRow hwidth hlsn hlt, .push pages _⟩, List.length_append, rfl, rfl⟩
  | @update named key loc values s₁ hop hkeyed hnew hold hloc hrow hreads =>
    have hone : inserts c = 1 := by rw [inserts, hop]
    have hinserted : s.inserted (.apply c) = [values] := by
      simp only [inserted, hop, hnew, hold, hloc, hrow, Option.bind_some, Option.toList_some]
    have hwidth : values.length = s.columns.length := length_of_rowOf hrow
    have h₁ := h.reads hreads
    obtain ⟨⟨segCache, rfl⟩, -⟩ := hreads
    have hlen := length_opened_withMark { s with segCache } loc c.commitLsn
    have hlt : (withMark { s with segCache } loc c.commitLsn).opened.length < 2 ^ 32 := by
      rw [hlen]
      dsimp only
      omega
    obtain ⟨r, hget, hlive, -⟩ := h.row hloc
    rw [hone, hinserted]
    refine ⟨⟨_, (h₁.kill hloc hlsn).withRow hwidth hlsn hlt, ?_⟩, ?_, rfl, rfl⟩
    · exact (Later.kill hget hlive c.commitLsn).trans (.push _ _)
    · exact List.length_append.trans (congrArg (· + 1) hlen)
  | @delete old key loc hop hkeyed hold hkey hloc =>
    have hzero : inserts c = 0 := by rw [inserts, hop]
    have hinserted : s.inserted (.apply c) = [] := by simp only [inserted, hop]
    obtain ⟨r, hget, hlive, -⟩ := h.row hloc
    rw [hzero, hinserted]
    exact ⟨⟨_, h.kill hloc hlsn, .kill hget hlive c.commitLsn⟩, length_opened_withMark _ _ _, rfl, rfl⟩
  | truncate hop =>
    have hzero : inserts c = 0 := by rw [inserts, hop]
    have hinserted : s.inserted (.apply c) = [] := by simp only [inserted, hop]
    obtain ⟨hlen, -, hsegs, hrows⟩ := s.withMarks_frame c.commitLsn (s.index.entries.map (·.2))
    rw [hzero, hinserted]
    refine ⟨⟨_, h.truncate hlsn, .of_forall₂ (Pages.Rel.flat ?_)⟩, hlen, hsegs, hrows⟩
    exact Pages.Rel.modifyAll OpenRow.Becomes.refl OpenRow.Becomes.trans
      (fun r hlive => Or.inr ⟨hlive, _, rfl⟩) (keys_entries s) h.leads_entries

/-- A flush closes the page, unless it is empty. -/
theorem TableStore.Represents.flushEffect (h : s.Represents pages) (heffect : FlushEffect s t)
    (hroom : 0 < s.opened.length → s.segments.length < openSegment) :
    ∃ pages', t.Represents pages' ∧ pages'.flat = pages.flat := by
  cases heffect with
  | none hopen => exact ⟨pages, h, rfl⟩
  | segment hopen hrendered =>
    exact ⟨_, h.withSegment hopen hrendered (hroom (List.length_pos_iff.mpr hopen)),
      Pages.flat_close pages⟩

private theorem represents_loadLines {lsn0 : Nat} (hlsn : lsn0 ≤ maxLsn) (lines : List Bytes)
    (hwidths : ∀ line ∈ lines, (parseCopyLine line).length = s.columns.length)
    (hroom : s.opened.length + lines.length ≤ 2 ^ 32) (h : s.Represents pages) :
    ∃ pages', (s.withLines lsn0 lines).Represents pages' ∧
      Later pages.flat (lines.map parseCopyLine) pages'.flat := by
  induction lines generalizing s pages with
  | nil => exact ⟨pages, h, .refl _⟩
  | cons line lines ih =>
    rw [List.length_cons] at hroom
    have hlen : (s.withRow (parseCopyLine line) lsn0).opened.length = s.opened.length + 1 :=
      List.length_append
    have hfirst := h.withRow (hwidths line List.mem_cons_self) hlsn (by omega)
    have hrest : (s.withRow (parseCopyLine line) lsn0).opened.length + lines.length ≤ 2 ^ 32 := by
      omega
    obtain ⟨pages', h', hlater⟩ :=
      ih (s := s.withRow (parseCopyLine line) lsn0)
        (fun l hl => hwidths l (List.mem_cons_of_mem line hl)) hrest hfirst
    exact ⟨pages', h', (Later.push pages _).trans hlater⟩

/-- Every call keeps the invariant, and the rows that were there. -/
theorem TableStore.Represents.step {op : StoreOp} (h : s.Represents pages) (hfits : op.Fits s)
    (hstep : op.step s t) :
    ∃ pages', t.Represents pages' ∧ Later pages.flat (s.inserted op) pages'.flat := by
  cases op with
  | load data lsn0 =>
    obtain ⟨hlsn, hroom⟩ := hfits
    obtain ⟨hwidths, appliedLsn, rfl⟩ :=
      (Ensures.drop (loadCopyPart_ensures data lsn0)).of_outcome hstep
    obtain ⟨pages', h', hlater⟩ := represents_loadLines hlsn _ hwidths hroom h
    exact ⟨pages', h'.withAppliedLsn appliedLsn, hlater⟩
  | apply c =>
    obtain ⟨hlsn, hroom, hsegs⟩ := hfits
    obtain ⟨s₁, s₂, heffect, rfl, hend⟩ := (apply_ensures h.body.cache c).of_outcome hstep
    obtain ⟨⟨pages', h', hlater⟩, hlen, hsegments, hrows⟩ := h.opEffect heffect hlsn hroom
    have h'' := h'.withAppliedLsn (max s₁.appliedLsn c.commitLsn)
    rcases hend with ⟨hfull, hflush⟩ | ⟨-, rfl⟩
    · have hsegs' : 0 < s₁.opened.length → s₁.segments.length < openSegment := by
        intro hopen
        dsimp only at hfull
        rw [hrows, hlen] at hfull
        rw [hlen] at hopen
        rw [hsegments]
        exact hsegs hfull hopen
      obtain ⟨pages'', h'', hsame⟩ := h''.flushEffect hflush hsegs'
      exact ⟨pages'', h'', hsame ▸ hlater⟩
    · exact ⟨pages', h'', hlater⟩
  | flush =>
    obtain ⟨pages', h', hsame⟩ := h.flushEffect (flush_ensures.of_outcome hstep) hfits
    exact ⟨pages', h', hsame ▸ .refl _⟩
  | finalize =>
    obtain ⟨s₁, hflush, rfl⟩ := (Ensures.drop finalize_ensures).of_outcome hstep
    obtain ⟨pages', h', hsame⟩ := h.flushEffect hflush hfits
    exact ⟨pages', ⟨{ h'.body with }, h'.sound, h'.keyless⟩, hsame ▸ .refl _⟩

/-- A new store is empty. -/
theorem TableStore.Represents.of_create {table : String} {columns : List ColumnSpec}
    {flushRows : Nat} (h : TableStore.create table columns flushRows = .ok s) :
    s.Represents { closed := [], opened := [] } := by
  unfold TableStore.create at h
  split at h
  · exact nomatch h
  · obtain rfl := Except.ok.inj h
    refine ⟨?_, fun k a hk => (nomatch hk), fun _ => rfl⟩
    constructor
    · rfl
    · rfl
    · exact fun i rows hi => nomatch hi
    · exact fun i rows hi => nomatch hi
    · exact fun i _ => ⟨rfl, rfl⟩
    · exact fun seg rows hc => nomatch hc
    · rfl
    · exact fun r hr => nomatch hr
    · exact fun page hpage => nomatch hpage
    · exact Nat.zero_le _
    · exact Nat.zero_le _

/-- Runs whose numbers fit keep the invariant. -/
theorem TableStore.Represents.run (h : s.Represents pages)
    (hrun : GuardedRun StoreOp.step StoreOp.Fits s t) : ∃ pages', t.Represents pages' := by
  let Inv : TableStore → Prop := fun s => ∃ pages, s.Represents pages
  have hstep : ∀ (op : StoreOp) s s', op.Fits s → op.step s s' → Inv s → Inv s' :=
    fun _ _ _ hfits hstep ⟨_, h⟩ => (h.step hfits hstep).imp fun _ h' => h'.1
  have hinv : Inv t := hrun.invariant hstep ⟨pages, h⟩
  exact hinv

end Calls

/-! ## The index, the marks and the counter -/

namespace TableStore

/-- The row at a location, as it is read back. -/
def rowAt (s : TableStore) (loc : Loc) : Option Row :=
  if loc.seg = openSegment then s.opened[loc.row]?.map OpenRow.values
  else (s.fileRows loc.seg).bind fun rows => rows[loc.row]?

/-- The row at a location is marked deleted. -/
def DeletedAt (s : TableStore) (loc : Loc) : Prop :=
  if loc.seg = openSegment then ∃ row ∈ s.opened[loc.row]?, row.deleteLsn.isSome
  else loc.row ∈ ((s.sidecars.lookup loc.seg).getD []).map Prod.fst

/-- A row inserted with this text is read back like this. -/
def ReadsAs [FloatText] (s : TableStore) (loc : Loc) (text row : Row) : Prop :=
  if loc.seg = openSegment then row = text
  else renderRow s.columns { values := text, insertLsn := 0 } = .ok row

/-- The rows that a call marks deleted. -/
def markedBy (s : TableStore) : StoreOp → List Loc
  | .apply c => match c.op with
    | .insert => []
    | .update => ((c.new.bind fun named => s.keyOf (imageValues (c.old.getD named))).bind
        s.index.lookup).toList
    | .delete => ((c.old.bind fun old => s.keyOf (imageValues old)).bind s.index.lookup).toList
    | .truncate => s.index.entries.map (·.2)
  | _ => []

/-- What the index, the delete marks and the row counter say of the rows. -/
structure Consistent [FloatText] (s : TableStore) (b : Batching) : Prop where
  entries : ∀ key loc, s.index.lookup key = some loc → ∃ row text, s.rowAt loc = some row ∧
    ¬ s.DeletedAt loc ∧ s.ReadsAs loc text row ∧ s.keyOf text = some key
  distinct : ∀ key key' loc, s.index.lookup key = some loc → s.index.lookup key' = some loc →
    key = key'
  once : ∀ seg, (((s.sidecars.lookup seg).getD []).map Prod.fst).Nodup
  marks : ∀ op, (s.markedBy op).Nodup ∧
    ∀ loc ∈ s.markedBy op, (s.rowAt loc).isSome ∧ ¬ s.DeletedAt loc
  counter : ∃ rows, s.scanAt b maxLsn = .ok rows ∧ s.visibleRows = rows.length

variable {s t : TableStore}

/-- The marks of a change are those of `markedBy`, and no others. -/
theorem marks_of_opEffect {c : TypedChange} (h : OpEffect s c t) :
    t.sidecars = (s.withMarks c.commitLsn (s.markedBy (.apply c))).sidecars ∧
      t.opened.take s.opened.length
        = (s.withMarks c.commitLsn (s.markedBy (.apply c))).opened := by
  cases h with
  | @insert named values s₁ hop hnew hrow hreads =>
    obtain ⟨⟨segCache, rfl⟩, -⟩ := hreads
    rw [markedBy, hop]
    exact ⟨rfl, List.take_left ..⟩
  | @update named key loc values s₁ hop hkeyed hnew hold hloc hrow hreads =>
    obtain ⟨⟨segCache, rfl⟩, -⟩ := hreads
    simp only [markedBy, hop, hnew, hold, hloc, Option.bind_some, Option.toList_some]
    refine ⟨rfl, ?_⟩
    rw [← length_opened_withMark { s with segCache } loc c.commitLsn]
    exact List.take_left ..
  | @delete old key loc hop hkeyed hold hkey hloc =>
    simp only [markedBy, hop, hold, hkey, hloc, Option.bind_some, Option.toList_some]
    refine ⟨rfl, ?_⟩
    rw [← length_opened_withMark s loc c.commitLsn]
    exact List.take_length ..
  | truncate hop =>
    have hmarked : s.markedBy (.apply c) = s.index.entries.map (·.2) := by rw [markedBy, hop]
    rw [hmarked]
    refine ⟨rfl, ?_⟩
    rw [← (s.withMarks_frame c.commitLsn (s.index.entries.map (·.2))).1]
    exact List.take_length ..

section Consistent

variable [FloatText] {pages : Pages OpenRow} {key : Bytes} {loc : Loc}

/-- An index entry leads to a row that is there and not marked deleted. -/
theorem Represents.entry (h : s.Represents pages) (hloc : s.index.lookup key = some loc) :
    ∃ row text, s.rowAt loc = some row ∧ ¬ s.DeletedAt loc ∧ s.ReadsAs loc text row ∧
      s.keyOf text = some key := by
  obtain ⟨r, hget, hlive, hkey⟩ := h.row hloc
  have hdead : r.deleteLsn = none := Option.isNone_iff_eq_none.mp hlive
  obtain ⟨seg, row⟩ := loc
  by_cases hopen : seg = openSegment
  · have haddr : Loc.addr ⟨seg, row⟩ = (none, row) := by rw [Loc.addr, if_pos hopen]
    rw [haddr, Pages.get?_open, h.body.opened] at hget
    refine ⟨r.values, r.values, ?_, ?_, ?_, hkey⟩
    · rw [rowAt, if_pos hopen, hget]
      rfl
    · rw [DeletedAt, if_pos hopen, hget]
      rintro ⟨row, hrow, hsome⟩
      rw [← Option.some.inj hrow, hdead] at hsome
      cases hsome
    · rw [ReadsAs, if_pos hopen]
  · have haddr : Loc.addr ⟨seg, row⟩ = (some seg, row) := by rw [Loc.addr, if_neg hopen]
    rw [haddr] at hget
    obtain ⟨page, hpage, hrow⟩ := Option.bind_eq_some_iff.mp hget
    have hpage : pages.closed[seg]? = some page := hpage
    refine ⟨rendering s.columns r, r.values, ?_, ?_, ?_, hkey⟩
    · rw [rowAt, if_neg hopen, h.body.fileRows_eq hpage]
      show (page.map (rendering s.columns))[row]? = _
      rw [List.getElem?_map, hrow]
      rfl
    · rw [DeletedAt, if_neg hopen]
      intro hmem
      obtain ⟨⟨j, lsn⟩, hd, rfl⟩ := List.mem_map.mp hmem
      obtain ⟨r', hr', hlsn⟩ := ((h.body.marks seg page hpage).mem_iff j lsn).mp hd
      rw [hrow] at hr'
      rw [← Option.some.inj hr', hdead] at hlsn
      cases hlsn
    · rw [ReadsAs, if_neg hopen]
      exact (h.body.files seg page hpage).1 r (List.mem_of_getElem? hrow)

theorem Represents.distinct (h : s.Represents pages) {key' : Bytes}
    (hloc : s.index.lookup key = some loc) (hloc' : s.index.lookup key' = some loc) : key = key' := by
  have hk : s.ix key = some loc.addr := by rw [ix, hloc]; rfl
  have hk' : s.ix key' = some loc.addr := by rw [ix, hloc']; rfl
  exact h.sound.eq_of_eq hk hk'

omit [FloatText] in
private theorem nodup_toList {α : Type} (o : Option α) : o.toList.Nodup := by
  cases o <;> simp

omit [FloatText] in
/-- What a call marks, the index leads to. -/
private theorem exists_of_mem_markedBy {op : StoreOp} (h : loc ∈ s.markedBy op) :
    ∃ key, s.index.lookup key = some loc := by
  cases op with
  | apply c =>
    rw [markedBy] at h
    cases hop : c.op with
    | insert =>
      rw [hop] at h
      exact nomatch h
    | update =>
      rw [hop] at h
      obtain ⟨key, -, hloc⟩ := Option.bind_eq_some_iff.mp (Option.mem_toList.mp h)
      exact ⟨key, hloc⟩
    | delete =>
      rw [hop] at h
      obtain ⟨key, -, hloc⟩ := Option.bind_eq_some_iff.mp (Option.mem_toList.mp h)
      exact ⟨key, hloc⟩
    | truncate =>
      rw [hop] at h
      obtain ⟨⟨key, loc⟩, hmem, rfl⟩ := List.mem_map.mp h
      exact ⟨key, AList.mem_lookup_iff.mpr hmem⟩
  | load | flush | finalize => exact nomatch h

private theorem nodup_markedBy (h : s.Represents pages) (op : StoreOp) : (s.markedBy op).Nodup := by
  cases op with
  | apply c =>
    rw [markedBy]
    cases c.op with
    | insert => exact List.nodup_nil
    | update | delete => exact nodup_toList _
    | truncate =>
      refine (List.nodup_map_iff_inj_on s.index.nodupKeys.nodup).mpr ?_
      rintro ⟨key, loc⟩ hmem ⟨key', loc'⟩ hmem' (rfl : loc = loc')
      rw [h.distinct (AList.mem_lookup_iff.mpr hmem) (AList.mem_lookup_iff.mpr hmem')]
  | load | flush | finalize => exact List.nodup_nil

omit [FloatText] in
/-- At the highest LSN, a row is visible if it is live. -/
private theorem visibleAt_maxLsn {r : OpenRow} (hborn : r.insertLsn ≤ maxLsn)
    (hdied : ∀ d ∈ r.deleteLsn, d ≤ maxLsn) : r.visibleAt maxLsn = r.isLive := by
  cases hd : r.deleteLsn with
  | none => simp [OpenRow.visibleAt, OpenRow.isLive, hd, hborn]
  | some d => simp [OpenRow.visibleAt, OpenRow.isLive, hd, hdied d hd]

theorem Represents.consistent (h : s.Represents pages) (b : Batching) : s.Consistent b := by
  constructor
  · exact fun key loc hloc => h.entry hloc
  · exact fun key key' loc hloc hloc' => h.distinct hloc hloc'
  · intro seg
    by_cases hlt : seg < pages.closed.length
    · exact (h.body.marks seg _ (List.getElem?_eq_getElem hlt)).once
    · rw [(h.body.fresh seg (Nat.le_of_not_lt hlt)).2]
      exact List.nodup_nil
  · intro op
    refine ⟨nodup_markedBy h op, ?_⟩
    intro loc hloc
    obtain ⟨key, hkey⟩ := exists_of_mem_markedBy hloc
    obtain ⟨row, text, hrow, hlive, -⟩ := h.entry hkey
    exact ⟨by rw [hrow]; rfl, hlive⟩
  · have hlive : ∀ r ∈ pages.flat, r.visibleAt maxLsn = r.isLive := fun r hr =>
      visibleAt_maxLsn (h.body.rows r hr).2.1 (h.body.rows r hr).2.2
    refine ⟨_, h.body.scanAt_eq b maxLsn, ?_⟩
    rw [visibleRows, h.body.live, List.length_append, List.length_map, List.length_map,
      ← List.length_append, ← List.filter_append, ← List.countP_eq_length_filter]
    exact List.countP_congr fun r hr => by rw [hlive r hr]

end Consistent

end TableStore

/-! ## Every run -/

/-- The store behind some calls, if they return and their numbers fit. -/
def playAll [FloatText] (s : TableStore) (ops : List StoreOp) : Option TableStore :=
  ops.foldlM (fun s op => if op.Fits s then (op.run.outcome s).map Prod.snd else none) s

theorem run_of_playAll [FloatText] {s t : TableStore} {ops : List StoreOp}
    (h : playAll s ops = some t) : GuardedRun StoreOp.step StoreOp.Fits s t := by
  refine GuardedRun.of_foldlM ?_ h
  intro s op s' hplay
  split at hplay
  · rename_i hfits
    obtain ⟨⟨⟨⟩, s''⟩, hout, rfl⟩ := Option.map_eq_some_iff.mp hplay
    exact (GuardedRun.refl s).tail hfits hout
  · exact nomatch hplay

/-- In every run whose numbers fit, the index leads to live rows by the keys they were
inserted with, no row is marked twice, and the counter is the number of rows of a scan. -/
theorem store_consistent [FloatText] {table : String} {columns : List ColumnSpec}
    {flushRows : Nat} {s₀ s : TableStore}
    (hcreate : TableStore.create table columns flushRows = .ok s₀)
    (hrun : GuardedRun StoreOp.step StoreOp.Fits s₀ s) (b : Batching) : s.Consistent b := by
  obtain ⟨pages, h⟩ := (TableStore.Represents.of_create hcreate).run hrun
  exact h.consistent b

/-- One row to a batch. -/
def singleRows : Batching where
  cut _ rows := rows.map fun row => [row]
  flatten_cut _ rows := List.flatMap_singleton' rows

/-- A key is inserted again, and the row behind it is left. -/
def itemCalls : List StoreOp :=
  [.load "1\tone\n2\ttwo\n".toUTF8.toList 100, .flush,
    .apply { commitLsn := 200, xid := 1, table := "p.items", op := .insert
             new := some [("id", .text "1"), ("v", .text "uno")], old := none },
    .apply { commitLsn := 200, xid := 1, table := "p.items", op := .update
             new := some [("id", .text "2"), ("v", .unchangedToast)], old := none },
    .apply { commitLsn := 300, xid := 2, table := "p.items", op := .delete
             new := none, old := some [("id", .text "1"), ("v", .null)] },
    .finalize]

theorem store_consistent_items : letI := wholeFloats
    ∃ s₀ s, TableStore.create "p.items" [⟨"id", 20, true⟩, ⟨"v", 25, false⟩] 10 = .ok s₀ ∧
      playAll s₀ itemCalls = some s ∧ s.Consistent singleRows := by
  let _ := wholeFloats
  let s₀ : TableStore :=
    { table := "p.items", columns := [⟨"id", 20, true⟩, ⟨"v", 25, false⟩], flushRows := 10 }
  have hcreate : TableStore.create "p.items" s₀.columns 10 = .ok s₀ := rfl
  have hplay : (playAll s₀ itemCalls).isSome := by decide +kernel
  obtain ⟨s, hs⟩ := Option.isSome_iff_exists.mp hplay
  exact ⟨s₀, s, rfl, hs, store_consistent hcreate (run_of_playAll hs) singleRows⟩

/-! ## Rows that are numbered -/

/-- A text column that is the key. -/
def idColumn : ColumnSpec := { name := "id", typeOid := 25, isKey := true }

/-- The COPY line of a row: its number, with ten digits. -/
def idLine (i : Nat) : Bytes := (beDigits 10 10 i).map fun d => UInt8.ofNat (48 + d)

def idText (i : Nat) : String := utf8Lossy (idLine i)

/-- The COPY text of the rows below `n`. -/
def idBase (n : Nat) : Bytes :=
  ((List.range n).map idLine).flatMap fun line => line ++ [0x0A]

private theorem idLine_bytes {i : Nat} {b : UInt8} (h : b ∈ idLine i) : 48 ≤ b ∧ b < 58 := by
  obtain ⟨d, hd, rfl⟩ := List.mem_map.mp h
  have hlt : d < 10 := beDigits_lt_base (by omega) 10 i d hd
  have hall : ∀ d < 10, (48 : UInt8) ≤ UInt8.ofNat (48 + d) ∧ UInt8.ofNat (48 + d) < 58 := by decide
  exact hall d hlt

theorem parse_idLine (i : Nat) : parseCopyLine (idLine i) = [some (idText i)] := by
  apply parseCopyLine_plain
  intro b hb
  obtain ⟨hlo, hhi⟩ := idLine_bytes hb
  constructor
  · rintro rfl
    exact absurd hlo (by decide)
  · rintro rfl
    exact absurd hhi (by decide)

/-- The number is read back from the text. -/
private theorem value_idText {i : Nat} (hi : i < 10 ^ 10) :
    beValue 10 ((idText i).toList.map fun c => c.toNat - 48) = i := by
  have hall : ∀ d < 10, (Char.ofNat (UInt8.ofNat (48 + d)).toNat).toNat - 48 = d := by decide
  have hascii : ∀ b ∈ idLine i, b < 0x80 := fun b hb =>
    UInt8.lt_trans (idLine_bytes hb).2 (by decide)
  have hdigits : (idText i).toList.map (fun c => c.toNat - 48) = beDigits 10 10 i := by
    rw [idText, utf8Lossy_ascii hascii, String.toList_ofList, idLine, List.map_map, List.map_map]
    calc _ = (beDigits 10 10 i).map id := by
          apply List.map_congr_left
          intro d hd
          exact hall d (beDigits_lt_base (by omega) 10 i d hd)
      _ = beDigits 10 10 i := List.map_id _
  rw [hdigits, beValue_beDigits_of_lt hi]

theorem idText_injective {i j : Nat} (hi : i < 10 ^ 10) (hj : j < 10 ^ 10)
    (h : idText i = idText j) : i = j := by
  rw [← value_idText hi, h, value_idText hj]

/-- The key of a row. -/
def idKey (i : Nat) : Bytes := 1 :: (idText i).toUTF8.toList ++ [0x1F]

theorem idKey_injective {i j : Nat} (hi : i < 10 ^ 10) (hj : j < 10 ^ 10)
    (h : idKey i = idKey j) : i = j := by
  apply idText_injective hi hj
  apply toUTF8_toList_injective
  exact (List.cons.inj (List.append_cancel_right h)).2

/-- A base of any size is loaded, and its rows are found modulo 2^32. -/
theorem load_idBase [FloatText] {n : Nat} (hn : n ≤ 10 ^ 10) (flushRows lsn0 : Nat) :
    ∃ s t, TableStore.create "p.ids" [idColumn] flushRows = .ok s ∧
      StoreOp.step (.load (idBase n) lsn0) s t ∧
      t.columns = [idColumn] ∧ t.segments = [] ∧ t.flushRows = flushRows ∧
      t.opened = (List.range n).map (fun i => { values := [some (idText i)], insertLsn := lsn0 }) ∧
      ∀ i < n, t.index.lookup (idKey i) = some { seg := openSegment, row := i % 2 ^ 32 } := by
  have hlines : copyLines (idBase n) = (List.range n).map idLine := by
    apply copyLines_of_lines
    intro line hline
    obtain ⟨i, -, rfl⟩ := List.mem_map.mp hline
    intro hmem
    exact absurd (idLine_bytes hmem).1 (by decide)
  let s : TableStore := { table := "p.ids", columns := [idColumn], flushRows }
  have hwidths : ∀ line ∈ copyLines (idBase n),
      (parseCopyLine line).length = s.columns.length := by
    intro line hline
    rw [hlines] at hline
    obtain ⟨i, -, rfl⟩ := List.mem_map.mp hline
    rw [parse_idLine]
    rfl
  have hload : Returns (StoreOp.run (.load (idBase n) lsn0)) s fun _ _ => True :=
    Spec.bind (loadCopyPart_spec hwidths lsn0) fun _ _ _ => Spec.pure trivial
  obtain ⟨⟨⟩, t, hout, ⟨-, -, appliedLsn, rfl⟩, -⟩ :=
    (hload.and_ensures (Ensures.drop (loadCopyPart_ensures (idBase n) lsn0))).exec
  obtain ⟨hcolumns, hsegments, hflush⟩ := s.withLines_frame lsn0 (copyLines (idBase n))
  refine ⟨s, _, rfl, hout, hcolumns, hsegments, hflush, ?_, ?_⟩
  · show (s.withLines lsn0 (copyLines (idBase n))).opened = _
    rw [opened_withLines, hlines, List.map_map]
    show [] ++ _ = _
    rw [List.nil_append]
    apply List.map_congr_left
    intro i _
    simp only [Function.comp_apply, parse_idLine]
  · intro i hi
    let key : Bytes → Bytes := fun line => 1 :: (utf8Lossy line).toUTF8.toList ++ [0x1F]
    have hkey : ∀ line ∈ copyLines (idBase n), s.keyOf (parseCopyLine line) = some (key line) := by
      intro line hline
      rw [hlines] at hline
      obtain ⟨j, -, rfl⟩ := List.mem_map.mp hline
      rw [parse_idLine]
      show some ((1 :: (idText j).toUTF8.toList ++ [0x1F]) ++ []) = _
      rw [List.append_nil]
      rfl
    have hnodup : ((copyLines (idBase n)).map key).Nodup := by
      rw [hlines, List.map_map]
      apply List.Nodup.map_on _ List.nodup_range
      intro i hi j hj h
      rw [List.mem_range] at hi hj
      exact idKey_injective (by omega) (by omega) h
    have hget : (copyLines (idBase n))[i]? = some (idLine i) := by
      rw [hlines, List.getElem?_map, List.getElem?_range hi]
      rfl
    have hlookup := lookup_withLines (s := s) rfl hkey hnodup lsn0 hget
    rw [show s.opened.length + i = i from Nat.zero_add i] at hlookup
    exact hlookup

/-- The source writes the double 10^20 in another way than the store. -/
@[reducible] def exponents : FloatText where
  renderF64 v := if v = "1e+20" then some "100000000000000000000" else v.toNat?.map toString

/-- A flushed key of doubles is read back as another key, and with more than 2^32 open rows two
entries share a row. -/
theorem store_inconsistent : letI := exponents
    (∃ s₀ s, TableStore.create "p.m" [⟨"id", 701, true⟩] 10 = .ok s₀ ∧ Run StoreOp.step s₀ s ∧
      ∃ key loc row, s.index.lookup key = some loc ∧ s.rowAt loc = some row ∧
        s.keyOf row ≠ some key) ∧
    ∃ s₀ s, TableStore.create "p.ids" [idColumn] 10 = .ok s₀ ∧ Run StoreOp.step s₀ s ∧
      ∃ key key' loc, key ≠ key' ∧ s.index.lookup key = some loc ∧
        s.index.lookup key' = some loc := by
  let _ := exponents
  constructor
  · let s₀ : TableStore := { table := "p.m", columns := [⟨"id", 701, true⟩], flushRows := 10 }
    have hplay : ∃ s ∈ playAll s₀ [.load "1e+20\n".toUTF8.toList 5, .flush],
        s.index.lookup (1 :: "1e+20".toUTF8.toList ++ [0x1F]) = some ⟨0, 0⟩ ∧
        s.rowAt ⟨0, 0⟩ = some [some "100000000000000000000"] ∧
        s.keyOf [some "100000000000000000000"] ≠ some (1 :: "1e+20".toUTF8.toList ++ [0x1F]) := by
      decide +kernel
    obtain ⟨s, hs, hindex, hrow, hkey⟩ := hplay
    exact ⟨s₀, s, rfl, (run_of_playAll hs).run, _, _, _, hindex, hrow, hkey⟩
  · obtain ⟨s₀, s, hcreate, hstep, -, -, -, -, hlookup⟩ :=
      load_idBase (n := 2 ^ 32 + 1) (by decide) 10 5
    refine ⟨s₀, s, hcreate, (GuardedRun.refl _).tail trivial hstep, idKey 0, idKey (2 ^ 32), _, ?_,
      hlookup 0 (by decide), hlookup (2 ^ 32) (by decide)⟩
    intro h
    exact absurd (idKey_injective (by decide) (by decide) h) (by decide)

end GrayDB.Columnar
