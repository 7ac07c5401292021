import GrayDB.Lib.UptoLast
import GrayDB.Log.Operations

/-!
# Recovery

`Recoverable segs L` says what a crash, in an operation or in recovery itself,
leaves behind: segments that hold the lists of frames `L`, the last of them cut
anywhere, and behind them leftovers in which no transaction is complete.

* `Shows.recoverable` and `Recoverable.crash` are the two ways to get there.
* `scan_boundary` is what the scan of `resume` finds.
* `resume_spec` is the result.  The log is cut to `cutSegs L`, which holds the
  frames up to the last commit, all of them are durable, and every state on the
  way is recoverable again.
-/

namespace GrayDB.Log

open Lib Lib.Crash FrameLog

/-! ## The committed frames -/

/-- The frames up to and including the last commit. -/
abbrev committed (fs : List Frame) : List Frame := uptoLast Frame.txnComplete fs

/-- The segments that recovery keeps, as lists of frames. -/
abbrev cutSegs (L : List (List Frame)) : List (List Frame) := cutLast Frame.txnComplete L

theorem flatten_cutSegs (L : List (List Frame)) : (cutSegs L).flatten = committed L.flatten :=
  flatten_cutLast L

theorem committed_committed (fs : List Frame) : committed (committed fs) = committed fs :=
  uptoLast_uptoLast fs

theorem lastCommit_snoc (fs : List Frame) (f : Frame) :
    lastCommit (fs ++ [f]) = (commitOf f).or (lastCommit fs) := by
  rw [lastCommit_append]
  simp [lastCommit]

theorem committed_snoc (fs : List Frame) (f : Frame) :
    committed (fs ++ [f]) = if f.txnComplete then fs ++ [f] else committed fs := by
  rw [committed, uptoLast_append]
  cases hc : f.txnComplete <;> simp [uptoLast, hc]

/-- The last commit is the last of the committed frames. -/
theorem lastCommit_eq (fs : List Frame) :
    lastCommit fs = none ∧ committed fs = [] ∨
      ∃ front f, committed fs = front ++ [f] ∧ f.txnComplete = true ∧
        lastCommit fs = some (f.seq, f.lsnEnd) := by
  induction fs using List.reverseRecOn with
  | nil => exact Or.inl ⟨rfl, rfl⟩
  | append_singleton fs f ih =>
    rw [lastCommit_snoc, committed_snoc, commitOf]
    cases hc : f.txnComplete with
    | true => exact Or.inr ⟨fs, f, by simp, hc, by simp⟩
    | false => simpa using ih

theorem lastCommit_eq_none_iff {fs : List Frame} : lastCommit fs = none ↔ committed fs = [] := by
  rcases lastCommit_eq fs with ⟨h, h'⟩ | ⟨front, f, h, -, h'⟩
  · simp [h, h']
  · simp [h, h']

theorem lastCommit_committed (fs : List Frame) : lastCommit (committed fs) = lastCommit fs := by
  have hafter : lastCommit (afterLast Frame.txnComplete fs) = none :=
    lastCommit_eq_none_iff.mpr (uptoLast_afterLast fs)
  have hsplit := lastCommit_append (committed fs) (afterLast Frame.txnComplete fs)
  rw [uptoLast_append_afterLast, hafter, Option.none_or] at hsplit
  exact hsplit.symm

/-- The last commit is in the last segment with commits. -/
theorem lastCommit_of_committed {fs gs hs : List Frame}
    (h : committed fs = gs ++ committed hs) (hne : committed hs ≠ []) :
    lastCommit fs = lastCommit hs := by
  rw [← lastCommit_committed fs, h, lastCommit_append, lastCommit_committed]
  cases hl : lastCommit hs with
  | none => exact absurd (lastCommit_eq_none_iff.mp hl) hne
  | some q => rfl

/-- The number of the last commit counts the committed frames. -/
theorem Proper.lastCommit {fs : List Frame} (h : Proper fs) {q : Nat × Nat}
    (hq : lastCommit fs = some q) : q.1 + 1 = (committed fs).length := by
  rcases lastCommit_eq fs with ⟨hnone, -⟩ | ⟨front, f, hc, -, hsome⟩
  · rw [hnone] at hq
    simp at hq
  · obtain rfl := Option.some.inj (hsome.symm.trans hq)
    have hfront : Proper (front ++ [f]) := hc ▸ h.of_isPrefix (uptoLast_isPrefix fs)
    have hseq : f.seq = front.length := hfront.getElem?_seq
    rw [hc, hseq]
    simp

/-- The number of the last commit counts the frames in front of its segment. -/
theorem Proper.lastCommit_behind {fs gs : List Frame} (h : Proper (fs ++ gs)) {q : Nat × Nat}
    (hq : Log.lastCommit gs = some q) :
    q.1 + 1 = (fs ++ committed gs).length ∧ fs.length ≤ q.1 := by
  have hc : committed gs ≠ [] := by
    intro hnil
    rw [lastCommit_eq_none_iff.mpr hnil] at hq
    simp at hq
  have hcom : committed (fs ++ gs) = fs ++ committed gs := uptoLast_append_of_ne_nil hc
  have hlen := h.lastCommit ((lastCommit_of_committed hcom hc).trans hq)
  have hpos : 0 < (committed gs).length := List.length_pos_iff.mpr hc
  rw [hcom] at hlen
  refine ⟨hlen, ?_⟩
  rw [List.length_append] at hlen
  omega

/-- The mark of the last commit names a frame. -/
theorem Proper.mark_lastCommit {fs : List Frame} (h : Proper (committed fs)) {m : DurableMark}
    (hm : m = ({} : DurableMark).after (Log.lastCommit fs)) (hv : m.valid = true) :
    CommitAt (committed fs) m.seq m.lsn := by
  subst hm
  rcases lastCommit_eq fs with ⟨hnone, -⟩ | ⟨front, f, hc, hf, hsome⟩
  · rw [hnone] at hv
    simp [DurableMark.after] at hv
  · rw [hsome]
    exact h.commitAt (by rw [hc]; simp) hf

/-- A commit frame is among the committed ones. -/
theorem CommitAt.committed {fs : List Frame} {seq lsn : Nat} (h : CommitAt fs seq lsn) :
    CommitAt (committed fs) seq lsn := by
  obtain ⟨f, hf, hc, hlsn⟩ := h
  exact ⟨f, getElem?_uptoLast hf hc, hc, hlsn⟩

/-- The LSNs of the commits do not go down. -/
def CommitsAscend (fs : List Frame) : Prop :=
  (fs.filter Frame.txnComplete).Pairwise fun f g => f.lsnEnd ≤ g.lsnEnd

theorem CommitsAscend.of_isPrefix {fs gs : List Frame} (h : CommitsAscend gs) (hp : fs <+: gs) :
    CommitsAscend fs :=
  h.sublist (hp.sublist.filter _)

/-- The last commit is not below any other. -/
theorem CommitAt.le_lastCommit {fs : List Frame} (hp : Proper fs) {seq lsn : Nat}
    (h : CommitAt fs seq lsn) :
    ∃ q, lastCommit fs = some q ∧ seq ≤ q.1 ∧ (CommitsAscend fs → lsn ≤ q.2) := by
  have hcom := h.committed
  rcases lastCommit_eq fs with ⟨-, hnil⟩ | ⟨front, g, hc, hg, hlast⟩
  · rw [hnil] at hcom
    exact absurd hcom.lt_length (by simp)
  · have hfront : Proper (front ++ [g]) := hc ▸ hp.of_isPrefix (uptoLast_isPrefix fs)
    have hseq : g.seq = front.length := hfront.getElem?_seq
    rw [hc] at hcom
    refine ⟨_, hlast, ?_, fun hasc => ?_⟩
    · have := hcom.lt_length
      simp only [List.length_append, List.length_singleton] at this
      show seq ≤ g.seq
      omega
    · obtain ⟨f, hf, hfc, rfl⟩ := hcom
      have hasc' : CommitsAscend (front ++ [g]) := hc ▸ hasc.of_isPrefix (uptoLast_isPrefix fs)
      rw [CommitsAscend, List.filter_append, List.pairwise_append] at hasc'
      rcases List.mem_append.mp (List.mem_of_getElem? hf) with hmem | hmem
      · exact hasc'.2.2 f (List.mem_filter.mpr ⟨hmem, hfc⟩) g (by simp [hg])
      · rw [List.mem_singleton.mp hmem]

theorem Proper.take_right {fs gs : List Frame} (h : Proper (fs ++ gs)) (n : Nat) :
    Proper (fs ++ gs.take n) :=
  h.of_isPrefix ((List.prefix_append_right_inj _).mpr (List.take_prefix _ _))

/-! ## Removing segments -/

/-- Removing segments one by one leaves fewer of the junk, and in the end the rest. -/
theorem removeAll_spec (kept : List (Nat × SegFile)) {V : Disk → Prop} :
    ∀ (names : List Nat) {junk : List (Nat × SegFile)} {d : Dir},
      d.segs = kept ++ junk → (∀ s ∈ kept, s.1 ∉ names) →
      (∀ e : Dir, ∀ junk' ⊆ junk, e.segs = kept ++ junk' → V (some e)) →
      Spec (removeAll names) (some d) V fun _ disk =>
        ∃ e, disk = some e ∧ e.segs = kept ++ junk.filter fun s => s.1 ∉ names
  | [], junk, d, hd, _, _ => Spec.pure ⟨d, rfl, by simp [hd]⟩
  | name :: names, junk, d, hd, hk, hV => by
    have hkept : kept.filter (fun s => s.1 ≠ name) = kept := by
      rw [List.filter_eq_self]
      intro s hs
      have := hk s hs
      simp only [List.mem_cons, not_or] at this
      simpa using this.1
    have hsegs : (d.remove name).segs = kept ++ junk.filter fun s => s.1 ≠ name := by
      rw [Dir.segs_remove, hd, List.filter_append, hkept]
    refine Spec.bind_call (hV _ _ List.filter_sublist.subset hsegs) ?_
    refine Spec.mono (removeAll_spec kept names hsegs (fun s hs hmem => hk s hs (by simp [hmem]))
      fun e junk' hjunk' => hV e junk' (List.Subset.trans hjunk' List.filter_sublist.subset))
      (fun _ hv => hv) ?_
    rintro _ _ ⟨e, rfl, he⟩
    refine ⟨e, rfl, ?_⟩
    rw [he, List.filter_filter]
    congr 2
    funext s
    simp [Bool.and_comm]

/-- Removing all of the junk. -/
theorem removeAll_junk (kept : List (Nat × SegFile)) {junk : List (Nat × SegFile)} {V : Disk → Prop} {d : Dir}
    (hd : d.segs = kept ++ junk) (hk : ∀ s ∈ kept, s.1 ∉ junk.map Prod.fst)
    (hV : ∀ e : Dir, ∀ junk' ⊆ junk, e.segs = kept ++ junk' → V (some e)) :
    Spec (removeAll (junk.map Prod.fst)) (some d) V fun _ disk =>
      ∃ e, disk = some e ∧ e.segs = kept := by
  refine Spec.mono (removeAll_spec kept _ hd hk hV) (fun _ hv => hv) ?_
  rintro _ _ ⟨e, rfl, he⟩
  have hnil : junk.filter (fun s => s.1 ∉ junk.map Prod.fst) = [] := by
    rw [List.filter_eq_nil_iff]
    intro s hs
    simpa using ⟨s.2, hs⟩
  exact ⟨e, rfl, by rw [he, hnil, List.append_nil]⟩

variable [Crc32c]

/-! ## What a crash leaves behind -/

/-- A file in which no transaction is complete. -/
def Leftover (f : SegFile) : Prop :=
  ∃ fs t, f.data = encodeFrames fs ++ t ∧ Torn t ∧
    ∀ g ∈ fs, g.Fits ∧ g.txnComplete = false

/-- Segments that hold the lists of frames `L`, with leftovers behind them.  In the
first case the last file with frames is torn at its end; in the second no commit is
left at all. -/
inductive Recoverable : List (Nat × SegFile) → List (List Frame) → Prop
  | segments {closed : List (List Frame)} {last : List Frame} {t : Bytes} {g : SegFile}
      {junk : List (Nat × SegFile)} (closed_ne : ∀ fs ∈ closed, fs ≠ [])
      (proper : Proper (closed.flatten ++ last)) (data : g.data = encodeFrames last ++ t)
      (torn : Torn t)
      (leftovers : ∀ s ∈ junk, closed.flatten.length < s.1 ∧ Leftover s.2) :
      Recoverable (closedSegs 0 closed ++ (closed.flatten.length, g) :: junk) (closed ++ [last])
  | leftovers {junk : List (Nat × SegFile)} (h : ∀ s ∈ junk, Leftover s.2) :
      Recoverable junk []

theorem Leftover.survives {f g : SegFile} (h : Leftover f) (hs : f.Survives g) : Leftover g := by
  obtain ⟨fs, t, hdata, ht, hfs⟩ := h
  obtain ⟨n, u, -, hcut, hu⟩ := exists_torn_of_isPrefix_torn (fun g hg => (hfs g hg).1) ht
    (hdata ▸ hs.data)
  exact ⟨fs.take n, u, hcut, hu, fun g hg => hfs g (List.mem_of_mem_take hg)⟩

theorem Leftover.empty : Leftover .empty := ⟨[], [], rfl, torn_nil, by simp⟩

/-- Whole files can be resumed from. -/
theorem Layout.recoverable {l : Layout} (h : Proper l.frames) :
    Recoverable l.segs (l.closed ++ [l.kept ++ l.cached]) :=
  .segments l.closed_ne h (by simp) torn_nil (by simp)

theorem recoverable_closedSegs {closed : List (List Frame)} (hne : ∀ fs ∈ closed, fs ≠ [])
    (h : Proper closed.flatten) : Recoverable (closedSegs 0 closed) closed := by
  rcases List.eq_nil_or_concat closed with rfl | ⟨pre, last, rfl⟩
  · exact .leftovers (by simp [closedSegs])
  · have hsegs : closedSegs 0 (pre ++ [last]) = closedSegs 0 pre ++
        [(pre.flatten.length, { durable := encodeFrames last, cached := [] })] := by
      simp [closedSegs]
    rw [List.concat_eq_append] at h hne ⊢
    rw [hsegs]
    exact .segments (fun fs hfs => hne fs (by simp [hfs])) (by simpa using h) (by simp) torn_nil
      (by simp)

/-- A crash leaves the closed segments as they are. -/
theorem closedSegs_survives {ls : List (List Frame)} {n : Nat} {rest segs : List (Nat × SegFile)}
    (h : List.Forall₂ (fun s t => s.1 = t.1 ∧ s.2.Survives t.2) (closedSegs n ls ++ rest) segs) :
    ∃ rest', segs = closedSegs n ls ++ rest' ∧
      List.Forall₂ (fun s t => s.1 = t.1 ∧ s.2.Survives t.2) rest rest' := by
  induction ls generalizing n segs with
  | nil => exact ⟨segs, rfl, h⟩
  | cons fs ls ih =>
    rw [closedSegs, List.cons_append] at h
    cases h with
    | cons hhead htail =>
      rename_i s segs
      obtain ⟨rest', rfl, hrest⟩ := ih htail
      refine ⟨rest', ?_, hrest⟩
      obtain ⟨hname, hfile⟩ := hhead
      have hs : s = (n, { durable := encodeFrames fs, cached := [] }) :=
        Prod.ext hname.symm (hfile.eq_of_cached_nil rfl)
      rw [closedSegs, List.cons_append, hs]

private theorem leftovers_survive {junk junk' : List (Nat × SegFile)}
    (h : List.Forall₂ (fun s t => s.1 = t.1 ∧ s.2.Survives t.2) junk junk') {P : Nat → Prop}
    (hjunk : ∀ s ∈ junk, P s.1 ∧ Leftover s.2) : ∀ s ∈ junk', P s.1 ∧ Leftover s.2 := by
  induction h with
  | nil => exact hjunk
  | cons hhead _ ih =>
    obtain ⟨hname, hfile⟩ := hhead
    obtain ⟨hp, hl⟩ := hjunk _ List.mem_cons_self
    intro s hs
    rcases List.mem_cons.mp hs with rfl | hs
    · exact ⟨hname ▸ hp, hl.survives hfile⟩
    · exact ih (fun t ht => hjunk t (List.mem_cons_of_mem _ ht)) s hs

/-- Crashing again leaves something recoverable again. -/
theorem Recoverable.crash {segs segs' : List (Nat × SegFile)} {L : List (List Frame)}
    (h : Recoverable segs L)
    (hs : List.Forall₂ (fun s t => s.1 = t.1 ∧ s.2.Survives t.2) segs segs') :
    ∃ L', Recoverable segs' L' := by
  cases h with
  | segments hne hp hdata ht hjunk =>
    rename_i closed last t g junk
    obtain ⟨rest, rfl, hrest⟩ := closedSegs_survives hs
    cases hrest with
    | cons hhead htail =>
      rename_i s junk'
      obtain ⟨n, g'⟩ := s
      obtain ⟨rfl, hfile⟩ := hhead
      obtain ⟨k, u, -, hcut, hu⟩ := exists_torn_of_isPrefix_torn
        (fun f hf => hp.fits f (List.mem_append_right _ hf)) ht (hdata ▸ hfile.data)
      exact ⟨_, .segments hne (hp.take_right k) hcut hu (leftovers_survive htail hjunk)⟩
  | leftovers hjunk =>
    have := leftovers_survive hs (P := fun _ => True) (fun s hs => ⟨trivial, hjunk s hs⟩)
    exact ⟨[], .leftovers fun s hs => (this s hs).2⟩

/-- A crash of a log keeps its durable frames and some of the others. -/
theorem Shows.recoverable {s : FrameLog} {l : Layout} (h : Shows s l) {d : Dir}
    (hd : s.dir.CrashImage d) :
    ∃ last t g, l.kept <+: last ∧ last <+: l.kept ++ l.cached ∧
      d.segs = closedSegs 0 l.closed ++ [(l.name, g)] ∧ g.data = encodeFrames last ++ t ∧
      Torn t ∧ Recoverable d.segs (l.closed ++ [last]) := by
  rw [Dir.CrashImage, h.segs, Layout.segs] at hd
  obtain ⟨rest, hsegs, hrest⟩ := closedSegs_survives hd
  cases hrest with
  | cons hhead htail =>
    cases htail
    rename_i s
    obtain ⟨n, g⟩ := s
    obtain ⟨rfl, hfile⟩ := hhead
    have hfits : ∀ f ∈ l.kept ++ l.cached, f.Fits :=
      fun f hf => h.proper.fits f (List.mem_append_right _ hf)
    have hdata : g.data <+: encodeFrames (l.kept ++ l.cached) := by
      rw [encodeFrames_append]
      exact hfile.data
    obtain ⟨n, t, hn, hcut, ht⟩ := exists_torn_of_isPrefix hfits hdata
    have hlast : l.kept <+: (l.kept ++ l.cached).take n := by
      refine isPrefix_of_encodeFrames (fun f hf => hfits f (List.mem_append_left _ hf))
        (fun f hf => hfits f (List.mem_of_mem_take hf)) ht ?_
      rw [← hcut]
      exact hfile.durable.trans (List.prefix_append _ _)
    have hp : Proper (l.closed.flatten ++ (l.kept ++ l.cached).take n) := h.proper.take_right n
    refine ⟨_, t, g, hlast, List.take_prefix _ _, hsegs, hcut, ht, ?_⟩
    rw [hsegs]
    exact .segments l.closed_ne hp hcut ht (by simp)

/-- The frames that a crash has left can be read off the files. -/
theorem frames_of_crash {closed : List (List Frame)} {last : List Frame} {t : Bytes} {g : SegFile}
    {d : Dir} (hsegs : d.segs = closedSegs 0 closed ++ [(closed.flatten.length, g)])
    (hdata : g.data = encodeFrames last ++ t) (ht : Torn t)
    (hfits : ∀ f ∈ closed.flatten ++ last, f.Fits) :
    d.frames = closed.flatten ++ last ∧ d.bytes = encodeFrames (closed.flatten ++ last) ++ t := by
  have hclosed : ∀ n (ls : List (List Frame)), (∀ f ∈ ls.flatten, f.Fits) →
      (closedSegs n ls).flatMap (fun s => (readFrames s.2.data).1.map Prod.fst) = ls.flatten ∧
        (closedSegs n ls).flatMap (·.2.data) = encodeFrames ls.flatten := by
    intro n ls hls
    induction ls generalizing n with
    | nil => exact ⟨rfl, rfl⟩
    | cons fs ls ih =>
      have hfs : ∀ f ∈ fs, f.Fits := fun f hf => hls f (by simp [hf])
      obtain ⟨h1, h2⟩ := ih (n + fs.length) fun f hf => hls f (by
        rw [List.flatten_cons]
        exact List.mem_append_right _ hf)
      refine ⟨?_, by simp [closedSegs, h2]⟩
      simp [closedSegs, h1, readFrames_whole hfs]
  obtain ⟨h1, h2⟩ := hclosed 0 closed fun f hf => hfits f (List.mem_append_left _ hf)
  have hlast := (readFrames_encodeFrames (fun f hf => hfits f (List.mem_append_right _ hf)) ht).1
  refine ⟨?_, ?_⟩
  · rw [Dir.frames, hsegs, List.flatMap_append, h1]
    simp [hdata, hlast]
  · rw [Dir.bytes, hsegs, List.flatMap_append, h2]
    simp [hdata]

/-- The whole frames among the fsync'd bytes of the segments. -/
def Dir.durableFrames (d : Dir) : List Frame :=
  d.segs.flatMap fun s => (readFrames s.2.durable).1.map Prod.fst

/-- Closed segments are read whole, with what is cached and without. -/
private theorem read_closedSegs (n : Nat) {ls : List (List Frame)}
    (h : ∀ f ∈ ls.flatten, f.Fits) :
    (closedSegs n ls).flatMap (fun s => (readFrames s.2.data).1.map Prod.fst) = ls.flatten ∧
      (closedSegs n ls).flatMap (fun s => (readFrames s.2.durable).1.map Prod.fst)
        = ls.flatten := by
  induction ls generalizing n with
  | nil => exact ⟨rfl, rfl⟩
  | cons fs ls ih =>
    rw [List.flatten_cons] at h
    have hfs : ∀ f ∈ fs, f.Fits := fun f hf => h f (List.mem_append_left _ hf)
    obtain ⟨h1, h2⟩ := ih (n + fs.length) fun f hf => h f (List.mem_append_right _ hf)
    exact ⟨by simp [closedSegs, h1, readFrames_whole hfs],
      by simp [closedSegs, h2, readFrames_whole hfs]⟩

/-- The directory of a log holds the frames of its layout. -/
theorem Shows.dir_frames {s : FrameLog} {l : Layout} (h : Shows s l) :
    s.dir.frames = l.frames ∧ s.dir.durableFrames = l.durableFrames := by
  have hfits := h.proper.fits
  have hlast : ∀ f ∈ l.kept ++ l.cached, f.Fits := fun f hf =>
    hfits f (List.mem_append_right _ hf)
  obtain ⟨h1, h2⟩ := read_closedSegs 0 fun f hf => hfits f (List.mem_append_left _ hf)
  have hdata := readFrames_whole hlast
  have hdurable := readFrames_whole fun f hf => hlast f (List.mem_append_left _ hf)
  constructor
  · rw [Dir.frames, h.segs, Layout.segs, List.flatMap_append, h1, Layout.frames]
    rw [encodeFrames_append] at hdata
    simp [hdata]
  · rw [Dir.durableFrames, h.segs, Layout.segs, List.flatMap_append, h2, Layout.durableFrames]
    simp [hdurable]

/-- A crash leaves all durable frames, and no others than the log had. -/
theorem Shows.crash_frames {s : FrameLog} {l : Layout} (h : Shows s l) {d : Dir}
    (hd : s.dir.CrashImage d) :
    ∃ L, Recoverable d.segs L ∧ L.flatten = d.frames ∧ l.durableFrames <+: d.durableFrames ∧
      d.durableFrames <+: d.frames ∧ d.frames <+: l.frames := by
  obtain ⟨last, t, g, -, hlast, hsegs, hdata, ht, hrec⟩ := h.recoverable hd
  rw [Dir.CrashImage, h.segs, Layout.segs] at hd
  obtain ⟨rest, hrest, hsurvives⟩ := closedSegs_survives hd
  obtain rfl := List.append_cancel_left (hrest.symm.trans hsegs)
  have hfile : SegFile.Survives _ g := (List.forall₂_cons.mp hsurvives).1.2
  have hp : Proper (l.closed.flatten ++ last) :=
    h.proper.of_isPrefix ((List.prefix_append_right_inj _).mpr hlast)
  have hfits : ∀ f ∈ last, f.Fits := fun f hf => hp.fits f (List.mem_append_right _ hf)
  obtain ⟨hframes, -⟩ := frames_of_crash hsegs hdata ht hp.fits
  have hpre : g.durable <+: encodeFrames last ++ t := by
    rw [← hdata]
    exact List.prefix_append _ _
  obtain ⟨n, u, -, hcut, hu⟩ := exists_torn_of_isPrefix_torn hfits ht hpre
  have hcutfits : ∀ f ∈ last.take n, f.Fits := fun f hf => hfits f (List.mem_of_mem_take hf)
  have hkept : l.kept <+: last.take n := by
    refine isPrefix_of_encodeFrames (fun f hf => ?_) hcutfits hu (hcut ▸ hfile.durable)
    exact h.proper.fits f (by simp [Layout.frames, hf])
  have hdurable : d.durableFrames = l.closed.flatten ++ last.take n := by
    rw [Dir.durableFrames, hsegs, List.flatMap_append,
      (read_closedSegs 0 fun f hf => hp.fits f (List.mem_append_left _ hf)).2]
    simp [hcut, (readFrames_encodeFrames hcutfits hu).1]
  refine ⟨_, hrec, by rw [hframes]; simp, ?_, ?_, ?_⟩
  · rw [hdurable, Layout.durableFrames]
    exact (List.prefix_append_right_inj _).mpr hkept
  · rw [hdurable, hframes]
    exact (List.prefix_append_right_inj _).mpr (List.take_prefix _ _)
  · rw [hframes, Layout.frames]
    exact (List.prefix_append_right_inj _).mpr hlast

/-! ## The scan -/

/-- The boundary that the frames of one segment give. -/
def boundaryAt (segIdx : Nat) (fs : List Frame) : Option Boundary :=
  (lastCommit fs).map fun q =>
    { segIdx, endOffset := (encodeFrames (committed fs)).length, seq := q.1, lsn := q.2 }

private theorem foldl_frame (segIdx : Nat) (s : Scan) (fs : List Frame) :
    ((withLengths fs).foldl (Scan.frame segIdx) (s, 0)).2 = (encodeFrames fs).length ∧
      ((withLengths fs).foldl (Scan.frame segIdx) (s, 0)).1.boundary
        = (boundaryAt segIdx fs).or s.boundary := by
  induction fs using List.reverseRecOn with
  | nil => exact ⟨rfl, by simp [withLengths, boundaryAt, lastCommit]⟩
  | append_singleton fs f ih =>
    obtain ⟨hoffset, hboundary⟩ := ih
    have hsnoc : withLengths (fs ++ [f]) = withLengths fs ++ [(f, (encodeFrame f).length)] := by
      simp [withLengths]
    rw [hsnoc, List.foldl_append, List.foldl_cons, List.foldl_nil, Scan.frame]
    cases hc : f.txnComplete with
    | true =>
      simp [hc, hoffset, boundaryAt, lastCommit_snoc, committed_snoc, commitOf]
    | false =>
      simp [hc, hoffset, hboundary, boundaryAt, lastCommit_snoc, committed_snoc, commitOf]

/-- A file that the decode loop reads as the frames `fs`. -/
def ReadsAs (g : SegFile) (fs : List Frame) : Prop :=
  (∀ f ∈ fs, f.Fits) ∧ ∃ u, g.data = encodeFrames fs ++ u ∧ Stops u

/-- A file that is read without finding a commit. -/
def Quiet (g : SegFile) : Prop := ∃ fs, ReadsAs g fs ∧ ∀ f ∈ fs, f.txnComplete = false

theorem ReadsAs.readFrames {g : SegFile} {fs : List Frame} (h : ReadsAs g fs) :
    (readFrames g.data).1 = withLengths fs := by
  obtain ⟨hfs, u, hdata, hu⟩ := h
  rw [hdata, readFrames_of_stops hfs hu]

theorem Leftover.quiet {g : SegFile} (h : Leftover g) : Quiet g := by
  obtain ⟨fs, t, hdata, ht, hfs⟩ := h
  exact ⟨fs, ⟨fun f hf => (hfs f hf).1, t, hdata, ht.stops⟩, fun f hf => (hfs f hf).2⟩

/-- A segment moves the boundary to its last commit, if it has one. -/
theorem FrameLog.Scan.segment_boundary (s : Scan) {seg : Nat × SegFile} {i : Nat} {fs : List Frame}
    (h : ReadsAs seg.2 fs) : (s.segment (seg, i)).boundary = (boundaryAt i fs).or s.boundary := by
  rw [Scan.segment, h.readFrames]
  exact (foldl_frame i s fs).2

theorem scan_quiet {junk : List (Nat × SegFile)} (h : ∀ s ∈ junk, Quiet s.2) (k : Nat)
    (s : Scan) : ((junk.zipIdx k).foldl Scan.segment s).boundary = s.boundary := by
  induction junk generalizing k s with
  | nil => rfl
  | cons seg junk ih =>
    obtain ⟨fs, hread, hfs⟩ := h seg (by simp)
    have hnone : lastCommit fs = none :=
      lastCommit_eq_none_iff.mpr (uptoLast_eq_nil_iff.mpr hfs)
    rw [List.zipIdx_cons, List.foldl_cons, ih (fun s hs => h s (List.mem_cons_of_mem _ hs)),
      s.segment_boundary hread, boundaryAt, hnone]
    rfl

/-- The scan finds the last commit of the last segment that has one. -/
theorem scan_boundary {before junk : List (Nat × SegFile)} {seg : Nat × SegFile}
    {fs : List Frame} (hread : ReadsAs seg.2 fs) (hjunk : ∀ s ∈ junk, Quiet s.2) {q : Nat × Nat}
    (hq : lastCommit fs = some q) :
    (scan (before ++ seg :: junk)).boundary = some
      { segIdx := before.length, endOffset := (encodeFrames (committed fs)).length
        seq := q.1, lsn := q.2 } := by
  rw [scan, List.zipIdx_append, List.foldl_append, List.zipIdx_cons, List.foldl_cons,
    scan_quiet hjunk, Nat.zero_add, Scan.segment_boundary _ hread, boundaryAt, hq]
  rfl

/-- Segments end in the one with the last commit and in others behind it, or have no
commit at all.  `front` is what the segments before them hold, `Reads` says what a file
holds, and `Rest` is what a file without a commit is. -/
theorem split_lastCommit (Reads : SegFile → List Frame → Prop) (Rest : SegFile → Prop)
    (front : List Frame)
    (hwhole : ∀ fs, Reads { durable := encodeFrames fs, cached := [] } fs)
    (hrest : ∀ g fs, Reads g fs → (∀ f ∈ fs, f.Fits) → committed fs = [] → Rest g)
    {last : List Frame} {closed : List (List Frame)} {g : SegFile}
    {junk : List (Nat × SegFile)} (hne : ∀ fs ∈ closed, fs ≠ [])
    (hp : Proper (front ++ (closed.flatten ++ last))) (hread : Reads g last)
    (hjunk : ∀ s ∈ junk, front.length + closed.flatten.length < s.1 ∧ Rest s.2) :
    let segs := closedSegs front.length closed ++
      (front.length + closed.flatten.length, g) :: junk
    (∀ s ∈ segs, Rest s.2) ∧ cutSegs (closed ++ [last]) = [] ∨
      ∃ closed' last' g' junk', segs = closedSegs front.length closed' ++
          (front.length + closed'.flatten.length, g') :: junk' ∧
        (∀ fs ∈ closed', fs ≠ []) ∧
        (front ++ (closed'.flatten ++ last')) <+: (front ++ (closed.flatten ++ last)) ∧
        Reads g' last' ∧ (∀ s ∈ junk', front.length + closed'.flatten.length < s.1 ∧ Rest s.2) ∧
        committed last' ≠ [] ∧ cutSegs (closed ++ [last]) = closed' ++ [committed last'] := by
  intro segs
  have hfits : ∀ fs ∈ closed ++ [last], ∀ f ∈ fs, f.Fits := by
    intro fs hfs f hf
    refine hp.fits f (List.mem_append_right _ ?_)
    have := List.mem_flatten.mpr ⟨fs, hfs, hf⟩
    simpa using this
  have hlast : committed last = [] → Rest g := fun hnil =>
    hrest g last hread (hfits last (by simp)) hnil
  -- closed segments without a commit
  have hclosed : ∀ (ls : List (List Frame)) (n : Nat), (∀ fs ∈ ls, fs ∈ closed) →
      (∀ fs ∈ ls, committed fs = []) → ∀ s ∈ closedSegs n ls, n ≤ s.1 ∧ Rest s.2 := by
    intro ls
    induction ls with
    | nil => simp [closedSegs]
    | cons fs ls ih =>
      intro n hmem hnil s hs
      rcases List.mem_cons.mp hs with rfl | hs
      · exact ⟨Nat.le_refl n, hrest _ fs (hwhole fs)
          (hfits fs (List.mem_append_left _ (hmem fs (by simp)))) (hnil fs (by simp))⟩
      · obtain ⟨hle, hr⟩ := ih (n + fs.length) (fun l hl => hmem l (List.mem_cons_of_mem _ hl))
          (fun l hl => hnil l (List.mem_cons_of_mem _ hl)) s hs
        exact ⟨by omega, hr⟩
  rcases exists_last_marked (p := Frame.txnComplete) (closed ++ [last]) with
    hnone | ⟨pre, l, post, heq, hl, hpost⟩
  · -- no segment has a commit
    refine Or.inl ⟨?_, cutLast_eq_nil hnone⟩
    intro s hs
    rcases List.mem_append.mp hs with hs | hs
    · exact (hclosed closed _ (fun _ h => h)
        (fun fs hfs => hnone fs (List.mem_append_left _ hfs)) s hs).2
    · rcases List.mem_cons.mp hs with rfl | hs
      · exact hlast (hnone last (by simp))
      · exact (hjunk s hs).2
  · right
    have hcut : cutSegs (closed ++ [last]) = pre ++ [committed l] := by
      rw [heq]
      exact cutLast_split hl hpost
    rcases List.eq_nil_or_concat post with rfl | ⟨post, m, rfl⟩
    · -- the last commit is in the last segment
      obtain ⟨rfl, hm⟩ := List.append_inj' heq rfl
      obtain rfl : last = l := by simpa using hm
      exact ⟨closed, last, g, junk, rfl, hne, List.prefix_rfl, hread, hjunk, hl, hcut⟩
    · -- it is in a closed one
      obtain ⟨hclosed', hm⟩ : closed = pre ++ l :: post ∧ last = m := by
        have h' : closed ++ [last] = (pre ++ l :: post) ++ [m] := by simpa using heq
        simpa using List.append_inj' h' rfl
      subst hm
      have hmem : ∀ fs ∈ pre ++ l :: post, fs ∈ closed := by simp [hclosed']
      have hpos : 0 < l.length := List.length_pos_iff.mpr (hne l (hmem l (by simp)))
      have hlen : closed.flatten.length
          = pre.flatten.length + (l.length + post.flatten.length) := by
        simp [hclosed']
      refine ⟨pre, l, { durable := encodeFrames l, cached := [] },
        closedSegs (front.length + pre.flatten.length + l.length) post ++
          (front.length + closed.flatten.length, g) :: junk,
        ?_, fun fs hfs => hne fs (hmem fs (by simp [hfs])), ?_, hwhole l, ?_, hl, hcut⟩
      · simp only [segs, hclosed']
        simp [closedSegs, Nat.add_assoc]
      · rw [hclosed']
        simp
      · intro s hs
        rcases List.mem_append.mp hs with hs | hs
        · obtain ⟨hle, hr⟩ := hclosed post _ (fun fs hfs => hmem fs (by simp [hfs]))
            (fun fs hfs => hpost fs (by simp [hfs])) s hs
          exact ⟨by omega, hr⟩
        · rcases List.mem_cons.mp hs with rfl | hs
          · refine ⟨?_, hlast (hpost last (by simp))⟩
            show _ < front.length + closed.flatten.length
            omega
          · obtain ⟨hlt, hr⟩ := hjunk s hs
            exact ⟨by omega, hr⟩

/-- Recoverable segments end in the segment with the last commit and in leftovers
behind it, or have no commit at all. -/
theorem Recoverable.split {segs : List (Nat × SegFile)} {L : List (List Frame)}
    (h : Recoverable segs L) :
    (∀ s ∈ segs, Leftover s.2) ∧ cutSegs L = [] ∨
      ∃ closed last t g junk, segs = closedSegs 0 closed ++ (closed.flatten.length, g) :: junk ∧
        (∀ fs ∈ closed, fs ≠ []) ∧ Proper (closed.flatten ++ last) ∧
        g.data = encodeFrames last ++ t ∧ Torn t ∧
        (∀ s ∈ junk, closed.flatten.length < s.1 ∧ Leftover s.2) ∧ committed last ≠ [] ∧
        cutSegs L = closed ++ [committed last] := by
  cases h with
  | leftovers hjunk => exact Or.inl ⟨hjunk, rfl⟩
  | segments hne hp hdata ht hjunk =>
    rename_i closed last t g junk
    have hsplit := split_lastCommit
      (fun g fs => ∃ t, g.data = encodeFrames fs ++ t ∧ Torn t) Leftover []
      (fun fs => ⟨[], by simp, torn_nil⟩)
      (fun g fs ⟨t, hdata, ht⟩ hfits hnil => ⟨fs, t, hdata, ht, fun f hf =>
        ⟨hfits f hf, uptoLast_eq_nil_iff.mp hnil f hf⟩⟩)
      hne hp ⟨t, hdata, ht⟩ (by simpa using hjunk)
    simp only [List.length_nil, Nat.zero_add, List.nil_append] at hsplit
    rcases hsplit with hnone | ⟨closed', last', g', junk', hsegs, hne', hpre, ⟨t', hdata', ht'⟩,
      hjunk', hc, hcut⟩
    · exact Or.inl hnone
    · exact Or.inr ⟨closed', last', t', g', junk', hsegs, hne', hp.of_isPrefix hpre, hdata', ht',
        hjunk', hc, hcut⟩

/-! ## `resume` -/

/-- A disk that recovery can start from. -/
def CanResume (disk : Disk) : Prop :=
  ∃ d L, disk = some d ∧ Recoverable d.segs L

/-- The number and the mark that recovery goes on with. -/
def resumePoint (fs : List Frame) : Nat × DurableMark :=
  ((committed fs).length, ({} : DurableMark).after (lastCommit fs))

/-- With a boundary, its segment is cut behind its last commit, and everything
behind that segment goes. -/
theorem truncate_at {d : Dir} {kept junk : List (Nat × SegFile)} {n : Nat} {g : SegFile}
    {fs : List Frame} {V : Disk → Prop} (hsegs : d.segs = kept ++ (n, g) :: junk)
    (hlt : ∀ s ∈ kept, s.1 < n) (hgt : ∀ s ∈ junk, n < s.1) (hread : ReadsAs g fs)
    (hquiet : ∀ s ∈ junk, Quiet s.2) {q : Nat × Nat} (hq : lastCommit fs = some q)
    (hV : ∀ (e : Dir) (g' : SegFile), ∀ junk' ⊆ junk, g'.data = encodeFrames (committed fs) →
      e.segs = kept ++ (n, g') :: junk' → V (some e)) :
    Spec (truncate (d.segs.map Prod.fst) (scan d.segs).boundary) (some d) V
      fun r disk => r = (q.1 + 1, { seq := q.1, lsn := q.2, valid := true }) ∧
        ∃ e, disk = some e ∧
          e.segs = kept ++ [(n, { durable := encodeFrames (committed fs), cached := [] })] := by
  have hbound : (scan d.segs).boundary = some
      { segIdx := kept.length, endOffset := (encodeFrames (committed fs)).length
        seq := q.1, lsn := q.2 } := by
    rw [hsegs]
    exact scan_boundary hread hquiet hq
  have hcut : (g.setLen (encodeFrames (committed fs)).length).data
      = encodeFrames (committed fs) := by
    obtain ⟨-, u, hdata, -⟩ := hread
    obtain ⟨rest, hrest⟩ := uptoLast_isPrefix (p := Frame.txnComplete) fs
    have hdata' : g.data = encodeFrames (committed fs) ++ (encodeFrames rest ++ u) := by
      rw [hdata, ← List.append_assoc, ← encodeFrames_append, hrest]
    rw [SegFile.data_setLen (by rw [hdata']; simp), hdata', List.take_left]
  have hmap : d.segs.map Prod.fst = kept.map Prod.fst ++ n :: junk.map Prod.fst := by
    rw [hsegs, List.map_append, List.map_cons]
  have hname : (d.segs.map Prod.fst).getD kept.length 0 = n := by
    rw [hmap, List.getD_eq_getElem?_getD, List.getElem?_append_right (by simp)]
    simp
  have hdrop : (d.segs.map Prod.fst).drop (kept.length + 1) = junk.map Prod.fst := by
    rw [hmap, List.drop_append]
    simp
  rw [hbound, truncate, hname, hdrop]
  have hset : (d.update n (·.setLen (encodeFrames (committed fs)).length)).segs
      = kept ++ (n, g.setLen (encodeFrames (committed fs)).length) :: junk := by
    rw [Dir.segs_update, hsegs, map_update _ hlt hgt]
  refine Spec.bind_call (hV _ _ junk (List.Subset.refl _) hcut hset) ?_
  have hsync : ((d.update n (·.setLen (encodeFrames (committed fs)).length)).update n
      (·.sync)).segs
        = kept ++ (n, { durable := encodeFrames (committed fs), cached := [] }) :: junk := by
    rw [Dir.segs_update, hset, map_update _ hlt hgt, SegFile.sync, hcut]
  refine Spec.bind_call (hV _ _ junk (List.Subset.refl _) (by simp) hsync) ?_
  refine Spec.bind (removeAll_junk
    (kept ++ [(n, { durable := encodeFrames (committed fs), cached := [] })]) ?_ ?_ ?_) ?_
  · rw [List.append_assoc]
    exact hsync
  · intro s hs hmem
    obtain ⟨j, hj, hname⟩ := List.mem_map.mp hmem
    have hj' := hgt j hj
    rcases List.mem_append.mp hs with hs | hs
    · have := hlt s hs
      omega
    · rw [List.mem_singleton.mp hs] at hname
      exact absurd hname (Nat.ne_of_gt hj')
  · intro e junk' hsub he
    rw [List.append_assoc] at he
    exact hV e { durable := encodeFrames (committed fs), cached := [] } junk' hsub (by simp) he
  · rintro _ _ ⟨e, rfl, he⟩
    exact Spec.pure ⟨rfl, e, rfl, he⟩

/-- The same for whole segments in front of a torn one. -/
private theorem truncate_boundary {d : Dir} {closed : List (List Frame)} {last : List Frame}
    {t : Bytes} {g : SegFile} {junk : List (Nat × SegFile)}
    (hsegs : d.segs = closedSegs 0 closed ++ (closed.flatten.length, g) :: junk)
    (hne : ∀ fs ∈ closed, fs ≠ []) (hp : Proper (closed.flatten ++ last))
    (hdata : g.data = encodeFrames last ++ t) (ht : Torn t)
    (hjunk : ∀ s ∈ junk, closed.flatten.length < s.1 ∧ Leftover s.2) {q : Nat × Nat}
    (hq : lastCommit last = some q) :
    Spec (truncate (d.segs.map Prod.fst) (scan d.segs).boundary) (some d) CanResume
      fun r disk => r = (q.1 + 1, { seq := q.1, lsn := q.2, valid := true }) ∧
        ∃ e, disk = some e ∧ e.segs = closedSegs 0 (closed ++ [committed last]) := by
  have hclosed : closedSegs 0 (closed ++ [committed last]) = closedSegs 0 closed ++
      [(closed.flatten.length, { durable := encodeFrames (committed last), cached := [] })] := by
    simp [closedSegs]
  have hread : ReadsAs g last :=
    ⟨fun f hf => hp.fits f (List.mem_append_right _ hf), t, hdata, ht.stops⟩
  rw [hclosed]
  refine truncate_at hsegs (by simpa using closedSegs_lt hne 0) (fun s hs => (hjunk s hs).1) hread
    (fun s hs => (hjunk s hs).2.quiet) hq ?_
  -- any file with the committed frames of the boundary segment can be resumed from
  intro e g' junk' hsub hg' he
  refine ⟨e, closed ++ [committed last], rfl, ?_⟩
  rw [he]
  refine .segments hne ?_ (by rw [hg', List.append_nil]) torn_nil fun s hs => hjunk s (hsub hs)
  exact hp.of_isPrefix ((List.prefix_append_right_inj _).mpr (uptoLast_isPrefix last))

/-- The truncation leaves exactly the committed frames, in closed segments. -/
theorem truncate_spec {d : Dir} {L : List (List Frame)} (h : Recoverable d.segs L) :
    Spec (truncate (d.segs.map Prod.fst) (scan d.segs).boundary) (some d) CanResume
      fun r disk => r = resumePoint L.flatten ∧ (∀ fs ∈ cutSegs L, fs ≠ []) ∧
        Proper (committed L.flatten) ∧ ∃ e, disk = some e ∧ e.segs = closedSegs 0 (cutSegs L) := by
  rcases h.split with ⟨hleft, hnil⟩ | ⟨closed, last, t, g, junk, hsegs, hne, hp, hdata, ht,
    hjunk, hc, hcut⟩
  · have hnone : (scan d.segs).boundary = none := scan_quiet (fun s hs => (hleft s hs).quiet) 0 {}
    have hcommitted : committed L.flatten = [] := by rw [← flatten_cutSegs, hnil, List.flatten_nil]
    rw [hnone, truncate, hnil]
    refine Spec.bind (removeAll_junk [] rfl (by simp) ?_) ?_
    · rintro e junk' hsub he
      rw [List.nil_append] at he
      exact ⟨e, [], rfl, .leftovers fun s hs => hleft s (hsub (he ▸ hs))⟩
    · rintro _ _ ⟨e, rfl, he⟩
      refine Spec.pure ⟨?_, by simp, by rw [hcommitted]; exact .nil, e, rfl, he⟩
      rw [resumePoint, hcommitted, lastCommit_eq_none_iff.mpr hcommitted]
      rfl
  · obtain ⟨q, hq⟩ : ∃ q, lastCommit last = some q := by
      cases hl : lastCommit last with
      | none => exact absurd (lastCommit_eq_none_iff.mp hl) hc
      | some q => exact ⟨q, rfl⟩
    have hcommitted : committed L.flatten = closed.flatten ++ committed last := by
      rw [← flatten_cutSegs, hcut]
      simp
    have hlast : lastCommit L.flatten = some q := (lastCommit_of_committed hcommitted hc).trans hq
    have hp' : Proper (committed L.flatten) := by
      rw [hcommitted]
      exact hp.of_isPrefix ((List.prefix_append_right_inj _).mpr (uptoLast_isPrefix last))
    refine Spec.mono (truncate_boundary hsegs hne hp hdata ht hjunk hq) (fun _ hv => hv) ?_
    rintro r _ ⟨rfl, e, rfl, he⟩
    rw [hcut]
    refine ⟨?_, ?_, hp', e, rfl, he⟩
    · have hlen : q.1 + 1 = (committed (committed L.flatten)).length :=
        hp'.lastCommit ((lastCommit_committed _).trans hlast)
      rw [committed_committed] at hlen
      rw [resumePoint, hlast, ← hlen]
      rfl
    · intro gs hgs
      rcases List.mem_append.mp hgs with hgs | hgs
      · exact hne gs hgs
      · rwa [List.mem_singleton.mp hgs]

/-- What the resumed log starts from: the segments that recovery keeps, and an empty
one behind them. -/
structure Resumed (log : FrameLog) (L : List (List Frame)) : Prop where
  rep : ∃ l, Rep log l [] ∧ l.closed = cutSegs L ∧ l.kept = [] ∧ l.cached = []
  durable : log.durable = ({} : DurableMark).after (lastCommit L.flatten)
  stalled : log.stalled = false
  staging : log.dir.staging = none

/-- The resumed log holds exactly the committed frames, all of them durable. -/
theorem Resumed.frames {log : FrameLog} {L : List (List Frame)} (h : Resumed log L) :
    ∃ l, Rep log l [] ∧ l.frames = committed L.flatten ∧
      l.durableFrames = committed L.flatten := by
  obtain ⟨l, hrep, hclosed, hkept, hcached⟩ := h.rep
  refine ⟨l, hrep, ?_, ?_⟩
  · rw [Layout.frames, hclosed, hkept, hcached, flatten_cutSegs]
    simp
  · rw [Layout.durableFrames, hclosed, hkept, flatten_cutSegs, List.append_nil]

/-- Recovery goes through recoverable states only, and comes back with a log that
is cut behind its last commit. -/
theorem resume_spec {d : Dir} {L : List (List Frame)} (h : Recoverable d.segs L)
    (segmentMaxBytes : Nat) :
    Spec (resume segmentMaxBytes) (some d) CanResume fun log disk =>
      disk = some log.dir ∧ Resumed log L := by
  refine Spec.bind_get ?_
  refine Spec.bind (truncate_spec h) ?_
  rintro _ _ ⟨rfl, hne, hp, e, rfl, he⟩
  have hlen : (committed L.flatten).length = (cutSegs L).flatten.length := by rw [flatten_cutSegs]
  have hlt : ∀ s ∈ closedSegs 0 (cutSegs L), s.1 < (committed L.flatten).length := by
    rw [hlen]
    simpa using closedSegs_lt hne 0
  have hcan : CanResume (some { e with staging := none }) :=
    ⟨_, _, rfl, he ▸ recoverable_closedSegs hne (flatten_cutSegs L ▸ hp)⟩
  refine Spec.bind_publish hcan ?_
  let l : Layout := { closed := cutSegs L, closed_ne := hne }
  have hframes : l.frames = committed L.flatten := by simp [l, Layout.frames, flatten_cutSegs]
  have hdurable : l.durableFrames = committed L.flatten := by
    simp [l, Layout.durableFrames, flatten_cutSegs]
  have hsegs : createSeg (committed L.flatten).length e.segs = l.segs := by
    rw [he, createSeg_of_lt hlt, Layout.segs, Layout.name, hlen]
    rfl
  have hcan' : CanResume (some { e with segs := createSeg (committed L.flatten).length e.segs
                                        staging := none }) :=
    ⟨_, _, rfl, hsegs ▸ Layout.recoverable (hframes ▸ hp)⟩
  refine Spec.bind_call hcan' (Spec.bind_get (Spec.pure ⟨rfl, ⟨l, ?_, rfl, rfl, rfl⟩, rfl, rfl, rfl⟩))
  refine ⟨⟨⟨hsegs, by rw [hframes]; exact hp, ?_⟩, hlen, rfl⟩, by simpa [hframes] using hp,
    by simp [hframes], rfl, fun _ => rfl, by simp⟩
  intro hv
  rw [hdurable]
  exact hp.mark_lastCommit rfl hv

end GrayDB.Log
