import GrayDB.Log.Tail
import Mathlib.Data.List.TakeWhile

/-!
# One read of the tail

`Readable` is what a reader can see of the log at any moment: whole segments and a
torn end.  `Marks` ties the cursor to the frames that the consumer holds.

The tail knows its place by a segment name and an offset only, so it cannot tell
a segment from another one that recovery has put in its place.  `Safe` is the
condition under which it does not have to: the log still begins with everything
the consumer holds up to the end of the cursor's segment, or that part of the log
is a transaction-complete part of what the consumer holds.

* `locate` finds the cursor's segment: nowhere, at the end or before it.
* `readNew_exact` is one read.  Under `Safe` the consumer holds exactly the frames
  in the files afterwards.
-/

namespace GrayDB.Log

open Lib Lib.Crash FrameLog

/-! ## The segments up to the cursor -/

/-- The segments up to and including the one of that name; all, if there is none. -/
def segsUpTo (name : Nat) : List (Nat × SegFile) → List (Nat × SegFile)
  | [] => []
  | s :: ss => if s.1 = name then [s] else s :: segsUpTo name ss

/-- The directory up to the segment of a cursor. -/
def Dir.upTo (d : Dir) : Option Nat → Dir
  | none => d
  | some name => { d with segs := segsUpTo name d.segs }

/-- The same of the lists of frames, the first of which is named `n`. -/
def upToLists (name : Nat) : Nat → List (List Frame) → List Frame
  | _, [] => []
  | n, fs :: rest => if n = name then fs else fs ++ upToLists name (n + fs.length) rest

theorem upToLists_mono {name : Nat} {last more : List Frame} (h : last <+: more)
    (rest : List (List Frame)) (closed : List (List Frame)) (n : Nat) :
    upToLists name n (closed ++ [last]) <+: upToLists name n (closed ++ more :: rest) := by
  induction closed generalizing n with
  | nil =>
    simp only [List.nil_append, upToLists]
    split
    · exact h
    · rw [List.append_nil]
      exact h.trans (List.prefix_append _ _)
  | cons fs closed ih =>
    simp only [List.cons_append, upToLists]
    split
    · exact List.prefix_rfl
    · exact (List.prefix_append_right_inj fs).mpr (ih _)

/-- Recovery leaves the segments up to the cursor as they are, or the committed
frames are all that is left. -/
theorem upToLists_cutSegs (name n : Nat) (L : List (List Frame)) :
    upToLists name n (cutSegs L ++ [[]]) = upToLists name n L ∨
      upToLists name n (cutSegs L ++ [[]]) = committed L.flatten := by
  rw [← flatten_cutSegs]
  induction L generalizing n with
  | nil =>
    right
    simp [cutSegs, cutLast, upToLists]
  | cons fs L ih =>
    have ih := ih (n + fs.length)
    by_cases hnil : cutSegs L = []
    · -- nothing behind `fs` is kept
      right
      rcases cutLast_cons_of_nil (l := fs) hnil with h | h
      · simp [h, upToLists]
      · simp [h, upToLists]
    · have hcons : cutSegs (fs :: L) = fs :: cutSegs L := cutLast_cons_of_ne_nil hnil
      rw [hcons, List.cons_append, upToLists, upToLists]
      split
      · exact Or.inl rfl
      · rcases ih with h | h
        · exact Or.inl (by rw [h])
        · exact Or.inr (by rw [h, List.flatten_cons])

/-- Up to the last segment are all frames. -/
theorem upToLists_last (last : List Frame) {closed : List (List Frame)}
    (hne : ∀ fs ∈ closed, fs ≠ []) (n : Nat) :
    upToLists (n + closed.flatten.length) n (closed ++ [last]) = closed.flatten ++ last := by
  induction closed generalizing n with
  | nil => simp [upToLists]
  | cons fs closed ih =>
    have hpos : 0 < fs.length := List.length_pos_iff.mpr (hne fs (by simp))
    have hlen : n + (fs :: closed).flatten.length = n + fs.length + closed.flatten.length := by
      rw [List.flatten_cons, List.length_append, Nat.add_assoc]
    have ih := ih (fun gs hgs => hne gs (List.mem_cons_of_mem fs hgs)) (n + fs.length)
    rw [hlen, List.cons_append, upToLists, if_neg (by omega), ih, List.flatten_cons,
      List.append_assoc]

theorem upToLists_isPrefix (name n : Nat) (L : List (List Frame)) :
    upToLists name n L <+: L.flatten := by
  induction L generalizing n with
  | nil => exact List.prefix_rfl
  | cons fs L ih =>
    rw [upToLists, List.flatten_cons]
    split
    · exact List.prefix_append _ _
    · exact (List.prefix_append_right_inj fs).mpr (ih _)

/-- A part of the log that is transaction-complete holds all commits of the consumer. -/
private theorem committed_eq_of_cut {held upTo : List Frame} (hk : committed held <+: upTo)
    (hle : upTo <+: held) (hc : committed upTo = upTo) : committed held = upTo := by
  have hle' : upTo <+: committed held := by
    rw [← hc]
    exact uptoLast_mono hle
  exact hk.eq_of_length (Nat.le_antisymm hk.length_le hle'.length_le)

/-- Lists of which one continues the other agree on parts of one length. -/
private theorem left_eq_of_comparable {as bs cs ds : List Frame} (hlen : as.length = cs.length)
    (h : as ++ bs <+: cs ++ ds ∨ cs ++ ds <+: as ++ bs) : as = cs := by
  rcases h with h | h
  · exact (List.prefix_of_prefix_length_le ((List.prefix_append as bs).trans h)
      (List.prefix_append cs ds) hlen.le).eq_of_length hlen
  · exact ((List.prefix_of_prefix_length_le ((List.prefix_append cs ds).trans h)
      (List.prefix_append as bs) hlen.ge).eq_of_length hlen.symm).symm

variable [Crc32c]

/-! ## What the reader sees -/

/-- A directory of whole segments and a torn end. -/
structure Readable (v : Dir) (closed : List (List Frame)) (last : List Frame) (t : Bytes)
    (g : SegFile) : Prop where
  closed_ne : ∀ fs ∈ closed, fs ≠ []
  proper : Proper (closed.flatten ++ last)
  segs : v.segs = closedSegs 0 closed ++ [(closed.flatten.length, g)]
  data : g.data = encodeFrames last ++ t
  torn : Torn t

theorem Readable.frames {v : Dir} {closed : List (List Frame)} {last : List Frame} {t : Bytes}
    {g : SegFile} (h : Readable v closed last t g) : v.frames = closed.flatten ++ last :=
  (frames_of_crash h.segs h.data h.torn h.proper.fits).1

/-- What is visible of a log is readable, whatever is still in flight. -/
theorem Shows.readable {s : FrameLog} {l : Layout} (h : Shows s l) {v : Dir}
    (hv : s.dir.CrashImage v) : ∃ closed last t g, Readable v closed last t g := by
  obtain ⟨last, t, g, -, hlast, hsegs, hdata, ht, -⟩ := h.recoverable hv
  exact ⟨l.closed, last, t, g, l.closed_ne,
    h.proper.of_isPrefix ((List.prefix_append_right_inj _).mpr hlast), hsegs, hdata, ht⟩

theorem Readable.recoverable {v : Dir} {closed : List (List Frame)} {last : List Frame}
    {t : Bytes} {g : SegFile} (h : Readable v closed last t g) :
    Recoverable v.segs (closed ++ [last]) := by
  rw [h.segs]
  exact .segments h.closed_ne h.proper h.data h.torn (by simp)

private theorem segFrames_eq {s : Nat × SegFile} {fs : List Frame} {t : Bytes}
    (hdata : s.2.data = encodeFrames fs ++ t) (ht : Torn t) (hfits : ∀ f ∈ fs, f.Fits) :
    (readFrames s.2.data).1.map Prod.fst = fs := by
  rw [hdata, (readFrames_encodeFrames hfits ht).1, map_fst_withLengths]

private theorem segsUpTo_frames {g : SegFile} {last : List Frame} {t : Bytes}
    (hdata : g.data = encodeFrames last ++ t) (ht : Torn t) (name : Nat)
    {closed : List (List Frame)} (n : Nat) (hfits : ∀ f ∈ closed.flatten ++ last, f.Fits) :
    (segsUpTo name (closedSegs n closed ++ [(n + closed.flatten.length, g)])).flatMap
        (fun s => (readFrames s.2.data).1.map Prod.fst) = upToLists name n (closed ++ [last]) := by
  induction closed generalizing n with
  | nil =>
    have hlast := segFrames_eq (s := (n, g)) hdata ht fun f hf => hfits f (by simpa using hf)
    simp only [closedSegs, List.nil_append, segsUpTo, upToLists, List.flatten_nil,
      List.length_nil, Nat.add_zero]
    split
    · simpa using hlast
    · simpa using hlast
  | cons fs closed ih =>
    have hfs : ∀ f ∈ fs, f.Fits := fun f hf => hfits f (by simp [hf])
    have hhead : (readFrames (encodeFrames fs)).1.map Prod.fst = fs := by
      rw [readFrames_whole hfs, map_fst_withLengths]
    have hrest := ih (n + fs.length) fun f hf => hfits f (by
      rw [List.flatten_cons, List.append_assoc]
      exact List.mem_append_right _ hf)
    rw [closedSegs_cons_last, segsUpTo, List.cons_append, upToLists]
    split
    · simpa using hhead
    · rw [List.flatMap_cons, hrest]
      simp [hhead]

/-- The frames up to the cursor's segment. -/
theorem Readable.upTo_frames {v : Dir} {closed : List (List Frame)} {last : List Frame}
    {t : Bytes} {g : SegFile} (h : Readable v closed last t g) (name : Nat) :
    (v.upTo (some name)).frames = upToLists name 0 (closed ++ [last]) := by
  rw [Dir.upTo, Dir.frames, h.segs]
  simpa using segsUpTo_frames h.data h.torn name 0 h.proper.fits

/-! ## Finding the cursor's segment -/

/-- Where a name is among the segments: nowhere, at the last one, or at a closed one. -/
private theorem locate (name : Nat) (g : SegFile) (last : List Frame)
    {closed : List (List Frame)} (hne : ∀ fs ∈ closed, fs ≠ []) (n : Nat) :
    let segs := closedSegs n closed ++ [(n + closed.flatten.length, g)]
    ((segs.dropWhile fun s => s.1 != name) = [] ∨
        name = n + closed.flatten.length ∧
          (segs.dropWhile fun s => s.1 != name) = [(name, g)]) ∧
      upToLists name n (closed ++ [last]) = closed.flatten ++ last ∧
      segsUpTo name segs = segs ∨
    ∃ pre fs post, closed = pre ++ fs :: post ∧ name = n + pre.flatten.length ∧
      (segs.dropWhile fun s => s.1 != name) =
        (name, { durable := encodeFrames fs, cached := [] }) ::
          (closedSegs (name + fs.length) post ++ [(n + closed.flatten.length, g)]) ∧
      upToLists name n (closed ++ [last]) = pre.flatten ++ fs := by
  induction closed generalizing n with
  | nil =>
    left
    simp only [closedSegs, List.nil_append, List.flatten_nil, List.length_nil, Nat.add_zero,
      segsUpTo, upToLists]
    by_cases hn : n = name
    · subst hn
      simp
    · simp [hn]
  | cons fs closed ih =>
    have hlen : n + (fs :: closed).flatten.length = n + fs.length + closed.flatten.length := by
      rw [List.flatten_cons, List.length_append, Nat.add_assoc]
    rw [closedSegs_cons_last, hlen]
    by_cases hn : n = name
    · subst hn
      right
      refine ⟨[], fs, closed, rfl, by simp, ?_, ?_⟩
      · simp
      · simp [upToLists]
    · have ih := ih (fun gs hgs => hne gs (List.mem_cons_of_mem fs hgs)) (n + fs.length)
      have hbne : (n != name) = true := by simpa using hn
      simp only [List.cons_append, List.dropWhile_cons, hbne, if_true, segsUpTo, if_neg hn,
        upToLists] at ih ⊢
      rcases ih with ⟨hdrop, hup, hsegs⟩ | ⟨pre, gs, post, rfl, rfl, hdrop, hup⟩
      · left
        exact ⟨hdrop, by rw [hup, List.flatten_cons, List.append_assoc], by rw [hsegs]⟩
      · right
        refine ⟨fs :: pre, gs, post, rfl, ?_, hdrop, ?_⟩
        · simp [Nat.add_assoc]
        · rw [hup, List.flatten_cons, List.append_assoc]

/-! ## One read -/

/-- The cursor stands behind the frames that the consumer holds: it is in the segment
of the frames `as`, and behind all of them. -/
def Marks (tail : LogTail) (held : List Frame) : Prop :=
  tail.current = none ∧ held = [] ∨
    ∃ before as, held = before ++ as ∧ tail.current = some before.length ∧
      tail.offset = (encodeFrames as).length

/-- The tail can see what has become of the frames that the consumer holds: up to the
end of the cursor's segment the log still has all of them in their place, or it is a
transaction-complete part of them with nothing behind it. -/
def Safe (v : Dir) (tail : LogTail) (held : List Frame) : Prop :=
  (∀ name ∈ tail.current, ∃ s ∈ v.segs, s.1 = name) ∧ held <+: (v.upTo tail.current).frames ∨
    (v.upTo tail.current).frames <+: held ∧
      committed (v.upTo tail.current).frames = (v.upTo tail.current).frames ∧
      (v.upTo tail.current).bytes = encodeFrames (v.upTo tail.current).frames

/-- The first way to be safe: the log only grew. -/
def InPlace (v : Dir) (tail : LogTail) (held : List Frame) : Prop :=
  (∀ name ∈ tail.current, ∃ s ∈ v.segs, s.1 = name) ∧ held <+: (v.upTo tail.current).frames

theorem InPlace.safe {v : Dir} {tail : LogTail} {held : List Frame} (h : InPlace v tail held) :
    Safe v tail held := Or.inl h

/-- No commit that the consumer holds has been lost from the log up to its cursor. -/
def KeepsCommits (v : Dir) (tail : LogTail) (held : List Frame) : Prop :=
  committed held <+: (v.upTo tail.current).frames

/-- What the read of the cursor's segment makes of the frames that are held. -/
private theorem segment_read {before fs as : List Frame} {t : Bytes} {offset len : Nat}
    (hoffset : offset = (encodeFrames as).length)
    (hlen : len = (encodeFrames fs).length + t.length)
    (hk : committed (before ++ as) <+: before ++ fs)
    (hsafe : before ++ as <+: before ++ fs ∨
      before ++ fs <+: before ++ as ∧ committed (before ++ fs) = before ++ fs ∧ t = []) :
    ∃ as' bs, fs = as' ++ bs ∧ min offset len = (encodeFrames as').length ∧
      (if len < offset then committed (before ++ as) else before ++ as) ++ bs = before ++ fs ∧
      (before ++ as <+: before ++ fs → offset ≤ len) := by
  have hplace : before ++ as <+: before ++ fs → offset ≤ len := by
    intro hpre
    obtain ⟨bs, rfl⟩ := (List.prefix_append_right_inj before).mp hpre
    rw [encodeFrames_append, List.length_append] at hlen
    omega
  rcases hsafe with hpre | ⟨hcut, hc, rfl⟩
  · -- the held frames are in place, and the others are behind them
    have hle := hplace hpre
    obtain ⟨bs, rfl⟩ := (List.prefix_append_right_inj before).mp hpre
    refine ⟨as, bs, rfl, by omega, ?_, hplace⟩
    rw [if_neg (by omega), List.append_assoc]
  · -- the segment was cut back
    have hheld := committed_eq_of_cut hk hcut hc
    obtain ⟨xs, rfl⟩ := (List.prefix_append_right_inj before).mp hcut
    rw [encodeFrames_append, List.length_append] at hoffset
    rw [List.length_nil] at hlen
    refine ⟨fs, [], by simp, by omega, ?_, hplace⟩
    rw [List.append_nil]
    split
    · exact hheld
    · have hxs := length_le_length_encodeFrames xs
      have hnil : xs = [] := List.eq_nil_of_length_eq_zero (by omega)
      rw [hnil, List.append_nil]

private theorem readNew_found {d : Dir} {tail : LogTail} {name : Nat} {seg : Nat × SegFile}
    {segs : List (Nat × SegFile)} (hcur : tail.current = some name)
    (h : (d.segs.dropWhile fun s => s.1 != name) = seg :: segs) :
    tail.readNew d = visit (seg :: segs) tail {} := by
  rw [LogTail.readNew]
  split
  · rename_i hnil
    rw [hnil] at h
    simp at h
  · rename_i first rest hd
    rw [hd] at h
    simp only [hcur, h]

private theorem readNew_deleted {d : Dir} {tail : LogTail} {name : Nat}
    {before : List (Nat × SegFile)} {last : Nat × SegFile} (hcur : tail.current = some name)
    (hd : d.segs = before ++ [last]) (h : (d.segs.dropWhile fun s => s.1 != name) = []) :
    tail.readNew d = visit [last] { current := some last.1, offset := last.2.data.length }
      { rewound := true } := by
  rw [LogTail.readNew]
  split
  · rename_i hnil
    rw [hnil] at hd
    simp at hd
  · rename_i first rest hcons
    rw [hcons] at h hd
    have hlast : (first :: rest).getLast (by simp) = last := by simp [hd]
    simp only [hcur, h, hlast]

/-- The first read takes everything. -/
private theorem readNew_start {v : Dir} {closed : List (List Frame)} {last : List Frame}
    {t : Bytes} {g : SegFile} (hv : Readable v closed last t g) {tail : LogTail}
    (hcur : tail.current = none) :
    tail.readNew v = (.ok { frames := closed.flatten ++ last },
      { current := some closed.flatten.length, offset := (encodeFrames last).length }) := by
  have hwhole := visit_whole hv.data hv.torn 0 {} hv.proper.fits
  rw [Nat.zero_add, ← hv.segs] at hwhole
  rw [LogTail.readNew]
  split
  · rename_i hnil
    rw [hv.segs] at hnil
    simp at hnil
  · rename_i first rest hd
    have hfirst : first.1 = 0 := by
      rw [hv.segs] at hd
      cases closed with
      | nil =>
        rw [closedSegs, List.nil_append] at hd
        rw [← (List.cons.inj hd).1]
        rfl
      | cons fs closed =>
        rw [closedSegs, List.cons_append] at hd
        rw [← (List.cons.inj hd).1]
    rw [hd] at hwhole
    simp only [hcur, hfirst, hwhole, List.nil_append]

/-- When its segment is gone, the cursor goes to the end of the last one. -/
private theorem readNew_gone {v : Dir} {closed : List (List Frame)} {last : List Frame}
    {g : SegFile} (hv : Readable v closed last [] g) {tail : LogTail} {name : Nat}
    (hcur : tail.current = some name) (hdrop : (v.segs.dropWhile fun s => s.1 != name) = []) :
    tail.readNew v = (.ok { rewound := true },
      { current := some closed.flatten.length, offset := (encodeFrames last).length }) := by
  have hdata : g.data = encodeFrames (last ++ []) ++ [] := by
    rw [hv.data, List.append_nil last]
  have hfits : ∀ f ∈ last ++ [], f.Fits := fun f hf =>
    hv.proper.fits f (List.mem_append_right _ (by simpa using hf))
  rw [readNew_deleted hcur hv.segs hdrop, visit_last last [] hdata torn_nil hfits]
  · simp
  · simp [hv.data]

/-- In the last segment the loop reads up to the torn end. -/
private theorem readNew_last {v : Dir} {closed : List (List Frame)} {as bs : List Frame}
    {t : Bytes} {g : SegFile} (hv : Readable v closed (as ++ bs) t g) {tail : LogTail}
    (hcur : tail.current = some closed.flatten.length)
    (hdrop : (v.segs.dropWhile fun s => s.1 != closed.flatten.length)
      = [(closed.flatten.length, g)])
    (hmin : min tail.offset g.data.length = (encodeFrames as).length) :
    tail.readNew v = (.ok { frames := bs, rewound := decide (g.data.length < tail.offset) },
      { current := some closed.flatten.length, offset := (encodeFrames (as ++ bs)).length }) := by
  rw [readNew_found hcur hdrop, visit_last as bs hv.data hv.torn
    (fun f hf => hv.proper.fits f (List.mem_append_right _ hf)) hmin, hcur]
  simp

/-- From a closed segment it goes on through the segments behind. -/
private theorem readNew_closed {v : Dir} {pre post : List (List Frame)} {as bs last : List Frame}
    {t : Bytes} {g : SegFile} (hv : Readable v (pre ++ (as ++ bs) :: post) last t g)
    {tail : LogTail} {name : Nat} (hcur : tail.current = some name)
    (hname : name = pre.flatten.length)
    (hdrop : (v.segs.dropWhile fun s => s.1 != name) =
      (name, { durable := encodeFrames (as ++ bs), cached := [] }) ::
        (closedSegs (name + (as ++ bs).length) post ++
          [((pre ++ (as ++ bs) :: post).flatten.length, g)]))
    (hmin : min tail.offset (encodeFrames (as ++ bs)).length = (encodeFrames as).length) :
    tail.readNew v = (.ok
        { frames := bs ++ (post.flatten ++ last)
          rewound := decide ((encodeFrames (as ++ bs)).length < tail.offset) },
      { current := some (pre ++ (as ++ bs) :: post).flatten.length
        offset := (encodeFrames last).length }) := by
  have hlen : (pre ++ (as ++ bs) :: post).flatten.length
      = name + (as ++ bs).length + post.flatten.length := by
    rw [hname, List.flatten_append, List.length_append, List.flatten_cons, List.length_append]
    omega
  have hfits : ∀ f ∈ pre.flatten ++ ((as ++ bs) ++ (post.flatten ++ last)), f.Fits := by
    intro f hf
    refine hv.proper.fits f ?_
    rw [List.flatten_append, List.flatten_cons, List.append_assoc, List.append_assoc]
    exact hf
  rw [hlen] at hdrop ⊢
  obtain ⟨next, rest, hsegs, hnext⟩ : ∃ next rest,
      closedSegs (name + (as ++ bs).length) post ++
        [(name + (as ++ bs).length + post.flatten.length, g)] = next :: rest ∧
        next.1 = name + (as ++ bs).length := by
    cases post with
    | nil => exact ⟨_, [], rfl, by simp⟩
    | cons gs post => exact ⟨_, _, rfl, rfl⟩
  rw [readNew_found hcur hdrop, hsegs, visit_next as bs (List.append_nil _)
    (fun f hf => hfits f (List.mem_append_right _ (List.mem_append_left _ hf)))
    (by simpa using hmin), ← hsegs, hnext, visit_whole hv.data hv.torn _ _
    (fun f hf => hfits f (List.mem_append_right _ (List.mem_append_right _ hf)))]
  simp

/-- One read under `Safe`: it succeeds, and the consumer then holds exactly the whole
frames in the files.  While the log only grows, it does not say `rewound`. -/
theorem readNew_exact {v : Dir} {closed : List (List Frame)} {last : List Frame} {t : Bytes}
    {g : SegFile} (hv : Readable v closed last t g) {tail : LogTail} {held : List Frame}
    (hm : Marks tail held) (hk : KeepsCommits v tail held) (hsafe : Safe v tail held) :
    ∃ batch, tail.readNew v = (.ok batch,
        { current := some closed.flatten.length, offset := (encodeFrames last).length }) ∧
      consume held batch = v.frames ∧ (InPlace v tail held → batch.rewound = false) := by
  rcases hm with ⟨hcur, rfl⟩ | ⟨before, as, rfl, hcur, hoffset⟩
  · exact ⟨_, readNew_start hv hcur, by simp [consume, hv.frames], fun _ => rfl⟩
  · rw [KeepsCommits, hcur] at hk
    rw [Safe, hcur] at hsafe
    rw [InPlace, hcur]
    rcases locate before.length g last hv.closed_ne 0 with ⟨hdrop, hup, hsegs⟩ |
      ⟨pre, fs, post, rfl, hname, hdrop, hup⟩
    · -- the cursor is in the last segment, or its segment is gone
      have hlen : g.data.length = (encodeFrames last).length + t.length := by
        rw [hv.data, List.length_append]
      rw [Nat.zero_add, ← hv.segs] at hdrop hsegs
      have hbytes : (v.upTo (some before.length)).bytes
          = encodeFrames (closed.flatten ++ last) ++ t := by
        rw [Dir.upTo, hsegs]
        exact (frames_of_crash hv.segs hv.data hv.torn hv.proper.fits).2
      rw [hv.upTo_frames, hup] at hk
      rw [hv.upTo_frames, hup, hbytes, List.append_right_eq_self] at hsafe
      rw [hv.upTo_frames, hup]
      rcases hdrop with hdrop | ⟨hname, hdrop⟩
      · have hgone : ¬ ∀ name ∈ some before.length, ∃ s ∈ v.segs, s.1 = name := by
          intro hhere
          obtain ⟨s, hs, hsname⟩ := hhere before.length rfl
          have := List.dropWhile_eq_nil_iff.mp hdrop s hs
          simp [hsname] at this
        rcases hsafe with ⟨hhere, -⟩ | ⟨hcut, hc, rfl⟩
        · exact absurd hhere hgone
        · refine ⟨_, readNew_gone hv hcur hdrop, ?_, fun h => absurd h.1 hgone⟩
          rw [consume, hv.frames, if_pos rfl, List.append_nil]
          exact committed_eq_of_cut hk hcut hc
      · have hbefore : before = closed.flatten := by
          rcases hsafe with ⟨-, h⟩ | ⟨h, -⟩
          · exact left_eq_of_comparable hname (Or.inl h)
          · exact left_eq_of_comparable hname (Or.inr h)
        subst hbefore
        obtain ⟨as', bs, rfl, hmin, hheld, hplace⟩ := segment_read hoffset hlen hk
          (hsafe.imp And.right id)
        refine ⟨_, readNew_last hv hcur hdrop hmin, ?_, fun h => ?_⟩
        · rw [consume, hv.frames, ← hheld]
          simp
        · have hle := hplace h.2
          simpa using hle
    · -- it is in a closed one
      rw [Nat.zero_add] at hname hdrop
      rw [← hv.segs] at hdrop
      have hbefore : before = pre.flatten := by
        rw [hv.upTo_frames, hup] at hsafe
        rcases hsafe with ⟨-, h⟩ | ⟨h, -⟩
        · exact left_eq_of_comparable hname (Or.inl h)
        · exact left_eq_of_comparable hname (Or.inr h)
      subst hbefore
      rw [hv.upTo_frames, hup] at hk hsafe ⊢
      obtain ⟨as', bs, rfl, hmin, hheld, hplace⟩ := segment_read (t := []) hoffset
        (Nat.add_zero _).symm hk (hsafe.imp And.right fun h => ⟨h.1, h.2.1, rfl⟩)
      refine ⟨_, readNew_closed hv hcur rfl hdrop hmin, ?_, fun h => ?_⟩
      · rw [consume, hv.frames, List.flatten_append, List.flatten_cons]
        simp only [decide_eq_true_eq, ← List.append_assoc] at hheld ⊢
        rw [hheld]
      · have hle := hplace h.2
        simpa using hle

/-- Behind all frames, the cursor is where the consumer is. -/
theorem Readable.marks {v : Dir} {closed : List (List Frame)} {last : List Frame} {t : Bytes}
    {g : SegFile} (hv : Readable v closed last t g) :
    Marks { current := some closed.flatten.length, offset := (encodeFrames last).length }
      v.frames :=
  Or.inr ⟨closed.flatten, last, hv.frames, rfl, rfl⟩

/-- What has just been read is in the log. -/
theorem Readable.keepsCommits {v : Dir} {closed : List (List Frame)} {last : List Frame}
    {t : Bytes} {g : SegFile} (hv : Readable v closed last t g) (offset : Nat) :
    KeepsCommits v { current := some closed.flatten.length, offset } v.frames := by
  have hlast := upToLists_last last hv.closed_ne 0
  rw [Nat.zero_add] at hlast
  rw [KeepsCommits, hv.upTo_frames, hlast, hv.frames]
  exact uptoLast_isPrefix _

/-- What has just been read is in its place. -/
theorem Readable.inPlace {v : Dir} {closed : List (List Frame)} {last : List Frame} {t : Bytes}
    {g : SegFile} (hv : Readable v closed last t g) (offset : Nat) :
    InPlace v { current := some closed.flatten.length, offset } v.frames := by
  have hlast := upToLists_last last hv.closed_ne 0
  rw [Nat.zero_add] at hlast
  refine ⟨?_, ?_⟩
  · rintro _ ⟨⟩
    exact ⟨(closed.flatten.length, g), by rw [hv.segs]; simp, rfl⟩
  · rw [hv.upTo_frames, hlast, hv.frames]

/-- In place, no commit is lost. -/
theorem InPlace.keepsCommits {v : Dir} {tail : LogTail} {held : List Frame}
    (h : InPlace v tail held) : KeepsCommits v tail held :=
  List.IsPrefix.trans (uptoLast_isPrefix held) h.2

end GrayDB.Log
