import GrayDB.Log.Runs

/-!
# Damaged segments

`resume` takes every decode error for the torn end of the log and scans on in the next
segment.  Whether damage in the middle does harm is therefore a matter of what comes
behind it.  `resume_damaged` is the exact condition: the log that `resume` leaves is
whole and contiguous if and only if no segment behind the damaged one holds a commit.
-/

namespace GrayDB.Log

open Lib Lib.Crash FrameLog

variable [Crc32c]

/-! ## What damage leaves of a file -/

/-- The bytes of a file are cut short, or some are changed so that the decode loop fails
at the first frame that has changed. -/
inductive Damaged (data data' : Bytes) : Prop
  | truncated (h : data' <+: data) (hne : data' ≠ data)
  | flipped {fs : List Frame} {u : Bytes} {e : DecodeError} (hlen : data'.length = data.length)
      (hsame : encodeFrames fs <+: data) (hfits : ∀ f ∈ fs, f.Fits)
      (hsplit : data' = encodeFrames fs ++ u) (hbroken : decodeFrame u = .error e)

/-- A damaged file is read as some of its frames.  If it was whole, the loop fails behind
them, or frames are missing. -/
theorem Damaged.reads {g g' : SegFile} {fs : List Frame} {t : Bytes}
    (h : Damaged g.data g'.data) (hdata : g.data = encodeFrames fs ++ t) (ht : Torn t)
    (hfs : ∀ f ∈ fs, f.Fits) :
    ∃ fs' u, fs' <+: fs ∧ g'.data = encodeFrames fs' ++ u ∧ Stops u ∧
      (t = [] → u = [] → fs'.length < fs.length) := by
  cases h with
  | truncated hpre hne =>
    rw [hdata] at hpre
    obtain ⟨n, u, hn, hcut, hu⟩ := exists_torn_of_isPrefix_torn hfs ht hpre
    refine ⟨fs.take n, u, List.take_prefix _ _, hcut, hu.stops, fun htnil hunil => ?_⟩
    by_contra hlen
    rw [List.length_take] at hlen
    have hall : fs.take n = fs := List.take_of_length_le (by omega)
    apply hne
    rw [hcut, hall, hunil, hdata, htnil]
  | flipped hlen hsame hfits hsplit hbroken =>
    rename_i fs' u e
    rw [hdata] at hsame
    have hstops : Stops u := by
      intro x hx
      rw [hbroken] at hx
      simp at hx
    refine ⟨fs', u, isPrefix_of_encodeFrames hfits hfs ht hsame, hsplit, hstops, ?_⟩
    intro _ hunil
    rw [hunil] at hbroken
    simp at hbroken

/-! ## What `resume` leaves -/

/-- `resume` on a directory whose last commit is in a segment with others behind it. -/
theorem resume_at {d : Dir} {kept junk : List (Nat × SegFile)} {n : Nat} {g : SegFile}
    {fs : List Frame} (hsegs : d.segs = kept ++ (n, g) :: junk) (hlt : ∀ s ∈ kept, s.1 < n)
    (hgt : ∀ s ∈ junk, n < s.1) (hread : ReadsAs g fs) (hquiet : ∀ s ∈ junk, Quiet s.2)
    {q : Nat × Nat} (hq : lastCommit fs = some q) (hn : n ≤ q.1) (segmentMaxBytes : Nat) :
    Returns (resume segmentMaxBytes) (some d) fun log disk =>
      log.durable = { seq := q.1, lsn := q.2, valid := true } ∧
        ∃ e, disk = some e ∧ e.segs = kept ++
          [(n, { durable := encodeFrames (committed fs), cached := [] }), (q.1 + 1, .empty)] := by
  refine Spec.bind_get (Spec.bind (truncate_at hsegs hlt hgt hread hquiet hq ?_) ?_)
  · exact fun _ _ _ _ _ _ => trivial
  intro r disk hr
  obtain ⟨rfl, e, rfl, he⟩ := hr
  refine Spec.bind_publish trivial (Spec.bind_call trivial (Spec.bind_get (Spec.pure ⟨rfl, ?_⟩)))
  refine ⟨_, rfl, ?_⟩
  show createSeg (q.1 + 1) e.segs = _
  rw [he, createSeg_of_lt]
  · simp
  · intro s hs
    rcases List.mem_append.mp hs with hs | hs
    · have := hlt s hs
      omega
    · rw [List.mem_singleton.mp hs]
      show n < q.1 + 1
      omega

/-- `resume` on a directory without a commit. -/
theorem resume_quiet {d : Dir} (h : ∀ s ∈ d.segs, Quiet s.2) (segmentMaxBytes : Nat) :
    Returns (resume segmentMaxBytes) (some d) fun log disk =>
      log.durable = {} ∧ ∃ e, disk = some e ∧ e.segs = [(0, .empty)] := by
  have hnone : (scan d.segs).boundary = none := scan_quiet h 0 {}
  refine Spec.bind_get ?_
  show Returns (truncate _ (scan d.segs).boundary >>= _) _ _
  rw [hnone]
  refine Spec.bind (Q := fun r disk => r = (0, {}) ∧ ∃ e : Dir, disk = some e ∧ e.segs = []) ?_ ?_
  · refine Spec.bind (removeAll_junk [] rfl (by simp) fun _ _ _ _ => trivial) ?_
    intro _ disk hdisk
    exact Spec.pure ⟨rfl, hdisk⟩
  · intro r disk hr
    obtain ⟨rfl, e, rfl, he⟩ := hr
    refine Spec.bind_publish trivial (Spec.bind_call trivial (Spec.bind_get (Spec.pure ⟨rfl, ?_⟩)))
    refine ⟨_, rfl, ?_⟩
    show createSeg 0 e.segs = _
    rw [he]
    rfl

/-- The files decode without an error to frames numbered `0, 1, 2, ..` up to the mark. -/
def Contiguous (d : Dir) (mark : DurableMark) : Prop :=
  ∃ fs, decodeFiles (d.segs.map (·.2.data)) = .ok fs ∧
    (∀ (i : Nat) (f : Frame), fs[i]? = some f → f.seq = i) ∧
    fs.length = if mark.valid then mark.seq + 1 else 0

/-- `resume` returns an error, or leaves such a log. -/
def ResumesWhole (segmentMaxBytes : Nat) (d : Dir) : Prop :=
  ∀ log disk, (resume segmentMaxBytes).outcome (some d) = some (log, disk) →
    ∃ e, disk = some e ∧ Contiguous e log.durable

/-- What the loop of `verify_log` would see of the segments: no commit. -/
def NoCommit (segs : List (Nat × SegFile)) : Prop :=
  ∀ s ∈ segs, ∀ f ∈ (readFrames s.2.data).1.map Prod.fst, f.txnComplete = false

theorem Quiet.noCommit {segs : List (Nat × SegFile)} (h : ∀ s ∈ segs, Quiet s.2) :
    NoCommit segs := by
  intro s hs f hf
  obtain ⟨fs, hread, hfs⟩ := h s hs
  rw [hread.readFrames, map_fst_withLengths] at hf
  exact hfs f hf

theorem quiet_of_reads {g : SegFile} {fs : List Frame} (h : ReadsAs g fs)
    (hfs : ∀ f ∈ (readFrames g.data).1.map Prod.fst, f.txnComplete = false) : Quiet g := by
  rw [h.readFrames, map_fst_withLengths] at hfs
  exact ⟨fs, h, hfs⟩

/-- Files that are read one after the other, the first of them without an error. -/
theorem decodeFiles_append {files files' : List Bytes} {fs : List Frame}
    (h : decodeFiles files = .ok fs) :
    decodeFiles (files ++ files') = (decodeFiles files').map (fs ++ ·) := by
  induction files generalizing fs with
  | nil =>
    obtain rfl : [] = fs := Except.ok.inj h
    cases hd : decodeFiles files' <;> simp [hd, Except.map]
  | cons file files ih =>
    rw [List.cons_append, decodeFiles] at *
    generalize readFrames file = r at h ⊢
    obtain ⟨frames, error⟩ := r
    cases error with
    | some e => simp at h
    | none =>
      dsimp only at h ⊢
      cases hrest : decodeFiles files with
      | error e =>
        rw [hrest] at h
        simp [Except.map] at h
      | ok gs =>
        rw [hrest] at h
        rw [ih hrest, ← Except.ok.inj h]
        cases hd : decodeFiles files' <;> simp [Except.map]

theorem mem_closedSegs {ls : List (List Frame)} {n : Nat} {s : Nat × SegFile}
    (hs : s ∈ closedSegs n ls) :
    n ≤ s.1 ∧ ∃ fs ∈ ls, s.2 = { durable := encodeFrames fs, cached := [] } := by
  induction ls generalizing n with
  | nil => simp [closedSegs] at hs
  | cons fs ls ih =>
    rcases List.mem_cons.mp hs with rfl | hs
    · exact ⟨Nat.le_refl n, fs, by simp, rfl⟩
    · obtain ⟨hle, gs, hgs, heq⟩ := ih hs
      exact ⟨by omega, gs, List.mem_cons_of_mem fs hgs, heq⟩

/-- One of some closed segments, and the segments before and behind it. -/
theorem closedSegs_split {closed : List (List Frame)} {before after : List (Nat × SegFile)}
    {x : Nat × SegFile} {n : Nat} (h : closedSegs n closed = before ++ x :: after) :
    ∃ pre fs post, closed = pre ++ fs :: post ∧ before = closedSegs n pre ∧
      x = (n + pre.flatten.length, { durable := encodeFrames fs, cached := [] }) ∧
      after = closedSegs (n + pre.flatten.length + fs.length) post := by
  induction closed generalizing before n with
  | nil => simp [closedSegs] at h
  | cons fs closed ih =>
    rw [closedSegs] at h
    cases before with
    | nil =>
      obtain ⟨rfl, rfl⟩ := List.cons.inj h
      exact ⟨[], fs, closed, rfl, rfl, rfl, rfl⟩
    | cons y before =>
      obtain ⟨rfl, hrest⟩ := List.cons.inj h
      obtain ⟨pre, gs, post, rfl, rfl, rfl, rfl⟩ := ih hrest
      refine ⟨fs :: pre, gs, post, rfl, rfl, ?_, ?_⟩
      · simp only [List.flatten_cons, List.length_append, Nat.add_assoc]
      · simp only [List.flatten_cons, List.length_append, Nat.add_assoc]

/-! ## Damage behind which there is no commit -/

theorem readsAs_whole {fs : List Frame} (h : ∀ f ∈ fs, f.Fits) :
    ReadsAs { durable := encodeFrames fs, cached := [] } fs :=
  ⟨h, [], by simp, stops_nil⟩

theorem resumesWhole_of_quiet {d : Dir} (h : ∀ s ∈ d.segs, Quiet s.2) (segmentMaxBytes : Nat) :
    ResumesWhole segmentMaxBytes d := by
  intro log disk hout
  obtain ⟨hmark, e, rfl, he⟩ := (resume_quiet h segmentMaxBytes).of_outcome hout
  refine ⟨e, rfl, [], ?_, by simp, by rw [hmark]; rfl⟩
  rw [he]
  rfl

/-- The segments in front of the damage are whole, and so is what is kept of it. -/
theorem resumesWhole_of_front {d : Dir} {pre : List (List Frame)} {fs : List Frame} {g : SegFile}
    {after : List (Nat × SegFile)}
    (hsegs : d.segs = closedSegs 0 pre ++ (pre.flatten.length, g) :: after)
    (hne : ∀ gs ∈ pre, gs ≠ []) (hp : Proper (pre.flatten ++ fs)) (hread : ReadsAs g fs)
    (hafter : ∀ s ∈ after, pre.flatten.length < s.1 ∧ Quiet s.2) (segmentMaxBytes : Nat) :
    ResumesWhole segmentMaxBytes d := by
  have hsplit := split_lastCommit (fun g fs => (∀ f ∈ fs, f.Fits) → ReadsAs g fs) Quiet []
    (fun fs hfits => readsAs_whole hfits)
    (fun g fs hread hfits hnil => ⟨fs, hread hfits, uptoLast_eq_nil_iff.mp hnil⟩)
    hne hp (fun _ => hread) (by simpa using hafter)
  simp only [List.length_nil, Nat.zero_add, List.nil_append] at hsplit
  rw [← hsegs] at hsplit
  rcases hsplit with ⟨hquiet, -⟩ | ⟨closed, last, g', junk, hsegs', hne', hpre, hreads, hjunk, hc, -⟩
  · exact resumesWhole_of_quiet hquiet segmentMaxBytes
  · have hp' := hp.of_isPrefix hpre
    have hread' := hreads fun f hf => hp'.fits f (List.mem_append_right _ hf)
    obtain ⟨q, hq⟩ : ∃ q, lastCommit last = some q := by
      cases hl : lastCommit last with
      | none => exact absurd (lastCommit_eq_none_iff.mp hl) hc
      | some q => exact ⟨q, rfl⟩
    obtain ⟨hlen, hn⟩ := hp'.lastCommit_behind hq
    intro log disk hout
    obtain ⟨hmark, e, rfl, he⟩ := (resume_at hsegs' (by simpa using closedSegs_lt hne' 0)
      (fun s hs => (hjunk s hs).1) hread' (fun s hs => (hjunk s hs).2) hq hn
      segmentMaxBytes).of_outcome hout
    have hproper : Proper (closed.flatten ++ committed last) :=
      hp'.of_isPrefix ((List.prefix_append_right_inj _).mpr (uptoLast_isPrefix last))
    refine ⟨e, rfl, closed.flatten ++ committed last, ?_, hproper.seq, ?_⟩
    · have hfiles : e.segs.map (·.2.data)
          = (closed ++ [committed last, []]).map encodeFrames := by
        rw [he]
        simp
      rw [hfiles, decodeFiles_encodeFrames]
      · simp
      · intro gs hgs f hf
        refine hproper.fits f ?_
        simpa using List.mem_flatten.mpr ⟨gs, hgs, hf⟩
    · rw [hmark]
      exact hlen.symm

/-! ## Damage in front of a commit -/

/-- The damaged segment stays in the log, and what is behind it no longer follows. -/
theorem not_resumesWhole {d : Dir} {pre post : List (List Frame)} {fs fs' last : List Frame}
    {g g' : SegFile} {u : Bytes} {junk : List (Nat × SegFile)}
    (hsegs : d.segs = closedSegs 0 pre ++ (pre.flatten.length, g') ::
      (closedSegs (pre.flatten ++ fs).length post ++
        ((pre.flatten ++ fs).length + post.flatten.length, g) :: junk))
    (hne : ∀ gs ∈ pre ++ fs :: post, gs ≠ [])
    (hp : Proper ((pre.flatten ++ fs) ++ (post.flatten ++ last))) (hfs : fs' <+: fs)
    (hdata : g'.data = encodeFrames fs' ++ u) (hu : Stops u)
    (hlost : u = [] → fs'.length < fs.length) (hread : ReadsAs g last)
    (hjunk : ∀ s ∈ junk, (pre.flatten ++ fs).length + post.flatten.length < s.1 ∧ Quiet s.2)
    (hcommit : ¬ NoCommit (closedSegs (pre.flatten ++ fs).length post ++
      ((pre.flatten ++ fs).length + post.flatten.length, g) :: junk)) (segmentMaxBytes : Nat) :
    ¬ ResumesWhole segmentMaxBytes d := by
  intro hwhole
  have hpos : 0 < fs.length := List.length_pos_iff.mpr (hne fs (by simp))
  have hlen : (pre.flatten ++ fs).length = pre.flatten.length + fs.length := List.length_append
  have hsplit := split_lastCommit (fun g fs => (∀ f ∈ fs, f.Fits) → ReadsAs g fs) Quiet
    (pre.flatten ++ fs) (fun fs hfits => readsAs_whole hfits)
    (fun g fs hread hfits hnil => ⟨fs, hread hfits, uptoLast_eq_nil_iff.mp hnil⟩)
    (fun gs hgs => hne gs (by simp [hgs])) hp (fun _ => hread) hjunk
  rcases hsplit with ⟨hquiet, -⟩ | ⟨mid, m, h', junk', htail, hne', hpre, hreads, hjunk', hc, -⟩
  · exact hcommit (Quiet.noCommit hquiet)
  rw [htail] at hsegs
  have hp' := hp.of_isPrefix hpre
  have hread' := hreads fun f hf => hp'.fits f (by simp [hf])
  obtain ⟨q, hq⟩ : ∃ q, lastCommit m = some q := by
    cases hl : lastCommit m with
    | none => exact absurd (lastCommit_eq_none_iff.mp hl) hc
    | some q => exact ⟨q, rfl⟩
  -- the kept segments, in the order of their names
  let kept := closedSegs 0 pre ++ (pre.flatten.length, g') :: closedSegs (pre.flatten ++ fs).length mid
  have hsegs' : d.segs = kept ++
      ((pre.flatten ++ fs).length + mid.flatten.length, h') :: junk' := by
    rw [hsegs]
    simp [kept]
  have hlt : ∀ s ∈ kept, s.1 < (pre.flatten ++ fs).length + mid.flatten.length := by
    intro s hs
    rcases List.mem_append.mp hs with hs | hs
    · have := closedSegs_lt (fun gs hgs => hne gs (by simp [hgs])) 0 s hs
      omega
    · rcases List.mem_cons.mp hs with rfl | hs
      · show pre.flatten.length < _
        omega
      · exact closedSegs_lt hne' _ s hs
  have hn : (pre.flatten ++ fs).length + mid.flatten.length ≤ q.1 := by
    rw [← List.append_assoc] at hp'
    simpa [Nat.add_assoc] using (hp'.lastCommit_behind hq).2
  obtain ⟨log, disk, hout, ⟨-, e, rfl, he⟩, -⟩ := (resume_at hsegs' hlt
    (fun s hs => (hjunk' s hs).1) hread' (fun s hs => (hjunk' s hs).2) hq hn segmentMaxBytes).exec
  obtain ⟨e', he', all, hall, hseq, -⟩ := hwhole log _ hout
  obtain rfl := Option.some.inj he'
  -- what the kept files decode to
  have hfiles : e.segs.map (·.2.data) = pre.map encodeFrames ++
      g'.data :: (mid ++ [committed m, []]).map encodeFrames := by
    rw [he]
    simp [kept]
  have hfront : decodeFiles (pre.map encodeFrames) = .ok pre.flatten := by
    refine decodeFiles_encodeFrames fun gs hgs f hf => hp.fits f ?_
    have := List.mem_flatten.mpr ⟨gs, hgs, hf⟩
    simp [this]
  have hback : decodeFiles ((mid ++ [committed m, []]).map encodeFrames)
      = .ok (mid.flatten ++ committed m) := by
    rw [decodeFiles_encodeFrames]
    · simp
    · intro gs hgs f hf
      refine hp'.fits f (List.mem_append_right _ ?_)
      rcases List.mem_append.mp hgs with hgs | hgs
      · exact List.mem_append_left _ (List.mem_flatten.mpr ⟨gs, hgs, hf⟩)
      · rcases List.mem_pair.mp hgs with rfl | rfl
        · exact List.mem_append_right _ ((uptoLast_isPrefix m).subset hf)
        · simp at hf
  have hfits : ∀ f ∈ fs', f.Fits := fun f hf => hp.fits f (by simp [hfs.subset hf])
  rw [hfiles, decodeFiles_append hfront, decodeFiles, hdata, readFrames_of_stops hfits hu] at hall
  cases hend : endError u with
  | some err =>
    rw [hend] at hall
    simp [Except.map] at hall
  | none =>
    rw [hend, hback] at hall
    simp only [Except.map, map_fst_withLengths, Except.ok.injEq] at hall
    have hshort := hlost (hu.endError_eq_none.mp hend)
    -- the first frame behind the damage is out of its place
    obtain ⟨x, rest, hx⟩ : ∃ x rest, mid.flatten ++ committed m = x :: rest := by
      refine List.exists_cons_of_ne_nil fun hnil => hc ?_
      exact (List.append_eq_nil_iff.mp hnil).2
    rw [hx] at hall
    have hplace : x.seq = (pre.flatten ++ fs).length := by
      have hkept : Proper ((pre.flatten ++ fs) ++ (mid.flatten ++ committed m)) := by
        refine hp'.of_isPrefix ((List.prefix_append_right_inj _).mpr ?_)
        exact (List.prefix_append_right_inj _).mpr (uptoLast_isPrefix m)
      rw [hx] at hkept
      exact hkept.getElem?_seq
    have hplace' : x.seq = (pre.flatten ++ fs').length := by
      refine hseq _ x ?_
      rw [← hall, ← List.append_assoc, List.getElem?_append_right (Nat.le_refl _)]
      simp
    rw [hplace, List.length_append, List.length_append] at hplace'
    omega

/-! ## The condition -/

/-- After damage to one segment, of a log as `FrameLog` leaves it in any run, crashes
included: `resume` returns an error or leaves a log that decodes to contiguous frames up
to its mark, if and only if no segment behind the damaged one holds a commit. -/
theorem resume_damaged {d d' : Dir} (h : Reachable (.stopped d))
    {before after : List (Nat × SegFile)} {n : Nat} {g g' : SegFile}
    (hsegs : d.segs = before ++ (n, g) :: after) (hsegs' : d'.segs = before ++ (n, g') :: after)
    (hdamaged : Damaged g.data g'.data) (segmentMaxBytes : Nat) :
    ResumesWhole segmentMaxBytes d' ↔ NoCommit after := by
  obtain ⟨L, hrec⟩ := h.inv
  -- damage to a file without a commit
  have hquiet : Leftover g → Quiet g' := by
    intro hleft
    obtain ⟨fs, t, hdata, ht, hfs⟩ := hleft
    obtain ⟨fs', u, hpre, hdata', hu, -⟩ := hdamaged.reads hdata ht fun f hf => (hfs f hf).1
    exact ⟨fs', ⟨fun f hf => (hfs f (hpre.subset hf)).1, u, hdata', hu⟩,
      fun f hf => (hfs f (hpre.subset hf)).2⟩
  rw [hsegs] at hrec
  generalize hall : before ++ (n, g) :: after = segs at hrec
  cases hrec with
  | leftovers hjunk =>
    subst hall
    have hafter : ∀ s ∈ after, Quiet s.2 := fun s hs => (hjunk s (by simp [hs])).quiet
    refine iff_of_true (resumesWhole_of_quiet ?_ segmentMaxBytes) (Quiet.noCommit hafter)
    intro s hs
    rw [hsegs'] at hs
    rcases List.mem_append.mp hs with hs | hs
    · exact (hjunk s (by simp [hs])).quiet
    · rcases List.mem_cons.mp hs with rfl | hs
      · exact hquiet (hjunk (n, g) (by simp))
      · exact hafter s hs
  | segments hne hp hdata ht hjunk =>
    rename_i closed last t g₀ junk
    have hread : ReadsAs g₀ last :=
      ⟨fun f hf => hp.fits f (List.mem_append_right _ hf), t, hdata, ht.stops⟩
    have hbehind : ∀ s ∈ junk, closed.flatten.length < s.1 ∧ Quiet s.2 :=
      fun s hs => ⟨(hjunk s hs).1, (hjunk s hs).2.quiet⟩
    -- damage to the last segment with frames
    have hlast : before = closedSegs 0 closed → (n, g) :: after = (closed.flatten.length, g₀) :: junk →
        (ResumesWhole segmentMaxBytes d' ↔ NoCommit after) := by
      intro hbefore hrest
      obtain ⟨hng, rfl⟩ := List.cons.inj hrest
      obtain ⟨rfl, rfl⟩ := Prod.mk.inj hng
      obtain ⟨fs', u, hpre, hdata', hu, -⟩ := hdamaged.reads hdata ht hread.1
      have hp' : Proper (closed.flatten ++ fs') :=
        hp.of_isPrefix ((List.prefix_append_right_inj _).mpr hpre)
      refine iff_of_true ?_ (Quiet.noCommit fun s hs => (hbehind s hs).2)
      rw [hbefore] at hsegs'
      exact resumesWhole_of_front hsegs' hne hp'
        ⟨fun f hf => hp'.fits f (List.mem_append_right _ hf), u, hdata', hu⟩ hbehind segmentMaxBytes
    rcases List.append_eq_append_iff.mp hall with ⟨mid, hmid, hrest⟩ | ⟨mid, hmid, hrest⟩
    · cases mid with
      | nil => exact hlast (by simpa using hmid.symm) hrest
      | cons x mid =>
        -- damage to a closed segment
        obtain ⟨rfl, rfl⟩ := List.cons.inj hrest
        obtain ⟨pre, fs, post, rfl, rfl, hng, rfl⟩ := closedSegs_split hmid
        obtain ⟨rfl, rfl⟩ := Prod.mk.inj hng
        have hflat : (pre ++ fs :: post).flatten ++ last
            = (pre.flatten ++ fs) ++ (post.flatten ++ last) := by simp
        have hlen : (pre ++ fs :: post).flatten.length
            = (pre.flatten ++ fs).length + post.flatten.length := by simp [Nat.add_assoc]
        have hlen' : (pre.flatten ++ fs).length = pre.flatten.length + fs.length :=
          List.length_append
        rw [hflat] at hp
        have hfits : ∀ f ∈ fs, f.Fits := fun f hf => hp.fits f (by simp [hf])
        obtain ⟨fs', u, hpre, hdata', hu, hlost⟩ := hdamaged.reads (by simp) torn_nil hfits
        have hp' : Proper (pre.flatten ++ fs') := by
          refine hp.of_isPrefix (((List.prefix_append_right_inj _).mpr hpre).trans ?_)
          exact List.prefix_append _ _
        have hread' : ReadsAs g' fs' := ⟨fun f hf => hfits f (hpre.subset hf), u, hdata', hu⟩
        simp only [Nat.zero_add] at hsegs' ⊢
        rw [hlen, ← hlen'] at hsegs' ⊢
        constructor
        · intro hwhole
          by_contra hcommit
          refine not_resumesWhole hsegs' hne hp hpre hdata' hu (hlost rfl) hread ?_ hcommit
            segmentMaxBytes hwhole
          intro s hs
          have := hbehind s hs
          rwa [hlen] at this
        · intro hno
          refine resumesWhole_of_front hsegs' (fun gs hgs => hne gs (by simp [hgs])) hp' hread' ?_
            segmentMaxBytes
          have hpos : 0 < fs.length := List.length_pos_iff.mpr (hne fs (by simp))
          intro s hs
          rcases List.mem_append.mp hs with hs' | hs'
          · obtain ⟨hle, gs, hgs, heq⟩ := mem_closedSegs hs'
            have hread : ReadsAs s.2 gs := by
              rw [heq]
              refine readsAs_whole fun f hf => hp.fits f ?_
              have := List.mem_flatten.mpr ⟨gs, hgs, hf⟩
              simp [this]
            exact ⟨by omega, quiet_of_reads hread (hno s hs)⟩
          · rcases List.mem_cons.mp hs' with rfl | hs'
            · refine ⟨?_, quiet_of_reads hread (hno _ hs)⟩
              show pre.flatten.length < (pre.flatten ++ fs).length + post.flatten.length
              omega
            · obtain ⟨hlt, hq⟩ := hbehind s hs'
              exact ⟨by omega, hq⟩
    · cases mid with
      | nil => exact hlast (by simpa using hmid) hrest.symm
      | cons x mid =>
        -- damage to a segment that recovery drops anyway
        obtain ⟨rfl, rfl⟩ := List.cons.inj hrest
        have hafter : ∀ s ∈ after, Quiet s.2 := fun s hs => (hbehind s (by simp [hs])).2
        refine iff_of_true ?_ (Quiet.noCommit hafter)
        have hsegs'' : d'.segs = closedSegs 0 closed ++ (closed.flatten.length, g₀) ::
            (mid ++ (n, g') :: after) := by
          rw [hsegs', hmid]
          simp
        refine resumesWhole_of_front hsegs'' hne hp hread (fun s hs => ?_) segmentMaxBytes
        rcases List.mem_append.mp hs with hs | hs
        · exact hbehind s (by simp [hs])
        · rcases List.mem_cons.mp hs with rfl | hs
          · have hg := hjunk (n, g) (by simp)
            exact ⟨hg.1, hquiet hg.2⟩
          · exact hbehind s (by simp [hs])

/-- Two commits in segments of their own. -/
def twoCommits : List LogOp := [.append 1 10 true [67], .append 11 20 true [68]]

/-- The directory with the last byte of segment `i` cut off. -/
def cutSegment (d : Dir) (i : Nat) : Dir :=
  { d with segs := d.segs.modify i fun s => (s.1, { durable := s.2.data.dropLast, cached := [] }) }

/-- The last segment is empty, and the one before it is not. -/
def emptyLast (d : Dir) : Bool :=
  match d.segs with
  | [_, (_, g), (_, h)] => decide ((readFrames h.data).1 = [] ∧ g.data.dropLast ≠ g.data)
  | _ => false

omit [Crc32c] in
/-- The segment behind which there is no commit is cut by one byte. -/
theorem resume_damaged_last_commit : letI := castagnoli
    ∃ d : Dir, Reachable (.stopped d) ∧ d.segs.length = 3 ∧ ResumesWhole 1 (cutSegment d 1) := by
  let _ := castagnoli
  have hplay : ((LogOp.runAll twoCommits (emptyLog 1)).any fun s => emptyLast s.dir) = true := by
    decide +kernel
  obtain ⟨s, hops, hcheck⟩ := (Option.any_eq_true _ _).mp hplay
  have hreach : Reachable (.running s) :=
    Reachable.runAll (.create (create_outcome 1)) (by decide +kernel) hops
  have hstopped : Reachable (.stopped s.dir) := .crash hreach rfl (.refl s.dir)
  unfold emptyLast at hcheck
  split at hcheck
  · rename_i a n g m h hsegs
    obtain ⟨hempty, hne⟩ := of_decide_eq_true hcheck
    have hcut : (cutSegment s.dir 1).segs
        = [a] ++ (n, { durable := g.data.dropLast, cached := [] }) :: [(m, h)] := by
      simp [cutSegment, hsegs]
    have hdamaged : Damaged g.data (g.data.dropLast ++ []) := by
      rw [List.append_nil]
      exact .truncated (List.dropLast_prefix _) hne
    have hsegs' : s.dir.segs = [a] ++ (n, g) :: [(m, h)] := hsegs
    refine ⟨s.dir, hstopped, by rw [hsegs]; rfl, ?_⟩
    refine (resume_damaged hstopped hsegs' hcut hdamaged 1).mpr ?_
    intro t ht f hf
    rw [List.mem_singleton.mp ht, hempty] at hf
    simp at hf
  · simp at hcheck

omit [Crc32c] in
/-- The first segment is cut by one byte.  `resume` finds the commit behind it, and leaves
the torn segment in the log. -/
theorem resume_keeps_damage : letI := castagnoli
    ∃ d : Dir, Reachable (.stopped d) ∧ d.segs.length = 3 ∧
      (d.segs.head?.any fun s => decide (s.2.data.dropLast ≠ s.2.data)) = true ∧
      ¬ ResumesWhole 1 (cutSegment d 0) := by
  let _ := castagnoli
  have hplay : ((LogOp.runAll twoCommits (emptyLog 1)).any fun s => decide (s.dir.segs.length = 3 ∧
      (s.dir.segs.head?.any fun s => decide (s.2.data.dropLast ≠ s.2.data)) = true ∧
      (((resume 1).outcome (some (cutSegment s.dir 0))).any fun r => r.2.any fun e =>
        (decodeFiles (e.segs.map (·.2.data))).toOption.isNone) = true)) = true := by
    decide +kernel
  obtain ⟨s, hops, hcheck⟩ := (Option.any_eq_true _ _).mp hplay
  have hreach : Reachable (.running s) :=
    Reachable.runAll (.create (create_outcome 1)) (by decide +kernel) hops
  obtain ⟨hlen, hne, hresume⟩ := of_decide_eq_true hcheck
  refine ⟨s.dir, .crash hreach rfl (.refl s.dir), hlen, hne, fun hwhole => ?_⟩
  obtain ⟨⟨log, disk⟩, hout, hdisk⟩ := (Option.any_eq_true _ _).mp hresume
  obtain ⟨e, he, hdecode⟩ := (Option.any_eq_true _ _).mp hdisk
  obtain ⟨e', he', fs, hfs, -⟩ := hwhole log disk hout
  obtain rfl := Option.some.inj (he.symm.trans he')
  rw [hfs] at hdecode
  simp [Except.toOption] at hdecode

end GrayDB.Log
