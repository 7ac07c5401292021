import GrayDB.Log.Runs

/-!
# `LogTail`

The incremental reader of a live log.  It remembers a segment and a byte offset;
`readNew` returns the whole frames behind them, and says `rewound` when the log
has shrunk beneath the cursor.

* `visit` is the loop over the segments from the cursor on.
* `consume` is what a consumer does with a batch: on `rewound` it drops the frames
  behind the last commit, and then it takes the new ones.
* `visit_whole` is the result of the loop on a directory with whole segments and a
  torn end.
-/

namespace GrayDB.Log

open Lib

structure LogTail where
  /-- The segment the cursor is in; `none` is not started. -/
  current : Option Nat := none
  offset : Nat := 0
  deriving DecidableEq, Repr

structure TailBatch where
  frames : List Frame := []
  /-- The log shrank beneath the cursor. -/
  rewound : Bool := false
  deriving DecidableEq, Repr

/-- `corrupt frame mid-log in {segment} (not at tail): {error}` -/
structure TailError where
  segment : String
  error : DecodeError
  deriving DecidableEq, Repr

section Reader

variable [Crc32c]

/-- The loop of `read_new`, from the segment the cursor is in. -/
def visit : List (Nat × SegFile) → LogTail → TailBatch → Except TailError TailBatch × LogTail
  | [], t, out => (.ok out, t)
  | seg :: segs, t, out =>
    let len := seg.2.data.length
    -- shrunk beneath us
    let out := if len < t.offset then { out with rewound := true } else out
    let offset := min t.offset len
    let (frames, error) := readFrames (seg.2.data.drop offset)
    let t := { t with offset := offset + (frames.map Prod.snd).sum }
    let out := { out with frames := out.frames ++ frames.map Prod.fst }
    match segs, error with
    | [], _ => (.ok out, t)
    | _ :: _, some e => (.error { segment := segName seg.1, error := e }, t)
    | next :: rest, none =>
      if t.offset ≥ len then visit (next :: rest) { current := some next.1, offset := 0 } out
      else (.ok out, t)

/-- Read all whole frames behind the cursor.  A directory that is not there is read
as an empty one. -/
def LogTail.readNew (t : LogTail) (d : Dir) : Except TailError TailBatch × LogTail :=
  match d.segs with
  | [] => (.ok {}, t)
  | first :: rest =>
    match t.current with
    | none => visit (first :: rest) { current := some first.1, offset := 0 } {}
    | some name =>
      match (first :: rest).dropWhile fun s => s.1 != name with
      | seg :: segs => visit (seg :: segs) t {}
      | [] =>
        -- our segment was deleted: go on from the end of the last one
        let last := (first :: rest).getLast (by simp)
        visit [last] { current := some last.1, offset := last.2.data.length } { rewound := true }

end Reader

/-- The consumer of the batches. -/
def consume (held : List Frame) (batch : TailBatch) : List Frame :=
  (if batch.rewound then committed held else held) ++ batch.frames

/-! ## One segment -/

private theorem mark_rewound (out : TailBatch) (c : Prop) [Decidable c] :
    (if c then { out with rewound := true } else out)
      = { out with rewound := out.rewound || decide c } := by
  split
  · rename_i h
    simp [h]
  · rename_i h
    simp [h]

section Visit

variable [Crc32c]

theorem sum_withLengths (fs : List Frame) :
    ((withLengths fs).map Prod.snd).sum = (encodeFrames fs).length := by
  induction fs with
  | nil => rfl
  | cons f fs ih =>
    rw [encodeFrames_cons, List.length_append, ← ih]
    rfl

/-- What the loop reads in a segment behind the frames `as`. -/
private theorem readFrames_behind {as bs : List Frame} {t data : Bytes}
    (hdata : data = encodeFrames (as ++ bs) ++ t) (ht : Torn t)
    (hfits : ∀ f ∈ as ++ bs, f.Fits) :
    (readFrames (data.drop (encodeFrames as).length)).1 = withLengths bs ∧
      ((readFrames (data.drop (encodeFrames as).length)).2 = none ↔ t = []) := by
  have hdrop : data.drop (encodeFrames as).length = encodeFrames bs ++ t := by
    rw [hdata, encodeFrames_append, List.append_assoc, List.drop_left]
  rw [hdrop]
  obtain ⟨h1, h2, -⟩ :=
    readFrames_encodeFrames (fun f hf => hfits f (List.mem_append_right _ hf)) ht
  exact ⟨h1, h2⟩

/-- The last segment: the frames behind the cursor, up to the torn end. -/
theorem visit_last (as bs : List Frame) {seg : Nat × SegFile} {t : Bytes} {cursor : LogTail}
    {out : TailBatch} (hdata : seg.2.data = encodeFrames (as ++ bs) ++ t) (ht : Torn t)
    (hfits : ∀ f ∈ as ++ bs, f.Fits)
    (hmin : min cursor.offset seg.2.data.length = (encodeFrames as).length) :
    visit [seg] cursor out =
      (.ok { frames := out.frames ++ bs
             rewound := out.rewound || decide (seg.2.data.length < cursor.offset) },
        { cursor with offset := (encodeFrames (as ++ bs)).length }) := by
  obtain ⟨hread, -⟩ := readFrames_behind hdata ht hfits
  rw [visit]
  simp only [hmin, hread, sum_withLengths, map_fst_withLengths, mark_rewound, encodeFrames_append,
    List.length_append]

/-- Any other segment is whole, and the loop goes on to the next one. -/
theorem visit_next (as bs : List Frame) {seg next : Nat × SegFile} {rest : List (Nat × SegFile)}
    {cursor : LogTail} {out : TailBatch} (hdata : seg.2.data = encodeFrames (as ++ bs))
    (hfits : ∀ f ∈ as ++ bs, f.Fits)
    (hmin : min cursor.offset seg.2.data.length = (encodeFrames as).length) :
    visit (seg :: next :: rest) cursor out =
      visit (next :: rest) { current := some next.1, offset := 0 }
        { frames := out.frames ++ bs
          rewound := out.rewound || decide (seg.2.data.length < cursor.offset) } := by
  have hwhole : seg.2.data = encodeFrames (as ++ bs) ++ [] := by rw [hdata, List.append_nil]
  obtain ⟨hread, hend⟩ := readFrames_behind hwhole torn_nil hfits
  have hlen : (encodeFrames as).length + (encodeFrames bs).length = seg.2.data.length := by
    rw [hdata, encodeFrames_append, List.length_append]
  rw [visit]
  simp only [hmin, hread, hend.mpr, sum_withLengths, map_fst_withLengths, mark_rewound, hlen,
    ge_iff_le, Nat.le_refl, if_true]

/-! ## Whole segments with a torn end -/

/-- From the start of a segment the loop reads everything that follows. -/
theorem visit_whole {g : SegFile} {last : List Frame} {t : Bytes}
    (hdata : g.data = encodeFrames last ++ t) (ht : Torn t) {closed : List (List Frame)} :
    ∀ (n : Nat) (out : TailBatch), (∀ f ∈ closed.flatten ++ last, f.Fits) →
      visit (closedSegs n closed ++ [(n + closed.flatten.length, g)])
          { current := some n, offset := 0 } out =
        (.ok { out with frames := out.frames ++ (closed.flatten ++ last) },
          { current := some (n + closed.flatten.length)
            offset := (encodeFrames last).length }) := by
  induction closed with
  | nil =>
    intro n out hfits
    rw [closedSegs, List.nil_append, visit_last [] last hdata ht hfits (by simp)]
    simp
  | cons fs closed ih =>
    intro n out hfits
    have hfs : ∀ f ∈ [] ++ fs, f.Fits := fun f hf => hfits f (by
      rw [List.flatten_cons, List.append_assoc]
      exact List.mem_append_left _ hf)
    have hrest : ∀ f ∈ closed.flatten ++ last, f.Fits := fun f hf => hfits f (by
      rw [List.flatten_cons, List.append_assoc]
      exact List.mem_append_right _ hf)
    obtain ⟨next, rest, hsegs, hname⟩ : ∃ next rest, closedSegs (n + fs.length) closed ++
        [(n + fs.length + closed.flatten.length, g)] = next :: rest ∧ next.1 = n + fs.length := by
      cases closed with
      | nil => exact ⟨_, [], rfl, by simp⟩
      | cons gs closed => exact ⟨_, _, rfl, rfl⟩
    rw [closedSegs_cons_last, hsegs, visit_next [] fs (by simp) hfs (by simp), ← hsegs, hname,
      ih _ _ hrest]
    simp [Nat.add_assoc]

end Visit

end GrayDB.Log
