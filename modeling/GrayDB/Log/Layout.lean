import GrayDB.Log.FrameLog

/-!
# The frames in a log directory

`Layout` says what a log directory holds in terms of frames: the segments that
are closed, and the active one, whose frames are durable up to some point.
`Layout.segs` are the files.  The three changes that the append path makes are
`Layout.write`, `Layout.sync` and `Layout.roll`, and each is what the calls
on the directory do: `update_write_segs`, `update_sync_segs` and
`create_segs`.

A closed segment is never empty.  This is a field of `Layout`, and it is what
keeps the names of the segments apart: each segment is named after the number
of frames before it.

`decodeFiles` reads a list of files one after the other, and
`decodeFiles_data` and `decodeFiles_durable` are its results on a layout.
-/

namespace GrayDB.Log

open Lib

structure Layout where
  closed : List (List Frame) := []
  /-- The durable frames of the active segment. -/
  kept : List Frame := []
  /-- Its frames behind the last fsync. -/
  cached : List Frame := []
  closed_ne : ∀ fs ∈ closed, fs ≠ []

namespace Layout

def empty : Layout := { closed_ne := by simp }

/-- All frames in file order. -/
def frames (l : Layout) : List Frame := l.closed.flatten ++ (l.kept ++ l.cached)

def durableFrames (l : Layout) : List Frame := l.closed.flatten ++ l.kept

/-- The number in the name of the active segment. -/
def name (l : Layout) : Nat := l.closed.flatten.length

def write (l : Layout) (f : Frame) : Layout := { l with cached := l.cached ++ [f] }

def sync (l : Layout) : Layout := { l with kept := l.kept ++ l.cached, cached := [] }

/-- The active segment is closed, unless it is empty; then its file is created again. -/
def roll (l : Layout) : Layout :=
  if h : l.kept ++ l.cached = [] then l
  else
    { closed := l.closed ++ [l.kept ++ l.cached]
      closed_ne := by
        intro fs hfs
        rcases List.mem_append.mp hfs with hfs | hfs
        · exact l.closed_ne fs hfs
        · rwa [List.mem_singleton.mp hfs] }

@[simp] theorem frames_empty : empty.frames = [] := rfl

@[simp] theorem durableFrames_empty : empty.durableFrames = [] := rfl

@[simp] theorem frames_write (l : Layout) (f : Frame) : (l.write f).frames = l.frames ++ [f] := by
  simp [frames, write]

@[simp] theorem durableFrames_write (l : Layout) (f : Frame) :
    (l.write f).durableFrames = l.durableFrames := rfl

@[simp] theorem frames_sync (l : Layout) : l.sync.frames = l.frames := by
  simp [frames, sync]

@[simp] theorem durableFrames_sync (l : Layout) : l.sync.durableFrames = l.frames := by
  simp [frames, durableFrames, sync]

@[simp] theorem frames_roll (l : Layout) : l.roll.frames = l.frames := by
  rw [roll]
  split
  · rfl
  · simp [frames]

theorem durableFrames_roll {l : Layout} (h : l.cached = []) :
    l.roll.durableFrames = l.durableFrames := by
  rw [roll]
  split
  · rfl
  · simp [durableFrames, h]

theorem durableFrames_isPrefix (l : Layout) : l.durableFrames <+: l.frames := by
  rw [durableFrames, frames, ← List.append_assoc]
  exact List.prefix_append _ _

end Layout

/-- The frames in the files and those that are durable only grow at the end. -/
structure Grows (l l' : Layout) : Prop where
  frames : l.frames <+: l'.frames
  durable : l.durableFrames <+: l'.durableFrames

theorem Grows.refl (l : Layout) : Grows l l := ⟨List.prefix_refl _, List.prefix_refl _⟩

theorem Grows.trans {l l' l'' : Layout} (h : Grows l l') (h' : Grows l' l'') : Grows l l'' :=
  ⟨h.frames.trans h'.frames, h.durable.trans h'.durable⟩

theorem Grows.write (l : Layout) (f : Frame) : Grows l (l.write f) :=
  ⟨by simp, by simp⟩

theorem Grows.sync (l : Layout) : Grows l l.sync :=
  ⟨by simp, by simpa using l.durableFrames_isPrefix⟩

theorem Grows.of_eq {l l' : Layout} (h : l'.frames = l.frames)
    (h' : l'.durableFrames = l.durableFrames) : Grows l l' :=
  ⟨by rw [h], by rw [h']⟩

/-! ## The files of a layout -/

section Files

variable [Crc32c]

/-- The closed segments, the first of which is named `n`. -/
def closedSegs : Nat → List (List Frame) → List (Nat × SegFile)
  | _, [] => []
  | n, fs :: rest =>
    (n, { durable := encodeFrames fs, cached := [] }) :: closedSegs (n + fs.length) rest

/-- The segment files, in file-name order. -/
def Layout.segs (l : Layout) : List (Nat × SegFile) :=
  closedSegs 0 l.closed ++
    [(l.name, { durable := encodeFrames l.kept, cached := encodeFrames l.cached })]

@[simp] theorem closedSegs_append (n : Nat) (as bs : List (List Frame)) :
    closedSegs n (as ++ bs) = closedSegs n as ++ closedSegs (n + as.flatten.length) bs := by
  induction as generalizing n with
  | nil => simp [closedSegs]
  | cons fs as ih => simp [closedSegs, ih, Nat.add_assoc]

/-- Closed segments are named below the number that follows them. -/
theorem closedSegs_lt {ls : List (List Frame)} (hne : ∀ fs ∈ ls, fs ≠ []) (n : Nat) :
    ∀ s ∈ closedSegs n ls, s.1 < n + ls.flatten.length := by
  induction ls generalizing n with
  | nil => simp [closedSegs]
  | cons fs ls ih =>
    intro s hs
    have hpos : 0 < fs.length := List.length_pos_iff.mpr (hne fs (by simp))
    rw [List.flatten_cons, List.length_append]
    rcases List.mem_cons.mp hs with rfl | hs
    · show n < _
      omega
    · have := ih (fun gs hgs => hne gs (List.mem_cons_of_mem fs hgs)) (n + fs.length) s hs
      omega

/-- The first of the closed segments, in front of the others and a last file. -/
theorem closedSegs_cons_last (n : Nat) (fs : List Frame) (rest : List (List Frame))
    (g : SegFile) :
    closedSegs n (fs :: rest) ++ [(n + (fs :: rest).flatten.length, g)] =
      (n, { durable := encodeFrames fs, cached := [] }) ::
        (closedSegs (n + fs.length) rest ++ [(n + fs.length + rest.flatten.length, g)]) := by
  rw [closedSegs, List.cons_append, List.flatten_cons, List.length_append, Nat.add_assoc]

theorem Layout.closedSegs_lt_name (l : Layout) : ∀ s ∈ closedSegs 0 l.closed, s.1 < l.name := by
  intro s hs
  simpa [Layout.name] using closedSegs_lt l.closed_ne 0 s hs

/-- Writing a frame to the active file. -/
theorem Layout.update_write_segs (l : Layout) (f : Frame) {d : Dir} (h : d.segs = l.segs) :
    (d.update l.name (·.write (encodeFrame f))).segs = (l.write f).segs := by
  rw [Dir.segs_update, h, Layout.segs, map_update _ l.closedSegs_lt_name (by simp)]
  simp [Layout.segs, Layout.write, Layout.name, SegFile.write]

/-- Syncing the active file. -/
theorem Layout.update_sync_segs (l : Layout) {d : Dir} (h : d.segs = l.segs) :
    (d.update l.name (·.sync)).segs = l.sync.segs := by
  rw [Dir.segs_update, h, Layout.segs, map_update _ l.closedSegs_lt_name (by simp)]
  simp [Layout.segs, Layout.sync, Layout.name, SegFile.sync]

/-- Creating the file for the next frame, once everything is synced. -/
theorem Layout.create_segs (l : Layout) (hsync : l.cached = []) {d : Dir} (h : d.segs = l.segs) :
    (d.create l.frames.length).segs = l.roll.segs := by
  have hlen : l.frames.length = l.name + l.kept.length := by
    simp [Layout.frames, Layout.name, hsync]
  rw [Dir.segs_create, h, Layout.roll]
  by_cases hk : l.kept = []
  · rw [dif_pos (by rw [hk, hsync]; rfl), hlen, hk, List.length_nil, Nat.add_zero, Layout.segs,
      createSeg_last l.closedSegs_lt_name, hk, hsync]
    rfl
  · rw [dif_neg (by simp [hk])]
    have hpos : 0 < l.kept.length := List.length_pos_iff.mpr hk
    rw [createSeg_of_lt]
    · simp [Layout.segs, closedSegs, Layout.name, hlen, hsync, SegFile.empty]
    · intro s hs
      rcases List.mem_append.mp hs with hs | hs
      · have := l.closedSegs_lt_name s hs
        omega
      · rw [List.mem_singleton.mp hs]
        show l.name < _
        omega

end Files

/-! ## Reading the files -/

section Reading

variable [Crc32c]

/-- Read files one after the other, each to its clean end. -/
def decodeFiles : List Bytes → Except DecodeError (List Frame)
  | [] => .ok []
  | file :: files =>
    match readFrames file with
    | (frames, none) => (decodeFiles files).map (frames.map Prod.fst ++ ·)
    | (_, some e) => .error e

@[simp] theorem map_fst_withLengths (fs : List Frame) : (withLengths fs).map Prod.fst = fs := by
  simp [withLengths, Function.comp_def]

theorem decodeFiles_encodeFrames {fss : List (List Frame)} (h : ∀ fs ∈ fss, ∀ f ∈ fs, f.Fits) :
    decodeFiles (fss.map encodeFrames) = .ok fss.flatten := by
  induction fss with
  | nil => rfl
  | cons fs fss ih =>
    rw [List.map_cons, decodeFiles, readFrames_whole (h fs (by simp)),
      ih fun gs hgs => h gs (List.mem_cons_of_mem fs hgs)]
    simp [Except.map]

@[simp] theorem map_data_closedSegs (n : Nat) (ls : List (List Frame)) :
    (closedSegs n ls).map (·.2.data) = ls.map encodeFrames := by
  induction ls generalizing n with
  | nil => rfl
  | cons fs ls ih => simp [closedSegs, ih]

@[simp] theorem map_durable_closedSegs (n : Nat) (ls : List (List Frame)) :
    (closedSegs n ls).map (·.2.durable) = ls.map encodeFrames := by
  induction ls generalizing n with
  | nil => rfl
  | cons fs ls ih => simp [closedSegs, ih]

/-- The files hold the frames of the layout. -/
theorem decodeFiles_data {l : Layout} (h : ∀ f ∈ l.frames, f.Fits) :
    decodeFiles (l.segs.map (·.2.data)) = .ok l.frames := by
  have hmap : l.segs.map (·.2.data) = (l.closed ++ [l.kept ++ l.cached]).map encodeFrames := by
    simp [Layout.segs]
  rw [hmap, decodeFiles_encodeFrames]
  · simp [Layout.frames]
  · intro fs hfs f hf
    refine h f ?_
    rw [Layout.frames, List.mem_append]
    rcases List.mem_append.mp hfs with hfs | hfs
    · exact Or.inl (List.mem_flatten.mpr ⟨fs, hfs, hf⟩)
    · rw [List.mem_singleton.mp hfs] at hf
      exact Or.inr hf

/-- Their durable bytes hold its durable frames. -/
theorem decodeFiles_durable {l : Layout} (h : ∀ f ∈ l.frames, f.Fits) :
    decodeFiles (l.segs.map (·.2.durable)) = .ok l.durableFrames := by
  have hmap : l.segs.map (·.2.durable) = (l.closed ++ [l.kept]).map encodeFrames := by
    simp [Layout.segs]
  rw [hmap, decodeFiles_encodeFrames]
  · simp [Layout.durableFrames]
  · intro fs hfs f hf
    refine h f (l.durableFrames_isPrefix.subset ?_)
    rw [Layout.durableFrames, List.mem_append]
    rcases List.mem_append.mp hfs with hfs | hfs
    · exact Or.inl (List.mem_flatten.mpr ⟨fs, hfs, hf⟩)
    · rw [List.mem_singleton.mp hfs] at hf
      exact Or.inr hf

/-- The bytes of the directory are those of its frames. -/
theorem Layout.bytes_eq {l : Layout} {d : Dir} (h : d.segs = l.segs) :
    d.bytes = encodeFrames l.frames := by
  have hclosed : ∀ n (ls : List (List Frame)),
      (closedSegs n ls).flatMap (·.2.data) = encodeFrames ls.flatten := by
    intro n ls
    induction ls generalizing n with
    | nil => rfl
    | cons fs ls ih => simp [closedSegs, ih]
  rw [Dir.bytes, h, Layout.segs, List.flatMap_append, hclosed, Layout.frames]
  simp

end Reading

end GrayDB.Log
