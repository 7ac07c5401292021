import GrayDB.Log.Frame
import Mathlib.Data.List.Forall2

/-!
# The directory of a frame log

A frame log is a directory of segment files and a staging file.  A segment is
named after the sequence number of its first frame, in sixteen hexadecimal
digits, so that the order of the names is the order of the numbers:
`segName_lt`.  `Dir` therefore keys a segment by that number and keeps the
segments in file-name order.

A file has bytes that an fsync has made durable and bytes behind them that
only the operating system holds.  A crash keeps the first and some prefix of
the second; this is `SegFile.Survives`, and `Dir.CrashImage` for the whole
directory.
-/

namespace GrayDB.Log

open Lib

/-! ## Names -/

/-- `seg-{:016x}.gdl` -/
def segName (firstSeq : Nat) : String :=
  "seg-" ++ String.ofList ((beDigits 16 16 firstSeq).map Nat.digitChar) ++ ".gdl"

private theorem digitChar_lt {a b : Nat} (ha : a < 16) (hb : b < 16) (h : a < b) :
    Nat.digitChar a < Nat.digitChar b := by
  have hall : ∀ x y : Fin 16, x < y → Nat.digitChar x < Nat.digitChar y := by decide
  exact hall ⟨a, ha⟩ ⟨b, hb⟩ h

private theorem map_digitChar_lt {xs ys : List Nat} (hxs : ∀ x ∈ xs, x < 16)
    (hys : ∀ y ∈ ys, y < 16) (hlen : xs.length = ys.length) (h : xs < ys) (zs : List Char) :
    xs.map Nat.digitChar ++ zs < ys.map Nat.digitChar ++ zs := by
  induction xs generalizing ys with
  | nil =>
    have : ys = [] := by simpa using hlen.symm
    subst this
    exact absurd h (by simp)
  | cons x xs ih =>
    cases ys with
    | nil => simp at hlen
    | cons y ys =>
      simp only [List.map_cons, List.cons_append]
      rcases List.cons_lt_cons_iff.mp h with hxy | ⟨rfl, hlt⟩
      · exact List.cons_lt_cons_iff.mpr
          (Or.inl (digitChar_lt (hxs x (by simp)) (hys y (by simp)) hxy))
      · refine List.cons_lt_cons_iff.mpr (Or.inr ⟨rfl, ?_⟩)
        exact ih (fun a ha => hxs a (by simp [ha])) (fun a ha => hys a (by simp [ha]))
          (by simpa using hlen) hlt

/-- The names of two segments are in the order of their first sequence numbers. -/
theorem segName_lt {m n : Nat} (hn : n < 2 ^ 64) (h : m < n) : segName m < segName n := by
  have hlt : beDigits 16 16 m < beDigits 16 16 n := beDigits_lt (by simpa using hn) h
  have hdig : ∀ k, ∀ d ∈ beDigits 16 16 k, d < 16 := fun k => beDigits_lt_base (by decide) 16 k
  have := map_digitChar_lt (hdig m) (hdig n) (by simp) hlt ".gdl".toList
  rw [String.lt_iff, segName, segName]
  simp only [String.toList_append, String.toList_ofList, List.append_assoc]
  exact List.append_left_lt this

/-! ## Files -/

/-- A segment file: what an fsync has made durable, and what was written since. -/
structure SegFile where
  durable : Bytes := []
  cached : Bytes := []
  deriving DecidableEq, Repr

namespace SegFile

def empty : SegFile := {}

/-- What a reader of the file sees. -/
def data (f : SegFile) : Bytes := f.durable ++ f.cached

def write (b : Bytes) (f : SegFile) : SegFile := { f with cached := f.cached ++ b }

/-- `sync_all` -/
def sync (f : SegFile) : SegFile := { durable := f.data, cached := [] }

/-- `set_len`, which pads with zeros when the file is shorter. -/
def setLen (n : Nat) (f : SegFile) : SegFile :=
  { durable := f.durable.take n
    cached := (f.cached ++ List.replicate (n - f.data.length) 0).take (n - f.durable.length) }

/-- What a crash can leave of a file: its durable bytes, and a prefix of the rest.
Some of that rest may have become durable by itself. -/
structure Survives (f g : SegFile) : Prop where
  durable : f.durable <+: g.durable
  data : g.data <+: f.data

end SegFile

/-! ## The directory -/

structure Dir where
  /-- The segments in file-name order, each under its first sequence number. -/
  segs : List (Nat × SegFile) := []
  /-- `staging.spill` -/
  staging : Option Bytes := none
  deriving DecidableEq, Repr

/-- `File::create` truncates a file that exists. -/
def createSeg (n : Nat) : List (Nat × SegFile) → List (Nat × SegFile)
  | [] => [(n, .empty)]
  | (m, f) :: rest =>
    if n < m then (n, .empty) :: (m, f) :: rest
    else if n = m then (n, .empty) :: rest
    else (m, f) :: createSeg n rest

namespace Dir

def create (n : Nat) (d : Dir) : Dir := { d with segs := createSeg n d.segs }

def update (n : Nat) (g : SegFile → SegFile) (d : Dir) : Dir :=
  { d with segs := d.segs.map fun s => if s.1 = n then (s.1, g s.2) else s }

def remove (n : Nat) (d : Dir) : Dir := { d with segs := d.segs.filter fun s => s.1 ≠ n }

/-- The bytes of all segments, in file-name order. -/
def bytes (d : Dir) : Bytes := d.segs.flatMap (·.2.data)

/-- The whole frames that are in the segments. -/
def frames [Crc32c] (d : Dir) : List Frame :=
  d.segs.flatMap fun s => (readFrames s.2.data).1.map Prod.fst

/-- A crash keeps every file that is in the directory, and leaves any staging file. -/
def CrashImage (d e : Dir) : Prop :=
  List.Forall₂ (fun s t => s.1 = t.1 ∧ s.2.Survives t.2) d.segs e.segs

end Dir

/-! ## Lemmas -/

@[simp] theorem SegFile.data_mk (a b : Bytes) : SegFile.data ⟨a, b⟩ = a ++ b := rfl

@[simp] theorem SegFile.data_empty : SegFile.empty.data = [] := rfl

@[simp] theorem SegFile.data_write (b : Bytes) (f : SegFile) :
    (f.write b).data = f.data ++ b := by
  simp [SegFile.data, SegFile.write]

@[simp] theorem SegFile.data_sync (f : SegFile) : f.sync.data = f.data := by
  simp [SegFile.data, SegFile.sync]

/-- Inside the file, `set_len` cuts it. -/
theorem SegFile.data_setLen {n : Nat} {f : SegFile} (h : n ≤ f.data.length) :
    (f.setLen n).data = f.data.take n := by
  have hz : n - f.data.length = 0 := by omega
  rw [SegFile.setLen, hz, List.replicate_zero, List.append_nil, SegFile.data_mk, SegFile.data,
    List.take_append]

theorem SegFile.Survives.refl (f : SegFile) : f.Survives f :=
  ⟨List.prefix_refl _, List.prefix_refl _⟩

theorem SegFile.Survives.trans {f g h : SegFile} (hfg : f.Survives g) (hgh : g.Survives h) :
    f.Survives h :=
  ⟨hfg.durable.trans hgh.durable, hgh.data.trans hfg.data⟩

/-- A crash leaves a file without unsynced bytes as it is. -/
theorem SegFile.Survives.eq_of_cached_nil {f g : SegFile} (h : f.Survives g)
    (hf : f.cached = []) : g = f := by
  obtain ⟨fd, fc⟩ := f
  obtain ⟨gd, gc⟩ := g
  subst hf
  obtain ⟨h1, h2⟩ := h
  simp only [SegFile.data_mk, List.append_nil] at h1 h2
  have hlen := h2.length_le
  have hlen' := h1.length_le
  rw [List.length_append] at hlen
  have hc : gc = [] := List.eq_nil_of_length_eq_zero (by omega)
  subst hc
  rw [List.append_nil] at h2
  rw [h1.eq_of_length (by simp at hlen; omega)]

/-- A stop without a loss is a crash image. -/
theorem Dir.CrashImage.refl (d : Dir) : d.CrashImage d :=
  List.forall₂_same.mpr fun s _ => ⟨rfl, .refl s.2⟩

@[simp] theorem Dir.segs_update (n : Nat) (g : SegFile → SegFile) (d : Dir) :
    (d.update n g).segs = d.segs.map fun s => if s.1 = n then (s.1, g s.2) else s := rfl

@[simp] theorem Dir.segs_create (n : Nat) (d : Dir) : (d.create n).segs = createSeg n d.segs := rfl

@[simp] theorem Dir.segs_remove (n : Nat) (d : Dir) :
    (d.remove n).segs = d.segs.filter fun s => s.1 ≠ n := rfl

/-- An update of one segment leaves the others alone. -/
theorem map_update {ss junk : List (Nat × SegFile)} {n : Nat} {f : SegFile}
    (g : SegFile → SegFile) (h : ∀ s ∈ ss, s.1 < n) (h' : ∀ s ∈ junk, n < s.1) :
    (ss ++ (n, f) :: junk).map (fun s => if s.1 = n then (s.1, g s.2) else s)
      = ss ++ (n, g f) :: junk := by
  have hsame : ∀ l : List (Nat × SegFile), (∀ s ∈ l, s.1 ≠ n) →
      l.map (fun s => if s.1 = n then (s.1, g s.2) else s) = l := by
    intro l hl
    refine (List.map_congr_left fun s hs => ?_).trans (List.map_id l)
    rw [if_neg (hl s hs), id]
  rw [List.map_append, List.map_cons, hsame ss fun s hs => Nat.ne_of_lt (h s hs),
    hsame junk fun s hs => Nat.ne_of_gt (h' s hs), if_pos rfl]

/-- A segment whose number is above all others goes to the end. -/
theorem createSeg_of_lt {ss : List (Nat × SegFile)} {n : Nat} (h : ∀ s ∈ ss, s.1 < n) :
    createSeg n ss = ss ++ [(n, .empty)] := by
  induction ss with
  | nil => rfl
  | cons s ss ih =>
    have hs : s.1 < n := h s (by simp)
    rw [createSeg, if_neg (by omega), if_neg (by omega),
      ih fun t ht => h t (List.mem_cons_of_mem s ht), List.cons_append]

/-- Creating the last segment again empties it. -/
theorem createSeg_last {ss : List (Nat × SegFile)} {n : Nat} {f : SegFile}
    (h : ∀ s ∈ ss, s.1 < n) : createSeg n (ss ++ [(n, f)]) = ss ++ [(n, .empty)] := by
  induction ss with
  | nil => simp [createSeg]
  | cons s ss ih =>
    have hs : s.1 < n := h s (by simp)
    rw [List.cons_append, createSeg, if_neg (by omega), if_neg (by omega),
      ih fun t ht => h t (List.mem_cons_of_mem s ht), List.cons_append]

end GrayDB.Log
