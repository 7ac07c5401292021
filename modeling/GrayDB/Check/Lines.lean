import GrayDB.Columnar.CopyWrite

/-!
# The readers of COPY text

Four pieces of code cut COPY text into lines: the loader of the column store, the snapshot
check, the backfill of the search index and the multiset of the source.  The first two walk
over the bytes with the start of the line in hand (`splitLoop`), the other two split at every
newline and pass over empty pieces.

* `splitLoop_eq`: the walk gives the lines of the text.
* `filledLines_eq`: the split gives those that are not empty.
* An empty line is a row: one empty string.  `copy_readers_agree_iff` says that the readers
  agree exactly if no row is of this kind.
-/

namespace GrayDB.Check

open Lib Log Columnar

/-- The loop over the bytes: `rest` is what is left of `data` from index `i` on, and the line
begins at `start`. -/
def splitLoop (data : Bytes) : Bytes → Nat → Nat → List Bytes → List Bytes
  | [], _, start, out => if start < data.length then out ++ [data.drop start] else out
  | b :: rest, i, start, out =>
    if b = 0x0A then splitLoop data rest (i + 1) (i + 1) (out ++ [(data.take i).drop start])
    else splitLoop data rest (i + 1) start out

/-- The snapshot check. -/
def splitCopyLines (data : Bytes) : List Bytes := splitLoop data data 0 0 []

/-- The loader of the column store, with the same loop. -/
def graydbCheckSplit (data : Bytes) : List Bytes := splitLoop data data 0 0 []

/-- `data.split(|&b| b == b'\n')`, and the pieces that are passed over. -/
def filledLines (data : Bytes) : List Bytes := (data.splitOn 0x0A).filter fun line => !line.isEmpty

/-- The backfill of the search index numbers the pieces before it passes over some. -/
def backfillLines (data : Bytes) : List (Nat × Bytes) :=
  ((data.splitOn 0x0A).zipIdx.map Prod.swap).filter fun line => !line.2.isEmpty

/-- The key of a row of the backfill: a table without a key has synthetic ones. -/
def backfillKey (file : String) (keyPos : List Nat) (lineNo : Nat) (vals : Row) : String :=
  if keyPos.isEmpty then s!"b:{file}:{lineNo}"
  else "\u001f".intercalate (keyPos.map fun i => (vals.getD i none).getD "")

/-- The columns at these positions. -/
def pick (positions : List Nat) (vals : Row) : Row := positions.map fun i => vals.getD i none

/-- What the index is given for a part: keys, and the values of the declared columns. -/
def backfillRows (file : String) (keyPos colPos : List Nat) (data : Bytes) : List (String × Row) :=
  (backfillLines data).map fun line =>
    let vals := parseCopyLine line.2
    (backfillKey file keyPos line.1 vals, pick colPos vals)

/-- The lines that the four readers see are the same. -/
def ReadersAgree (data : Bytes) : Prop :=
  graydbCheckSplit data = splitCopyLines data ∧
    (backfillLines data).map Prod.snd = splitCopyLines data ∧
    filledLines data = splitCopyLines data

/-! ## The walk over the bytes -/

/-- The walk has the lines in front of `start`, and no newline between `start` and `i`. -/
theorem splitLoop_eq {data rest : Bytes} {i start : Nat} (out : List Bytes)
    (hrest : data.drop i = rest) (hstart : start ≤ i) (hline : 0x0A ∉ (data.take i).drop start) :
    splitLoop data rest i start out = out ++ copyLines (data.drop start) := by
  induction rest generalizing i start out with
  | nil =>
    have hwhole : data.take i = data := List.take_of_length_le (List.drop_eq_nil_iff.mp hrest)
    rw [hwhole] at hline
    rw [splitLoop]
    split_ifs with hlt
    · have hne : data.drop start ≠ [] := fun hnil => by
        have hle := List.drop_eq_nil_iff.mp hnil
        omega
      rw [copyLines_of_notMem hline hne]
    · rw [List.drop_eq_nil_of_le (Nat.le_of_not_lt hlt), copyLines, List.append_nil]
  | cons b rest ih =>
    have hlt : i < data.length := by
      have hlen := congrArg List.length hrest
      rw [List.length_drop, List.length_cons] at hlen
      omega
    have hnext : data.drop (i + 1) = rest := by
      rw [← List.drop_drop, hrest]
      rfl
    have hdata : data = data.take i ++ b :: rest := by
      rw [← hrest, List.take_append_drop]
    have hget : data[i]? = some b := by
      rw [← Nat.add_zero i, ← List.getElem?_drop, hrest]
      rfl
    have htake : data.take (i + 1) = data.take i ++ [b] := by
      rw [List.take_add_one, hget]
      rfl
    have hsplit : data.drop start = (data.take i).drop start ++ b :: rest := by
      conv_lhs => rw [hdata]
      rw [List.drop_append_of_le_length (by simp; omega)]
    rw [splitLoop]
    split_ifs with hb
    · subst hb
      have hnone : 0x0A ∉ (data.take (i + 1)).drop (i + 1) := by simp
      rw [ih _ hnext (Nat.le_refl _) hnone, hsplit, copyLines_append_newline hline, hnext,
        List.append_assoc, List.singleton_append]
    · refine ih out hnext (Nat.le_succ_of_le hstart) ?_
      rw [htake, List.drop_append_of_le_length (by simp; omega)]
      simp only [List.mem_append, List.mem_singleton, not_or]
      exact ⟨hline, fun h => hb h.symm⟩

theorem splitCopyLines_eq (data : Bytes) : splitCopyLines data = copyLines data :=
  splitLoop_eq [] rfl (Nat.le_refl 0) (by simp)

theorem graydbCheckSplit_eq (data : Bytes) : graydbCheckSplit data = copyLines data :=
  splitCopyLines_eq data

/-! ## The split at newlines -/

/-- The piece after the last newline is empty. -/
theorem splitOn_of_lines {lines : List Bytes} (h : ∀ line ∈ lines, 0x0A ∉ line) :
    (lines.flatMap fun line => line ++ [0x0A]).splitOn 0x0A = lines ++ [[]] := by
  induction lines with
  | nil => exact List.splitOn_nil _
  | cons line lines ih =>
    rw [List.flatMap_cons, List.append_assoc, List.singleton_append,
      List.splitOn_append_cons_self_of_not_mem (h line List.mem_cons_self),
      ih fun l hl => h l (List.mem_cons_of_mem line hl), List.cons_append]

section CopyText

variable (rows : List Row)

private theorem splitOn_copyText :
    (CopyWriter.server.copyText rows).splitOn 0x0A = rows.map CopyWriter.server.line ++ [[]] := by
  rw [CopyWriter.copyText_eq_lines, splitOn_of_lines (CopyWriter.server.newline_notMem_lines rows)]

theorem filledLines_copyText :
    filledLines (CopyWriter.server.copyText rows)
      = (rows.map CopyWriter.server.line).filter fun line => !line.isEmpty := by
  rw [filledLines, splitOn_copyText, List.filter_append]
  exact List.append_nil _

theorem backfillLines_copyText :
    backfillLines (CopyWriter.server.copyText rows)
      = ((rows.map CopyWriter.server.line).zipIdx.map Prod.swap).filter
          fun line => !line.2.isEmpty := by
  rw [backfillLines, splitOn_copyText, List.zipIdx_append, List.map_append, List.filter_append]
  exact List.append_nil _

end CopyText

/-! ## Empty lines -/

/-- The numbers do not matter for which lines are passed over. -/
private theorem map_snd_filter_zipIdx (lines : List Bytes) (p : Bytes → Bool) :
    ((lines.zipIdx.map Prod.swap).filter fun line => p line.2).map Prod.snd = lines.filter p := by
  conv_rhs => rw [← List.zipIdx_map_fst 0 lines, List.filter_map]
  rw [List.filter_map, List.map_map]
  rfl

/-- A row has the empty line only if it is a single empty string. -/
theorem line_eq_nil_iff {row : Row} (hne : row ≠ []) :
    CopyWriter.server.line row = [] ↔ row = [some ""] := by
  constructor
  · intro h
    cases row with
    | nil => exact absurd rfl hne
    | cons v row =>
      cases row with
      | nil =>
        have hfield : CopyWriter.server.field v = [] := by
          rwa [CopyWriter.line, List.map_singleton, List.intercalate_singleton] at h
        have hback := CopyWriter.server.unescapeField_field v
        rw [hfield] at hback
        rw [← hback]
        rfl
      | cons v' row =>
        rw [CopyWriter.line, List.map_cons, List.map_cons, List.intercalate_cons_cons] at h
        have htab := (List.append_eq_nil_iff.mp (List.append_eq_nil_iff.mp h).1).2
        exact absurd htab (List.cons_ne_nil _ _)
  · rintro rfl
    decide +kernel

/-- **The readers of COPY text agree** exactly if no row of the table is a single empty
string. -/
theorem copy_readers_agree_iff {columns : Nat} (hcolumns : 1 ≤ columns) {rows : List Row}
    (hrows : ∀ row ∈ rows, row.length = columns) :
    ReadersAgree (CopyWriter.server.copyText rows) ↔ ∀ row ∈ rows, row ≠ [some ""] := by
  have hline : ∀ row ∈ rows, (CopyWriter.server.line row = [] ↔ row = [some ""]) := by
    intro row hrow
    refine line_eq_nil_iff fun hnil => ?_
    have hlen := hrows row hrow
    rw [hnil, List.length_nil] at hlen
    omega
  have hfilled : (rows.map CopyWriter.server.line).filter (fun line => !line.isEmpty)
      = rows.map CopyWriter.server.line ↔ ∀ row ∈ rows, row ≠ [some ""] := by
    rw [List.filter_eq_self]
    constructor
    · intro h row hrow heq
      have hempty := h _ (List.mem_map_of_mem hrow)
      rw [(hline row hrow).mpr heq] at hempty
      exact nomatch hempty
    · intro h line hmem
      obtain ⟨row, hrow, rfl⟩ := List.mem_map.mp hmem
      have hne := fun hnil => h row hrow ((hline row hrow).mp hnil)
      simpa using hne
  rw [ReadersAgree, graydbCheckSplit_eq, splitCopyLines_eq, CopyWriter.copyLines_copyText,
    backfillLines_copyText, map_snd_filter_zipIdx _ fun line => !line.isEmpty,
    filledLines_copyText, hfilled]
  exact ⟨fun h => h.2.2, fun h => ⟨rfl, h, h⟩⟩

/-- A table of one column with a value that is not empty. -/
theorem copy_readers_agree_iff_item : ReadersAgree (CopyWriter.server.copyText [[some "a"]]) :=
  (copy_readers_agree_iff (Nat.le_refl 1) (by decide)).mpr (by decide)

/-- The loader and the snapshot check see the row of an empty string, the index and the
multiset of the source do not. -/
theorem copy_readers_differ :
    ¬ ∀ rows : List Row, (∀ row ∈ rows, row.length = 1) →
      ReadersAgree (CopyWriter.server.copyText rows) := by
  intro h
  have hagree := h [[some ""]] (by decide)
  exact absurd hagree.2.2 (by decide +kernel)

/-- Where the readers agree, the index is given every row of the part, under the number that
it has in the part. -/
theorem backfillRows_copyText {columns : Nat} (hcolumns : 1 ≤ columns) {rows : List Row}
    (hrows : ∀ row ∈ rows, row.length = columns) (hfilled : ∀ row ∈ rows, row ≠ [some ""])
    (file : String) (keyPos colPos : List Nat) :
    backfillRows file keyPos colPos (CopyWriter.server.copyText rows)
      = rows.zipIdx.map fun r => (backfillKey file keyPos r.2 r.1, pick colPos r.1) := by
  have hagree := ((copy_readers_agree_iff hcolumns hrows).mpr hfilled).2.1
  rw [splitCopyLines_eq, CopyWriter.copyLines_copyText] at hagree
  have hlines : backfillLines (CopyWriter.server.copyText rows)
      = (rows.map CopyWriter.server.line).zipIdx.map Prod.swap := by
    have hlen := congrArg List.length hagree
    rw [backfillLines_copyText] at hlen ⊢
    refine List.filter_eq_self.mpr (List.length_filter_eq_length_iff.mp ?_)
    simpa using hlen
  rw [backfillRows, hlines, List.map_map, List.zipIdx_map, List.map_map]
  refine List.map_congr_left fun r hr => ?_
  have hne : r.1 ≠ [] := by
    intro hnil
    have hlen := hrows r.1 (List.fst_mem_of_mem_zipIdx hr)
    rw [hnil, List.length_nil] at hlen
    omega
  show (backfillKey file keyPos r.2 (parseCopyLine (CopyWriter.server.line r.1)),
    pick colPos (parseCopyLine (CopyWriter.server.line r.1))) = _
  rw [CopyWriter.server.parseCopyLine_line hne]

end GrayDB.Check
