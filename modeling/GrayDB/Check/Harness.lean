import GrayDB.Check.Lines
import GrayDB.Lib.Codes
import GrayDB.Lib.Joined
import GrayDB.Lib.Sorting

/-!
# The store against the source

The end-to-end check compares the rows of a store with those of the source: each row is
joined with tabs, NULL is written with a NUL in front, and the joined rows are sorted.  The
values have been un-escaped before, so a tab of a value looks like one between values.

* `joinVals_eq_iff`: rows of one width have one joined text exactly if they have one text
  in the sense of `Lib.Joined`.
* `no_false_pass_iff`: equal multisets mean equal rows exactly for the sources whose rows
  are unambiguous, and are not passed over as empty lines.
-/

namespace GrayDB.Check

open Lib Log Columnar

/-- NULL is written `\0NULL`. -/
def nullMark : String := "\x00NULL"

def joinVals (vals : Row) : String := "\t".intercalate (vals.map fun v => v.getD nullMark)

/-- The rows of a COPY of the source. -/
def sourceMultiset (data : Bytes) : List String :=
  sorted ((filledLines data).map fun line => joinVals (parseCopyLine line))

/-- The rows of a scan of the store, in the columns that are compared. -/
def projectMultiset (rows : List Row) (cols : List Nat) : List String :=
  sorted (rows.map fun row => joinVals (pick cols row))

/-- No value holds a NUL, which text of the server never does. -/
def NulFree (row : Row) : Prop := ∀ v, some v ∈ row → '\x00' ∉ v.toList

/-- No value holds a tab, or of two neighbours one is NULL. -/
def Unambiguous (row : Row) : Prop :=
  (∀ v, some v ∈ row → '\t' ∉ v.toList) ∨ row.IsChain fun u v => u = none ∨ v = none

/-- The characters of the values. -/
def fields (row : Row) : List (Option (List Char)) := row.map (Option.map String.toList)

theorem fields_injective : Function.Injective fields :=
  List.map_injective_iff.mpr (Option.map_injective fun _ _ => String.toList_inj.mp)

@[simp] theorem length_fields (row : Row) : (fields row).length = row.length := List.length_map _

theorem free_fields {x : Char} {row : Row} :
    Joined.Free x (fields row) ↔ ∀ v, some v ∈ row → x ∉ v.toList := by
  constructor
  · intro h v hv
    exact h v.toList (List.mem_map_of_mem hv)
  · intro h v hv
    obtain ⟨u, hu, heq⟩ := List.mem_map.mp hv
    obtain ⟨w, rfl, rfl⟩ := Option.map_eq_some_iff.mp heq
    exact h w hu

theorem unambiguous_fields {row : Row} : Joined.Unambiguous '\t' (fields row) ↔ Unambiguous row := by
  rw [Joined.Unambiguous, free_fields, Joined.Spread, fields, List.isChain_map, Unambiguous]
  simp only [Option.map_eq_none_iff]

theorem toList_joinVals {row : Row} (hne : row ≠ []) :
    (joinVals row).toList ++ ['\t'] = Joined.text '\t' nullMark.toList (fields row) := by
  have hcells : (row.map fun v => v.getD nullMark).map String.toList
      = (fields row).map (Joined.cell nullMark.toList) := by
    rw [fields, List.map_map, List.map_map]
    refine List.map_congr_left fun v _ => ?_
    cases v with
    | none => rfl
    | some v => rfl
  have hcells_ne : (fields row).map (Joined.cell nullMark.toList) ≠ [] := by
    simpa [fields] using hne
  rw [joinVals, String.toList_intercalate, hcells, Joined.text]
  show ['\t'].intercalate _ ++ ['\t'] = _
  rw [Joined.intercalate_append_singleton hcells_ne, List.flatMap_map]

/-- Rows of one width have one joined text exactly if they are one text. -/
theorem joinVals_eq_iff {row row' : Row} (hlen : row.length = row'.length) :
    joinVals row = joinVals row' ↔ Joined.text '\t' nullMark.toList (fields row)
      = Joined.text '\t' nullMark.toList (fields row') := by
  cases row with
  | nil =>
    obtain rfl := List.eq_nil_of_length_eq_zero hlen.symm
    simp
  | cons v row =>
    have hne' : row' ≠ [] := by
      rintro rfl
      exact nomatch hlen
    rw [← toList_joinVals (List.cons_ne_nil v row), ← toList_joinVals hne',
      List.append_left_inj, String.toList_inj]

/-- What `Unambiguous` says about the comparison. -/
theorem unambiguous_iff {row : Row} (hnul : NulFree row) :
    Unambiguous row ↔ ∀ other : Row, NulFree other → other.length = row.length →
      joinVals other = joinVals row → other = row := by
  have hmark : nullMark.toList = '\x00' :: "NULL".toList := by decide +kernel
  rw [← unambiguous_fields,
    Joined.unambiguous_iff (by decide) "NULL".toList (free_fields.mpr hnul)]
  constructor
  · intro h other hother hlen hjoin
    rw [joinVals_eq_iff hlen, hmark] at hjoin
    exact fields_injective (h _ (free_fields.mpr hother) (by simpa using hlen) hjoin)
  · intro h other hother hlen htext
    -- a row of character lists is a row of strings
    obtain ⟨other, rfl⟩ : ∃ other' : Row, fields other' = other := by
      refine ⟨other.map (Option.map String.ofList), ?_⟩
      rw [fields, List.map_map, Option.map_comp_map]
      simp [Function.comp_def]
    have hlen' : other.length = row.length := by simpa using hlen
    rw [h other (free_fields.mp hother) hlen' ((joinVals_eq_iff hlen').mpr (by rw [hmark]; exact htext))]

/-! ## The comparison -/

/-- A row that the source is seen with. -/
def filled (row : Row) : Bool := !(CopyWriter.server.line row).isEmpty

theorem filled_iff {row : Row} : filled row = true ↔ row ≠ [] ∧ row ≠ [some ""] := by
  by_cases hne : row = []
  · subst hne
    exact ⟨nofun, fun h => absurd rfl h.1⟩
  · simp [filled, hne, line_eq_nil_iff hne]

theorem sourceMultiset_copyText (source : List Row) :
    sourceMultiset (CopyWriter.server.copyText source)
      = sorted ((source.filter filled).map joinVals) := by
  rw [sourceMultiset, filledLines_copyText, List.filter_map, List.map_map]
  congr 1
  refine List.map_congr_left fun row hrow => ?_
  have hne := (filled_iff.mp (List.mem_filter.mp hrow).2).1
  exact congrArg joinVals (CopyWriter.server.parseCopyLine_line hne)

theorem pick_range {row : Row} {n : Nat} (h : row.length = n) : pick (List.range n) row = row := by
  subst h
  apply List.ext_getElem
  · simp [pick]
  · intro i hi hi'
    simp [pick, hi']

/-- The comparison has no false pass against this source: whatever rows of the width a store
has, if the multisets are equal the rows are. -/
def NoFalsePass (n : Nat) (source : List Row) : Prop :=
  ∀ (rows : List Row) (cols : List Nat),
    (∀ row ∈ rows.map (pick cols), row.length = n ∧ NulFree row) →
      projectMultiset rows cols = sourceMultiset (CopyWriter.server.copyText source) →
        (rows.map (pick cols)).Perm source

/-- Rows of the width, as they are. -/
theorem NoFalsePass.rows {n : Nat} {source : List Row} (h : NoFalsePass n source)
    (rows : List Row) (hrows : ∀ row ∈ rows, row.length = n ∧ NulFree row)
    (heq : sorted (rows.map joinVals) = sorted ((source.filter filled).map joinVals)) :
    rows.Perm source := by
  have hpick : rows.map (pick (List.range n)) = rows := by
    conv_rhs => rw [← List.map_id rows]
    exact List.map_congr_left fun row hrow => pick_range (hrows row hrow).1
  have hproject : projectMultiset rows (List.range n) = sorted (rows.map joinVals) := by
    conv_rhs => rw [← hpick, List.map_map]
    rfl
  have hperm := h rows (List.range n) (by rwa [hpick])
  rw [hpick, hproject, sourceMultiset_copyText] at hperm
  exact hperm heq

/-- **The comparison of the store with the source** has no false pass exactly against the
sources whose rows are unambiguous and are not empty lines. -/
theorem no_false_pass_iff {n : Nat} {source : List Row}
    (hsource : ∀ row ∈ source, row.length = n ∧ NulFree row) :
    NoFalsePass n source ↔ ∀ row ∈ source, (row ≠ [] ∧ row ≠ [some ""]) ∧ Unambiguous row := by
  constructor
  · intro h
    have hfilled : ∀ row ∈ source, row ≠ [] ∧ row ≠ [some ""] := by
      -- the rows that are seen, alone, pass for all of them
      have hperm := h.rows (source.filter filled)
        (fun row hrow => hsource row (List.mem_of_mem_filter hrow)) rfl
      intro row hrow
      have hall := List.length_filter_eq_length_iff.mp hperm.length_eq
      exact filled_iff.mp (hall row hrow)
    have hseen : source.filter filled = source :=
      List.filter_eq_self.mpr fun row hrow => filled_iff.mpr (hfilled row hrow)
    refine fun row hrow => ⟨hfilled row hrow, ?_⟩
    obtain ⟨hwidth, hnul⟩ := hsource row hrow
    rw [unambiguous_iff hnul]
    intro other hother hlen hjoin
    -- another row in the place of this one is not noticed
    obtain ⟨front, back, rfl⟩ := List.append_of_mem hrow
    have hperm := h.rows (front ++ other :: back) ?_ ?_
    · by_contra hne
      have hcount := hperm.count_eq row
      simp [List.count_append, hne] at hcount
    · intro r hr
      rcases List.mem_append.mp hr with hfront | hback
      · exact hsource r (List.mem_append_left _ hfront)
      · rcases List.mem_cons.mp hback with rfl | hmem
        · exact ⟨hlen.trans hwidth, hother⟩
        · exact hsource r (List.mem_append_right _ (List.mem_cons_of_mem _ hmem))
    · rw [hseen, List.map_append, List.map_append, List.map_cons, List.map_cons, hjoin]
  · intro h rows cols hrows heq
    have hseen : source.filter filled = source :=
      List.filter_eq_self.mpr fun row hrow => filled_iff.mpr (h row hrow).1
    have hproject : projectMultiset rows cols = sorted ((rows.map (pick cols)).map joinVals) := by
      rw [List.map_map]
      rfl
    rw [hproject, sourceMultiset_copyText, hseen] at heq
    have hperm := sorted_eq_iff.mp heq
    -- a row of the source is the only one with its text
    have hone : ∀ row ∈ source, ∀ other : Row, NulFree other → other.length = n →
        joinVals other = joinVals row → other = row := by
      intro row hrow other hother hlen hjoin
      obtain ⟨hwidth, hnul⟩ := hsource row hrow
      exact (unambiguous_iff hnul).mp (h row hrow).2 other hother (hlen.trans hwidth.symm) hjoin
    have hmem : ∀ other ∈ rows.map (pick cols), other ∈ source := by
      intro other hother
      obtain ⟨row, hrow, hjoin⟩ := List.mem_map.mp (hperm.mem_iff.mp (List.mem_map_of_mem hother))
      obtain ⟨hlen, hnul⟩ := hrows other hother
      rw [hone row hrow other hnul hlen hjoin.symm]
      exact hrow
    refine perm_of_map_perm (S := {row | row ∈ source}) ?_ hmem (fun _ hrow => hrow) hperm
    intro row hrow row' hrow' hjoin
    obtain ⟨hlen, hnul⟩ := hsource row hrow
    exact hone row' hrow' row hnul hlen hjoin

/-- A tab in a row with a NULL between its values: the text has one reading. -/
theorem no_false_pass_spread : NoFalsePass 3 [[some "a\tb", none, some "c"]] := by
  refine (no_false_pass_iff fun row hrow => ?_).mpr fun row hrow => ?_
  · rw [List.mem_singleton.mp hrow]
    refine ⟨rfl, fun v hv => ?_⟩
    simp only [List.mem_cons, Option.some.injEq, reduceCtorEq, List.not_mem_nil, or_false,
      false_or] at hv
    obtain rfl | rfl := hv <;> decide +kernel
  · rw [List.mem_singleton.mp hrow]
    exact ⟨by decide +kernel, Or.inr (by decide +kernel)⟩

/-- The tab of a value and the tab between values change places. -/
theorem false_pass_tabs : ¬ ∀ (n : Nat) (rows source : List Row),
    (∀ row ∈ rows ++ source, row.length = n ∧ NulFree row) →
      projectMultiset rows (List.range n) = sourceMultiset (CopyWriter.server.copyText source) →
        rows.Perm source := by
  intro h
  have hperm := h 2 [[some "a\tb", some "c"]] [[some "a", some "b\tc"]] (fun row hrow => ?_) ?_
  · exact absurd (List.perm_singleton.mp hperm) (by decide +kernel)
  · simp only [List.singleton_append, List.mem_cons, List.not_mem_nil, or_false] at hrow
    obtain rfl | rfl := hrow
    · refine ⟨rfl, fun v hv => ?_⟩
      simp only [List.mem_cons, Option.some.injEq, List.not_mem_nil, or_false] at hv
      obtain rfl | rfl := hv <;> decide +kernel
    · refine ⟨rfl, fun v hv => ?_⟩
      simp only [List.mem_cons, Option.some.injEq, List.not_mem_nil, or_false] at hv
      obtain rfl | rfl := hv <;> decide +kernel
  · rw [sourceMultiset_copyText, projectMultiset]
    congr 1
    decide +kernel

end GrayDB.Check
