import GrayDB.Columnar.Store
import Mathlib.Data.List.Forall2

/-!
# Rendered rows

The segment writer builds one array for each column.  `renderRow` is the same for one row,
and `renderRows_forall₂` says that the rows of a segment file are the open rows, each of
them rendered.  A row in the text that the source writes is read back as it is.
-/

namespace GrayDB.Columnar

open Lib

section MapM

variable {ε α β : Type} {f : α → Except ε β} {l : List α} {bs : List β}

theorem mapM_eq_ok_iff : l.mapM f = .ok bs ↔ List.Forall₂ (fun a b => f a = .ok b) l bs := by
  induction l generalizing bs with
  | nil =>
    rw [List.mapM_nil, List.forall₂_nil_left_iff]
    exact ⟨fun h => (Except.ok.inj h).symm, fun h => h ▸ rfl⟩
  | cons a l ih =>
    rw [List.mapM_cons, List.forall₂_cons_left_iff]
    constructor
    · intro h
      cases ha : f a with
      | error e =>
        rw [ha] at h
        exact nomatch h
      | ok b =>
        cases hl : l.mapM f with
        | error e =>
          rw [ha, hl] at h
          exact nomatch h
        | ok bs' =>
          rw [ha, hl] at h
          exact ⟨b, bs', rfl, ih.mp hl, (Except.ok.inj h).symm⟩
    · rintro ⟨b, bs', ha, hl, rfl⟩
      rw [ha, ih.mpr hl]
      rfl

theorem exists_of_mapM_eq_ok (h : l.mapM f = .ok bs) {b : β} (hb : b ∈ bs) :
    ∃ a ∈ l, f a = .ok b := by
  have hall := mapM_eq_ok_iff.mp h
  clear h
  induction hall with
  | nil => exact nomatch hb
  | cons hfirst _ ih =>
    rcases List.mem_cons.mp hb with rfl | hb
    · exact ⟨_, List.mem_cons_self, hfirst⟩
    · obtain ⟨a, ha, hrest⟩ := ih hb
      exact ⟨a, List.mem_cons_of_mem _ ha, hrest⟩

theorem exists_mapM_eq_ok (h : ∀ a ∈ l, ∃ b, f a = .ok b) : ∃ bs, l.mapM f = .ok bs := by
  induction l with
  | nil => exact ⟨[], rfl⟩
  | cons a l ih =>
    obtain ⟨b, hb⟩ := h a List.mem_cons_self
    obtain ⟨bs, hbs⟩ := ih fun x hx => h x (List.mem_cons_of_mem a hx)
    refine ⟨b :: bs, ?_⟩
    rw [List.mapM_cons, hb, hbs]
    rfl

end MapM

section Render

variable [FloatText] {columns : List ColumnSpec} {rows : List OpenRow} {rendered : List Row}

/-- A row as the segment file gives it back. -/
def renderRow (columns : List ColumnSpec) (row : OpenRow) : Except StoreError Row :=
  columns.zipIdx.mapM fun c => renderCell c.1 c.2 row

theorem renderRows_forall₂ (h : renderRows columns rows = .ok rendered) :
    List.Forall₂ (fun row r => renderRow columns row = .ok r) rows rendered := by
  unfold renderRows at h
  cases harrays : columns.zipIdx.mapM (buildArray rows) with
  | error e =>
    rw [harrays] at h
    exact nomatch h
  | ok arrays =>
    rw [harrays] at h
    obtain rfl := Except.ok.inj h
    rw [List.forall₂_iff_get]
    refine ⟨by simp, ?_⟩
    intro j hj hj'
    unfold renderRow
    rw [mapM_eq_ok_iff, List.get_eq_getElem, List.get_eq_getElem, List.getElem_map,
      List.getElem_range, List.forall₂_map_right_iff]
    refine (mapM_eq_ok_iff.mp harrays).imp ?_
    intro c array harray
    have hcells := List.forall₂_iff_get.mp (mapM_eq_ok_iff.mp harray)
    have hcell := hcells.2 j hj (hcells.1 ▸ hj)
    rw [List.getD_eq_getElem?_getD, List.getElem?_eq_getElem (hcells.1 ▸ hj)]
    exact hcell

/-- The row that `renderRow` gives. -/
def rendering (columns : List ColumnSpec) (row : OpenRow) : Row :=
  (renderRow columns row).toOption.getD []

theorem renderRows_eq_map (h : renderRows columns rows = .ok rendered) :
    (∀ r ∈ rows, renderRow columns r = .ok (rendering columns r)) ∧
      rendered = rows.map (rendering columns) := by
  have hrows := renderRows_forall₂ h
  clear h
  induction hrows with
  | nil => exact ⟨by simp, rfl⟩
  | @cons r row rows rendered hr _ ih =>
    have hrow : rendering columns r = row := by
      rw [rendering, hr]
      rfl
    refine ⟨?_, ?_⟩
    · intro r' hr'
      rcases List.mem_cons.mp hr' with rfl | hr'
      · rw [hrow, hr]
      · exact ih.1 r' hr'
    · rw [List.map_cons, hrow, ← ih.2]

theorem exists_renderRows (h : ∀ r ∈ rows, ∃ row, renderRow columns r = .ok row) :
    ∃ rendered, renderRows columns rows = .ok rendered := by
  have harrays : ∃ arrays, columns.zipIdx.mapM (buildArray rows) = .ok arrays := by
    apply exists_mapM_eq_ok
    intro c hc
    apply exists_mapM_eq_ok
    intro r hr
    obtain ⟨row, hrow⟩ := h r hr
    obtain ⟨i, hi, hget⟩ := List.mem_iff_getElem.mp hc
    have hcells := List.forall₂_iff_get.mp (mapM_eq_ok_iff.mp hrow)
    subst hget
    exact ⟨_, hcells.2 i hi (hcells.1 ▸ hi)⟩
  obtain ⟨arrays, harrays⟩ := harrays
  exact ⟨_, by rw [renderRows, harrays]; rfl⟩

/-- The stamps of the rows do not matter. -/
theorem renderRows_congr {rows' : List OpenRow}
    (h : rows'.map OpenRow.values = rows.map OpenRow.values) :
    renderRows columns rows' = renderRows columns rows := by
  have hcell : ∀ c : ColumnSpec × Nat, buildArray rows' c = buildArray rows c := by
    intro c
    have hvalues : ∀ rows : List OpenRow, buildArray rows c
        = (rows.map OpenRow.values).mapM fun values =>
          renderCell c.1 c.2 { values, insertLsn := 0 } := by
      intro rows
      rw [List.mapM_map]
      rfl
    rw [hvalues, hvalues, h]
  have hlen := congrArg List.length h
  rw [List.length_map, List.length_map] at hlen
  unfold renderRows
  rw [funext hcell, hlen]

end Render

/-! ## Canonical text -/

private theorem parseI64_digits (sign : Int) (m : Nat) (hrange : -2 ^ 63 ≤ sign * m ∧ sign * m < 2 ^ 63) :
    (if Nat.toDigits 10 m ≠ [] ∧ (Nat.toDigits 10 m).all Char.isDigit then
      let n := sign * ((Nat.toDigits 10 m).foldl (fun n c => n * 10 + (c.toNat - '0'.toNat)) 0 : Nat)
      if -2 ^ 63 ≤ n ∧ n < 2 ^ 63 then some n else none
    else none) = some (sign * m) := by
  have hdigits : (Nat.toDigits 10 m).all Char.isDigit = true := by
    rw [List.all_eq_true]
    intro c hc
    exact Nat.isDigit_of_mem_toDigits (by omega) (by omega) hc
  have hvalue : (Nat.toDigits 10 m).foldl (fun n c => n * 10 + (c.toNat - '0'.toNat)) 0 = m := by
    calc _ = Nat.ofDigitChars 10 (Nat.toDigits 10 m) 0 := by
          rw [Nat.ofDigitChars_eq_foldl]
          congr 1
          funext n c
          rw [Nat.mul_comm]
      _ = m := Nat.ofDigitChars_ten_toDigits
  rw [if_pos ⟨Nat.toDigits_ne_nil, hdigits⟩]
  simp only [hvalue]
  exact if_pos hrange

/-- The text of an integer is read as the integer. -/
theorem parseI64_toString {n : Int} (h : -2 ^ 63 ≤ n ∧ n < 2 ^ 63) :
    parseI64 (toString n) = some n := by
  rw [Int.toString_eq_repr, Int.repr_eq_if]
  by_cases hn : 0 ≤ n
  · have hcast : (1 : Int) * (n.toNat : Int) = n := by omega
    have hparse := parseI64_digits 1 n.toNat (by omega)
    rw [hcast] at hparse
    rw [if_pos hn, parseI64, Nat.toList_repr]
    have hdigit : ∀ c ∈ Nat.toDigits 10 n.toNat, c.isDigit := fun c hc =>
      Nat.isDigit_of_mem_toDigits (by omega) (by omega) hc
    generalize Nat.toDigits 10 n.toNat = digits at hparse hdigit ⊢
    split
    · rename_i hsign
      split at hsign
      · exact absurd (hdigit '-' List.mem_cons_self) (by decide)
      · exact absurd (hdigit '+' List.mem_cons_self) (by decide)
      · obtain ⟨rfl, rfl⟩ := Prod.mk.inj hsign
        exact hparse
  · have hcast : (-1 : Int) * ((-n).toNat : Int) = n := by omega
    have hparse := parseI64_digits (-1) (-n).toNat (by omega)
    rw [hcast] at hparse
    have hchars : ("-" ++ (-n).toNat.repr).toList = '-' :: Nat.toDigits 10 (-n).toNat := by
      rw [String.toList_append, Nat.toList_repr]
      rfl
    rw [if_neg hn, parseI64, hchars]
    exact hparse

/-- The text in which the source writes a value of this type. -/
def Canonical (dt : DataType) (v : String) : Prop :=
  match dt with
  | .int64 => ∃ n : Int, (-2 ^ 63 ≤ n ∧ n < 2 ^ 63) ∧ v = toString n
  | .boolean => v = "t" ∨ v = "f"
  | .float64 => False
  | .utf8 => True

/-- A row of the source table, without floats. -/
def TableRow (columns : List ColumnSpec) (row : Row) : Prop :=
  row.length = columns.length ∧
    ∀ c ∈ columns.zip row, ∀ v ∈ c.2, Canonical (arrowType c.1.typeOid) v

private theorem range_of_parseI64 {v : String} {n : Int} (h : parseI64 v = some n) :
    -2 ^ 63 ≤ n ∧ n < 2 ^ 63 := by
  unfold parseI64 at h
  split at h
  dsimp only at h
  split at h
  · split at h
    · rename_i hrange
      exact Option.some.inj h ▸ hrange
    · exact nomatch h
  · exact nomatch h

instance (dt : DataType) (v : String) : Decidable (Canonical dt v) :=
  match dt with
  | .int64 => decidable_of_iff (∃ n ∈ parseI64 v, v = toString n)
      ⟨fun ⟨n, hn, hv⟩ => ⟨n, range_of_parseI64 hn, hv⟩,
        fun ⟨n, hrange, hv⟩ => ⟨n, hv ▸ parseI64_toString hrange, hv⟩⟩
  | .boolean => inferInstanceAs (Decidable (v = "t" ∨ v = "f"))
  | .float64 => inferInstanceAs (Decidable False)
  | .utf8 => inferInstanceAs (Decidable True)

instance (columns : List ColumnSpec) (row : Row) : Decidable (TableRow columns row) :=
  inferInstanceAs (Decidable (_ ∧ _))

section Canonical

variable [FloatText] {columns : List ColumnSpec}

theorem renderValue_canonical {column v : String} {dt : DataType} (h : Canonical dt v) :
    renderValue column dt v = .ok v := by
  cases dt with
  | int64 =>
    obtain ⟨n, hrange, rfl⟩ := h
    simp only [renderValue, parseI64_toString hrange]
  | boolean =>
    rcases h with rfl | rfl
    · rfl
    · rfl
  | float64 => exact absurd h id
  | utf8 => rfl

/-- A row of the source table is read back as it is. -/
theorem renderRow_canonical {r : OpenRow} (h : TableRow columns r.values) :
    renderRow columns r = .ok r.values := by
  obtain ⟨hlen, hcells⟩ := h
  rw [renderRow, mapM_eq_ok_iff, List.forall₂_iff_get]
  refine ⟨by simp [hlen], ?_⟩
  intro i hi hi'
  rw [List.length_zipIdx] at hi
  simp only [List.get_eq_getElem, List.getElem_zipIdx, Nat.zero_add]
  unfold renderCell
  rw [List.getElem?_eq_getElem hi']
  have hmem : (columns[i], r.values[i]) ∈ columns.zip r.values := by
    rw [← List.getElem_zip (h := by rw [List.length_zip]; omega)]
    exact List.getElem_mem _
  have hcell := hcells _ hmem
  cases hv : r.values[i] with
  | none => rfl
  | some v =>
    simp only [hv] at hcell
    dsimp only
    rw [renderValue_canonical (hcell v rfl)]
    rfl

theorem rendering_canonical {r : OpenRow} (h : TableRow columns r.values) :
    rendering columns r = r.values := by
  rw [rendering, renderRow_canonical h]
  rfl

end Canonical

end GrayDB.Columnar
