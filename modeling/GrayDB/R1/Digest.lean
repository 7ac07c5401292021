import GrayDB.Lib.Codes
import GrayDB.Lib.Sorting
import GrayDB.Lib.Utf8
import GrayDB.Log.Frame
import Mathlib.Data.List.Sort

/-!
# The digest of a query result

`canonicalDigest` hashes the rows of a result.  A cell is written with its length in
front, the cells of a row one after the other, and the rows in byte order with nothing
between them.  `digestInput` is the byte string that is hashed.

* A cell ends itself (`selfDelimiting_cell`), so a row of `n` cells does.
* Results of one width have one digest input exactly when they have the same rows, in
  any order (`digestInput_eq_iff`).
-/

namespace GrayDB.R1

open Lib Log

/-- SHA-256. -/
class Sha256 where
  finalize : Bytes → Bytes

structure QueryResult where
  columns : List String
  rows : List (List (Option String))
  deriving DecidableEq, Repr

/-- The declared order is the canonical order. -/
def canonicalColumnOrder (columns : List String) : List Nat := List.range columns.length

/-- The bytes of `n.to_string()`. -/
def decimal (n : Nat) : Bytes := (toString n).toUTF8.toList

/-- `N;` for a null, and `len:text;`. -/
def cellBytes : Option String → Bytes
  | none => [0x4E, 0x3B]
  | some s => decimal s.toUTF8.toList.length ++ [0x3A] ++ s.toUTF8.toList ++ [0x3B]

/-- The cells in column order.  `M;` stands for a cell that the row does not have. -/
def rowBytes (order : List Nat) (row : List (Option String)) : Bytes :=
  order.flatMap fun index =>
    match row[index]? with
    | none => [0x4D, 0x3B]
    | some v => cellBytes v

/-- `Vec::sort` of byte strings. -/
def sortRows (rows : List Bytes) : List Bytes := rows.mergeSort fun a b => decide (a ≤ b)

/-- What is hashed. -/
def digestInput (result : QueryResult) : Bytes :=
  (sortRows (result.rows.map (rowBytes (canonicalColumnOrder result.columns)))).flatten

/-- `{b:02x}` of each byte. -/
def encodeHex (bytes : Bytes) : String :=
  String.ofList (bytes.flatMap fun b =>
    [Nat.digitChar (b.toNat / 16), Nat.digitChar (b.toNat % 16)])

def canonicalDigest [Sha256] (result : QueryResult) : String :=
  encodeHex (Sha256.finalize (digestInput result))

/-! ## Cells -/

/-- A number is written in digits. -/
theorem notMem_decimal {b : UInt8} (hb : b < 0x80) (hdigit : (Char.ofNat b.toNat).isDigit = false)
    (n : Nat) : b ∉ decimal n := by
  intro hmem
  rw [decimal, toUTF8_toList, List.mem_flatMap] at hmem
  obtain ⟨c, hc, hbc⟩ := hmem
  have hlist : (toString n).toList = Nat.toDigits 10 n := Nat.toList_repr
  rw [hlist] at hc
  have hcdigit : c.isDigit = true := Nat.isDigit_of_mem_toDigits (by omega) (by omega) hc
  rw [(utf8EncodeChar_of_ascii hbc hb).1, hdigit] at hcdigit
  exact absurd hcdigit (by decide)

theorem decimal_injective : Function.Injective decimal := by
  intro m n h
  have hstr : toString m = toString n := toUTF8_toList_injective h
  exact toString_nat_injective hstr

theorem selfDelimiting_length : SelfDelimiting (fun n => decimal n ++ [0x3A]) Set.univ :=
  .terminated decimal_injective.injOn fun n _ => notMem_decimal (by decide) (by decide) n

/-- A text does not begin as a null does. -/
theorem none_append_ne (s : String) (t u : Bytes) :
    cellBytes none ++ t ≠ cellBytes (some s) ++ u := by
  intro h
  have hmem : (0x4E : UInt8) ∉ decimal s.toUTF8.toList.length :=
    notMem_decimal (by decide) (by decide) _
  rw [cellBytes, cellBytes] at h
  cases hdec : decimal s.toUTF8.toList.length with
  | nil =>
    rw [hdec] at h
    exact absurd (List.cons.inj h).1 (by decide)
  | cons x xs =>
    rw [hdec] at h hmem
    obtain ⟨rfl, _⟩ := List.cons.inj h
    exact hmem List.mem_cons_self

theorem some_append_inj {s s' : String} {t t' : Bytes}
    (h : cellBytes (some s) ++ t = cellBytes (some s') ++ t') : s = s' ∧ t = t' := by
  simp only [cellBytes, List.append_assoc] at h
  rw [← List.append_assoc, ← List.append_assoc (decimal s'.toUTF8.toList.length)] at h
  obtain ⟨hlen, hrest⟩ := selfDelimiting_length _ trivial _ trivial _ _ h
  obtain ⟨htext, htail⟩ := List.append_inj hrest hlen
  exact ⟨toUTF8_toList_injective htext, List.append_cancel_left htail⟩

theorem selfDelimiting_cell : SelfDelimiting cellBytes Set.univ := by
  intro a _ b _ t u h
  cases a with
  | none =>
    cases b with
    | none => exact ⟨rfl, List.append_cancel_left h⟩
    | some s => exact absurd h (none_append_ne s t u)
  | some s =>
    cases b with
    | none => exact absurd h.symm (none_append_ne s u t)
    | some s' =>
      obtain ⟨rfl, htail⟩ := some_append_inj h
      exact ⟨rfl, htail⟩

theorem cellBytes_ne_nil (v : Option String) : cellBytes v ≠ [] := by
  cases v <;> simp [cellBytes]

/-! ## Rows -/

/-- The rows of `n` cells. -/
def RowsOf (n : Nat) : Set (List (Option String)) := {row | row.length = n}

/-- In the declared order a whole row is its cells. -/
theorem rowBytes_eq {columns : List String} {row : List (Option String)}
    (h : row.length = columns.length) :
    rowBytes (canonicalColumnOrder columns) row = row.flatMap cellBytes := by
  have hcells : (List.range row.length).map (fun i => row[i]?) = row.map some := by
    apply List.ext_getElem
    · simp
    · intro i hi hi'
      simp
  have hmap : rowBytes (canonicalColumnOrder columns) row
      = ((List.range row.length).map fun i => row[i]?).flatMap fun v =>
          match v with
          | none => [0x4D, 0x3B]
          | some v => cellBytes v := by
    rw [rowBytes, canonicalColumnOrder, ← h, List.flatMap_map]
  rw [hmap, hcells, List.flatMap_map]

theorem selfDelimiting_row (n : Nat) :
    SelfDelimiting (fun row : List (Option String) => row.flatMap cellBytes) (RowsOf n) := by
  have h := selfDelimiting_cell.flatMap n
  intro a ha b hb
  exact h a ⟨ha, fun _ _ => trivial⟩ b ⟨hb, fun _ _ => trivial⟩

theorem row_ne_nil {n : Nat} (hn : 1 ≤ n) {row : List (Option String)} (h : row ∈ RowsOf n) :
    row.flatMap cellBytes ≠ [] := by
  cases row with
  | nil =>
    have hzero : 0 = n := h
    omega
  | cons v row =>
    rw [List.flatMap_cons]
    exact fun hnil => cellBytes_ne_nil v (List.append_eq_nil_iff.mp hnil).1

/-! ## Results -/

theorem sortRows_perm (rows : List Bytes) : (sortRows rows).Perm rows := sorted_perm rows

/-- Sorting forgets the order of the rows and nothing else. -/
theorem sortRows_eq_iff {rows rows' : List Bytes} :
    sortRows rows = sortRows rows' ↔ rows.Perm rows' := sorted_eq_iff

theorem digestInput_eq {result : QueryResult} {n : Nat} (hcolumns : result.columns.length = n)
    (hrows : ∀ row ∈ result.rows, row.length = n) :
    digestInput result = (sortRows (result.rows.map fun row => row.flatMap cellBytes)).flatMap id := by
  rw [digestInput, List.flatMap_id]
  congr 2
  exact List.map_congr_left fun row hrow => rowBytes_eq (by rw [hrows row hrow, hcolumns])

/-- **The digest tells results apart.**  Two results of `n` columns have the same bytes
hashed exactly when they have the same rows, each as often, in any order. -/
theorem digestInput_eq_iff {n : Nat} (hn : 1 ≤ n) {r r' : QueryResult}
    (hcolumns : r.columns.length = n) (hcolumns' : r'.columns.length = n)
    (hrows : ∀ row ∈ r.rows, row.length = n) (hrows' : ∀ row ∈ r'.rows, row.length = n) :
    digestInput r = digestInput r' ↔ r.rows.Perm r'.rows := by
  have hwords : ∀ {result : QueryResult}, (∀ row ∈ result.rows, row.length = n) →
      ∀ w ∈ sortRows (result.rows.map fun row => row.flatMap cellBytes),
        w ∈ Set.image (fun row => row.flatMap cellBytes) (RowsOf n) := by
    intro result hresult w hw
    obtain ⟨row, hrow, rfl⟩ := List.mem_map.mp ((sortRows_perm _).mem_iff.mp hw)
    exact ⟨row, hresult row hrow, rfl⟩
  have hne : ∀ w ∈ Set.image (fun row => row.flatMap cellBytes) (RowsOf n), id w ≠ [] := by
    rintro w ⟨row, hrow, rfl⟩
    exact row_ne_nil hn hrow
  rw [digestInput_eq hcolumns hrows, digestInput_eq hcolumns' hrows']
  constructor
  · intro h
    have hsorted := (selfDelimiting_row n).image.flatMap_inj hne (hwords hrows) (hwords hrows') h
    exact perm_of_map_perm (selfDelimiting_row n).injOn hrows hrows' (sortRows_eq_iff.mp hsorted)
  · intro h
    rw [sortRows_eq_iff.mpr (h.map _)]

theorem digestInput_eq_iff_renamed :
    digestInput ⟨["tenant_id", "status"], [[some "7", some "paid"], [some "42", none]]⟩ =
      digestInput ⟨["tenant_id", "count"], [[some "42", none], [some "7", some "paid"]]⟩ :=
  (digestInput_eq_iff (n := 2) (by decide) rfl rfl (by decide) (by decide)).mpr
    (List.Perm.swap _ _ _)

/-- The text of a byte string is read back. -/
theorem encodeHex_injective : Function.Injective encodeHex := by
  have hdigit : ∀ m < 16, ∀ n < 16, Nat.digitChar m = Nat.digitChar n → m = n := by decide
  have hbyte : ∀ b b' : UInt8, Nat.digitChar (b.toNat / 16) = Nat.digitChar (b'.toNat / 16) →
      Nat.digitChar (b.toNat % 16) = Nat.digitChar (b'.toNat % 16) → b = b' := by
    intro b b' hhigh hlow
    have hb : b.toNat < 256 := b.toNat_lt
    have hb' : b'.toNat < 256 := b'.toNat_lt
    have h1 := hdigit _ (by omega) _ (by omega) hhigh
    have h2 := hdigit _ (by omega) _ (by omega) hlow
    exact UInt8.toNat_inj.mp (by omega)
  intro bytes bytes' h
  have hchars := String.ofList_injective h
  induction bytes generalizing bytes' with
  | nil =>
    cases bytes' with
    | nil => rfl
    | cons b' bytes' => exact nomatch hchars
  | cons b bytes ih =>
    cases bytes' with
    | nil => exact nomatch hchars
    | cons b' bytes' =>
      obtain ⟨hhigh, hrest⟩ := List.cons.inj hchars
      obtain ⟨hlow, hrest⟩ := List.cons.inj hrest
      rw [hbyte b b' hhigh hlow, ih (congrArg String.ofList hrest) hrest]

/-- Engines that answer with the same rows agree on the digest. -/
theorem canonicalDigest_eq [Sha256] {r r' : QueryResult}
    (hcolumns : r.columns.length = r'.columns.length) (h : r.rows.Perm r'.rows) :
    canonicalDigest r = canonicalDigest r' := by
  have horder : canonicalColumnOrder r.columns = canonicalColumnOrder r'.columns := by
    rw [canonicalColumnOrder, hcolumns, canonicalColumnOrder]
  rw [canonicalDigest, canonicalDigest, digestInput, digestInput, horder,
    sortRows_eq_iff.mpr (h.map _)]

end GrayDB.R1
