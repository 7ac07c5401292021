import GrayDB.Columnar.Effects

/-!
# Writers of COPY text

`COPY TO` of the server and the seed generator write the same format with different
escapes: the server escapes six control bytes and the backslash, the generator four
characters.  `Escapes` is what both have in common, and all that the reader needs: a
byte is left as it is only if it does not mean anything to the reader, and else is a
backslash and a byte that the reader turns back.

* `parseCopyLine_copyLine` reads one row back, `copyLines_copyText` the lines of a part.
* `copyText_lossless` is the whole part, and what a store gains from loading it.
-/

namespace GrayDB.Columnar

open Lib Lib.Crash Log

/-! ## The writers -/

/-- The escape of `COPY TO`. -/
def serverByte (b : UInt8) : Bytes :=
  if b = 0x08 then [0x5C, 0x62]
  else if b = 0x0C then [0x5C, 0x66]
  else if b = 0x0A then [0x5C, 0x6E]
  else if b = 0x0D then [0x5C, 0x72]
  else if b = 0x09 then [0x5C, 0x74]
  else if b = 0x0B then [0x5C, 0x76]
  else if b = 0x5C then [0x5C, 0x5C]
  else [b]

/-- `str::replace` with a character as the pattern. -/
def replaceChar (c : Char) (by_ v : String) : String :=
  String.ofList (v.toList.flatMap fun x => if x = c then by_.toList else [x])

/-- `escape` of the seed generator. -/
def generatorEscape (v : String) : String :=
  replaceChar '\r' "\\r" (replaceChar '\n' "\\n"
    (replaceChar '\t' "\\t" (replaceChar '\\' "\\\\" v)))

inductive CopyWriter where
  | server
  | generator
  deriving DecidableEq, Repr

def CopyWriter.escape : CopyWriter → String → Bytes
  | .server, v => v.toUTF8.toList.flatMap serverByte
  | .generator, v => (generatorEscape v).toUTF8.toList

/-- A field; the generator has no NULLs. -/
def CopyWriter.field (w : CopyWriter) : Option String → Bytes
  | none => [0x5C, 0x4E]
  | some v => w.escape v

/-- The fields of a row with tabs between them. -/
def CopyWriter.line (w : CopyWriter) (row : Row) : Bytes := [0x09].intercalate (row.map w.field)

def CopyWriter.copyText (w : CopyWriter) (rows : List Row) : Bytes :=
  rows.flatMap fun row => w.line row ++ [0x0A]

/-- The bytes of `copy_batch`. -/
def copyBatch (rows : List (List String)) : Bytes :=
  rows.flatMap fun fields =>
    [0x09].intercalate (fields.map fun f => (generatorEscape f).toUTF8.toList) ++ [0x0A]

theorem copyBatch_eq (rows : List (List String)) :
    copyBatch rows = CopyWriter.generator.copyText (rows.map fun fields => fields.map some) := by
  unfold copyBatch CopyWriter.copyText CopyWriter.line
  rw [List.flatMap_map]
  simp only [List.map_map]
  rfl

/-! ## Escapes -/

/-- A byte stands for itself, or is a backslash and a byte that is turned back. -/
def Escapes (e : UInt8 → Bytes) : Prop :=
  ∀ b, e b = [b] ∧ b ≠ 0x5C ∧ b ≠ 0x09 ∧ b ≠ 0x0A ∨
    ∃ x, e b = [0x5C, x] ∧ unescapeByte x = b ∧ x ≠ 0x4E ∧ x ≠ 0x09 ∧ x ≠ 0x0A

theorem escapes_serverByte : Escapes serverByte := by
  intro b
  unfold serverByte
  split_ifs with h1 h2 h3 h4 h5 h6 h7
  all_goals first
    | exact .inl ⟨rfl, h7, h5, h3⟩
    | exact .inr ⟨_, rfl, by subst b; decide, by decide, by decide, by decide⟩

/-- The escape of the generator, byte by byte. -/
def generatorByte (b : UInt8) : Bytes :=
  if b = 0x5C then [0x5C, 0x5C]
  else if b = 0x09 then [0x5C, 0x74]
  else if b = 0x0A then [0x5C, 0x6E]
  else if b = 0x0D then [0x5C, 0x72]
  else [b]

theorem escapes_generatorByte : Escapes generatorByte := by
  intro b
  unfold generatorByte
  split_ifs with h1 h2 h3 h4
  all_goals first
    | exact .inl ⟨rfl, h1, h2, h3⟩
    | exact .inr ⟨_, rfl, by subst b; decide, by decide, by decide, by decide⟩

private theorem toList_replaceChar (c : Char) (by_ v : String) :
    (replaceChar c by_ v).toList = v.toList.flatMap fun x => if x = c then by_.toList else [x] :=
  String.toList_ofList

/-- A character of several bytes is not touched: none of its bytes is one of the four. -/
theorem generatorEscape_bytes (v : String) :
    (generatorEscape v).toUTF8.toList = v.toUTF8.toList.flatMap generatorByte := by
  rw [toUTF8_toList, toUTF8_toList, generatorEscape]
  simp only [toList_replaceChar, List.flatMap_assoc]
  refine List.flatMap_congr fun c _ => ?_
  by_cases h1 : c = '\\'
  · subst h1
    decide +kernel
  by_cases h2 : c = '\t'
  · subst h2
    decide +kernel
  by_cases h3 : c = '\n'
  · subst h3
    decide +kernel
  by_cases h4 : c = '\r'
  · subst h4
    decide +kernel
  have hplain : ∀ b ∈ String.utf8EncodeChar c, generatorByte b = [b] := by
    intro b hb
    have hchar : ∀ x : UInt8, x < 0x80 → c ≠ Char.ofNat x.toNat → b ≠ x := by
      rintro x hx hne rfl
      exact hne (utf8EncodeChar_of_ascii hb hx).1
    rw [generatorByte, if_neg (hchar 0x5C (by decide) h1), if_neg (hchar 0x09 (by decide) h2),
      if_neg (hchar 0x0A (by decide) h3), if_neg (hchar 0x0D (by decide) h4)]
  simp only [if_neg h1, if_neg h2, if_neg h3, if_neg h4, List.flatMap_cons, List.flatMap_nil,
    List.append_nil]
  rw [List.flatMap_congr hplain]
  simp

/-- Both writers escape byte by byte. -/
theorem CopyWriter.exists_escapes (w : CopyWriter) :
    ∃ e, Escapes e ∧ ∀ v, w.escape v = v.toUTF8.toList.flatMap e := by
  cases w with
  | server => exact ⟨serverByte, escapes_serverByte, fun _ => rfl⟩
  | generator => exact ⟨generatorByte, escapes_generatorByte, generatorEscape_bytes⟩

section Escapes

variable {e : UInt8 → Bytes}

theorem Escapes.unescape (he : Escapes e) (bs : Bytes) : unescape (bs.flatMap e) = bs := by
  induction bs with
  | nil => rfl
  | cons b bs ih =>
    rw [List.flatMap_cons]
    obtain ⟨hb, hne, -⟩ | ⟨x, hb, hx, -⟩ := he b
    · rw [hb, List.singleton_append, unescape_cons_of_ne hne, ih]
    · rw [hb, List.cons_append, List.singleton_append, Columnar.unescape, hx, ih]

/-- No separator is left in an escaped value. -/
theorem Escapes.notMem (he : Escapes e) {sep : UInt8} (hsep : sep = 0x09 ∨ sep = 0x0A)
    (bs : Bytes) : sep ∉ bs.flatMap e := by
  intro hmem
  obtain ⟨b, -, hb⟩ := List.mem_flatMap.mp hmem
  obtain ⟨heq, -, htab, hnl⟩ | ⟨x, heq, -, -, htab, hnl⟩ := he b
  · rw [heq, List.mem_singleton] at hb
    obtain rfl | rfl := hsep
    · exact htab hb.symm
    · exact hnl hb.symm
  · rw [heq, List.mem_cons, List.mem_singleton] at hb
    obtain rfl | rfl := hsep
    · exact hb.elim (by decide) fun h => htab h.symm
    · exact hb.elim (by decide) fun h => hnl h.symm

/-- An escaped value is not the NULL marker: the backslash of a value is doubled. -/
theorem Escapes.ne_null (he : Escapes e) (bs : Bytes) : bs.flatMap e ≠ [0x5C, 0x4E] := by
  intro hnull
  cases bs with
  | nil => exact nomatch hnull
  | cons b bs =>
    rw [List.flatMap_cons] at hnull
    obtain ⟨heq, hne, -⟩ | ⟨x, heq, -, hne, -⟩ := he b
    · rw [heq, List.singleton_append] at hnull
      exact hne (List.cons.inj hnull).1
    · rw [heq, List.cons_append] at hnull
      exact hne (List.cons.inj (List.cons.inj hnull).2).1

end Escapes

/-! ## Rows -/

namespace CopyWriter

variable (w : CopyWriter)

/-- A field is read back, NULL or not. -/
theorem unescapeField_field (v : Option String) : unescapeField (w.field v) = v := by
  cases v with
  | none => rfl
  | some v =>
    obtain ⟨e, he, hescape⟩ := w.exists_escapes
    show unescapeField (w.escape v) = some v
    rw [hescape, unescapeField, if_neg (he.ne_null _), he.unescape, utf8Lossy_toUTF8]

theorem notMem_field {sep : UInt8} (hsep : sep = 0x09 ∨ sep = 0x0A) (v : Option String) :
    sep ∉ w.field v := by
  cases v with
  | none =>
    show sep ∉ [0x5C, 0x4E]
    obtain rfl | rfl := hsep <;> decide
  | some v =>
    obtain ⟨e, he, hescape⟩ := w.exists_escapes
    show sep ∉ w.escape v
    rw [hescape]
    exact he.notMem hsep _

theorem newline_notMem_line (row : Row) : 0x0A ∉ w.line row := by
  have hjoin : ∀ fields : List Bytes, (∀ field ∈ fields, 0x0A ∉ field) →
      0x0A ∉ [0x09].intercalate fields := by
    intro fields
    induction fields with
    | nil => exact fun _ h => nomatch h
    | cons field fields ih =>
      intro h
      cases fields with
      | nil =>
        rw [List.intercalate_singleton]
        exact h field List.mem_cons_self
      | cons next fields =>
        have hrest := ih fun f hf => h f (List.mem_cons_of_mem _ hf)
        rw [List.intercalate_cons_cons]
        simp only [List.mem_append, not_or]
        exact ⟨⟨h field List.mem_cons_self, by decide⟩, hrest⟩
  refine hjoin _ fun field hfield => ?_
  obtain ⟨v, -, rfl⟩ := List.mem_map.mp hfield
  exact w.notMem_field (.inr rfl) v

/-- A row is read back from its line. -/
theorem parseCopyLine_line {row : Row} (hrow : row ≠ []) : parseCopyLine (w.line row) = row := by
  have htabs : ∀ field ∈ row.map w.field, 0x09 ∉ field := by
    intro field hfield
    obtain ⟨v, -, rfl⟩ := List.mem_map.mp hfield
    exact w.notMem_field (.inl rfl) v
  rw [parseCopyLine, line, copyFields_eq_splitOn, List.splitOn_intercalate _ htabs (by simpa using hrow),
    List.map_map]
  calc row.map (unescapeField ∘ w.field) = row.map id :=
        List.map_congr_left fun v _ => w.unescapeField_field v
    _ = row := List.map_id row

theorem copyText_eq_lines (rows : List Row) :
    w.copyText rows = (rows.map w.line).flatMap fun line => line ++ [0x0A] := by
  rw [copyText, List.flatMap_map]

theorem newline_notMem_lines (rows : List Row) : ∀ line ∈ rows.map w.line, 0x0A ∉ line := by
  intro line hline
  obtain ⟨row, -, rfl⟩ := List.mem_map.mp hline
  exact w.newline_notMem_line row

/-- The lines of a part are the lines of its rows. -/
theorem copyLines_copyText (rows : List Row) : copyLines (w.copyText rows) = rows.map w.line := by
  rw [copyText_eq_lines, copyLines_of_lines (w.newline_notMem_lines rows)]

theorem copyText_append (rows rows' : List Row) :
    w.copyText (rows ++ rows') = w.copyText rows ++ w.copyText rows' :=
  List.flatMap_append

/-- The rows of a part are read back. -/
theorem parse_copyText {rows : List Row} (h : ∀ row ∈ rows, row ≠ []) :
    (copyLines (w.copyText rows)).map parseCopyLine = rows := by
  rw [w.copyLines_copyText, List.map_map]
  calc rows.map (parseCopyLine ∘ w.line) = rows.map id :=
        List.map_congr_left fun row hrow => w.parseCopyLine_line (h row hrow)
    _ = rows := List.map_id rows

end CopyWriter

/-! ## Loading -/

section Load

variable {s : TableStore}

/-- The rows of a part, one after the other, become open rows. -/
theorem loadCopyPart_rows {data : Bytes} {rows : List Row}
    (hparse : (copyLines data).map parseCopyLine = rows)
    (hwidth : ∀ row ∈ rows, row.length = s.columns.length) (lsn0 : Nat) :
    Returns (loadCopyPart data lsn0) s fun n s' => n = rows.length ∧
      s'.opened = s.opened ++ rows.map fun values => { values, insertLsn := lsn0 } := by
  have hlines : ∀ line ∈ copyLines data, (parseCopyLine line).length = s.columns.length :=
    fun line hline => hwidth _ (hparse ▸ List.mem_map_of_mem hline)
  have heffect : Ensures (loadCopyPart data lsn0) s fun n s' => n = rows.length ∧
      s'.opened = s.opened ++ rows.map fun values => { values, insertLsn := lsn0 } := by
    refine Ensures.bind (loadLines_ensures lsn0 (copyLines data)) ?_
    rintro n t ⟨rfl, -, rfl⟩
    refine Ensures.bind_modify (Ensures.pure ⟨?_, ?_⟩)
    · rw [← hparse, List.length_map]
    · show (s.withLines lsn0 (copyLines data)).opened = _
      rw [TableStore.opened_withLines, ← hparse, List.map_map]
      rfl
  exact ((loadCopyPart_spec hlines lsn0).and_ensures heffect).weaken fun _ _ h => h.2

end Load

/-- **COPY text is lossless.**  What either writer writes is read back row by row, and
two parts one after the other load the rows of both.  A store has columns, as `create`
sees to. -/
theorem copyText_lossless (w : CopyWriter) {s : TableStore} (hcolumns : s.columns ≠ [])
    {rows rows' : List Row} (h : ∀ row ∈ rows ++ rows', row.length = s.columns.length)
    (lsn0 : Nat) :
    (copyLines (w.copyText rows)).map parseCopyLine = rows ∧
      (copyLines (w.copyText rows ++ w.copyText rows')).map parseCopyLine = rows ++ rows' ∧
      Returns (loadCopyPart (w.copyText rows ++ w.copyText rows') lsn0) s fun n s' =>
        n = (rows ++ rows').length ∧
          s'.opened = s.opened ++ (rows ++ rows').map fun values => { values, insertLsn := lsn0 } := by
  have hne : ∀ row ∈ rows ++ rows', row ≠ [] := by
    rintro row hrow rfl
    exact hcolumns (List.eq_nil_of_length_eq_zero (h [] hrow).symm)
  have hboth := w.parse_copyText hne
  rw [w.copyText_append] at hboth
  exact ⟨w.parse_copyText fun row hrow => hne row (List.mem_append_left _ hrow), hboth,
    loadCopyPart_rows hboth h lsn0⟩

/-- A store with one column: an empty value, the two characters of the NULL marker, a
trailing backslash and NULL. -/
theorem copyText_lossless_marker :
    let s : TableStore :=
      { table := "app.t", columns := [⟨"v", 25, false⟩], flushRows := 10 }
    let rows : List Row := [[some ""], [some "\\N"]]
    let rows' : List Row := [[some "\t\\"], [none]]
    (copyLines (CopyWriter.server.copyText rows)).map parseCopyLine = rows ∧
      (copyLines (CopyWriter.server.copyText rows ++ CopyWriter.server.copyText rows')).map
        parseCopyLine = rows ++ rows' ∧
      Returns (loadCopyPart (CopyWriter.server.copyText rows ++
          CopyWriter.server.copyText rows') 7) s fun n s' =>
        n = (rows ++ rows').length ∧
          s'.opened = s.opened ++ (rows ++ rows').map fun values => { values, insertLsn := 7 } := by
  refine copyText_lossless .server (by decide) (fun row hrow => ?_) 7
  simp only [List.cons_append, List.nil_append, List.mem_cons, List.not_mem_nil, or_false] at hrow
  obtain rfl | rfl | rfl | rfl := hrow <;> rfl

end GrayDB.Columnar
