import GrayDB.Lib.Utf8
import GrayDB.Log.Frame

/-!
# COPY text

The lines of a staged COPY part and the values of a line.  `parseCopyLine` reverses the
escaping of `COPY TO`; the field `\N` is NULL.
-/

namespace GrayDB.Columnar

open Lib Log

/-- The lines of COPY text.  A last line need not end with a newline. -/
def copyLines : Bytes → List Bytes
  | [] => []
  | b :: data =>
    if b = 0x0A then [] :: copyLines data
    else match copyLines data with
      | [] => [[b]]
      | line :: lines => (b :: line) :: lines

/-- The fields of a line. -/
def copyFields : Bytes → List Bytes
  | [] => [[]]
  | b :: line =>
    match copyFields line with
    | [] => [[b]]
    | field :: fields => if b = 0x09 then [] :: field :: fields else (b :: field) :: fields

/-- The byte of an escape; an unknown one stands for itself. -/
def unescapeByte (b : UInt8) : UInt8 :=
  if b = 0x62 then 0x08
  else if b = 0x66 then 0x0C
  else if b = 0x6E then 0x0A
  else if b = 0x72 then 0x0D
  else if b = 0x74 then 0x09
  else if b = 0x76 then 0x0B
  else b

def unescape : Bytes → Bytes
  | 0x5C :: b :: field => unescapeByte b :: unescape field
  | b :: field => b :: unescape field
  | [] => []

def unescapeField (field : Bytes) : Option String :=
  if field = [0x5C, 0x4E] then none else some (utf8Lossy (unescape field))

def parseCopyLine (line : Bytes) : List (Option String) := (copyFields line).map unescapeField

example : parseCopyLine "a\\tb\\nc\\\\d\t\\N\t".toUTF8.toList
    = [some "a\tb\nc\\d", none, some ""] := by decide +kernel

/-- A line that ends with a newline, and what is behind it. -/
theorem copyLines_append_newline {line : Bytes} (h : 0x0A ∉ line) (data : Bytes) :
    copyLines (line ++ 0x0A :: data) = line :: copyLines data := by
  induction line with
  | nil => rfl
  | cons b line ih =>
    rw [List.mem_cons, not_or] at h
    rw [List.cons_append, copyLines, if_neg (Ne.symm h.1), ih h.2]

/-- A last line without a newline. -/
theorem copyLines_of_notMem {line : Bytes} (h : 0x0A ∉ line) (hne : line ≠ []) :
    copyLines line = [line] := by
  induction line with
  | nil => exact absurd rfl hne
  | cons b line ih =>
    rw [List.mem_cons, not_or] at h
    rw [copyLines, if_neg (Ne.symm h.1)]
    cases line with
    | nil => rfl
    | cons c line => rw [ih h.2 (List.cons_ne_nil c line)]

/-- Lines that end with a newline are read back. -/
theorem copyLines_of_lines {lines : List Bytes} (h : ∀ line ∈ lines, 0x0A ∉ line) :
    copyLines (lines.flatMap fun line => line ++ [0x0A]) = lines := by
  induction lines with
  | nil => rfl
  | cons line lines ih =>
    rw [List.flatMap_cons, List.append_assoc, List.singleton_append,
      copyLines_append_newline (h line List.mem_cons_self),
      ih fun l hl => h l (List.mem_cons_of_mem line hl)]

/-- The fields of a line are what `split` gives. -/
theorem copyFields_eq_splitOn (line : Bytes) : copyFields line = line.splitOn 0x09 := by
  induction line with
  | nil => exact (List.splitOn_nil _).symm
  | cons b line ih =>
    rw [copyFields, ih, List.splitOn_cons_eq_if_modifyHead]
    cases hsplit : line.splitOn (0x09 : UInt8) with
    | nil => exact absurd hsplit (List.splitOn_ne_nil _ _)
    | cons field fields =>
      by_cases hb : b = 0x09
      · simp [hb]
      · simp [hb]

theorem unescape_cons_of_ne {b : UInt8} (hb : b ≠ 0x5C) (field : Bytes) :
    unescape (b :: field) = b :: unescape field := by
  rw [unescape.eq_def]
  split
  · rename_i heq
    exact absurd (List.cons.inj heq).1 hb
  · rename_i heq
    obtain ⟨rfl, rfl⟩ := List.cons.inj heq
    rfl
  · rename_i heq
    exact nomatch heq

private theorem unescape_plain {field : Bytes} (h : ∀ b ∈ field, b ≠ 0x5C) :
    unescape field = field := by
  induction field with
  | nil => rfl
  | cons b field ih =>
    rw [unescape_cons_of_ne (h b List.mem_cons_self), ih fun x hx => h x (List.mem_cons_of_mem b hx)]

private theorem copyFields_plain {line : Bytes} (h : ∀ b ∈ line, b ≠ 0x09) :
    copyFields line = [line] := by
  rw [copyFields_eq_splitOn]
  exact List.splitOn_eq_singleton fun hmem => h _ hmem rfl

/-- A line without tabs and backslashes is one value. -/
theorem parseCopyLine_plain {line : Bytes} (h : ∀ b ∈ line, b ≠ 0x09 ∧ b ≠ 0x5C) :
    parseCopyLine line = [some (utf8Lossy line)] := by
  have hnull : line ≠ [0x5C, 0x4E] := by
    rintro rfl
    exact (h 0x5C List.mem_cons_self).2 rfl
  rw [parseCopyLine, copyFields_plain fun b hb => (h b hb).1]
  simp only [List.map_cons, List.map_nil, unescapeField, if_neg hnull,
    unescape_plain fun b hb => (h b hb).2]

end GrayDB.Columnar
