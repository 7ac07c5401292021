import GrayDB.Lib.Journal
import GrayDB.Registry.Decoder

/-!
# The source table

What the source sends for the changes of one of its tables.  A row is the text of each
column.  The image of a new row can leave a value out when the row had it before.  The
image of an old row has the values of the key columns, and anything in the others; an
update without one does not change the key.

`Announces` relates a typed change to the change of the table behind it.
-/

namespace GrayDB.Source

open Lib Registry

/-- The text of each column, or NULL. -/
abbrev SourceRow := List (Option String)

/-- The value stands for the cell, of a row that had `prior` there before. -/
def Shows (prior cell : Option String) : TupleValue → Prop
  | .text s => cell = some s
  | .null => cell = none
  | .unchangedToast => cell.isSome ∧ prior = cell
  | .binary _ => False

/-- The image of a row that was `prior` before; `[]` is no row. -/
def Describes : List String → SourceRow → SourceRow → Named → Prop
  | [], _, [], [] => True
  | column :: columns, prior, cell :: row, (name, value) :: img =>
    name = column ∧ Shows (prior.headD none) cell value ∧ Describes columns prior.tail row img
  | _, _, _, _ => False

/-- The image has the key columns of the row. -/
def ShowsKey (keys : List String) : List String → SourceRow → Named → Prop
  | [], [], [] => True
  | column :: columns, cell :: row, (name, value) :: img =>
    name = column ∧ (column ∈ keys → Shows none cell value) ∧ ShowsKey keys columns row img
  | _, _, _ => False

instance (prior cell : Option String) (value : TupleValue) : Decidable (Shows prior cell value) := by
  unfold Shows
  cases value <;> infer_instance

instance decidableDescribes :
    (columns : List String) → (prior row : SourceRow) → (img : Named) →
      Decidable (Describes columns prior row img)
  | [], _, [], [] => inferInstanceAs (Decidable True)
  | column :: columns, prior, cell :: row, (name, value) :: img =>
    let _ := decidableDescribes columns prior.tail row img
    inferInstanceAs (Decidable (name = column ∧ Shows (prior.headD none) cell value ∧
      Describes columns prior.tail row img))
  | [], _, _ :: _, _ | [], _, [], _ :: _ | _ :: _, _, [], _ | _ :: _, _, _ :: _, [] =>
    inferInstanceAs (Decidable False)

instance decidableShowsKey (keys : List String) :
    (columns : List String) → (row : SourceRow) → (img : Named) →
      Decidable (ShowsKey keys columns row img)
  | [], [], [] => inferInstanceAs (Decidable True)
  | column :: columns, cell :: row, (name, value) :: img =>
    let _ := decidableShowsKey keys columns row img
    inferInstanceAs (Decidable (name = column ∧ (column ∈ keys → Shows none cell value) ∧
      ShowsKey keys columns row img))
  | [], _ :: _, _ | [], [], _ :: _ | _ :: _, [], _ | _ :: _, _ :: _, [] =>
    inferInstanceAs (Decidable False)

section Announces

variable {κ : Type}

/-- The typed change says this of a table with these columns and key columns, where `key`
is the key of a row. -/
def Announces (columns keys : List String) (key : SourceRow → κ) (c : TypedChange) :
    RowChange SourceRow → Prop
  | .insert row => c.op = .insert ∧ ∃ img ∈ c.new, Describes columns [] row img
  | .update old new => c.op = .update ∧ ∃ img ∈ c.new, Describes columns old new img ∧
      match c.old with
      | none => key old = key new ∧ ShowsKey keys columns new img
      | some oldImg => ShowsKey keys columns old oldImg
  | .delete old => c.op = .delete ∧ c.new = none ∧ ∃ img ∈ c.old, ShowsKey keys columns old img
  | .truncate => c.op = .truncate ∧ c.new = none

instance decidableAnnounces [DecidableEq κ] (columns keys : List String) (key : SourceRow → κ)
    (c : TypedChange) (change : RowChange SourceRow) : Decidable (Announces columns keys key c change) := by
  unfold Announces
  cases change <;> cases c.old <;> infer_instance

end Announces

/-! ## Reading an image by name -/

/-- The value of the first column of that name. -/
def valueOf : List String → SourceRow → String → Option String
  | name :: columns, cell :: row, column => if name = column then cell else valueOf columns row column
  | _, _, _ => none

/-- The image leaves the value of the column out. -/
def LeavesOut (img : Named) (column : String) : Prop :=
  (img.find? fun c => c.1 = column).map Prod.snd = some .unchangedToast

instance (img : Named) (column : String) : Decidable (LeavesOut img column) :=
  inferInstanceAs (Decidable (_ = _))

end GrayDB.Source
