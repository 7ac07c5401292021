import GrayDB.Lib.Utf8
import GrayDB.Log.Frame

/-!
# pgoutput messages

The parser of the pgoutput protocol, version 1.  A frame of the log holds one
message.  Integers are big-endian, strings end with a zero byte, and a tuple is
a count and that many values.

`parse` fails with a `ParseError`.  The reads of the `bytes` crate panic when the
buffer is too short; that is the error `panic` here.
-/

namespace GrayDB.Registry

open Lib Log

structure ColumnDesc where
  name : String
  typeOid : Nat
  typmod : Int
  /-- Part of the replica identity or key. -/
  isKey : Bool
  deriving DecidableEq, Repr

structure RelationDesc where
  relid : Nat
  /-- Empty on the wire means pg_catalog. -/
  ns : String
  name : String
  replident : UInt8
  columns : List ColumnDesc
  deriving DecidableEq, Repr

def RelationDesc.qualifiedName (rel : RelationDesc) : String :=
  (if rel.ns.isEmpty then "pg_catalog" else rel.ns) ++ "." ++ rel.name

inductive TupleValue where
  | null
  /-- A TOASTed column that is left out of the image because it did not change. -/
  | unchangedToast
  | text (s : String)
  | binary (b : Bytes)
  deriving DecidableEq, Repr

inductive Message where
  | begin (finalLsn : Nat) (commitTs : Int) (xid : Nat)
  | commit (flags : UInt8) (commitLsn endLsn : Nat) (commitTs : Int)
  | origin (commitLsn : Nat) (name : String)
  | relation (rel : RelationDesc)
  | type (typeOid : Nat) (ns name : String)
  | insert (relid : Nat) (new : List TupleValue)
  /-- The old tuple is tagged `K` or `O`. -/
  | update (relid : Nat) (old : Option (UInt8 × List TupleValue)) (new : List TupleValue)
  | delete (relid : Nat) (old : UInt8 × List TupleValue)
  | truncate (options : UInt8) (relids : List Nat)
  | logicalMessage (transactional : Bool) (lsn : Nat) (tag : String) (payload : Bytes)
  deriving DecidableEq, Repr

inductive ParseError where
  | emptyPayload
  | insertKind (kind : UInt8)
  | updateKind (kind : UInt8)
  | deleteKind (kind : UInt8)
  | truncatedLogical
  | unknownTag (tag : UInt8)
  | truncatedText
  | truncatedBinary
  | unknownValue (kind : UInt8)
  | unterminatedCstring
  /-- A read past the end of the buffer. -/
  | panic
  deriving DecidableEq, Repr

/-- `{:?}` of a byte as a character. -/
def debugChar (b : UInt8) : String :=
  let escaped :=
    if b = 0x00 then "\\0"
    else if b = 0x09 then "\\t"
    else if b = 0x0A then "\\n"
    else if b = 0x0D then "\\r"
    else if b = 0x27 then "\\'"
    else if b = 0x5C then "\\\\"
    else if b < 0x20 ∨ 0x7F ≤ b ∧ b ≤ 0xA0 ∨ b = 0xAD then
      "\\u\x7b" ++ String.ofList (Nat.toDigits 16 b.toNat) ++ "\x7d"
    else String.singleton (Char.ofNat b.toNat)
  "'" ++ escaped ++ "'"

def ParseError.message : ParseError → String
  | .emptyPayload => "empty pgoutput payload"
  | .insertKind kind => s!"Insert without new tuple (kind {kind})"
  | .updateKind kind => s!"Update without new tuple (kind {kind})"
  | .deleteKind kind => s!"Delete with unexpected tuple kind {kind}"
  | .truncatedLogical => "truncated logical message"
  | .unknownTag tag => "unknown pgoutput message tag " ++ debugChar tag
  | .truncatedText => "truncated text tuple value"
  | .truncatedBinary => "truncated binary tuple value"
  | .unknownValue kind => "unknown tuple value kind " ++ debugChar kind
  | .unterminatedCstring => "unterminated cstring in pgoutput message"
  | .panic => "advance out of bounds"

/-! ## Reading -/

abbrev Reader := StateT Bytes (Except ParseError)

namespace Reader

def fail {α : Type} (e : ParseError) : Reader α := fun _ => .error e

/-- A big-endian integer of `w` bytes. -/
def getUInt (w : Nat) : Reader Nat := fun b =>
  if b.length < w then .error .panic else .ok (getNat w b)

def getU8 : Reader UInt8 := fun b =>
  match b with
  | [] => .error .panic
  | x :: b => .ok (x, b)

def getI32 : Reader Int := do return (BitVec.ofNat 32 (← getUInt 4)).toInt

def getI64 : Reader Int := do return (BitVec.ofNat 64 (← getUInt 8)).toInt

def getCstr : Reader String := fun b =>
  let s := b.takeWhile (· != 0)
  if s.length < b.length then .ok (utf8Lossy s, b.drop (s.length + 1))
  else .error .unterminatedCstring

/-- `len` bytes, which the caller has asked for with an error of its own. -/
def getBytes (e : ParseError) (len : Nat) : Reader Bytes := fun b =>
  if len ≤ b.length then .ok (b.take len, b.drop len) else .error e

def repeated {α : Type} (p : Reader α) : Nat → Reader (List α)
  | 0 => pure []
  | n + 1 => do
    let a ← p
    let as ← repeated p n
    pure (a :: as)

end Reader

open Reader

def parseValue : Reader TupleValue := do
  let kind ← getU8
  if kind = 0x6E then
    pure .null
  else if kind = 0x75 then
    pure .unchangedToast
  else if kind = 0x74 then do
    let len ← getUInt 4
    let v ← getBytes .truncatedText len
    pure (.text (utf8Lossy v))
  else if kind = 0x62 then do
    let len ← getUInt 4
    let v ← getBytes .truncatedBinary len
    pure (.binary v)
  else
    fail (.unknownValue kind)

def parseTuple : Reader (List TupleValue) := do
  let ncols ← getUInt 2
  repeated parseValue ncols

def parseColumn : Reader ColumnDesc := do
  let flags ← getU8
  let name ← getCstr
  let typeOid ← getUInt 4
  let typmod ← getI32
  pure { isKey := flags &&& 1 != 0, name, typeOid, typmod }

def parseRelation : Reader Message := do
  let relid ← getUInt 4
  let ns ← getCstr
  let name ← getCstr
  let replident ← getU8
  let ncols ← getUInt 2
  let columns ← repeated parseColumn ncols
  pure (.relation { relid, ns, name, replident, columns })

def parseInsert : Reader Message := do
  let relid ← getUInt 4
  let kind ← getU8
  if kind = 0x4E then do
    let new ← parseTuple
    pure (.insert relid new)
  else
    fail (.insertKind kind)

/-- The old tuple of an update, when there is one, and the tag of the new one. -/
def parseOld : Reader (Option (UInt8 × List TupleValue) × UInt8) := do
  let kind ← getU8
  if kind = 0x4B ∨ kind = 0x4F then do
    let old ← parseTuple
    let next ← getU8
    pure (some (kind, old), next)
  else
    pure (none, kind)

def parseUpdate : Reader Message := do
  let relid ← getUInt 4
  let (old, kind) ← parseOld
  if kind = 0x4E then do
    let new ← parseTuple
    pure (.update relid old new)
  else
    fail (.updateKind kind)

def parseDelete : Reader Message := do
  let relid ← getUInt 4
  let kind ← getU8
  if kind = 0x4B ∨ kind = 0x4F then do
    let old ← parseTuple
    pure (.delete relid (kind, old))
  else
    fail (.deleteKind kind)

def parseLogical : Reader Message := do
  let flags ← getU8
  let lsn ← getUInt 8
  let tag ← getCstr
  let len ← getUInt 4
  let payload ← getBytes .truncatedLogical len
  pure (.logicalMessage (flags &&& 1 != 0) lsn tag payload)

def parseCommit : Reader Message := do
  let flags ← getU8
  let commitLsn ← getUInt 8
  let endLsn ← getUInt 8
  let commitTs ← getI64
  pure (.commit flags commitLsn endLsn commitTs)

/-- The message with this tag. -/
def parseBody (tag : UInt8) : Reader Message :=
  if tag = 0x42 then do
    let finalLsn ← getUInt 8
    let commitTs ← getI64
    let xid ← getUInt 4
    pure (.begin finalLsn commitTs xid)
  else if tag = 0x43 then
    parseCommit
  else if tag = 0x4F then do
    let commitLsn ← getUInt 8
    let name ← getCstr
    pure (.origin commitLsn name)
  else if tag = 0x52 then
    parseRelation
  else if tag = 0x59 then do
    let typeOid ← getUInt 4
    let ns ← getCstr
    let name ← getCstr
    pure (.type typeOid ns name)
  else if tag = 0x49 then
    parseInsert
  else if tag = 0x55 then
    parseUpdate
  else if tag = 0x44 then
    parseDelete
  else if tag = 0x54 then do
    let nrels ← getUInt 4
    let options ← getU8
    let relids ← repeated (getUInt 4) nrels
    pure (.truncate options relids)
  else if tag = 0x4D then
    parseLogical
  else
    fail (.unknownTag tag)

/-- What is behind the message is ignored. -/
def parse (payload : Bytes) : Except ParseError Message :=
  match payload with
  | [] => .error .emptyPayload
  | tag :: b => (parseBody tag b).map Prod.fst

/-! ## Messages for runs on fixed inputs -/

def cstr (s : String) : Bytes := s.toUTF8.toList ++ [0]

def beginMessage (finalLsn xid : Nat) : Bytes :=
  0x42 :: (beBytes 8 finalLsn ++ beBytes 8 0 ++ beBytes 4 xid)

/-- A table of text columns. -/
def relationMessage (relid : Nat) (ns name : String) (columns : List String) : Bytes :=
  0x52 :: (beBytes 4 relid ++ cstr ns ++ cstr name ++ [0x64] ++ beBytes 2 columns.length ++
    columns.flatMap fun c => 0 :: (cstr c ++ beBytes 4 25 ++ beBytes 4 (2 ^ 32 - 1)))

def insertMessage (relid : Nat) (values : List String) : Bytes :=
  0x49 :: (beBytes 4 relid ++ [0x4E] ++ beBytes 2 values.length ++
    values.flatMap fun v => 0x74 :: (beBytes 4 v.toUTF8.size ++ v.toUTF8.toList))

def commitMessage (endLsn : Nat) : Bytes :=
  0x43 :: 0 :: (beBytes 8 endLsn ++ beBytes 8 endLsn ++ beBytes 8 0)

end GrayDB.Registry
