import GrayDB.Lib.Parsing
import GrayDB.Registry.Pgoutput
import Mathlib.Data.List.TakeWhile

/-!
# The wire format of pgoutput

The encoding of every message in protocol version 1, and that `parse` inverts it.
The source has the parser only; the encoding here is the one the server writes, field
by field.

`Message.Fits` says which messages have an encoding: strings hold no zero character,
numbers fit their fields, and the old tuple of an update or a delete is tagged `K` or
`O`.  Each reader of the parser parses the encoding of its field (`Parses`), so a
message parses field by field, and a message that is cut anywhere does not parse.
-/

namespace GrayDB.Registry

open Lib Log Reader

/-! ## The encoding -/

def TupleValue.encode : TupleValue → Bytes
  | .null => [0x6E]
  | .unchangedToast => [0x75]
  | .text s => 0x74 :: (beBytes 4 s.toUTF8.toList.length ++ s.toUTF8.toList)
  | .binary b => 0x62 :: (beBytes 4 b.length ++ b)

def encodeTuple (values : List TupleValue) : Bytes :=
  beBytes 2 values.length ++ values.flatMap TupleValue.encode

/-- An `i32` in two's complement. -/
def beI32 (n : Int) : Bytes := beBytes 4 (BitVec.ofInt 32 n).toNat

/-- An `i64` in two's complement. -/
def beI64 (n : Int) : Bytes := beBytes 8 (BitVec.ofInt 64 n).toNat

def ColumnDesc.encode (c : ColumnDesc) : Bytes :=
  (if c.isKey then 1 else 0) :: (cstr c.name ++ beBytes 4 c.typeOid ++ beI32 c.typmod)

def RelationDesc.encode (rel : RelationDesc) : Bytes :=
  beBytes 4 rel.relid ++ cstr rel.ns ++ cstr rel.name ++ [rel.replident] ++
    beBytes 2 rel.columns.length ++ rel.columns.flatMap ColumnDesc.encode

/-- The tag of a message and the fields behind it. -/
def Message.encode : Message → Bytes
  | .begin finalLsn commitTs xid => 0x42 :: (beBytes 8 finalLsn ++ beI64 commitTs ++ beBytes 4 xid)
  | .commit flags commitLsn endLsn commitTs =>
    0x43 :: ([flags] ++ beBytes 8 commitLsn ++ beBytes 8 endLsn ++ beI64 commitTs)
  | .origin commitLsn name => 0x4F :: (beBytes 8 commitLsn ++ cstr name)
  | .relation rel => 0x52 :: rel.encode
  | .type typeOid ns name => 0x59 :: (beBytes 4 typeOid ++ cstr ns ++ cstr name)
  | .insert relid new => 0x49 :: (beBytes 4 relid ++ [0x4E] ++ encodeTuple new)
  | .update relid none new => 0x55 :: (beBytes 4 relid ++ [0x4E] ++ encodeTuple new)
  | .update relid (some (kind, old)) new =>
    0x55 :: (beBytes 4 relid ++ [kind] ++ encodeTuple old ++ [0x4E] ++ encodeTuple new)
  | .delete relid (kind, old) => 0x44 :: (beBytes 4 relid ++ [kind] ++ encodeTuple old)
  | .truncate options relids =>
    0x54 :: (beBytes 4 relids.length ++ [options] ++ relids.flatMap (beBytes 4))
  | .logicalMessage transactional lsn tag payload =>
    0x4D :: ([if transactional then 1 else 0] ++ beBytes 8 lsn ++ cstr tag ++
      beBytes 4 payload.length ++ payload)

/-! ## The messages that have one -/

/-- A string that a zero byte can end. -/
def NulFree (s : String) : Prop := Char.ofNat 0 ∉ s.toList

def TupleValue.Fits : TupleValue → Prop
  | .null | .unchangedToast => True
  | .text s => s.toUTF8.toList.length < 2 ^ 32
  | .binary b => b.length < 2 ^ 32

def TupleFits (values : List TupleValue) : Prop :=
  values.length < 2 ^ 16 ∧ ∀ v ∈ values, v.Fits

structure ColumnDesc.Fits (c : ColumnDesc) : Prop where
  name : NulFree c.name
  typeOid : c.typeOid < 2 ^ 32
  typmod : -2 ^ 31 ≤ c.typmod ∧ c.typmod < 2 ^ 31

structure RelationDesc.Fits (rel : RelationDesc) : Prop where
  relid : rel.relid < 2 ^ 32
  ns : NulFree rel.ns
  name : NulFree rel.name
  count : rel.columns.length < 2 ^ 16
  columns : ∀ c ∈ rel.columns, c.Fits

/-- The tag of an old tuple. -/
abbrev OldKind (kind : UInt8) : Prop := kind = 0x4B ∨ kind = 0x4F

def I64 (n : Int) : Prop := -2 ^ 63 ≤ n ∧ n < 2 ^ 63

/-- The fields of a message are machine words, and its strings and counts are the
ones that the format can hold. -/
def Message.Fits : Message → Prop
  | .begin finalLsn commitTs xid => finalLsn < 2 ^ 64 ∧ I64 commitTs ∧ xid < 2 ^ 32
  | .commit _ commitLsn endLsn commitTs => commitLsn < 2 ^ 64 ∧ endLsn < 2 ^ 64 ∧ I64 commitTs
  | .origin commitLsn name => commitLsn < 2 ^ 64 ∧ NulFree name
  | .relation rel => rel.Fits
  | .type typeOid ns name => typeOid < 2 ^ 32 ∧ NulFree ns ∧ NulFree name
  | .insert relid new => relid < 2 ^ 32 ∧ TupleFits new
  | .update relid old new =>
    relid < 2 ^ 32 ∧ (∀ kind values, old = some (kind, values) → OldKind kind ∧ TupleFits values) ∧
      TupleFits new
  | .delete relid old => relid < 2 ^ 32 ∧ OldKind old.1 ∧ TupleFits old.2
  | .truncate _ relids => relids.length < 2 ^ 32 ∧ ∀ relid ∈ relids, relid < 2 ^ 32
  | .logicalMessage _ lsn tag payload =>
    lsn < 2 ^ 64 ∧ NulFree tag ∧ payload.length < 2 ^ 32

/-! ## The readers -/

theorem parses_getUInt {w n : Nat} (h : n < 256 ^ w) : Parses (getUInt w) (beBytes w n) n where
  whole := by
    intro rest
    have hlen : ¬ (beBytes w n ++ rest).length < w := by
      rw [List.length_append, length_beBytes]
      omega
    show (if (beBytes w n ++ rest).length < w then _ else _) = _
    rw [if_neg hlen, getNat_beBytes h]
  cut := by
    intro b hb hne
    have hlt : b.length < w := by
      have hle := hb.length_le
      have hlen := length_beBytes w n
      by_contra hge
      exact hne (hb.eq_of_length (by omega))
    exact ⟨.panic, if_pos hlt⟩

theorem parses_getU8 (x : UInt8) : Parses getU8 [x] x where
  whole := fun _ => rfl
  cut := by
    intro b hb hne
    obtain h | h := List.prefix_cons_iff.mp hb
    · rw [h]
      exact ⟨.panic, rfl⟩
    · obtain ⟨t, rfl, ht⟩ := h
      exact absurd (by rw [List.prefix_nil.mp ht]) hne

private theorem toInt_ofInt {w : Nat} {n : Int} (h : -2 ^ w ≤ n ∧ n < 2 ^ w) :
    (BitVec.ofNat (w + 1) (BitVec.ofInt (w + 1) n).toNat).toInt = n := by
  rw [BitVec.ofNat_toNat, BitVec.setWidth_eq, BitVec.toInt_ofInt]
  apply Int.bmod_eq_of_le
  · rw [Nat.pow_succ]
    push_cast
    omega
  · rw [Nat.pow_succ]
    push_cast
    omega

theorem parses_getI32 {n : Int} (h : -2 ^ 31 ≤ n ∧ n < 2 ^ 31) : Parses getI32 (beI32 n) n := by
  have hread : Parses getI32 (beI32 n) _ := (parses_getUInt (BitVec.ofInt 32 n).isLt).bind_pure
  rwa [toInt_ofInt h] at hread

theorem parses_getI64 {n : Int} (h : I64 n) : Parses getI64 (beI64 n) n := by
  have hread : Parses getI64 (beI64 n) _ := (parses_getUInt (BitVec.ofInt 64 n).isLt).bind_pure
  rwa [toInt_ofInt h] at hread

/-- The bytes of a string without a zero character hold no zero byte. -/
theorem NulFree.bytes {s : String} (h : NulFree s) : ∀ b ∈ s.toUTF8.toList, (b != 0) = true := by
  intro b hb
  rw [toUTF8_toList, List.mem_flatMap] at hb
  obtain ⟨c, hc, hbc⟩ := hb
  rw [bne_iff_ne]
  rintro rfl
  have hchar := (utf8EncodeChar_of_ascii hbc (by decide)).1
  exact h (hchar ▸ hc)

theorem parses_getCstr {s : String} (h : NulFree s) : Parses getCstr (cstr s) s where
  whole := by
    intro rest
    have hsplit : (cstr s ++ rest).takeWhile (· != 0) = s.toUTF8.toList := by
      rw [cstr, List.append_assoc, List.takeWhile_append_of_pos h.bytes]
      simp
    have hlt : s.toUTF8.toList.length < (cstr s ++ rest).length := by
      simp only [cstr, List.length_append, List.length_singleton]
      omega
    have hdrop : (cstr s ++ rest).drop (s.toUTF8.toList.length + 1) = rest :=
      List.drop_left' (by rw [cstr, List.length_append, List.length_singleton])
    show (if ((cstr s ++ rest).takeWhile (· != 0)).length < _ then _ else _) = _
    rw [hsplit, if_pos hlt, utf8Lossy_toUTF8, hdrop]
  cut := by
    intro b hb hne
    -- the zero byte is the last one, so a cut has none
    have hpre : b <+: s.toUTF8.toList := by
      obtain h' | h' := List.prefix_concat_iff.mp hb
      · exact absurd h' hne
      · exact h'
    have hwhole : b.takeWhile (· != 0) = b :=
      List.takeWhile_eq_self_iff.mpr fun x hx => h.bytes x (hpre.subset hx)
    refine ⟨.unterminatedCstring, ?_⟩
    show (if (b.takeWhile (· != 0)).length < b.length then _ else _) = _
    rw [hwhole, if_neg (Nat.lt_irrefl _)]

theorem parses_getBytes (e : ParseError) (b : Bytes) : Parses (getBytes e b.length) b b where
  whole := by
    intro rest
    have hle : b.length ≤ (b ++ rest).length := by
      rw [List.length_append]
      omega
    show (if b.length ≤ (b ++ rest).length then _ else _) = _
    rw [if_pos hle, List.take_left, List.drop_left]
  cut := by
    intro c hc hne
    have hlt : ¬ b.length ≤ c.length := fun hge =>
      hne (hc.eq_of_length (Nat.le_antisymm hc.length_le hge))
    exact ⟨e, if_neg hlt⟩

theorem parses_repeated {α : Type} {p : Reader α} {enc : α → Bytes} {as : List α}
    (h : ∀ a ∈ as, Parses p (enc a) a) : Parses (repeated p as.length) (as.flatMap enc) as := by
  induction as with
  | nil => exact .pure []
  | cons a as ih =>
    have hrest := ih fun a ha => h a (List.mem_cons_of_mem _ ha)
    exact (h a List.mem_cons_self).bind hrest.bind_pure

/-! ## The parts of a message -/

theorem parses_parseValue {v : TupleValue} (h : v.Fits) : Parses parseValue v.encode v := by
  cases v with
  | null =>
    show Parses parseValue ([0x6E] ++ []) _
    refine (parses_getU8 0x6E).bind ?_
    rw [if_pos rfl]
    exact .pure _
  | unchangedToast =>
    show Parses parseValue ([0x75] ++ []) _
    refine (parses_getU8 0x75).bind ?_
    rw [if_neg (by decide), if_pos rfl]
    exact .pure _
  | text s =>
    have hlen : s.toUTF8.toList.length < 256 ^ 4 := h
    refine (parses_getU8 0x74).bind ?_
    rw [if_neg (by decide), if_neg (by decide), if_pos rfl]
    refine (parses_getUInt hlen).bind ?_
    have hval : Parses (getBytes .truncatedText s.toUTF8.toList.length >>= fun v =>
        pure (TupleValue.text (utf8Lossy v))) s.toUTF8.toList _ :=
      (parses_getBytes .truncatedText s.toUTF8.toList).bind_pure
    rwa [utf8Lossy_toUTF8] at hval
  | binary b =>
    have hlen : b.length < 256 ^ 4 := h
    refine (parses_getU8 0x62).bind ?_
    rw [if_neg (by decide), if_neg (by decide), if_neg (by decide), if_pos rfl]
    exact (parses_getUInt hlen).bind (parses_getBytes .truncatedBinary b).bind_pure

theorem parses_parseTuple {values : List TupleValue} (h : TupleFits values) :
    Parses parseTuple (encodeTuple values) values := by
  have hlen : values.length < 256 ^ 2 := h.1
  exact (parses_getUInt hlen).bind (parses_repeated fun v hv => parses_parseValue (h.2 v hv))

theorem parses_parseColumn {c : ColumnDesc} (h : c.Fits) : Parses parseColumn c.encode c := by
  have hkey : ((if c.isKey then (1 : UInt8) else 0) &&& 1 != 0) = c.isKey := by
    cases c.isKey <;> decide
  have hrest : ∀ isKey, Parses (do
      let name ← getCstr
      let typeOid ← getUInt 4
      let typmod ← getI32
      pure ({ isKey, name, typeOid, typmod } : ColumnDesc))
      (cstr c.name ++ (beBytes 4 c.typeOid ++ beI32 c.typmod)) { c with isKey } := fun _ =>
    (parses_getCstr h.name).bind ((parses_getUInt h.typeOid).bind
      (parses_getI32 h.typmod).bind_pure)
  have hread : Parses parseColumn _
      { c with isKey := (if c.isKey then (1 : UInt8) else 0) &&& 1 != 0 } :=
    (parses_getU8 _).bind (hrest _)
  rw [hkey] at hread
  rw [ColumnDesc.encode, List.append_assoc]
  exact hread

theorem parses_parseRelation {rel : RelationDesc} (h : rel.Fits) :
    Parses parseRelation rel.encode (.relation rel) := by
  have hcount : rel.columns.length < 256 ^ 2 := h.count
  have hcolumns := parses_repeated fun c hc => parses_parseColumn (h.columns c hc)
  unfold RelationDesc.encode
  simp only [List.append_assoc]
  exact (parses_getUInt h.relid).bind ((parses_getCstr h.ns).bind ((parses_getCstr h.name).bind
    ((parses_getU8 _).bind ((parses_getUInt hcount).bind hcolumns.bind_pure))))

/-- The old tuple of an update, if there is one, and the tag of the new one. -/
theorem parses_parseOld {kind : UInt8} {old : List TupleValue} (hkind : OldKind kind)
    (h : TupleFits old) (next : UInt8) :
    Parses parseOld ([kind] ++ (encodeTuple old ++ [next])) (some (kind, old), next) := by
  refine (parses_getU8 kind).bind ?_
  rw [if_pos hkind]
  exact (parses_parseTuple h).bind (parses_getU8 next).bind_pure

theorem parses_parseOld_none {next : UInt8} (hnext : ¬ OldKind next) :
    Parses parseOld [next] (none, next) := by
  show Parses parseOld ([next] ++ []) _
  refine (parses_getU8 next).bind ?_
  rw [if_neg hnext]
  exact .pure _

/-! ## Messages -/

/-- The fields behind the tag of a message, and how they are read. -/
theorem parses_parseBody {m : Message} (h : m.Fits) :
    ∃ tag enc, m.encode = tag :: enc ∧ Parses (parseBody tag) enc m := by
  cases m with
  | begin finalLsn commitTs xid =>
    refine ⟨_, _, rfl, ?_⟩
    rw [List.append_assoc]
    exact (parses_getUInt h.1).bind ((parses_getI64 h.2.1).bind (parses_getUInt h.2.2).bind_pure)
  | commit flags commitLsn endLsn commitTs =>
    refine ⟨_, _, rfl, ?_⟩
    simp only [List.append_assoc]
    exact (parses_getU8 flags).bind ((parses_getUInt h.1).bind ((parses_getUInt h.2.1).bind
      (parses_getI64 h.2.2).bind_pure))
  | origin commitLsn name =>
    refine ⟨_, _, rfl, ?_⟩
    exact (parses_getUInt h.1).bind (parses_getCstr h.2).bind_pure
  | relation rel => exact ⟨_, _, rfl, parses_parseRelation h⟩
  | type typeOid ns name =>
    refine ⟨_, _, rfl, ?_⟩
    rw [List.append_assoc]
    exact (parses_getUInt h.1).bind ((parses_getCstr h.2.1).bind (parses_getCstr h.2.2).bind_pure)
  | insert relid new =>
    refine ⟨_, _, rfl, ?_⟩
    rw [List.append_assoc]
    refine (parses_getUInt h.1).bind ((parses_getU8 0x4E).bind ?_)
    rw [if_pos rfl]
    exact (parses_parseTuple h.2).bind_pure
  | update relid old new =>
    have hnew := (parses_parseTuple h.2.2).bind_pure (f := Message.update relid old)
    cases old with
    | none =>
      refine ⟨_, _, rfl, ?_⟩
      rw [List.append_assoc]
      refine (parses_getUInt h.1).bind ((parses_parseOld_none (by decide)).bind ?_)
      exact hnew
    | some old =>
      obtain ⟨kind, old⟩ := old
      obtain ⟨hkind, hold⟩ := h.2.1 kind old rfl
      have hread : Parses parseUpdate (beBytes 4 relid ++ ([kind] ++ (encodeTuple old ++ [0x4E]) ++
          encodeTuple new)) _ :=
        (parses_getUInt h.1).bind ((parses_parseOld hkind hold 0x4E).bind hnew)
      refine ⟨_, _, rfl, ?_⟩
      simp only [List.append_assoc] at hread ⊢
      exact hread
  | delete relid old =>
    obtain ⟨kind, old⟩ := old
    refine ⟨_, _, rfl, ?_⟩
    rw [List.append_assoc]
    refine (parses_getUInt h.1).bind ((parses_getU8 kind).bind ?_)
    rw [if_pos h.2.1]
    exact (parses_parseTuple h.2.2).bind_pure
  | truncate options relids =>
    have hcount : relids.length < 256 ^ 4 := h.1
    have hrelids := parses_repeated fun relid hr => parses_getUInt (w := 4) (h.2 relid hr)
    refine ⟨_, _, rfl, ?_⟩
    rw [List.append_assoc]
    exact (parses_getUInt hcount).bind ((parses_getU8 options).bind hrelids.bind_pure)
  | logicalMessage transactional lsn tag payload =>
    have hlen : payload.length < 256 ^ 4 := h.2.2
    have hflag : ((if transactional then (1 : UInt8) else 0) &&& 1 != 0) = transactional := by
      cases transactional <;> decide
    have hread : ∀ flags, Parses parseLogical
        ([flags] ++ (beBytes 8 lsn ++ (cstr tag ++ (beBytes 4 payload.length ++ payload))))
        (.logicalMessage (flags &&& 1 != 0) lsn tag payload) := fun flags =>
      (parses_getU8 flags).bind ((parses_getUInt h.1).bind ((parses_getCstr h.2.1).bind
        ((parses_getUInt hlen).bind (parses_getBytes .truncatedLogical payload).bind_pure)))
    have hmessage := hread (if transactional then 1 else 0)
    rw [hflag] at hmessage
    refine ⟨_, _, rfl, ?_⟩
    simp only [List.append_assoc]
    exact hmessage

/-- **Round trip.**  A message is parsed from its encoding, and from no proper prefix
of it. -/
theorem parse_encode {m : Message} (h : m.Fits) :
    parse m.encode = .ok m ∧ ∀ b, b <+: m.encode → b ≠ m.encode → ∃ e, parse b = .error e := by
  obtain ⟨tag, enc, henc, hbody⟩ := parses_parseBody h
  rw [henc]
  constructor
  · show (parseBody tag enc).map Prod.fst = _
    have hrun : parseBody tag enc = .ok (m, []) := hbody.run_eq
    rw [hrun]
    rfl
  · intro b hb hne
    obtain rfl | ⟨b, rfl, hpre⟩ := List.prefix_cons_iff.mp hb
    · exact ⟨.emptyPayload, rfl⟩
    · obtain ⟨e, he⟩ := hbody.cut b hpre fun heq => hne (by rw [heq])
      have hrun : parseBody tag b = .error e := he
      refine ⟨e, ?_⟩
      show (parseBody tag b).map Prod.fst = _
      rw [hrun]
      rfl

/-- An update with the old key, and every kind of value. -/
theorem parse_encode_update :
    let m : Message := .update 42 (some (0x4B, [.text "7", .null]))
      [.text "é", .unchangedToast, .binary [0, 255], .null]
    parse m.encode = .ok m ∧ ∀ b, b <+: m.encode → b ≠ m.encode → ∃ e, parse b = .error e := by
  have hold : TupleFits [.text "7", .null] := by
    refine ⟨by decide, fun v hv => ?_⟩
    simp only [List.mem_cons, List.not_mem_nil, or_false] at hv
    obtain rfl | rfl := hv
    · show "7".toUTF8.toList.length < 2 ^ 32
      decide +kernel
    · trivial
  have hnew : TupleFits [.text "é", .unchangedToast, .binary [0, 255], .null] := by
    refine ⟨by decide, fun v hv => ?_⟩
    simp only [List.mem_cons, List.not_mem_nil, or_false] at hv
    obtain rfl | rfl | rfl | rfl := hv
    · show "é".toUTF8.toList.length < 2 ^ 32
      decide +kernel
    · trivial
    · show 2 < 2 ^ 32
      decide
    · trivial
  refine parse_encode ⟨by decide, fun kind values heq => ?_, hnew⟩
  obtain ⟨rfl, rfl⟩ := Prod.mk.inj (Option.some.inj heq)
  exact ⟨.inl rfl, hold⟩

end GrayDB.Registry
