import GrayDB.Registry.Wire
import Mathlib.Logic.Function.Iterate

/-!
# The reads that panic

`parse` checks the lengths of texts, of binary values and of logical messages, and it
looks for the zero byte of a string.  Its fixed-width reads are not checked.

`Room payload` says that every fixed-width field that the parser comes to has all its
bytes.  It is a walk over the payload: a field asks for a length, and a string, a text
or a tuple says where the next field begins.  `parse` panics on exactly the payloads
without room.
-/

namespace GrayDB.Registry

open Lib Log Reader

/-! ## Room for the fields -/

/-- `k` holds behind the zero byte that ends a string.  Without one there is an error. -/
def AfterNul (k : Bytes → Prop) (b : Bytes) : Prop :=
  0 ∈ b → k (b.drop ((b.takeWhile (· != 0)).length + 1))

/-- A value is its kind and, for a text or a binary value, four bytes of length. -/
def RoomValue (k : Bytes → Prop) : Bytes → Prop
  | [] => False
  | kind :: b =>
    if kind = 0x6E ∨ kind = 0x75 then
      k b
    else if kind = 0x74 ∨ kind = 0x62 then
      4 ≤ b.length ∧ (4 + beNat (b.take 4) ≤ b.length → k (b.drop (4 + beNat (b.take 4))))
    else
      True

def RoomTuple (k : Bytes → Prop) (b : Bytes) : Prop :=
  2 ≤ b.length ∧ RoomValue^[beNat (b.take 2)] k (b.drop 2)

/-- A column is its flags, its name, and eight bytes of type and modifier. -/
def RoomColumn (k : Bytes → Prop) (b : Bytes) : Prop :=
  1 ≤ b.length ∧ AfterNul (fun b => 8 ≤ b.length ∧ k (b.drop 8)) (b.drop 1)

def RoomRelation (b : Bytes) : Prop :=
  4 ≤ b.length ∧ AfterNul (AfterNul fun b =>
    3 ≤ b.length ∧ RoomColumn^[beNat ((b.drop 1).take 2)] (fun _ => True) (b.drop 3)) (b.drop 4)

/-- The new tuple of an insert or an update, with the tag in front of it. -/
def RoomNew : Bytes → Prop
  | [] => False
  | kind :: b => kind = 0x4E → RoomTuple (fun _ => True) b

/-- The old tuple of an update, when there is one, and the new tuple. -/
def RoomUpdate : Bytes → Prop
  | [] => False
  | kind :: b => if OldKind kind then RoomTuple RoomNew b else RoomNew (kind :: b)

def RoomDelete : Bytes → Prop
  | [] => False
  | kind :: b => OldKind kind → RoomTuple (fun _ => True) b

/-- Every fixed-width field that the message comes to has all its bytes. -/
def Room : Bytes → Prop
  | [] => True
  | tag :: b =>
    if tag = 0x42 then 20 ≤ b.length
    else if tag = 0x43 then 25 ≤ b.length
    else if tag = 0x4F then 8 ≤ b.length
    else if tag = 0x52 then RoomRelation b
    else if tag = 0x59 then 4 ≤ b.length
    else if tag = 0x49 then 4 ≤ b.length ∧ RoomNew (b.drop 4)
    else if tag = 0x55 then 4 ≤ b.length ∧ RoomUpdate (b.drop 4)
    else if tag = 0x44 then 4 ≤ b.length ∧ RoomDelete (b.drop 4)
    else if tag = 0x54 then 5 + 4 * beNat (b.take 4) ≤ b.length
    else if tag = 0x4D then 9 ≤ b.length ∧ AfterNul (fun b => 4 ≤ b.length) (b.drop 9)
    else True

/-! ## The readers -/

section Readers

variable {α : Type} {b : Bytes}

theorem avoids_fail {e : ParseError} (he : e ≠ .panic) {Q : α → Bytes → Prop} :
    Avoids .panic (fail e) b Q ↔ True := by
  show e ≠ .panic ↔ True
  exact iff_true_intro he

theorem avoids_getUInt {w : Nat} {Q : Nat → Bytes → Prop} :
    Avoids .panic (getUInt w) b Q ↔ w ≤ b.length ∧ Q (beNat (b.take w)) (b.drop w) := by
  by_cases h : b.length < w
  · have hrun : (getUInt w).run b = .error .panic := if_pos h
    rw [Avoids, hrun]
    simp
    omega
  · have hrun : (getUInt w).run b = .ok (getNat w b) := if_neg h
    rw [Avoids, hrun]
    simp [getNat]
    omega

/-- Two fields of fixed widths ask for both widths. -/
theorem room_add {m n : Nat} {Q : Bytes → Prop} :
    m ≤ b.length ∧ n ≤ (b.drop m).length ∧ Q ((b.drop m).drop n) ↔
      m + n ≤ b.length ∧ Q (b.drop (m + n)) := by
  rw [List.drop_drop, List.length_drop, ← and_assoc]
  refine and_congr_left fun _ => ?_
  omega

theorem avoids_getU8_nil {Q : UInt8 → Bytes → Prop} : Avoids .panic getU8 [] Q ↔ False :=
  iff_false_intro fun h => h rfl

theorem avoids_getU8_cons {x : UInt8} {Q : UInt8 → Bytes → Prop} :
    Avoids .panic getU8 (x :: b) Q ↔ Q x b := Iff.rfl

theorem avoids_getU8 {Q : UInt8 → Bytes → Prop} :
    Avoids .panic getU8 b Q ↔ 1 ≤ b.length ∧ Q (b.headD 0) (b.drop 1) := by
  cases b with
  | nil => simp [avoids_getU8_nil]
  | cons x b => simp [avoids_getU8_cons]

theorem avoids_getI32 {Q : Bytes → Prop} :
    (Avoids .panic getI32 b fun _ => Q) ↔ 4 ≤ b.length ∧ Q (b.drop 4) := by
  rw [getI32, Avoids.bind_iff, avoids_getUInt]
  exact Iff.rfl

theorem avoids_getCstr {Q : Bytes → Prop} :
    (Avoids .panic getCstr b fun _ => Q) ↔ AfterNul Q b := by
  have hnul : (b.takeWhile (· != 0)).length < b.length ↔ 0 ∈ b := by
    have hle := (List.takeWhile_prefix (l := b) (· != 0)).length_le
    constructor
    · intro hlt
      by_contra hno
      have hall : ∀ x ∈ b, (x != 0) = true := by
        intro x hx
        rw [bne_iff_ne]
        rintro rfl
        exact hno hx
      rw [List.takeWhile_eq_self_iff.mpr hall] at hlt
      omega
    · intro hmem
      by_contra hge
      have heq : b.takeWhile (· != 0) = b :=
        (List.takeWhile_prefix (· != 0)).eq_of_length (by omega)
      have hne := List.takeWhile_eq_self_iff.mp heq 0 hmem
      simp at hne
  rw [AfterNul, ← hnul, Avoids]
  by_cases h : (b.takeWhile (· != 0)).length < b.length
  · have hrun : getCstr.run b =
        .ok (utf8Lossy (b.takeWhile (· != 0)), b.drop ((b.takeWhile (· != 0)).length + 1)) :=
      if_pos h
    rw [hrun]
    exact ⟨fun hq _ => hq, fun hq => hq h⟩
  · have hrun : getCstr.run b = .error .unterminatedCstring := if_neg h
    rw [hrun]
    exact ⟨fun _ hlt => absurd hlt h, fun _ => ParseError.noConfusion⟩

theorem avoids_getBytes {e : ParseError} (he : e ≠ .panic) {len : Nat} {Q : Bytes → Prop} :
    (Avoids .panic (getBytes e len) b fun _ => Q) ↔ (len ≤ b.length → Q (b.drop len)) := by
  by_cases h : len ≤ b.length
  · have hrun : (getBytes e len).run b = .ok (b.take len, b.drop len) := if_pos h
    rw [Avoids, hrun]
    exact ⟨fun hq _ => hq, fun hq => hq h⟩
  · have hrun : (getBytes e len).run b = .error e := if_neg h
    rw [Avoids, hrun]
    exact ⟨fun _ hle => absurd hle h, fun _ => he⟩

/-- `n` fields of one kind, when one field asks `room` of the bytes in front of `k`. -/
theorem avoids_repeated {p : Reader α} {room : (Bytes → Prop) → Bytes → Prop}
    (hp : ∀ (b : Bytes) (Q : Bytes → Prop), (Avoids .panic p b fun _ => Q) ↔ room Q b)
    (n : Nat) (Q : Bytes → Prop) :
    (Avoids .panic (repeated p n) b fun _ => Q) ↔ room^[n] Q b := by
  induction n generalizing b with
  | zero => exact Iff.rfl
  | succ n ih =>
    have hrest : ∀ (a : α) (rest : Bytes),
        Avoids .panic (do let as ← repeated p n; pure (a :: as)) rest (fun _ => Q) ↔
          room^[n] Q rest := by
      intro a rest
      rw [Avoids.bind_iff]
      exact ih
    rw [repeated, Avoids.bind_iff, Avoids.congr hrest, hp, Function.iterate_succ_apply']

end Readers

/-! ## Tuples and columns -/

section Tuples

variable {b : Bytes} {Q : Bytes → Prop}

/-- A length, and so many bytes behind it. -/
private theorem avoids_sized {e : ParseError} (he : e ≠ .panic) {f : Bytes → TupleValue} :
    (Avoids .panic (do let len ← getUInt 4; let v ← getBytes e len; pure (f v) : Reader TupleValue)
      b fun _ => Q) ↔
      4 ≤ b.length ∧ (4 + beNat (b.take 4) ≤ b.length → Q (b.drop (4 + beNat (b.take 4)))) := by
  rw [Avoids.bind_iff, avoids_getUInt]
  refine and_congr_right fun hlen => ?_
  rw [← List.drop_drop]
  rw [Avoids.bind_pure, avoids_getBytes he, List.length_drop]
  constructor
  · intro h hle
    exact h (by omega)
  · intro h hle
    exact h (by omega)

theorem avoids_parseValue (b : Bytes) (Q : Bytes → Prop) :
    (Avoids .panic parseValue b fun _ => Q) ↔ RoomValue Q b := by
  rw [parseValue, Avoids.bind_iff]
  cases b with
  | nil => exact avoids_getU8_nil
  | cons kind b =>
    rw [avoids_getU8_cons, RoomValue]
    by_cases hnull : kind = 0x6E
    · rw [if_pos hnull, if_pos (Or.inl hnull)]
      exact Iff.rfl
    · rw [if_neg hnull]
      by_cases htoast : kind = 0x75
      · rw [if_pos htoast, if_pos (Or.inr htoast)]
        exact Iff.rfl
      · rw [if_neg htoast, if_neg (not_or.mpr ⟨hnull, htoast⟩)]
        by_cases htext : kind = 0x74
        · rw [if_pos htext, if_pos (Or.inl htext)]
          exact avoids_sized (by decide)
        · rw [if_neg htext]
          by_cases hbinary : kind = 0x62
          · rw [if_pos hbinary, if_pos (Or.inr hbinary)]
            exact avoids_sized (by decide)
          · rw [if_neg hbinary, if_neg (not_or.mpr ⟨htext, hbinary⟩)]
            exact avoids_fail (by simp)

theorem avoids_parseTuple : (Avoids .panic parseTuple b fun _ => Q) ↔ RoomTuple Q b := by
  rw [parseTuple, Avoids.bind_iff, avoids_getUInt, RoomTuple,
    avoids_repeated avoids_parseValue]

theorem avoids_parseColumn (b : Bytes) (Q : Bytes → Prop) :
    (Avoids .panic parseColumn b fun _ => Q) ↔ RoomColumn Q b := by
  refine Avoids.bind_const avoids_getU8 fun flags b => ?_
  refine Avoids.bind_const avoids_getCstr fun name b => ?_
  rw [← room_add (m := 4) (n := 4)]
  refine Avoids.bind_const (K := fun b => 4 ≤ b.length ∧ Q (b.drop 4)) avoids_getUInt
    fun typeOid b => ?_
  exact Avoids.bind_pure.trans avoids_getI32

end Tuples

/-! ## The messages -/

section Messages

variable {b : Bytes}

/-- Nothing more is asked behind the message. -/
abbrev Safe {α : Type} (p : Reader α) (b : Bytes) : Prop := Avoids .panic p b fun _ _ => True

theorem safe_parseRelation : Safe parseRelation b ↔ RoomRelation b := by
  refine Avoids.bind_const avoids_getUInt fun relid b => ?_
  refine Avoids.bind_const avoids_getCstr fun ns b => ?_
  refine Avoids.bind_const avoids_getCstr fun name b => ?_
  rw [Avoids.bind_iff, avoids_getU8, Avoids.bind_iff, avoids_getUInt]
  rw [← room_add (m := 1) (n := 2) (Q := fun b => RoomColumn^[_] (fun _ => True) b)]
  refine and_congr_right fun _ => and_congr_right fun _ => ?_
  exact Avoids.bind_pure.trans (avoids_repeated avoids_parseColumn _ _)

/-- The rest of an insert or an update behind the tag of its new tuple. -/
private theorem safe_new {e : UInt8 → ParseError} (he : ∀ kind, e kind ≠ .panic)
    {f : List TupleValue → Message} {kind : UInt8} :
    Safe (if kind = 0x4E then do let new ← parseTuple; pure (f new) else fail (e kind)) b ↔
      RoomNew (kind :: b) := by
  by_cases h : kind = 0x4E
  · rw [if_pos h]
    refine (Avoids.bind_pure.trans avoids_parseTuple).trans ?_
    exact ⟨fun hroom _ => hroom, fun hroom => hroom h⟩
  · rw [if_neg h]
    refine (avoids_fail (he kind)).trans ?_
    exact ⟨fun _ hkind => absurd hkind h, fun _ => trivial⟩

theorem safe_parseInsert : Safe parseInsert b ↔ 4 ≤ b.length ∧ RoomNew (b.drop 4) := by
  refine Avoids.bind_const avoids_getUInt fun relid b => ?_
  rw [Avoids.bind_iff]
  cases b with
  | nil => exact avoids_getU8_nil
  | cons kind b => exact safe_new (fun _ => ParseError.noConfusion)

theorem safe_parseUpdate : Safe parseUpdate b ↔ 4 ≤ b.length ∧ RoomUpdate (b.drop 4) := by
  refine Avoids.bind_const avoids_getUInt fun relid b => ?_
  have hnew : ∀ (old : Option (UInt8 × List TupleValue)) (kind : UInt8) (b : Bytes),
      Safe (if kind = 0x4E then do
          let new ← parseTuple
          pure (Message.update relid old new)
        else fail (.updateKind kind)) b ↔ RoomNew (kind :: b) :=
    fun old kind b => safe_new (fun _ => ParseError.noConfusion)
  rw [Avoids.bind_iff, parseOld, Avoids.bind_iff]
  cases b with
  | nil => exact avoids_getU8_nil
  | cons kind b =>
    rw [avoids_getU8_cons, RoomUpdate]
    by_cases hold : kind = 0x4B ∨ kind = 0x4F
    · rw [if_pos hold, if_pos hold]
      refine Avoids.bind_const avoids_parseTuple fun old b => ?_
      rw [Avoids.bind_iff]
      cases b with
      | nil => exact avoids_getU8_nil
      | cons next b => exact hnew (some (kind, old)) next b
    · rw [if_neg hold, if_neg hold]
      exact hnew none kind b

theorem safe_parseDelete : Safe parseDelete b ↔ 4 ≤ b.length ∧ RoomDelete (b.drop 4) := by
  refine Avoids.bind_const avoids_getUInt fun relid b => ?_
  rw [Avoids.bind_iff]
  cases b with
  | nil => exact avoids_getU8_nil
  | cons kind b =>
    rw [avoids_getU8_cons, RoomDelete]
    by_cases hold : kind = 0x4B ∨ kind = 0x4F
    · rw [if_pos hold]
      refine (Avoids.bind_pure.trans avoids_parseTuple).trans ?_
      exact ⟨fun hroom _ => hroom, fun hroom => hroom hold⟩
    · rw [if_neg hold]
      refine (avoids_fail ParseError.noConfusion).trans ?_
      exact ⟨fun _ hkind => absurd hkind hold, fun _ => trivial⟩

theorem safe_parseLogical :
    Safe parseLogical b ↔ 9 ≤ b.length ∧ AfterNul (fun b => 4 ≤ b.length) (b.drop 9) := by
  rw [← room_add (m := 1) (n := 8)]
  refine Avoids.bind_const (K := fun b => 8 ≤ b.length ∧ AfterNul _ (b.drop 8)) avoids_getU8
    fun flags b => ?_
  refine Avoids.bind_const avoids_getUInt fun lsn b => ?_
  refine Avoids.bind_const avoids_getCstr fun tag b => ?_
  refine Avoids.bind_iff.trans (avoids_getUInt.trans (and_iff_left ?_))
  exact (Avoids.bind_pure.trans (avoids_getBytes ParseError.noConfusion)).mpr fun _ => trivial

theorem safe_parseCommit : Safe parseCommit b ↔ 25 ≤ b.length := by
  simp only [parseCommit, getI64, Avoids.bind_iff, Avoids.pure_iff, avoids_getU8, avoids_getUInt,
    List.length_drop, and_true]
  omega

theorem safe_relids {n : Nat} {options : UInt8} :
    Safe (do let relids ← repeated (getUInt 4) n; pure (Message.truncate options relids)) b ↔
      4 * n ≤ b.length := by
  refine (Avoids.bind_pure.trans (avoids_repeated (fun _ _ => avoids_getUInt) n _)).trans ?_
  induction n generalizing b with
  | zero => simp
  | succ n ih =>
    rw [Function.iterate_succ_apply', ih, List.length_drop]
    omega

theorem safe_begin :
    Safe (do
      let finalLsn ← getUInt 8
      let commitTs ← getI64
      let xid ← getUInt 4
      pure (Message.begin finalLsn commitTs xid)) b ↔ 20 ≤ b.length := by
  simp only [getI64, Avoids.bind_iff, Avoids.pure_iff, avoids_getUInt, List.length_drop, and_true]
  omega

/-- A string at the end of a message asks for nothing. -/
theorem safe_cstr {f : String → Message} : Safe (do let s ← getCstr; pure (f s)) b ↔ True :=
  (Avoids.bind_pure.trans avoids_getCstr).trans (iff_true_intro fun _ => trivial)

theorem safe_origin :
    Safe (do
      let commitLsn ← getUInt 8
      let name ← getCstr
      pure (Message.origin commitLsn name)) b ↔ 8 ≤ b.length := by
  refine Avoids.bind_iff.trans (avoids_getUInt.trans (and_iff_left ?_))
  exact safe_cstr.mpr trivial

theorem safe_type :
    Safe (do
      let typeOid ← getUInt 4
      let ns ← getCstr
      let name ← getCstr
      pure (Message.type typeOid ns name)) b ↔ 4 ≤ b.length := by
  refine Avoids.bind_iff.trans (avoids_getUInt.trans (and_iff_left ?_))
  exact (Avoids.bind_const avoids_getCstr fun ns b => safe_cstr).mpr fun _ => trivial

theorem safe_truncate :
    Safe (do
      let nrels ← getUInt 4
      let options ← getU8
      let relids ← repeated (getUInt 4) nrels
      pure (Message.truncate options relids)) b ↔ 5 + 4 * beNat (b.take 4) ≤ b.length := by
  rw [Safe, Avoids.bind_iff, avoids_getUInt, Avoids.bind_iff, avoids_getU8]
  refine (and_congr_right fun _ => and_congr_right fun _ => safe_relids).trans ?_
  simp only [List.length_drop]
  omega

/-- A branch of the parser asks for what its message asks. -/
theorem safe_ite {c : Prop} [Decidable c] {p q : Reader Message} {P Q : Prop}
    (hp : Safe p b ↔ P) (hq : Safe q b ↔ Q) :
    Safe (if c then p else q) b ↔ if c then P else Q := by
  by_cases h : c
  · rw [if_pos h, if_pos h]
    exact hp
  · rw [if_neg h, if_neg h]
    exact hq

theorem safe_parseBody {tag : UInt8} : Safe (parseBody tag) b ↔ Room (tag :: b) :=
  safe_ite safe_begin <| safe_ite safe_parseCommit <| safe_ite safe_origin <|
  safe_ite safe_parseRelation <| safe_ite safe_type <| safe_ite safe_parseInsert <|
  safe_ite safe_parseUpdate <| safe_ite safe_parseDelete <| safe_ite safe_truncate <|
  safe_ite safe_parseLogical <| avoids_fail ParseError.noConfusion

end Messages

/-- The parser panics on the payloads without room for a field, and on no other. -/
theorem parse_ne_panic_iff (payload : Bytes) : parse payload ≠ .error .panic ↔ Room payload := by
  cases payload with
  | nil => simp [parse, Room]
  | cons tag b =>
    rw [← safe_parseBody, Safe, Avoids.true_iff]
    show (parseBody tag b).map Prod.fst ≠ _ ↔ parseBody tag b ≠ _
    cases parseBody tag b with
    | error e => simp [Except.map]
    | ok r => simp [Except.map]

theorem parse_panics_on_begin : ¬ ∀ payload, parse payload ≠ .error .panic :=
  fun h => h [0x42] rfl

/-- The payloads that the server writes have room. -/
theorem room_encode {m : Message} (h : m.Fits) : Room m.encode := by
  rw [← parse_ne_panic_iff, (parse_encode h).1]
  nofun

end GrayDB.Registry
