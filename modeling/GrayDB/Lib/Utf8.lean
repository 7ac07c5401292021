import Mathlib.Tactic.Common

/-!
# Lossy UTF-8

`utf8Lossy` reads bytes as UTF-8 and puts U+FFFD in the place of each maximal part
that is not valid, as `String::from_utf8_lossy` does.

* `utf8Lossy_toUTF8`: the bytes of a string are read as the string.
* `utf8EncodeChar_of_ascii`: a byte below 0x80 is never part of a longer sequence,
  so a separator below 0x80 does not cut a character.
-/

namespace Lib

/-- A continuation byte between two bounds. -/
private def cont (lo hi : UInt8) (b : UInt8) : Bool := lo ≤ b && b ≤ hi

/-- The length of a sequence that begins with this byte, and the bounds of its second
byte. -/
def utf8Head (b : UInt8) : Option (Nat × UInt8 × UInt8) :=
  if b < 0x80 then some (1, 0, 0)
  else if b < 0xC2 then none
  else if b < 0xE0 then some (2, 0x80, 0xBF)
  else if b = 0xE0 then some (3, 0xA0, 0xBF)
  else if b = 0xED then some (3, 0x80, 0x9F)
  else if b < 0xF0 then some (3, 0x80, 0xBF)
  else if b = 0xF0 then some (4, 0x90, 0xBF)
  else if b < 0xF4 then some (4, 0x80, 0xBF)
  else if b = 0xF4 then some (4, 0x80, 0x8F)
  else none

/-- How many of the next bytes continue the sequence, at most `n`. -/
def utf8Tail (lo hi : UInt8) : Nat → List UInt8 → Nat
  | 0, _ | _, [] => 0
  | n + 1, b :: bs => if cont lo hi b then utf8Tail 0x80 0xBF n bs + 1 else 0

/-- The code point of a whole sequence. -/
def utf8Value : List UInt8 → Nat
  | [] => 0
  | b :: bs =>
    let head := match bs.length with
      | 0 => b.toNat
      | 1 => b.toNat % 0x20
      | 2 => b.toNat % 0x10
      | _ => b.toNat % 0x08
    bs.foldl (fun n c => n * 0x40 + c.toNat % 0x40) head

/-- Each round takes at least one byte, so `bs.length` rounds are enough. -/
def utf8LossyAux : Nat → List UInt8 → List Char
  | 0, _ | _, [] => []
  | fuel + 1, b :: bs =>
    match utf8Head b with
    | none => '\uFFFD' :: utf8LossyAux fuel bs
    | some (n, lo, hi) =>
      let k := utf8Tail lo hi (n - 1) bs
      if k + 1 = n then Char.ofNat (utf8Value (b :: bs.take k)) :: utf8LossyAux fuel (bs.drop k)
      else '\uFFFD' :: utf8LossyAux fuel (bs.drop k)

def utf8Lossy (bs : List UInt8) : String := String.ofList (utf8LossyAux bs.length bs)

example : utf8Lossy [0x61, 0xC3, 0xA9, 0xE2, 0x82, 0x62, 0xF0, 0x9F, 0x98, 0x80]
    = "aé\uFFFDb😀" := by decide +kernel

private theorem toList_loop (bs : ByteArray) (i : Nat) (r : List UInt8) :
    ByteArray.toList.loop bs i r = r.reverse ++ bs.data.toList.drop i := by
  fun_induction ByteArray.toList.loop bs i r with
  | case1 i r hlt ih =>
    have hlt' : i < bs.data.toList.length := hlt
    rw [ih, List.drop_eq_getElem_cons hlt', List.reverse_cons, List.append_assoc]
    have hget : bs.get! i = bs.data.toList[i] := by
      obtain ⟨data⟩ := bs
      exact getElem!_pos data i hlt
    rw [hget]
    rfl
  | case2 i r hge =>
    have hge' : bs.data.toList.length ≤ i := Nat.le_of_not_lt hge
    rw [List.drop_eq_nil_of_le hge', List.append_nil]

private theorem toList_data (bs : ByteArray) : bs.toList = bs.data.toList := toList_loop bs 0 []

/-- A string is its bytes. -/
theorem toUTF8_toList_injective {s t : String} (h : s.toUTF8.toList = t.toUTF8.toList) : s = t := by
  rw [toList_data, toList_data, Array.toList_inj] at h
  exact String.toByteArray_inj.mp (ByteArray.ext h)

/-- Bytes below 0x80 are one character each. -/
theorem utf8Lossy_ascii {bs : List UInt8} (h : ∀ b ∈ bs, b < 0x80) :
    utf8Lossy bs = String.ofList (bs.map fun b => Char.ofNat b.toNat) := by
  have haux : ∀ bs : List UInt8, (∀ b ∈ bs, b < 0x80) →
      utf8LossyAux bs.length bs = bs.map fun b => Char.ofNat b.toNat := by
    intro bs hbs
    induction bs with
    | nil => rfl
    | cons b bs ih =>
      have hhead : utf8Head b = some (1, 0, 0) := if_pos (hbs b List.mem_cons_self)
      rw [List.length_cons, utf8LossyAux, hhead]
      have htail : utf8Tail 0 0 (1 - 1) bs = 0 := by cases bs <;> rfl
      simp only [htail]
      rw [if_pos trivial, List.drop_zero, ih fun x hx => hbs x (List.mem_cons_of_mem b hx)]
      rfl
  rw [utf8Lossy, haux bs h]

theorem utf8ByteSize_eq (s : String) : s.utf8ByteSize = s.toUTF8.toList.length := by
  rw [toList_data]
  rfl

/-! ## Whole strings -/

theorem toUTF8_toList (s : String) :
    s.toUTF8.toList = s.toList.flatMap String.utf8EncodeChar := by
  rw [toList_data, String.toUTF8_eq_toByteArray, ← String.utf8Encode_toList, List.utf8Encode,
    List.data_toByteArray, List.toList_toArray]

/-- A character has at most four bytes. -/
theorem utf8ByteSize_le (s : String) : s.utf8ByteSize ≤ 4 * s.toList.length := by
  rw [utf8ByteSize_eq, toUTF8_toList]
  induction s.toList with
  | nil => exact Nat.le_refl 0
  | cons c cs ih =>
    have hchar : (String.utf8EncodeChar c).length ≤ 4 := by
      rw [String.length_utf8EncodeChar]
      exact Char.utf8Size_le_four c
    rw [List.flatMap_cons, List.length_append, List.length_cons]
    omega

/-- A first byte, and which second bytes may follow it. -/
private def Opens (n first second : Nat) : Prop :=
  match utf8Head (UInt8.ofNat first) with
  | some (m, lo, hi) => m = n ∧ cont lo hi (UInt8.ofNat second) = true
  | none => False

private instance (n first second : Nat) : Decidable (Opens n first second) := by
  unfold Opens
  split <;> infer_instance

private theorem opens_two : ∀ k < 32, 2 ≤ k → ∀ m < 64, Opens 2 (k + 0xC0) (m + 0x80) := by
  decide +kernel

/-- A sequence of three bytes is not overlong, and not a surrogate. -/
private theorem opens_three : ∀ k < 16, ∀ m < 64, (k = 0 → 32 ≤ m) → (k = 13 → m < 32) →
    Opens 3 (k + 0xE0) (m + 0x80) := by
  decide +kernel

/-- A sequence of four bytes is not overlong, and not above U+10FFFF. -/
private theorem opens_four : ∀ k < 5, ∀ m < 64, (k = 0 → 16 ≤ m) → (k = 4 → m < 16) →
    Opens 4 (k + 0xF0) (m + 0x80) := by
  decide +kernel

private theorem cont_ofNat : ∀ m < 64, cont 0x80 0xBF (UInt8.ofNat (m + 0x80)) = true := by
  decide +kernel

/-- A sequence whose second byte may follow its first, and whose other bytes
continue it, is one character. -/
private theorem utf8LossyAux_opens {first second : Nat} (ms : List Nat) (rest : List UInt8)
    (fuel : Nat) (h : Opens (ms.length + 2) first second) (hms : ∀ m ∈ ms, m < 64) :
    utf8LossyAux (fuel + 1) (UInt8.ofNat first :: UInt8.ofNat second ::
        (ms.map fun m => UInt8.ofNat (m + 0x80)) ++ rest)
      = Char.ofNat (utf8Value (UInt8.ofNat first :: UInt8.ofNat second ::
          ms.map fun m => UInt8.ofNat (m + 0x80))) :: utf8LossyAux fuel rest := by
  have htail : ∀ ms : List Nat, (∀ m ∈ ms, m < 64) →
      utf8Tail 0x80 0xBF ms.length ((ms.map fun m => UInt8.ofNat (m + 0x80)) ++ rest)
        = ms.length := by
    intro ms
    induction ms with
    | nil => intro _; cases rest <;> rfl
    | cons m ms ih =>
      intro hms
      rw [List.length_cons, List.map_cons, List.cons_append, utf8Tail,
        if_pos (cont_ofNat m (hms m List.mem_cons_self)),
        ih fun m hm => hms m (List.mem_cons_of_mem _ hm)]
  unfold Opens at h
  cases hhead : utf8Head (UInt8.ofNat first) with
  | none => simp [hhead] at h
  | some x =>
    obtain ⟨n, lo, hi⟩ := x
    simp only [hhead] at h
    obtain ⟨rfl, hsecond⟩ := h
    have hcount : utf8Tail lo hi (ms.length + 2 - 1) (UInt8.ofNat second ::
        ((ms.map fun m => UInt8.ofNat (m + 0x80)) ++ rest)) = ms.length + 1 := by
      show utf8Tail lo hi (ms.length + 1) _ = _
      rw [utf8Tail, if_pos hsecond, htail ms hms]
    have hlen : (ms.map fun m => UInt8.ofNat (m + 0x80)).length = ms.length := List.length_map _
    rw [List.cons_append, List.cons_append, utf8LossyAux, hhead]
    simp only [hcount]
    rw [if_pos trivial, List.take_succ_cons, List.drop_succ_cons, List.take_left' hlen,
      List.drop_left' hlen]

/-- The encoding of a character is read as that character. -/
theorem utf8LossyAux_encodeChar (c : Char) (rest : List UInt8) (fuel : Nat) :
    utf8LossyAux (fuel + 1) (String.utf8EncodeChar c ++ rest) = c :: utf8LossyAux fuel rest := by
  have hvalid : c.toNat < 0xD800 ∨ 0xDFFF < c.toNat ∧ c.toNat < 0x110000 := c.valid
  have hc : Char.ofNat c.toNat = c := Char.ofNat_toNat c
  have hbyte : ∀ k < 256, (UInt8.ofNat k).toNat = k := fun k hk => UInt8.toNat_ofNat_of_lt' hk
  unfold String.utf8EncodeChar
  simp only [show c.val.toNat = c.toNat from rfl]
  generalize c.toNat = v at hvalid hc
  by_cases h1 : v ≤ 0x7F
  · have hhead : utf8Head (UInt8.ofNat v) = some (1, 0, 0) := by
      have hlt : UInt8.ofNat v < 0x80 := by
        rw [UInt8.lt_iff_toNat_lt, hbyte v (by omega)]
        show v < 128
        omega
      exact if_pos hlt
    have htail : utf8Tail 0 0 (1 - 1) rest = 0 := by cases rest <;> rfl
    rw [if_pos h1, List.cons_append, List.nil_append, utf8LossyAux, hhead]
    simp only [htail]
    rw [if_pos trivial, List.drop_zero, List.take_zero, ← hc]
    show Char.ofNat (UInt8.ofNat v).toNat :: _ = _
    rw [hbyte v (by omega)]
  · rw [if_neg h1]
    by_cases h2 : v ≤ 0x7FF
    · have hopens : Opens 2 (v / 64 % 0x20 + 0xC0) (v % 0x40 + 0x80) :=
        opens_two _ (by omega) (by omega) _ (by omega)
      have hread := utf8LossyAux_opens [] rest fuel hopens (fun m hm => nomatch hm)
      rw [if_pos h2]
      refine hread.trans ?_
      rw [← hc]
      congr 2
      show ((UInt8.ofNat _).toNat % 0x20) * 0x40 + (UInt8.ofNat _).toNat % 0x40 = v
      rw [hbyte _ (by omega), hbyte _ (by omega)]
      omega
    · rw [if_neg h2]
      by_cases h3 : v ≤ 0xFFFF
      · have hopens : Opens 3 (v / 4096 % 0x10 + 0xE0) (v / 64 % 0x40 + 0x80) :=
          opens_three _ (by omega) _ (by omega) (by omega) (by omega)
        have hread := utf8LossyAux_opens [v % 0x40] rest fuel hopens
          (fun m hm => by rw [List.mem_singleton] at hm; omega)
        rw [if_pos h3]
        refine hread.trans ?_
        rw [← hc]
        congr 2
        show ((UInt8.ofNat _).toNat % 0x10 * 0x40 + (UInt8.ofNat _).toNat % 0x40) * 0x40
          + (UInt8.ofNat _).toNat % 0x40 = v
        rw [hbyte _ (by omega), hbyte _ (by omega), hbyte _ (by omega)]
        omega
      · have hopens : Opens 4 (v / 262144 % 0x08 + 0xF0) (v / 4096 % 0x40 + 0x80) :=
          opens_four _ (by omega) _ (by omega) (by omega) (by omega)
        have hread := utf8LossyAux_opens [v / 64 % 0x40, v % 0x40] rest fuel hopens
          (fun m hm => by
            rw [List.mem_cons, List.mem_singleton] at hm
            omega)
        rw [if_neg h3]
        refine hread.trans ?_
        rw [← hc]
        congr 2
        show (((UInt8.ofNat _).toNat % 0x08 * 0x40 + (UInt8.ofNat _).toNat % 0x40) * 0x40
          + (UInt8.ofNat _).toNat % 0x40) * 0x40 + (UInt8.ofNat _).toNat % 0x40 = v
        rw [hbyte _ (by omega), hbyte _ (by omega), hbyte _ (by omega), hbyte _ (by omega)]
        omega

/-- The bytes of a string are read as the string. -/
theorem utf8Lossy_toUTF8 (s : String) : utf8Lossy s.toUTF8.toList = s := by
  have haux : ∀ (l : List Char) (fuel : Nat), (l.flatMap String.utf8EncodeChar).length ≤ fuel →
      utf8LossyAux fuel (l.flatMap String.utf8EncodeChar) = l := by
    intro l
    induction l with
    | nil => intro fuel _; cases fuel <;> rfl
    | cons c l ih =>
      intro fuel hfuel
      have hpos : 0 < (String.utf8EncodeChar c).length :=
        List.length_pos_iff.mpr String.utf8EncodeChar_ne_nil
      rw [List.flatMap_cons, List.length_append] at hfuel
      obtain ⟨fuel, rfl⟩ : ∃ k, fuel = k + 1 := ⟨fuel - 1, by omega⟩
      rw [List.flatMap_cons, utf8LossyAux_encodeChar, ih fuel (by omega)]
  rw [utf8Lossy, toUTF8_toList, haux _ _ (Nat.le_refl _), String.ofList_toList]

/-- A byte below 0x80 of an encoding is a character of its own. -/
theorem utf8EncodeChar_of_ascii {c : Char} {b : UInt8} (h : b ∈ String.utf8EncodeChar c)
    (hb : b < 0x80) : c = Char.ofNat b.toNat ∧ String.utf8EncodeChar c = [b] := by
  have hbig : ∀ k < 256, 0x80 ≤ k → UInt8.ofNat k ≠ b := by
    intro k hk hge heq
    rw [← heq, UInt8.lt_iff_toNat_lt, UInt8.toNat_ofNat_of_lt' hk] at hb
    have : k < 0x80 := hb
    omega
  have hc : Char.ofNat c.toNat = c := Char.ofNat_toNat c
  unfold String.utf8EncodeChar at h ⊢
  simp only [show c.val.toNat = c.toNat from rfl] at h ⊢
  by_cases h1 : c.toNat ≤ 0x7F
  · rw [if_pos h1, List.mem_singleton] at h
    rw [if_pos h1, h]
    refine ⟨?_, rfl⟩
    show c = Char.ofNat (UInt8.ofNat c.toNat).toNat
    rw [UInt8.toNat_ofNat_of_lt' (by show _ < 256; omega), hc]
  · rw [if_neg h1] at h
    split at h
    · simp only [List.mem_cons, List.not_mem_nil, or_false] at h
      obtain h | h := h <;> exact absurd h.symm (hbig _ (by omega) (by omega))
    · split at h
      · simp only [List.mem_cons, List.not_mem_nil, or_false] at h
        obtain h | h | h := h <;> exact absurd h.symm (hbig _ (by omega) (by omega))
      · simp only [List.mem_cons, List.not_mem_nil, or_false] at h
        obtain h | h | h | h := h <;> exact absurd h.symm (hbig _ (by omega) (by omega))

/-- Bytes are valid UTF-8 when nothing has to be replaced. -/
def utf8Valid (bs : List UInt8) : Bool := decide ((utf8Lossy bs).toUTF8.toList = bs)

private theorem encodeChar_ascii :
    ∀ k < 128, String.utf8EncodeChar (Char.ofNat k) = [UInt8.ofNat k] := by
  decide +kernel

theorem utf8Valid_ascii {bs : List UInt8} (h : ∀ b ∈ bs, b < 0x80) : utf8Valid bs = true := by
  apply decide_eq_true
  rw [utf8Lossy_ascii h, toUTF8_toList, String.toList_ofList]
  induction bs with
  | nil => rfl
  | cons b bs ih =>
    have hb : b.toNat < 128 := UInt8.lt_iff_toNat_lt.mp (h b List.mem_cons_self)
    rw [List.map_cons, List.flatMap_cons, encodeChar_ascii _ hb, UInt8.ofNat_toNat,
      ih fun x hx => h x (List.mem_cons_of_mem b hx)]
    rfl

end Lib
