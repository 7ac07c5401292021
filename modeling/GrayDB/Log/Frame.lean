import GrayDB.Lib.Digits
import Mathlib.Data.List.Infix

/-!
# Frames of the durable log

One frame carries one raw pgoutput message.  On disk it is a fixed header, the
payload and a CRC-32C of both:

    magic  seq  lsn_start  lsn_end  flags  payload_len  payload  crc
      4     8       8         8       1         4          n      4

`encodeFrame` and `decodeFrame` are the two directions.  The checksum is the
`crc32c` crate, which enters as the class `Crc32c`; nothing below depends on
which function it is, because a torn frame is told from a whole one by its
length alone.

* `decodeFrame_encodeFrame` reads a frame back and leaves the bytes behind it.
* `decodeFrame_of_torn` says that a frame cut anywhere before its end is an
  error.
* `readFrames` is the decode loop that `FrameLog::resume`, `verify_log` and
  `LogTail::read_new` share, and `readFrames_encodeFrames` is its result on
  whole frames with a torn rest.
-/

namespace GrayDB.Log

open Lib

abbrev Bytes := List UInt8

/-- The checksum of the `crc32c` crate. -/
class Crc32c where
  crc32c : Bytes → UInt32

export Crc32c (crc32c)

/-- One byte of CRC-32C, bit by bit, with the reflected Castagnoli polynomial. -/
def crc32cByte (crc : UInt32) (b : UInt8) : UInt32 :=
  (List.range 8).foldl
    (fun crc _ => if crc &&& 1 = 1 then (crc >>> 1) ^^^ 0x82F63B78 else crc >>> 1)
    (crc ^^^ b.toUInt32)

/-- CRC-32C, for runs on fixed inputs. -/
@[reducible] def castagnoli : Crc32c :=
  ⟨fun b => b.foldl crc32cByte 0xFFFFFFFF ^^^ 0xFFFFFFFF⟩

example : castagnoli.crc32c "123456789".toUTF8.toList = 0xE3069283 := by decide +kernel

/-- `"GDBF"`. -/
def frameMagic : Nat := 0x47444246

/-- magic, seq, the two LSNs, flags, payload length. -/
def headerLen : Nat := 4 + 8 + 8 + 8 + 1 + 4

def flagTxnComplete : UInt8 := 1

structure Frame where
  seq : Nat
  lsnStart : Nat
  lsnEnd : Nat
  txnComplete : Bool
  payload : Bytes
  deriving DecidableEq, Repr

/-- The fields of a frame are machine words: `seq` and the LSNs are `u64`, and
the length of the payload is written as a `u32`. -/
structure Frame.Fits (f : Frame) : Prop where
  seq : f.seq < 2 ^ 64
  lsnStart : f.lsnStart < 2 ^ 64
  lsnEnd : f.lsnEnd < 2 ^ 64
  payload : f.payload.length < 2 ^ 32

/-- The fixed part of a frame, up to the payload. -/
def frameHeader (f : Frame) : Bytes :=
  beBytes 4 frameMagic ++ (beBytes 8 f.seq ++ (beBytes 8 f.lsnStart ++ (beBytes 8 f.lsnEnd ++
    ((if f.txnComplete then flagTxnComplete else 0) :: beBytes 4 f.payload.length))))

/-- The text of each error is the one `decode_frame` gives. -/
inductive DecodeError where
  | truncatedHeader (trailing : Nat)
  | badMagic (magic : Nat)
  | truncatedPayload (seq need have_ : Nat)
  | crcMismatch (seq : Nat) (stored actual : Nat)
  deriving DecidableEq, Repr

/-- `0x` and the lower-case hexadecimal digits of `n`. -/
def hex (n : Nat) : String := "0x" ++ String.ofList (Nat.toDigits 16 n)

/-- `0x` and eight digits, as `{:#010x}` writes a `u32`. -/
def hex8 (n : Nat) : String :=
  "0x" ++ String.ofList ((beDigits 16 8 n).map Nat.digitChar)

def DecodeError.message : DecodeError → String
  | .truncatedHeader n => s!"truncated frame header ({n} trailing bytes)"
  | .badMagic magic => "bad frame magic " ++ hex8 magic
  | .truncatedPayload seq need got =>
    s!"truncated frame payload (seq {seq}: need {need}, have {got})"
  | .crcMismatch seq stored actual =>
    s!"crc mismatch on frame seq {seq}: stored " ++ hex stored ++ " actual " ++ hex actual

/-- Whether the text of the error holds the word `truncated`. -/
def DecodeError.truncated : DecodeError → Bool
  | .truncatedHeader _ | .truncatedPayload _ _ _ => true
  | .badMagic _ | .crcMismatch _ _ _ => false

/-- A big-endian read of `w` bytes off the front. -/
def getNat (w : Nat) (b : Bytes) : Nat × Bytes := (beNat (b.take w), b.drop w)

section Codec

variable [Crc32c]

def encodeFrame (f : Frame) : Bytes :=
  let buf := frameHeader f ++ f.payload
  buf ++ beBytes 4 (crc32c buf).toNat

/-- One frame from the head of `data`, with the bytes behind it.  `none` is the
clean end. -/
def decodeFrame (data : Bytes) : Except DecodeError (Option (Frame × Bytes)) :=
  if data.isEmpty then
    .ok none
  else if data.length < headerLen + 4 then
    .error (.truncatedHeader data.length)
  else
    let (magic, hdr) := getNat 4 data
    if magic ≠ frameMagic then
      .error (.badMagic magic)
    else
      let (seq, hdr) := getNat 8 hdr
      let (lsnStart, hdr) := getNat 8 hdr
      let (lsnEnd, hdr) := getNat 8 hdr
      let flags := hdr.headD 0
      let (payloadLen, _) := getNat 4 hdr.tail
      let total := headerLen + payloadLen + 4
      if data.length < total then
        .error (.truncatedPayload seq total data.length)
      else
        let crcStored := beNat ((data.drop (headerLen + payloadLen)).take 4)
        let crcActual := (crc32c (data.take (headerLen + payloadLen))).toNat
        if crcStored ≠ crcActual then
          .error (.crcMismatch seq crcStored crcActual)
        else
          .ok (some
            ({ seq, lsnStart, lsnEnd
               txnComplete := flags &&& flagTxnComplete != 0
               payload := (data.drop headerLen).take payloadLen },
              data.drop total))

/-- The decode loop: the frames at the head of `data`, each with the bytes it
took, and the error that stopped the loop, if any.  A frame takes at least one
byte, so `data.length + 1` rounds are enough. -/
def readFramesAux : Nat → Bytes → List (Frame × Nat) × Option DecodeError
  | 0, _ => ([], none)
  | fuel + 1, data =>
    match decodeFrame data with
    | .ok none => ([], none)
    | .error e => ([], some e)
    | .ok (some (frame, rest)) =>
      let (frames, e) := readFramesAux fuel rest
      ((frame, data.length - rest.length) :: frames, e)

def readFrames (data : Bytes) : List (Frame × Nat) × Option DecodeError :=
  readFramesAux (data.length + 1) data

/-- The bytes of a run of frames. -/
def encodeFrames (fs : List Frame) : Bytes := fs.flatMap encodeFrame

end Codec

/-! ## Lengths -/

@[simp] theorem length_frameHeader (f : Frame) : (frameHeader f).length = headerLen := by
  simp [frameHeader, headerLen]

/-- `getNat` takes a field off the front of what follows it. -/
theorem getNat_beBytes {w n : Nat} (h : n < 256 ^ w) (rest : Bytes) :
    getNat w (beBytes w n ++ rest) = (n, rest) := by
  have hlen : (beBytes w n).length = w := length_beBytes w n
  rw [getNat, List.take_left' hlen, List.drop_left' hlen, beNat_beBytes h]

section Lemmas

variable [Crc32c]

theorem length_encodeFrame (f : Frame) :
    (encodeFrame f).length = headerLen + f.payload.length + 4 := by
  simp [encodeFrame, Nat.add_assoc]

theorem encodeFrame_ne_nil (f : Frame) : encodeFrame f ≠ [] := by
  intro h
  have := length_encodeFrame f
  simp [h] at this

@[simp] theorem encodeFrames_nil : encodeFrames [] = [] := rfl

@[simp] theorem encodeFrames_cons (f : Frame) (fs : List Frame) :
    encodeFrames (f :: fs) = encodeFrame f ++ encodeFrames fs := rfl

@[simp] theorem encodeFrames_append (fs gs : List Frame) :
    encodeFrames (fs ++ gs) = encodeFrames fs ++ encodeFrames gs := by
  simp [encodeFrames]

/-! ## One frame -/

/-- What `decodeFrame` does behind the header of a frame: the header fixes the
length, and the rest is the length check and the checksum. -/
theorem decodeFrame_header {f : Frame} (hf : f.Fits) {t : Bytes} (ht : 4 ≤ t.length) :
    decodeFrame (frameHeader f ++ t) =
      if t.length < f.payload.length + 4 then
        .error (.truncatedPayload f.seq (headerLen + f.payload.length + 4)
          (headerLen + t.length))
      else if beNat ((t.drop f.payload.length).take 4) ≠
          (crc32c (frameHeader f ++ t.take f.payload.length)).toNat then
        .error (.crcMismatch f.seq (beNat ((t.drop f.payload.length).take 4))
          (crc32c (frameHeader f ++ t.take f.payload.length)).toNat)
      else
        .ok (some ({ f with payload := t.take f.payload.length },
          t.drop (f.payload.length + 4))) := by
  have hne : (frameHeader f ++ t).isEmpty = false := by
    rw [List.isEmpty_eq_false_iff, ne_eq, List.append_eq_nil_iff]
    rintro ⟨-, rfl⟩
    simp at ht
  have hflag : ((if f.txnComplete then flagTxnComplete else 0) &&& flagTxnComplete != 0)
      = f.txnComplete := by
    cases f.txnComplete <;> decide
  have hmagic : getNat 4 (frameHeader f ++ t) = (frameMagic, (frameHeader f ++ t).drop 4) := by
    rw [frameHeader, List.append_assoc, getNat_beBytes (by decide),
      List.drop_left' (length_beBytes 4 frameMagic)]
  have hdrop4 : (frameHeader f ++ t).drop 4 = beBytes 8 f.seq ++ (beBytes 8 f.lsnStart ++
      (beBytes 8 f.lsnEnd ++ ((if f.txnComplete then flagTxnComplete else 0) ::
        (beBytes 4 f.payload.length ++ t)))) := by
    rw [frameHeader, List.append_assoc, List.drop_left' (length_beBytes 4 frameMagic)]
    simp
  have hdropH : ∀ k, (frameHeader f ++ t).drop (headerLen + k) = t.drop k := by
    intro k
    rw [← length_frameHeader f, List.drop_append]
    simp
  have htakeH : ∀ k, (frameHeader f ++ t).take (headerLen + k) = frameHeader f ++ t.take k := by
    intro k
    rw [← length_frameHeader f, List.take_append]
    simp
  rw [decodeFrame, hne, if_neg (by simp), if_neg (by simp; omega), hmagic]
  have hseq : ∀ r, getNat 8 (beBytes 8 f.seq ++ r) = (f.seq, r) := getNat_beBytes hf.seq
  have hstart : ∀ r, getNat 8 (beBytes 8 f.lsnStart ++ r) = (f.lsnStart, r) :=
    getNat_beBytes hf.lsnStart
  have hend : ∀ r, getNat 8 (beBytes 8 f.lsnEnd ++ r) = (f.lsnEnd, r) :=
    getNat_beBytes hf.lsnEnd
  have hlen : ∀ r, getNat 4 (beBytes 4 f.payload.length ++ r) = (f.payload.length, r) :=
    getNat_beBytes hf.payload
  simp only [ne_eq, not_true_eq_false, if_false, hdrop4, hseq, hstart, hend, hlen,
    List.headD_cons, List.tail_cons, hflag, List.length_append, length_frameHeader,
    Nat.add_assoc, hdropH, htakeH, Nat.add_lt_add_iff_left]
  rw [show List.drop headerLen (frameHeader f ++ t) = t from hdropH 0]

/-- A frame is read back, and the bytes behind it are left. -/
theorem decodeFrame_encodeFrame {f : Frame} (hf : f.Fits) (rest : Bytes) :
    decodeFrame (encodeFrame f ++ rest) = .ok (some (f, rest)) := by
  have hcrc : (beBytes 4 (crc32c (frameHeader f ++ f.payload)).toNat).length = 4 :=
    length_beBytes _ _
  rw [encodeFrame, List.append_assoc, List.append_assoc, decodeFrame_header hf (by simp; omega),
    if_neg (by simp), List.take_left, List.drop_left, List.take_left' hcrc,
    beNat_beBytes (UInt32.toNat_lt _), if_neg (by simp), ← List.append_assoc,
    List.drop_left' (by simp)]

@[simp] theorem decodeFrame_nil : decodeFrame [] = .ok none := rfl

/-- A frame cut before its end is an error that says so. -/
theorem decodeFrame_of_torn {f : Frame} (hf : f.Fits) {t : Bytes} (ht : t <+: encodeFrame f)
    (hne : t ≠ []) (hcut : t ≠ encodeFrame f) :
    ∃ e, decodeFrame t = .error e ∧ e.truncated = true := by
  have hlt : t.length < (encodeFrame f).length := by
    rcases Nat.lt_or_ge t.length (encodeFrame f).length with h | h
    · exact h
    · exact absurd (ht.eq_of_length (Nat.le_antisymm ht.length_le h)) hcut
  rw [length_encodeFrame] at hlt
  by_cases hshort : t.length < headerLen + 4
  · refine ⟨.truncatedHeader t.length, ?_, rfl⟩
    rw [decodeFrame, if_neg (by simpa using hne), if_pos hshort]
  · obtain ⟨u, rfl⟩ : frameHeader f <+: t := by
      refine List.prefix_of_prefix_length_le ?_ ht (by simp; omega)
      rw [encodeFrame, List.append_assoc]
      exact List.prefix_append _ _
    simp only [List.length_append, length_frameHeader] at hlt hshort
    refine ⟨.truncatedPayload f.seq (headerLen + f.payload.length + 4) (headerLen + u.length),
      ?_, rfl⟩
    rw [decodeFrame_header hf (by omega), if_pos (by omega)]

/-! ## The decode loop -/

/-- The rest of a frame file behind its whole frames: nothing, or the start of
one more frame. -/
def Torn (t : Bytes) : Prop :=
  ∃ f : Frame, f.Fits ∧ t <+: encodeFrame f ∧ t ≠ encodeFrame f

theorem torn_nil : Torn [] :=
  ⟨⟨0, 0, 0, false, []⟩, ⟨by decide, by decide, by decide, by decide⟩, List.nil_prefix,
    (encodeFrame_ne_nil _).symm⟩

/-- Each frame of a run with the number of bytes it takes. -/
def withLengths (fs : List Frame) : List (Frame × Nat) :=
  fs.map fun f => (f, (encodeFrame f).length)

/-- The decode loop ends at these bytes: there are none, or they are no frame. -/
def Stops (u : Bytes) : Prop := ∀ x, decodeFrame u ≠ .ok (some x)

theorem decodeFrame_eq_none {u : Bytes} (h : decodeFrame u = .ok none) : u = [] := by
  by_contra hne
  unfold decodeFrame at h
  rw [if_neg (by simpa using hne)] at h
  split at h
  · simp at h
  · dsimp only at h
    split at h
    · simp at h
    · split at h
      · simp at h
      · split at h
        · simp at h
        · simp at h

theorem stops_nil : Stops [] := by
  intro x
  simp

theorem Torn.stops {t : Bytes} (h : Torn t) : Stops t := by
  intro x hx
  obtain ⟨f, hf, hpre, hcut⟩ := h
  by_cases hne : t = []
  · exact stops_nil x (hne ▸ hx)
  · obtain ⟨e, he, -⟩ := decodeFrame_of_torn hf hpre hne hcut
    rw [he] at hx
    simp at hx

/-- The error at the end of the decode loop. -/
def endError (u : Bytes) : Option DecodeError :=
  match decodeFrame u with
  | .error e => some e
  | .ok _ => none

@[simp] theorem endError_nil : endError [] = none := rfl

/-- Bytes at which the loop ends without an error are none. -/
theorem Stops.endError_eq_none {u : Bytes} (h : Stops u) : endError u = none ↔ u = [] := by
  refine ⟨fun hend => ?_, fun hnil => by rw [hnil, endError_nil]⟩
  unfold endError at hend
  cases hd : decodeFrame u with
  | error e => simp [hd] at hend
  | ok o =>
    cases o with
    | none => exact decodeFrame_eq_none hd
    | some x => exact absurd hd (h x)

private theorem readFramesAux_encodeFrames {fs : List Frame} (hfs : ∀ f ∈ fs, f.Fits)
    {u : Bytes} (hu : Stops u) :
    ∀ fuel, fs.length < fuel →
      readFramesAux fuel (encodeFrames fs ++ u) = (withLengths fs, endError u) := by
  induction fs with
  | nil =>
    intro fuel hfuel
    obtain ⟨fuel, rfl⟩ : ∃ k, fuel = k + 1 := ⟨fuel - 1, by omega⟩
    rw [encodeFrames, List.flatMap_nil, List.nil_append, readFramesAux]
    unfold endError
    cases hd : decodeFrame u with
    | error e => rfl
    | ok o =>
      cases o with
      | none => rfl
      | some x => exact absurd hd (hu x)
  | cons f fs ih =>
    intro fuel hfuel
    obtain ⟨fuel, rfl⟩ : ∃ k, fuel = k + 1 := ⟨fuel - 1, by omega⟩
    have hf : f.Fits := hfs f (by simp)
    have hrest := ih (fun g hg => hfs g (List.mem_cons_of_mem f hg)) fuel (by simpa using hfuel)
    have hdec : decodeFrame (encodeFrames (f :: fs) ++ u)
        = .ok (some (f, encodeFrames fs ++ u)) := by
      rw [encodeFrames_cons, List.append_assoc, decodeFrame_encodeFrame hf]
    have hlen : (encodeFrames (f :: fs) ++ u).length - (encodeFrames fs ++ u).length
        = (encodeFrame f).length := by
      simp only [encodeFrames_cons, List.length_append]
      omega
    rw [readFramesAux, hdec]
    simp only [hlen, hrest]
    rfl

/-- Whole frames are shorter than their bytes. -/
theorem length_le_length_encodeFrames (fs : List Frame) :
    fs.length ≤ (encodeFrames fs).length := by
  induction fs with
  | nil => simp
  | cons f fs ih =>
    have := length_encodeFrame f
    simp only [encodeFrames_cons, List.length_append, List.length_cons]
    omega

/-- The decode loop reads the whole frames of a file, each with its length, and
stops at the rest. -/
theorem readFrames_of_stops {fs : List Frame} (hfs : ∀ f ∈ fs, f.Fits) {u : Bytes}
    (hu : Stops u) : readFrames (encodeFrames fs ++ u) = (withLengths fs, endError u) := by
  refine readFramesAux_encodeFrames hfs hu _ ?_
  have := length_le_length_encodeFrames fs
  simp only [List.length_append]
  omega

/-- The error at a torn rest says that the rest is truncated. -/
theorem readFrames_encodeFrames {fs : List Frame} (hfs : ∀ f ∈ fs, f.Fits) {t : Bytes}
    (ht : Torn t) : (readFrames (encodeFrames fs ++ t)).1 = withLengths fs ∧
      ((readFrames (encodeFrames fs ++ t)).2 = none ↔ t = []) ∧
      ∀ e, (readFrames (encodeFrames fs ++ t)).2 = some e → e.truncated = true := by
  rw [readFrames_of_stops hfs ht.stops]
  refine ⟨rfl, ht.stops.endError_eq_none, fun e he => ?_⟩
  obtain ⟨f, hf, hpre, hcut⟩ := ht
  by_cases hne : t = []
  · subst hne
    simp at he
  · obtain ⟨e', he', htr⟩ := decodeFrame_of_torn hf hpre hne hcut
    unfold endError at he
    rw [he'] at he
    rw [← Option.some.inj he]
    exact htr

/-- Whole frames are read to the clean end. -/
theorem readFrames_whole {fs : List Frame} (hfs : ∀ f ∈ fs, f.Fits) :
    readFrames (encodeFrames fs) = (withLengths fs, none) := by
  obtain ⟨h1, h2, -⟩ := readFrames_encodeFrames hfs torn_nil
  rw [List.append_nil] at h1 h2
  exact Prod.ext h1 (h2.mpr rfl)

/-- Cutting a run of frames at any byte leaves whole frames and a torn rest. -/
theorem exists_torn_of_isPrefix {fs : List Frame} (hfs : ∀ f ∈ fs, f.Fits) {b : Bytes}
    (hb : b <+: encodeFrames fs) :
    ∃ n t, n ≤ fs.length ∧ b = encodeFrames (fs.take n) ++ t ∧ Torn t := by
  induction fs generalizing b with
  | nil =>
    have : b = [] := by simpa using hb
    exact ⟨0, [], Nat.le_refl 0, by simp [this], torn_nil⟩
  | cons f fs ih =>
    rw [encodeFrames_cons] at hb
    have hf : f.Fits := hfs f (by simp)
    rcases List.prefix_or_prefix_of_prefix hb (List.prefix_append _ _) with hbf | ⟨u, rfl⟩
    · by_cases he : b = encodeFrame f
      · exact ⟨1, [], by simp, by simp [he], torn_nil⟩
      · exact ⟨0, b, by simp, by simp, f, hf, hbf, he⟩
    · have hu : u <+: encodeFrames fs := (List.prefix_append_right_inj _).mp hb
      obtain ⟨n, t, hn, rfl, ht⟩ := ih (fun g hg => hfs g (List.mem_cons_of_mem f hg)) hu
      exact ⟨n + 1, t, by simpa using hn, by simp, ht⟩

theorem Torn.of_isPrefix {t u : Bytes} (ht : Torn t) (hu : u <+: t) : Torn u := by
  obtain ⟨f, hf, hpre, hcut⟩ := ht
  refine ⟨f, hf, hu.trans hpre, ?_⟩
  rintro rfl
  exact hcut (hpre.eq_of_length (Nat.le_antisymm hpre.length_le hu.length_le))

/-- A torn rest holds no whole frame. -/
theorem Torn.not_isPrefix {t : Bytes} (ht : Torn t) {f : Frame} (hf : f.Fits) :
    ¬ encodeFrame f <+: t := by
  rintro ⟨u, rfl⟩
  obtain ⟨g, hg, hpre, hcut⟩ := ht
  have hne : encodeFrame f ++ u ≠ [] := by simp [encodeFrame_ne_nil]
  obtain ⟨e, he, -⟩ := decodeFrame_of_torn hg hpre hne hcut
  rw [decodeFrame_encodeFrame hf] at he
  simp at he

/-- A file with a torn rest holds the frames whose bytes it starts with. -/
theorem isPrefix_of_encodeFrames {fs gs : List Frame} (hfs : ∀ f ∈ fs, f.Fits)
    (hgs : ∀ g ∈ gs, g.Fits) {t : Bytes} (ht : Torn t)
    (h : encodeFrames fs <+: encodeFrames gs ++ t) : fs <+: gs := by
  induction fs generalizing gs with
  | nil => exact List.nil_prefix
  | cons f fs ih =>
    have hf : f.Fits := hfs f (by simp)
    obtain ⟨u, hu⟩ := h
    rw [encodeFrames_cons, List.append_assoc] at hu
    cases gs with
    | nil =>
      rw [encodeFrames_nil, List.nil_append] at hu
      exact absurd ⟨_, hu⟩ (ht.not_isPrefix hf)
    | cons g gs =>
      -- both sides are read from the same bytes
      have hdec := decodeFrame_encodeFrame hf (encodeFrames fs ++ u)
      rw [hu, encodeFrames_cons, List.append_assoc,
        decodeFrame_encodeFrame (hgs g (by simp))] at hdec
      obtain ⟨rfl, hrest⟩ := Prod.mk.inj (Option.some.inj (Except.ok.inj hdec))
      exact (List.prefix_cons_inj g).mpr (ih (fun f hf => hfs f (List.mem_cons_of_mem _ hf))
        (fun f hf => hgs f (List.mem_cons_of_mem _ hf)) ⟨u, hrest.symm⟩)

/-- The same of a file that was torn already. -/
theorem exists_torn_of_isPrefix_torn {fs : List Frame} (hfs : ∀ f ∈ fs, f.Fits) {t : Bytes}
    (ht : Torn t) {b : Bytes} (hb : b <+: encodeFrames fs ++ t) :
    ∃ n u, n ≤ fs.length ∧ b = encodeFrames (fs.take n) ++ u ∧ Torn u := by
  rcases List.prefix_or_prefix_of_prefix hb (List.prefix_append _ _) with hpre | ⟨u, rfl⟩
  · exact exists_torn_of_isPrefix hfs hpre
  · have hu : u <+: t := (List.prefix_append_right_inj _).mp hb
    exact ⟨fs.length, u, Nat.le_refl _, by rw [List.take_length], ht.of_isPrefix hu⟩

/-! ## Prefixes -/

/-- Calling `decodeFrame` again and again reads these frames off the front of
the bytes and leaves the last bytes. -/
inductive Decodes : Bytes → List Frame → Bytes → Prop
  | done (data : Bytes) : Decodes data [] data
  | next {data rest t : Bytes} {f : Frame} {fs : List Frame}
      (head : decodeFrame data = .ok (some (f, rest))) (tail : Decodes rest fs t) :
      Decodes data (f :: fs) t

theorem decodes_encodeFrames {fs : List Frame} (hfs : ∀ f ∈ fs, f.Fits) (t : Bytes) :
    Decodes (encodeFrames fs ++ t) fs t := by
  induction fs with
  | nil => exact .done t
  | cons f fs ih =>
    have hf : f.Fits := hfs f List.mem_cons_self
    have hrest := ih fun g hg => hfs g (List.mem_cons_of_mem f hg)
    rw [encodeFrames_cons, List.append_assoc]
    exact .next (decodeFrame_encodeFrame hf _) hrest

/-- A torn rest that ends on a frame boundary is empty: the frames up to the
boundary are the ones that were read. -/
theorem Torn.eq_nil_of_boundary {fs : List Frame} (hfs : ∀ f ∈ fs, f.Fits) {n m : Nat}
    {t : Bytes} (ht : Torn t)
    (h : encodeFrames (fs.take n) ++ t = encodeFrames (fs.take m)) : t = [] := by
  have htake : ∀ k, ∀ f ∈ fs.take k, f.Fits := fun k f hf => hfs f (List.mem_of_mem_take hf)
  have hread := readFrames_of_stops (htake n) ht.stops
  rw [h, readFrames_whole (htake m)] at hread
  exact ht.stops.endError_eq_none.mp (Prod.mk.inj hread).2.symm

/-- The frames that lie wholly inside the bytes are the ones that are read. -/
theorem encodeFrames_take_isPrefix {fs : List Frame} (hfs : ∀ f ∈ fs, f.Fits) {n : Nat}
    {t : Bytes} (ht : Torn t) {m : Nat} (hm : m ≤ fs.length) (hn : n ≤ fs.length) :
    encodeFrames (fs.take m) <+: encodeFrames (fs.take n) ++ t ↔ m ≤ n := by
  have htake : ∀ k, ∀ f ∈ fs.take k, f.Fits := fun k f hf => hfs f (List.mem_of_mem_take hf)
  constructor
  · intro h
    have hlen := (isPrefix_of_encodeFrames (htake m) (htake n) ht h).length_le
    simp only [List.length_take] at hlen
    omega
  · intro h
    have hsplit : fs.take n = fs.take m ++ (fs.drop m).take (n - m) := by
      rw [← List.take_add, Nat.add_sub_cancel' h]
    rw [hsplit, encodeFrames_append, List.append_assoc]
    exact List.prefix_append _ _

/-- **Codec on prefixes.**  Of a run of frames cut at any byte, repeated calls of
`decodeFrame` read exactly the frames that lie wholly inside; what follows is the
clean end if the cut is on a frame boundary, and an error if it is not. -/
theorem decodes_of_isPrefix {fs : List Frame} (hfs : ∀ f ∈ fs, f.Fits) {p : Bytes}
    (hp : p <+: encodeFrames fs) :
    ∃ n t, n ≤ fs.length ∧ p = encodeFrames (fs.take n) ++ t ∧ Decodes p (fs.take n) t ∧
      (∀ m ≤ fs.length, encodeFrames (fs.take m) <+: p ↔ m ≤ n) ∧
      ((∃ m, p = encodeFrames (fs.take m)) → decodeFrame t = .ok none) ∧
      ((¬ ∃ m, p = encodeFrames (fs.take m)) → ∃ e, decodeFrame t = .error e) := by
  obtain ⟨n, t, hn, rfl, ht⟩ := exists_torn_of_isPrefix hfs hp
  have htake : ∀ f ∈ fs.take n, f.Fits := fun f hf => hfs f (List.mem_of_mem_take hf)
  refine ⟨n, t, hn, rfl, decodes_encodeFrames htake t,
    fun m hm => encodeFrames_take_isPrefix hfs ht hm hn, ?_, ?_⟩
  · intro ⟨m, hm⟩
    rw [ht.eq_nil_of_boundary hfs hm, decodeFrame_nil]
  · intro hno
    have hne : t ≠ [] := fun h => hno ⟨n, by rw [h, List.append_nil]⟩
    obtain ⟨f, hf, hpre, hcut⟩ := ht
    obtain ⟨e, he, -⟩ := decodeFrame_of_torn hf hpre hne hcut
    exact ⟨e, he⟩

end Lemmas

/-- A frame followed by the first ten bytes of another. -/
theorem decodes_of_isPrefix_torn :
    letI := castagnoli
    let fs : List Frame := [⟨1, 10, 20, true, [7, 8]⟩, ⟨2, 20, 30, false, [9]⟩]
    ∃ n t, n ≤ fs.length ∧ (encodeFrames fs).take 49 = encodeFrames (fs.take n) ++ t ∧
      Decodes ((encodeFrames fs).take 49) (fs.take n) t ∧
      (∀ m ≤ fs.length, encodeFrames (fs.take m) <+: (encodeFrames fs).take 49 ↔ m ≤ n) ∧
      ((∃ m, (encodeFrames fs).take 49 = encodeFrames (fs.take m)) →
        decodeFrame t = .ok none) ∧
      ((¬ ∃ m, (encodeFrames fs).take 49 = encodeFrames (fs.take m)) →
        ∃ e, decodeFrame t = .error e) := by
  let _ := castagnoli
  have hfits : ∀ f ∈ [(⟨1, 10, 20, true, [7, 8]⟩ : Frame), ⟨2, 20, 30, false, [9]⟩],
      f.Fits := by
    intro f hf
    rw [List.mem_cons, List.mem_singleton] at hf
    obtain rfl | rfl := hf
    · exact ⟨by decide, by decide, by decide, by decide⟩
    · exact ⟨by decide, by decide, by decide, by decide⟩
  exact decodes_of_isPrefix hfits (List.take_prefix _ _)

end GrayDB.Log
