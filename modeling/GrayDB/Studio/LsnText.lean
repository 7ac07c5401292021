import GrayDB.Lib.Radix
import GrayDB.Lib.Text

/-!
# Positions as text

A position of the log is written as two halves in hexadecimal with a slash between them.
The ingest crate and the benchmark each have a writer and a reader of their own, and the
position that a query asks for crosses from the one to the other as text.

* `formatLsn_eq`, `parseLsn_formatLsn`, `R1.parseLsn_formatLsn`: the writers agree, and both
  readers read what is written.
* `resolveClass_queryClass`: the engine resolves a query's class to its position.
* `lsn_text_iff`: on any other text the readers agree unless a half that fits into 64 bits
  does not fit into 32.
-/

namespace GrayDB

open Lib

/-- The messages of an error, the outermost first. -/
abbrev Messages := List String

/-- `u64::from_str_radix(s, 16)` and `u32::from_str_radix(s, 16)`, with what `context` says
about a failure. -/
def parseHalf (w : Nat) (context : Messages) (s : List Char) : Except Messages (BitVec w) :=
  match fromStrRadix w 16 s with
  | .ok n => .ok (BitVec.ofNat w n)
  | .error kind => .error (context ++ [kind.text])

/-! ## The ingest crate -/

namespace Ingest

def parseLsn (s : String) : Except Messages (BitVec 64) :=
  match splitOnce '/' s with
  | none => .error ["bad LSN format: " ++ s]
  | some (hi, lo) => do
    let hi ← parseHalf 64 [] hi.toList
    let lo ← parseHalf 64 [] lo.toList
    return hi <<< 32 ||| lo

def formatLsn (lsn : BitVec 64) : String :=
  String.ofList (upperHex (lsn >>> 32).toNat) ++ "/"
    ++ String.ofList (upperHex (lsn &&& 0xFFFFFFFF).toNat)

end Ingest

/-! ## The benchmark -/

namespace R1

def parseLsn (s : String) : Except Messages (BitVec 64) :=
  match s.toList.splitOn '/' with
  | [hi, lo] => do
    let hi ← parseHalf 32 ["parsing LSN hi"] hi
    let lo ← parseHalf 32 ["parsing LSN lo"] lo
    return hi.setWidth 64 <<< 32 ||| lo.setWidth 64
  | _ => .error ["invalid LSN format: " ++ s]

def formatLsn (lsn : BitVec 64) : String :=
  let hi : BitVec 32 := (lsn >>> 32).setWidth 32
  let lo : BitVec 32 := lsn.setWidth 32
  String.ofList (upperHex hi.toNat) ++ "/" ++ String.ofList (upperHex lo.toNat)

/-- The class that a query is sent with. -/
def queryClass (targetLsn : BitVec 64) : String := "target_lsn=" ++ formatLsn targetLsn

end R1

/-- `Engine::resolve_class`.  The other classes ask the source. -/
def Studio.resolveClass (source : List Char → Except Messages (Option (BitVec 64)))
    (cls : String) : Except Messages (Option (BitVec 64)) :=
  let cls := trim cls.toList
  match cls.dropPrefix? "target_lsn=".toList with
  | some rest => do
    let lsn ← Ingest.parseLsn (String.ofList (trim rest))
    return some lsn
  | none => if cls = [] ∨ cls = "eventual".toList then .ok none else source cls

/-! ## What the text stands for -/

/-- The text is two numbers in hexadecimal, of any size. -/
def Halves (s : String) (m n : Nat) : Prop :=
  ∃ hi lo, s.toList = hi ++ '/' :: lo ∧ radixValue 16 hi = some m ∧ radixValue 16 lo = some n

/-- A half has room in 64 bits and not in 32. -/
def Wide (s : String) : Prop :=
  ∃ m n, Halves s m n ∧ m < 2 ^ 64 ∧ n < 2 ^ 64 ∧ ¬ (m < 2 ^ 32 ∧ n < 2 ^ 32)

/-- The position with these halves. -/
def joinHalves (m n : Nat) : BitVec 64 := BitVec.ofNat 64 m <<< 32 ||| BitVec.ofNat 64 n

variable {s : String} {m n : Nat} {lsn : BitVec 64}

theorem slash_notMem {cs : List Char} (h : radixValue 16 cs = some n) : '/' ∉ cs :=
  notMem_of_radixValue h (fun _ => rfl) (by decide)

theorem halves_iff {hi lo : List Char} (hs : s.toList = hi ++ '/' :: lo) (hhi : '/' ∉ hi) :
    Halves s m n ↔ radixValue 16 hi = some m ∧ radixValue 16 lo = some n := by
  constructor
  · rintro ⟨hi', lo', hs', hm, hn⟩
    have hsplit := splitAtFirst_eq_some.mpr ⟨hs, hhi⟩
    rw [splitAtFirst_eq_some.mpr ⟨hs', slash_notMem hm⟩] at hsplit
    obtain ⟨rfl, rfl⟩ := Prod.mk.inj (Option.some.inj hsplit)
    exact ⟨hm, hn⟩
  · rintro ⟨hm, hn⟩
    exact ⟨hi, lo, hs, hm, hn⟩

/-- The halves are determined by the text. -/
theorem Halves.unique {m' n' : Nat} (h : Halves s m n) (h' : Halves s m' n') :
    m = m' ∧ n = n' := by
  obtain ⟨hi, lo, hs, hm, hn⟩ := h
  obtain ⟨hm', hn'⟩ := (halves_iff hs (slash_notMem hm)).mp h'
  exact ⟨Option.some.inj (hm.symm.trans hm'), Option.some.inj (hn.symm.trans hn')⟩

/-! ## The readers -/

theorem except_bind_eq_ok {ε α β : Type} {x : Except ε α} {f : α → Except ε β} {b : β} :
    x >>= f = .ok b ↔ ∃ a, x = .ok a ∧ f a = .ok b := by
  cases x with
  | error e => exact ⟨nofun, nofun⟩
  | ok a => exact ⟨fun h => ⟨a, rfl, h⟩, fun ⟨_, heq, h⟩ => Except.ok.inj heq ▸ h⟩

theorem parseHalf_eq_ok {w : Nat} {context : Messages} {half : List Char} {x : BitVec w} :
    parseHalf w context half = .ok x ↔
      ∃ n, radixValue 16 half = some n ∧ n < 2 ^ w ∧ x = BitVec.ofNat w n := by
  rw [parseHalf]
  cases h : fromStrRadix w 16 half with
  | error kind =>
    refine ⟨nofun, fun ⟨n, hn, hlt, _⟩ => ?_⟩
    rw [(fromStrRadix_eq_ok (by decide)).mpr ⟨hn, hlt⟩] at h
    exact nomatch h
  | ok n =>
    obtain ⟨hn, hlt⟩ := (fromStrRadix_eq_ok (by decide)).mp h
    refine ⟨fun heq => ⟨n, hn, hlt, (Except.ok.inj heq).symm⟩, ?_⟩
    rintro ⟨n', hn', -, rfl⟩
    rw [Option.some.inj (hn.symm.trans hn')]

/-- A half that has room in 32 bits is the same in 64. -/
theorem setWidth_half (hn : n < 2 ^ 32) :
    (BitVec.ofNat 32 n).setWidth 64 = BitVec.ofNat 64 n := by
  apply BitVec.eq_of_toNat_eq
  rw [BitVec.toNat_setWidth, BitVec.toNat_ofNat, BitVec.toNat_ofNat, Nat.mod_eq_of_lt hn]

/-- The ingest crate folds the halves together, whatever their width. -/
theorem Ingest.parseLsn_eq_ok :
    Ingest.parseLsn s = .ok lsn ↔
      ∃ m n, Halves s m n ∧ m < 2 ^ 64 ∧ n < 2 ^ 64 ∧ lsn = joinHalves m n := by
  rw [Ingest.parseLsn, splitOnce]
  cases hsplit : splitAtFirst '/' s.toList with
  | none =>
    refine ⟨nofun, ?_⟩
    rintro ⟨m, n, ⟨hi, lo, hs, -⟩, -⟩
    exact absurd (by simp [hs]) (splitAtFirst_eq_none.mp hsplit)
  | some pair =>
    obtain ⟨hi, lo⟩ := pair
    obtain ⟨hs, hhi⟩ := splitAtFirst_eq_some.mp hsplit
    simp only [Option.map_some, Prod.map, halves_iff hs hhi, except_bind_eq_ok, parseHalf_eq_ok,
      String.toList_ofList]
    constructor
    · rintro ⟨_, ⟨m, hm, hmlt, rfl⟩, _, ⟨n, hn, hnlt, rfl⟩, heq⟩
      exact ⟨m, n, ⟨hm, hn⟩, hmlt, hnlt, (Except.ok.inj heq).symm⟩
    · rintro ⟨m, n, ⟨hm, hn⟩, hmlt, hnlt, rfl⟩
      exact ⟨_, ⟨m, hm, hmlt, rfl⟩, _, ⟨n, hn, hnlt, rfl⟩, rfl⟩

/-- The benchmark has only halves of 32 bits. -/
theorem R1.parseLsn_eq_ok :
    R1.parseLsn s = .ok lsn ↔
      ∃ m n, Halves s m n ∧ m < 2 ^ 32 ∧ n < 2 ^ 32 ∧ lsn = joinHalves m n := by
  rw [R1.parseLsn]
  cases hsplit : splitAtFirst '/' s.toList with
  | none =>
    have hslash := splitAtFirst_eq_none.mp hsplit
    rw [List.splitOn_eq_singleton hslash]
    refine ⟨nofun, ?_⟩
    rintro ⟨m, n, ⟨hi, lo, hs, -⟩, -⟩
    exact absurd (by simp [hs]) hslash
  | some pair =>
    obtain ⟨hi, lo⟩ := pair
    obtain ⟨hs, hhi⟩ := splitAtFirst_eq_some.mp hsplit
    rw [hs, List.splitOn_append_cons_self_of_not_mem hhi]
    simp only [halves_iff hs hhi]
    cases hrest : splitAtFirst '/' lo with
    | some parts =>
      -- three parts or more
      obtain ⟨front, back⟩ := parts
      obtain ⟨rfl, hfront⟩ := splitAtFirst_eq_some.mp hrest
      obtain ⟨x, xs, hxs⟩ := List.exists_cons_of_ne_nil (List.splitOn_ne_nil '/' back)
      rw [List.splitOn_append_cons_self_of_not_mem hfront, hxs]
      refine ⟨nofun, ?_⟩
      rintro ⟨m, n, ⟨-, hn⟩, -⟩
      exact absurd (by simp) (slash_notMem hn)
    | none =>
      rw [List.splitOn_eq_singleton (splitAtFirst_eq_none.mp hrest)]
      simp only [except_bind_eq_ok, parseHalf_eq_ok]
      constructor
      · rintro ⟨_, ⟨m, hm, hmlt, rfl⟩, _, ⟨n, hn, hnlt, rfl⟩, heq⟩
        rw [setWidth_half hmlt, setWidth_half hnlt] at heq
        exact ⟨m, n, ⟨hm, hn⟩, hmlt, hnlt, (Except.ok.inj heq).symm⟩
      · rintro ⟨m, n, ⟨hm, hn⟩, hmlt, hnlt, rfl⟩
        refine ⟨_, ⟨m, hm, hmlt, rfl⟩, _, ⟨n, hn, hnlt, rfl⟩, ?_⟩
        rw [setWidth_half hmlt, setWidth_half hnlt]
        rfl

/-! ## The writers -/

/-- The halves of a position, as they are written. -/
def written (lsn : BitVec 64) : String :=
  String.ofList (upperHex (lsn.toNat / 2 ^ 32)) ++ "/"
    ++ String.ofList (upperHex (lsn.toNat % 2 ^ 32))

theorem Ingest.formatLsn_eq : Ingest.formatLsn lsn = written lsn := by
  have hhi : (lsn >>> 32).toNat = lsn.toNat / 2 ^ 32 := by
    rw [BitVec.toNat_ushiftRight, Nat.shiftRight_eq_div_pow]
  have hlo : (lsn &&& 0xFFFFFFFF).toNat = lsn.toNat % 2 ^ 32 :=
    Nat.and_two_pow_sub_one_eq_mod lsn.toNat 32
  rw [Ingest.formatLsn, hhi, hlo, written]

theorem R1.formatLsn_eq : R1.formatLsn lsn = written lsn := by
  have hhi : ((lsn >>> 32).setWidth 32).toNat = lsn.toNat / 2 ^ 32 := by
    rw [BitVec.toNat_setWidth, BitVec.toNat_ushiftRight, Nat.shiftRight_eq_div_pow,
      Nat.mod_eq_of_lt (by omega)]
  have hlo : (lsn.setWidth 32).toNat = lsn.toNat % 2 ^ 32 := BitVec.toNat_setWidth 32 lsn
  rw [R1.formatLsn, hhi, hlo, written]

theorem halves_written : Halves (written lsn) (lsn.toNat / 2 ^ 32) (lsn.toNat % 2 ^ 32) :=
  ⟨_, _, by simp [written], radixValue_upperHex _, radixValue_upperHex _⟩

theorem joinHalves_eq : joinHalves (lsn.toNat / 2 ^ 32) (lsn.toNat % 2 ^ 32) = lsn := by
  apply BitVec.eq_of_toNat_eq
  have hhi : lsn.toNat / 2 ^ 32 < 2 ^ 64 := by omega
  have hlo : lsn.toNat % 2 ^ 32 < 2 ^ 32 := Nat.mod_lt _ (by decide)
  rw [joinHalves, BitVec.toNat_or, BitVec.toNat_shiftLeft, BitVec.toNat_ofNat, BitVec.toNat_ofNat,
    Nat.mod_eq_of_lt hhi, Nat.mod_eq_of_lt (Nat.lt_trans hlo (by decide)), Nat.mod_eq_of_lt
      (by rw [Nat.shiftLeft_eq]; omega), ← Nat.shiftLeft_add_eq_or_of_lt hlo, Nat.shiftLeft_eq]
  omega

theorem Ingest.parseLsn_written : Ingest.parseLsn (written lsn) = .ok lsn :=
  Ingest.parseLsn_eq_ok.mpr ⟨_, _, halves_written, by omega, by omega, joinHalves_eq.symm⟩

theorem R1.parseLsn_written : R1.parseLsn (written lsn) = .ok lsn :=
  R1.parseLsn_eq_ok.mpr ⟨_, _, halves_written, by omega, by omega, joinHalves_eq.symm⟩

/-! ## Across the crates -/

/-- White space is no digit. -/
theorem toDigit_of_isWhitespace {c : Char} (h : isWhitespace c = true) (radix : Nat) :
    toDigit radix c = none := by
  have hle : ∀ a b : Char, a ≤ b ↔ a.toNat ≤ b.toNat := fun _ _ => UInt32.le_iff_toNat_le
  simp only [isWhitespace, Bool.or_eq_true, Bool.and_eq_true, decide_eq_true_eq, beq_iff_eq] at h
  have hdecimal : ¬ ('0' ≤ c ∧ c ≤ '9') := by
    simp only [hle, Char.reduceToNat]
    omega
  have hlower : ¬ ('a' ≤ c ∧ c ≤ 'z') := by
    simp only [hle, Char.reduceToNat]
    omega
  have hupper : ¬ ('A' ≤ c ∧ c ≤ 'Z') := by
    simp only [hle, Char.reduceToNat]
    omega
  rw [toDigit, if_neg hdecimal, if_neg hlower, if_neg hupper]
  rfl

theorem isWhitespace_written {c : Char} (hc : c ∈ (written lsn).toList) :
    isWhitespace c = false := by
  by_contra hspace
  have hdigit := toDigit_of_isWhitespace (Bool.not_eq_false _ ▸ hspace)
  simp only [written, String.toList_append, String.toList_ofList, List.mem_append] at hc
  rcases hc with (hhi | hslash) | hlo
  · exact notMem_upperHex hdigit _ hhi
  · obtain rfl := List.mem_singleton.mp hslash
    exact hspace rfl
  · exact notMem_upperHex hdigit _ hlo

/-- The position that a query asks for is the one that the engine resolves. -/
theorem Studio.resolveClass_queryClass
    (source : List Char → Except Messages (Option (BitVec 64))) :
    Studio.resolveClass source (R1.queryClass lsn) = .ok (some lsn) := by
  have hlist : (R1.queryClass lsn).toList = "target_lsn=".toList ++ (written lsn).toList := by
    rw [R1.queryClass, R1.formatLsn_eq, String.toList_append]
  have htrim : trim (R1.queryClass lsn).toList = (R1.queryClass lsn).toList := by
    refine trim_eq_self fun c hc => ?_
    rw [hlist] at hc
    rcases List.mem_append.mp hc with hname | hlsn
    · have hall : ("target_lsn=".toList.all fun c => !isWhitespace c) = true := by decide +kernel
      simpa using List.all_eq_true.mp hall c hname
    · exact isWhitespace_written hlsn
  rw [Studio.resolveClass, htrim, hlist, List.dropPrefix?_append_of_beq _ (by simp)]
  dsimp only
  rw [trim_eq_self fun c hc => isWhitespace_written hc, String.ofList_toList,
    Ingest.parseLsn_written]
  rfl

/-- The readers refuse a text both, or have one position from it. -/
def ReadersAgree (s : String) : Prop := (Ingest.parseLsn s).toOption = (R1.parseLsn s).toOption

theorem toOption_eq_some {ε α : Type} {x : Except ε α} {a : α} :
    x.toOption = some a ↔ x = .ok a := by
  cases x with
  | error e => exact ⟨nofun, nofun⟩
  | ok b => exact ⟨fun h => congrArg Except.ok (Option.some.inj h), fun h => by rw [h]; rfl⟩

theorem readersAgree_iff : ReadersAgree s ↔ ¬ Wide s := by
  constructor
  · rintro h ⟨m, n, hs, hm, hn, hwide⟩
    have hread : Ingest.parseLsn s = .ok (joinHalves m n) :=
      Ingest.parseLsn_eq_ok.mpr ⟨m, n, hs, hm, hn, rfl⟩
    rw [← toOption_eq_some, h, toOption_eq_some] at hread
    obtain ⟨m', n', hs', hm', hn', -⟩ := R1.parseLsn_eq_ok.mp hread
    obtain ⟨rfl, rfl⟩ := hs.unique hs'
    exact hwide ⟨hm', hn'⟩
  · intro h
    refine Option.ext fun lsn => ?_
    rw [toOption_eq_some, toOption_eq_some, Ingest.parseLsn_eq_ok, R1.parseLsn_eq_ok]
    constructor
    · rintro ⟨m, n, hs, hm, hn, heq⟩
      have hnarrow : m < 2 ^ 32 ∧ n < 2 ^ 32 :=
        not_not.mp fun hwide => h ⟨m, n, hs, hm, hn, hwide⟩
      exact ⟨m, n, hs, hnarrow.1, hnarrow.2, heq⟩
    · rintro ⟨m, n, hs, hm, hn, heq⟩
      exact ⟨m, n, hs, by omega, by omega, heq⟩

/-- **The texts of a position**: both crates write a position alike and read it back, and on
any text the readers agree exactly if no half has room in 64 bits and not in 32. -/
theorem lsn_text_iff (lsn : BitVec 64) (s : String) :
    (Ingest.formatLsn lsn = R1.formatLsn lsn ∧
      Ingest.parseLsn (Ingest.formatLsn lsn) = .ok lsn ∧
      R1.parseLsn (R1.formatLsn lsn) = .ok lsn) ∧
    (ReadersAgree s ↔ ¬ Wide s) := by
  rw [Ingest.formatLsn_eq, R1.formatLsn_eq]
  exact ⟨⟨rfl, Ingest.parseLsn_written, R1.parseLsn_written⟩, readersAgree_iff⟩

/-- The lower half has 33 bits, and the ingest crate counts the last of them to the upper. -/
theorem readers_disagree : ¬ ∀ s : String, ReadersAgree s := by
  intro h
  exact absurd (h "0/100000000") (by unfold ReadersAgree; decide +kernel)

end GrayDB
