import GrayDB.R1.Journals
import GrayDB.R1.LedgerReaders

/-!
# Torn tails of the journals

A crash can cut the last line of a journal at any byte.  What is left of it is skipped when
the journal is read again, unless it is an intent; but the next append continues the same
line, and a handle does not skip what it has appended itself.

`JsonRecord` is what `serde_json` does with a record.  The lemmas about `loadLines` say what
a round does with a line, and `load_lines` goes over the whole lines to the tail.  The rest
follows from the tail: `Checked.resumes_iff` and `Checked.refreshes_iff` are for a journal
with a handle, and the ledger and the replay map are such journals.
-/

namespace GrayDB.R1

open Lib Log

/-- A line without its end. -/
structure TextLine (text : Bytes) : Prop where
  nonempty : text ≠ []
  ascii : ∀ b ∈ text, b < 0x80
  oneLine : ∀ b ∈ text, b ≠ newline ∧ b ≠ 0x0D

/-- What `serde_json` does with a record whose strings are ASCII: one line that is read back,
and of which no part from the front is JSON, nor when the text of a record follows it. -/
structure JsonRecord {ε : Type} [SerdeJson ε] (e : ε) : Prop where
  text : TextLine (toText e)
  roundTrip : fromText (toText e) = some e
  cut : ∀ p, p <+: toText e → p ≠ toText e → p ≠ [] → (fromText p : Option ε) = none
  torn : ∀ p (e' : ε), p <+: toText e → p ≠ [] → (fromText (p ++ toText e') : Option ε) = none

theorem TextLine.append {text text' : Bytes} (h : TextLine text) (h' : TextLine text') :
    TextLine (text ++ text') where
  nonempty := fun hnil => h.nonempty (List.append_eq_nil_iff.mp hnil).1
  ascii b hb := (List.mem_append.mp hb).elim (h.ascii b) (h'.ascii b)
  oneLine b hb := (List.mem_append.mp hb).elim (h.oneLine b) (h'.oneLine b)

theorem TextLine.of_prefix {text p : Bytes} (h : TextLine text) (hp : p <+: text) (hne : p ≠ []) :
    TextLine p where
  nonempty := hne
  ascii b hb := h.ascii b (hp.subset hb)
  oneLine b hb := h.oneLine b (hp.subset hb)

theorem TextLine.newline_notMem {text : Bytes} (h : TextLine text) : newline ∉ text := fun hnl =>
  (h.oneLine newline hnl).1 rfl

theorem TextLine.valid_line {text : Bytes} (h : TextLine text) :
    utf8Valid (text ++ [newline]) = true := by
  apply utf8Valid_ascii
  intro b hb
  rcases List.mem_append.mp hb with hb | hb
  · exact h.ascii b hb
  · obtain rfl := List.mem_singleton.mp hb
    decide

/-- A line without its end, in UTF-8. -/
structure Utf8Line (text : Bytes) : Prop where
  nonempty : text ≠ []
  valid : utf8Valid (text ++ [newline]) = true
  oneLine : ∀ b ∈ text, b ≠ newline ∧ b ≠ 0x0D

/-- `serde_json` writes the record on one line, and reads it back. -/
structure RoundTrips {ε : Type} [SerdeJson ε] (e : ε) : Prop where
  text : Utf8Line (toText e)
  roundTrip : fromText (toText e) = some e

theorem TextLine.utf8 {text : Bytes} (h : TextLine text) : Utf8Line text :=
  ⟨h.nonempty, h.valid_line, h.oneLine⟩

theorem JsonRecord.roundTrips {ε : Type} [SerdeJson ε] {e : ε} (h : JsonRecord e) : RoundTrips e :=
  ⟨h.text.utf8, h.roundTrip⟩

section Lines

variable {ε err : Type} [SerdeJson ε] {k : LineCheck ε err} {data : Bytes} {p : Nat} {es : List ε}

/-- The file of these records. -/
def linesOf (es : List ε) : Bytes := es.flatMap fun e => toText e ++ [newline]

@[simp] theorem linesOf_append (es es' : List ε) : linesOf (es ++ es') = linesOf es ++ linesOf es' :=
  List.flatMap_append

@[simp] theorem linesOf_nil : linesOf ([] : List ε) = [] := rfl

theorem linesOf_cons (e : ε) (es : List ε) :
    linesOf (e :: es) = toText e ++ newline :: linesOf es := by
  rw [linesOf, List.flatMap_cons, List.append_assoc]
  rfl

theorem linesOf_singleton (e : ε) : linesOf [e] = toText e ++ [newline] := List.append_nil _

theorem length_le_linesOf (es : List ε) : es.length ≤ (linesOf es).length := by
  induction es with
  | nil => exact Nat.le_refl _
  | cons e es ih =>
    rw [linesOf_cons, List.length_append, List.length_cons, List.length_cons]
    omega

/-! ## One round -/

theorem loadLines_end (h : data.drop p = []) (n : Nat) :
    k.loadLines data (n + 1) p es = .ok { entries := es, loadedBytes := p } := by
  have hline : readLine (data.drop p) = [] := by
    rw [h]
    rfl
  have hvalid : utf8Valid [] = true := utf8Valid_ascii (by simp)
  rw [LineCheck.loadLines]
  simp only [hline]
  rw [if_neg (not_not_intro hvalid), if_pos trivial]

/-- A round with a line that ends. -/
theorem loadLines_terminated {text rest : Bytes} (htext : Utf8Line text)
    (h : data.drop p = text ++ newline :: rest) (n : Nat) :
    k.loadLines data (n + 1) p es = match fromText text with
      | none => .error k.corrupt
      | some e => match k.check es e with
        | .error x => .error x
        | .ok () => k.loadLines data n (p + (text.length + 1)) (es ++ [e]) := by
  have hread : readLine (data.drop p) = text ++ [newline] := by
    rw [h]
    exact readLine_line (fun hnl => (htext.oneLine newline hnl).1 rfl) rest
  rw [LineCheck.loadLines]
  simp only [hread, (trimEnd_text htext.oneLine).2]
  rw [if_neg (not_not_intro htext.valid), if_neg (by simp), if_neg htext.nonempty]
  cases (fromText text : Option ε) with
  | none => simp
  | some e =>
    dsimp only
    cases k.check es e with
    | error x => rfl
    | ok u =>
      dsimp only
      rw [List.length_append, List.length_singleton]

/-- A round with the rest of the file, which does not end in a newline. -/
theorem loadLines_open {text : Bytes} (htext : TextLine text) (h : data.drop p = text) (n : Nat) :
    k.loadLines data (n + 1) p es = match fromText text with
      | none => .ok { entries := es, loadedBytes := p }
      | some e => match k.check es e with
        | .error x => .error x
        | .ok () => k.loadLines data n (p + text.length) (es ++ [e]) := by
  have hread : readLine (data.drop p) = text := by
    rw [h]
    exact readLine_of_notMem htext.newline_notMem
  have hvalid : utf8Valid text = true := utf8Valid_ascii htext.ascii
  have hend : data.length ≤ p + text.length ∧ text.getLast? ≠ some newline := by
    constructor
    · rw [← h, List.length_drop]
      omega
    · exact fun hlast => htext.newline_notMem (List.mem_of_getLast? hlast)
  rw [LineCheck.loadLines]
  simp only [hread, (trimEnd_text htext.oneLine).1]
  rw [if_neg (not_not_intro hvalid), if_neg htext.nonempty, if_neg htext.nonempty]
  cases (fromText text : Option ε) with
  | none => exact if_pos hend
  | some e => rfl

/-! ## All rounds -/

/-- The records pass the check one after the other. -/
def LineCheck.Accepts {ε err : Type} (k : LineCheck ε err) : List ε → List ε → Prop
  | _, [] => True
  | es, e :: new => k.check es e = .ok () ∧ k.Accepts (es ++ [e]) new

omit [SerdeJson ε] in
theorem accepts_append {new new' : List ε} :
    k.Accepts es (new ++ new') ↔ k.Accepts es new ∧ k.Accepts (es ++ new) new' := by
  induction new generalizing es with
  | nil => simp [LineCheck.Accepts]
  | cons e new ih => simp [LineCheck.Accepts, ih, and_assoc]

omit [SerdeJson ε] in
/-- A record that the check numbers is rejected when it comes again. -/
theorem stale_of_sequence {seq : ε → Nat} {next : List ε → Nat}
    (hseq : ∀ {es e}, k.check es e = .ok () → seq e = next es)
    (hnext : ∀ es e, next (es ++ [e]) = seq e + 1) {e : ε} {new : List ε}
    (h : k.Accepts es (e :: new)) : ∃ x, k.check (es ++ e :: new) e = .error x := by
  have hgrows : ∀ {new es}, k.Accepts es new → next (es ++ new) = next es + new.length := by
    intro new
    induction new with
    | nil => exact fun _ => by rw [List.append_nil]; rfl
    | cons e new ih =>
      intro es ⟨hcheck, haccepts⟩
      rw [List.append_cons, ih haccepts, hnext, hseq hcheck, List.length_cons]
      omega
  have hlast := hgrows h
  rw [← hseq h.1, List.length_cons] at hlast
  cases hcheck : k.check (es ++ e :: new) e with
  | error x => exact ⟨x, rfl⟩
  | ok u =>
    have hagain := hseq hcheck
    omega

/-- The rounds over whole lines. -/
theorem loadLines_lines {new : List ε} {tail : Bytes} (hjson : ∀ e ∈ new, RoundTrips e)
    (haccepts : k.Accepts es new) (h : data.drop p = linesOf new ++ tail) (n : Nat) :
    k.loadLines data (n + new.length) p es
      = k.loadLines data n (p + (linesOf new).length) (es ++ new) := by
  induction new generalizing es p with
  | nil => rw [List.append_nil]; rfl
  | cons e new ih =>
    obtain ⟨hcheck, haccepts⟩ := haccepts
    have he := hjson e List.mem_cons_self
    rw [linesOf_cons, List.append_assoc, List.cons_append] at h
    have hdrop : data.drop (p + ((toText e).length + 1)) = linesOf new ++ tail := by
      rw [← List.drop_drop, h, List.drop_append]
      simp
    have hlen : p + ((toText e).length + 1) + (linesOf new).length
        = p + (linesOf (e :: new)).length := by
      rw [linesOf_cons, List.length_append, List.length_cons]
      omega
    rw [List.length_cons, ← Nat.add_assoc, loadLines_terminated he.text h, he.roundTrip]
    simp only [hcheck]
    rw [ih (fun x hx => hjson x (List.mem_cons_of_mem e hx)) haccepts hdrop, hlen,
      List.append_assoc]
    rfl

/-- A handle that reads on comes to the tail of the file, with rounds to spare. -/
theorem load_lines {j : Loaded ε} {new : List ε} {tail : Bytes} (hjson : ∀ e ∈ new, RoundTrips e)
    (haccepts : k.Accepts j.entries new) (hle : j.loadedBytes ≤ data.length)
    (h : data.drop j.loadedBytes = linesOf new ++ tail) :
    ∃ n, k.load data j
        = k.loadLines data (n + 1) (j.loadedBytes + (linesOf new).length) (j.entries ++ new) ∧
      data.drop (j.loadedBytes + (linesOf new).length) = tail ∧
      (tail ≠ [] → ∃ m, n = m + 1) := by
  have hload : k.load data j = k.loadLines data (data.length + 1) j.loadedBytes j.entries := by
    rw [LineCheck.load, if_neg (Nat.not_lt.mpr hle)]
    split
    · rename_i heq
      rw [loadLines_end (List.drop_eq_nil_of_le (Nat.le_of_eq heq))]
    · rfl
  have hlen := congrArg List.length h
  rw [List.length_drop, List.length_append] at hlen
  have hnew := length_le_linesOf new
  obtain ⟨n, hn⟩ : ∃ n, data.length = n + new.length := ⟨data.length - new.length, by omega⟩
  refine ⟨n, ?_, ?_, fun htail => ?_⟩
  · rw [hload, hn, Nat.add_right_comm, loadLines_lines hjson haccepts h]
  · rw [← List.drop_drop, h, List.drop_left]
  · have hpos := List.length_pos_iff.mpr htail
    exact ⟨n - 1, by omega⟩

/-! ## Tails -/

section Tails

variable {j : Loaded ε} {new : List ε} (hjson : ∀ e ∈ new, RoundTrips e)
  (haccepts : k.Accepts j.entries new) (hle : j.loadedBytes ≤ data.length)
include hjson haccepts hle

/-- There is no tail. -/
theorem load_whole (h : data.drop j.loadedBytes = linesOf new) : k.load data j = .ok
    { entries := j.entries ++ new, loadedBytes := j.loadedBytes + (linesOf new).length } := by
  obtain ⟨n, hload, hdrop, -⟩ := load_lines hjson haccepts hle (h.trans (List.append_nil _).symm)
  rw [hload, loadLines_end hdrop]

/-- The tail is a part of a record: it is left. -/
theorem load_torn {e : ε} {torn : Bytes} (he : JsonRecord e) (hcut : torn <+: toText e)
    (hne : torn ≠ []) (hpart : torn ≠ toText e)
    (h : data.drop j.loadedBytes = linesOf new ++ torn) : k.load data j = .ok
      { entries := j.entries ++ new, loadedBytes := j.loadedBytes + (linesOf new).length } := by
  obtain ⟨n, hload, hdrop, -⟩ := load_lines hjson haccepts hle h
  rw [hload, loadLines_open (he.text.of_prefix hcut hne) hdrop, he.cut torn hcut hpart hne]

/-- The tail is a record without its newline: it is taken. -/
theorem load_open {e : ε} (he : JsonRecord e) (hcheck : k.check (j.entries ++ new) e = .ok ())
    (h : data.drop j.loadedBytes = linesOf new ++ toText e) : k.load data j = .ok
      { entries := j.entries ++ new ++ [e]
        loadedBytes := j.loadedBytes + (linesOf new).length + (toText e).length } := by
  obtain ⟨n, hload, hdrop, htail⟩ := load_lines hjson haccepts hle h
  obtain ⟨m, rfl⟩ := htail he.text.nonempty
  have hend : data.drop (j.loadedBytes + (linesOf new).length + (toText e).length) = [] := by
    rw [← List.drop_drop, hdrop, List.drop_length]
  rw [hload, loadLines_open he.text hdrop, he.roundTrip]
  simp only [hcheck]
  rw [loadLines_end hend]

/-- The tail begins with a line that is not JSON. -/
theorem load_corrupt {text rest : Bytes} (htext : Utf8Line text)
    (hnone : (fromText text : Option ε) = none)
    (h : data.drop j.loadedBytes = linesOf new ++ (text ++ newline :: rest)) :
    k.load data j = .error k.corrupt := by
  obtain ⟨n, hload, hdrop, -⟩ := load_lines hjson haccepts hle h
  rw [hload, loadLines_terminated htext hdrop, hnone]

/-- The tail begins with a record that the check rejects. -/
theorem load_rejected {e : ε} {x : err} {rest : Bytes} (he : JsonRecord e)
    (hcheck : k.check (j.entries ++ new) e = .error x)
    (h : data.drop j.loadedBytes = linesOf new ++ (toText e ++ newline :: rest)) :
    k.load data j = .error x := by
  obtain ⟨n, hload, hdrop, -⟩ := load_lines hjson haccepts hle h
  rw [hload, loadLines_terminated he.text.utf8 hdrop, he.roundTrip]
  simp only [hcheck]

end Tails

/-! ## A line that is cut -/

/-- What a cut leaves of a line: nothing, a part of the record, the record, or the line. -/
theorem take_line_cases {text : Bytes} {c : Nat} (hc : c ≤ text.length + 1) :
    c = 0 ∧ (text ++ [newline]).take c = [] ∨
      (0 < c ∧ c < text.length) ∧ (text ++ [newline]).take c = text.take c ∨
      c = text.length ∧ (text ++ [newline]).take c = text ∨
      c = text.length + 1 ∧ (text ++ [newline]).take c = text ++ [newline] := by
  rcases Nat.eq_zero_or_pos c with rfl | hpos
  · exact Or.inl ⟨rfl, rfl⟩
  · by_cases hlt : c < text.length
    · exact Or.inr (Or.inl ⟨⟨hpos, hlt⟩, List.take_append_of_le_length (Nat.le_of_lt hlt)⟩)
    · by_cases heq : c = text.length
      · exact Or.inr (Or.inr (Or.inl ⟨heq, heq ▸ List.take_left⟩))
      · have hfull : c = text.length + 1 := by omega
        refine Or.inr (Or.inr (Or.inr ⟨hfull, List.take_of_length_le ?_⟩))
        rw [List.length_append, List.length_singleton, hfull]

theorem take_torn {text : Bytes} {c : Nat} (hpos : 0 < c) (hlt : c < text.length) :
    text.take c <+: text ∧ text.take c ≠ [] ∧ text.take c ≠ text := by
  have hlen : (text.take c).length = c := List.length_take_of_le (Nat.le_of_lt hlt)
  refine ⟨List.take_prefix c text, fun hnil => ?_, fun heq => ?_⟩
  · rw [hnil] at hlen
    exact absurd hlen.symm (Nat.ne_of_gt hpos)
  · rw [heq] at hlen
    omega

end Lines

/-! ## Journals with a handle -/

namespace JournalOps

section Crash

variable {ε σ err : Type} [SerdeJson ε] (o : JournalOps ε σ err)

/-- The file `image` is what a crash leaves: these entries were appended, and the last line
is cut behind `c` bytes. -/
def Cut (olds : List ε) (x : ε) (c : Nat) (image : Bytes) : Prop :=
  ∃ h before h' last, o.appendAll o.created olds = .ok (h, before) ∧
    o.append h x = .ok (h', last) ∧ c ≤ last.length ∧ image = before ++ last.take c

/-- The entries that are complete. -/
def survivors (olds : List ε) (x : ε) (c : Nat) : List ε :=
  if c < (toText (o.stored x)).length then olds else olds ++ [x]

/-- The call succeeds, with these entries. -/
def Returns (res : Except err σ) (xs : List ε) : Prop :=
  ∃ h, res = .ok h ∧ o.entries h = xs.map o.stored

/-- On the file that is left, and on every file that further appends on the reopened handle
make of it, `resume` returns what is complete and what is new. -/
def Resumes (olds : List ε) (x : ε) (c : Nat) (news : List ε) : Prop :=
  ∀ image, o.Cut olds x c image →
    o.Returns (o.resume image) (o.survivors olds x c) ∧
      ∀ h h' bytes, o.resume image = .ok h → o.appendAll h news = .ok (h', bytes) →
        o.Returns (o.resume (image ++ bytes)) (o.survivors olds x c ++ news)

/-- So does `refresh` on the handle that made the appends. -/
def Refreshes (olds : List ε) (x : ε) (c : Nat) (news : List ε) : Prop :=
  ∀ image, o.Cut olds x c image →
    ∀ h h' bytes, o.resume image = .ok h → o.appendAll h news = .ok (h', bytes) →
      o.Returns (o.refresh (image ++ bytes) h') (o.survivors olds x c ++ news)

/-- The further appends succeed. -/
def Continues (olds : List ε) (x : ε) (c : Nat) (news : List ε) : Prop :=
  ∃ image h h' bytes, o.Cut olds x c image ∧ o.resume image = .ok h ∧
    o.appendAll h news = .ok (h', bytes)

/-- The journal loads and checks its lines as `k` says. -/
structure Checked (k : LineCheck ε err) (view : σ → Loaded ε) : Prop where
  created : view o.created = {}
  entries : ∀ h, o.entries h = (view h).entries
  append : ∀ {h x h' bytes}, o.append h x = .ok (h', bytes) →
    k.check (view h).entries (o.stored x) = .ok () ∧
      view h' = { view h with entries := (view h).entries ++ [o.stored x] } ∧
      bytes = toText (o.stored x) ++ [newline]
  refresh : ∀ data h, (o.refresh data h).map view = k.load data (view h)
  /-- A record is rejected when it comes again. -/
  stale : ∀ {es e new}, k.Accepts es (e :: new) → ∃ x, k.check (es ++ e :: new) e = .error x

variable {o} {k : LineCheck ε err} {view : σ → Loaded ε}

theorem Checked.appendAll (hck : o.Checked k view) {h h' : σ} {xs : List ε} {bytes : Bytes}
    (happend : o.appendAll h xs = .ok (h', bytes)) :
    k.Accepts (view h).entries (xs.map o.stored) ∧
      view h' = { view h with entries := (view h).entries ++ xs.map o.stored } ∧
      bytes = linesOf (xs.map o.stored) := by
  induction xs generalizing h bytes with
  | nil =>
    obtain ⟨rfl, rfl⟩ := Prod.mk.inj (Except.ok.inj happend)
    exact ⟨trivial, by simp, rfl⟩
  | cons x xs ih =>
    rw [JournalOps.appendAll] at happend
    cases hfirst : o.append h x with
    | error e =>
      rw [hfirst] at happend
      exact nomatch happend
    | ok p =>
      obtain ⟨h₁, first⟩ := p
      cases hrest : o.appendAll h₁ xs with
      | error e =>
        rw [hfirst] at happend
        change (o.appendAll h₁ xs >>= _) = _ at happend
        rw [hrest] at happend
        exact nomatch happend
      | ok p =>
        obtain ⟨h₂, rest⟩ := p
        rw [hfirst] at happend
        change (o.appendAll h₁ xs >>= _) = _ at happend
        rw [hrest] at happend
        obtain ⟨rfl, rfl⟩ := Prod.mk.inj (Except.ok.inj happend)
        obtain ⟨hcheck, hview, rfl⟩ := hck.append hfirst
        obtain ⟨haccepts, hview', rfl⟩ := ih hrest
        rw [hview] at haccepts hview'
        refine ⟨⟨hcheck, haccepts⟩, ?_, ?_⟩
        · rw [hview']
          simp
        · rw [List.map_cons, linesOf_cons, List.append_assoc]
          rfl

theorem Checked.returns_iff (hck : o.Checked k view) {data : Bytes} {h : σ} {xs : List ε} :
    o.Returns (o.refresh data h) xs ↔
      ∃ j, k.load data (view h) = .ok j ∧ j.entries = xs.map o.stored := by
  have hload := hck.refresh data h
  rw [← hload]
  cases o.refresh data h with
  | error e => exact ⟨fun ⟨_, hq, _⟩ => (nomatch hq), fun ⟨_, hj, _⟩ => (nomatch hj)⟩
  | ok q =>
    constructor
    · rintro ⟨q', hq, hentries⟩
      obtain rfl := Except.ok.inj hq
      exact ⟨view q, rfl, (hck.entries q).symm.trans hentries⟩
    · rintro ⟨j, hj, hentries⟩
      obtain rfl : view q = j := Except.ok.inj hj
      exact ⟨q, rfl, (hck.entries q).trans hentries⟩

/-! ### The file that is left -/

variable {olds : List ε} {x : ε} {c : Nat} {image : Bytes}

theorem Checked.of_cut (hck : o.Checked k view) (hcut : o.Cut olds x c image) :
    k.Accepts [] (olds.map o.stored) ∧ k.check (olds.map o.stored) (o.stored x) = .ok () ∧
      c ≤ (toText (o.stored x)).length + 1 ∧
      image = linesOf (olds.map o.stored) ++ (toText (o.stored x) ++ [newline]).take c := by
  obtain ⟨h, before, h', last, hbefore, hlast, hc, rfl⟩ := hcut
  obtain ⟨haccepts, hview, rfl⟩ := hck.appendAll hbefore
  obtain ⟨hcheck, -, rfl⟩ := hck.append hlast
  rw [hck.created] at haccepts hview
  rw [hview] at hcheck
  rw [List.length_append, List.length_singleton] at hc
  exact ⟨haccepts, hcheck, hc, rfl⟩

/-- The handle that is reopened, and what of the file is behind it. -/
theorem Checked.load_cut (hck : o.Checked k view) (hcut : o.Cut olds x c image)
    (hjson : ∀ e ∈ olds ++ [x], JsonRecord (o.stored e)) : ∃ off,
    k.load image {} = .ok { entries := (o.survivors olds x c).map o.stored, loadedBytes := off } ∧
      off ≤ image.length ∧ (image.drop off = [] ∨
        (0 < c ∧ c < (toText (o.stored x)).length) ∧
          image.drop off = (toText (o.stored x)).take c) := by
  obtain ⟨haccepts, hcheck, hc, rfl⟩ := hck.of_cut hcut
  have hx : JsonRecord (o.stored x) := hjson x (by simp)
  have holds : ∀ e ∈ olds.map o.stored, RoundTrips e := by
    intro e he
    obtain ⟨y, hy, rfl⟩ := List.mem_map.mp he
    exact (hjson y (List.mem_append_left _ hy)).roundTrips
  have hpos := List.length_pos_iff.mpr hx.text.nonempty
  rcases take_line_cases hc with ⟨rfl, htake⟩ | ⟨⟨hc₀, hc₁⟩, htake⟩ | ⟨rfl, htake⟩ | ⟨rfl, htake⟩
  · rw [htake, List.append_nil, survivors, if_pos hpos]
    exact ⟨_, load_whole holds haccepts (Nat.zero_le _) rfl, by simp, by simp⟩
  · obtain ⟨hpre, hne, hpart⟩ := take_torn hc₀ hc₁
    rw [htake, survivors, if_pos hc₁]
    refine ⟨_, load_torn holds haccepts (Nat.zero_le _) hx hpre hne hpart rfl, ?_, ?_⟩
    · rw [List.length_append]
      exact Nat.le_trans (Nat.le_of_eq (Nat.zero_add _)) (Nat.le_add_right _ _)
    · refine Or.inr ⟨⟨hc₀, hc₁⟩, ?_⟩
      rw [Nat.zero_add, List.drop_left]
  · rw [htake, survivors, if_neg (Nat.lt_irrefl _), List.map_append]
    exact ⟨_, load_open holds haccepts (Nat.zero_le _) hx hcheck rfl, by simp, by simp⟩
  · rw [htake, survivors, if_neg (by omega), List.map_append]
    have haccepts' : k.Accepts [] (olds.map o.stored ++ [o.stored x]) :=
      accepts_append.mpr ⟨haccepts, hcheck, trivial⟩
    have hall : ∀ e ∈ olds.map o.stored ++ [o.stored x], RoundTrips e := by
      intro e he
      rcases List.mem_append.mp he with he | he
      · exact holds e he
      · exact List.mem_singleton.mp he ▸ hx.roundTrips
    have hlines : linesOf (olds.map o.stored) ++ (toText (o.stored x) ++ [newline])
        = linesOf (olds.map o.stored ++ [o.stored x]) := by
      rw [linesOf_append, linesOf_singleton]
    rw [hlines]
    exact ⟨_, load_whole hall haccepts' (Nat.zero_le _) rfl, by simp, by simp⟩

theorem Checked.returns_cut (hck : o.Checked k view) (hcut : o.Cut olds x c image)
    (hjson : ∀ e ∈ olds ++ [x], JsonRecord (o.stored e)) :
    o.Returns (o.resume image) (o.survivors olds x c) := by
  obtain ⟨off, hload, -⟩ := hck.load_cut hcut hjson
  rw [resume, hck.returns_iff, hck.created]
  exact ⟨_, hload, rfl⟩

/-! ### Further appends -/

variable {news : List ε} {h h' : σ} {bytes : Bytes}

/-- The handle that was reopened and has appended. -/
theorem Checked.continued (hck : o.Checked k view) (hcut : o.Cut olds x c image)
    (hjson : ∀ e ∈ olds ++ [x], JsonRecord (o.stored e)) (hresume : o.resume image = .ok h)
    (happend : o.appendAll h news = .ok (h', bytes)) : ∃ off,
    view h' = { entries := (o.survivors olds x c).map o.stored ++ news.map o.stored
                loadedBytes := off } ∧
      k.Accepts ((o.survivors olds x c).map o.stored) (news.map o.stored) ∧
      bytes = linesOf (news.map o.stored) ∧ off ≤ image.length ∧
      (image.drop off = [] ∨ (0 < c ∧ c < (toText (o.stored x)).length) ∧
        image.drop off = (toText (o.stored x)).take c) := by
  obtain ⟨off, hload, hoff, hleft⟩ := hck.load_cut hcut hjson
  have hview : view h = { entries := (o.survivors olds x c).map o.stored, loadedBytes := off } := by
    have hrefresh := hck.refresh image o.created
    rw [show o.refresh image o.created = .ok h from hresume, hck.created, hload] at hrefresh
    exact Except.ok.inj hrefresh
  obtain ⟨haccepts, hview', hbytes⟩ := hck.appendAll happend
  rw [hview] at haccepts hview'
  exact ⟨off, hview', haccepts, hbytes, hoff, hleft⟩

/-- A line that continues what was left of another one is not JSON. -/
theorem load_continued (hjson : ∀ e ∈ olds ++ [x], JsonRecord (o.stored e))
    (haccepts : k.Accepts [] (olds.map o.stored)) {p : Bytes} (hp : p <+: toText (o.stored x))
    (hne : p ≠ []) {e : ε} (he : JsonRecord (o.stored e)) (rest : List ε) :
    k.load (linesOf (olds.map o.stored) ++ p ++ linesOf (o.stored e :: rest)) {}
      = .error k.corrupt := by
  have hx : JsonRecord (o.stored x) := hjson x (by simp)
  have holds : ∀ e ∈ olds.map o.stored, RoundTrips e := by
    intro e he
    obtain ⟨y, hy, rfl⟩ := List.mem_map.mp he
    exact (hjson y (List.mem_append_left _ hy)).roundTrips
  have hdrop : (linesOf (olds.map o.stored) ++ p ++ linesOf (o.stored e :: rest)).drop 0
      = linesOf (olds.map o.stored) ++ (p ++ toText (o.stored e) ++ newline :: linesOf rest) := by
    rw [linesOf_cons, List.append_assoc, List.append_assoc]
    rfl
  exact load_corrupt holds haccepts (Nat.zero_le _)
    ((hx.text.of_prefix hp hne).append he.text).utf8 (hx.torn p _ hp hne) hdrop

/-- A cut between two lines leaves whole lines. -/
theorem Checked.whole_of_cut (hck : o.Checked k view) (hcut : o.Cut olds x c image)
    (hwhole : c = 0 ∨ c = (toText (o.stored x)).length + 1)
    (hne : toText (o.stored x) ≠ []) :
    image = linesOf ((o.survivors olds x c).map o.stored) ∧
      k.Accepts [] ((o.survivors olds x c).map o.stored) := by
  obtain ⟨haccepts, hcheck, -, rfl⟩ := hck.of_cut hcut
  rcases hwhole with rfl | rfl
  · rw [survivors, if_pos (List.length_pos_iff.mpr hne), List.take_zero, List.append_nil]
    exact ⟨rfl, haccepts⟩
  · rw [survivors, if_neg (by omega), List.map_append, linesOf_append,
      List.take_of_length_le (by simp), List.map_singleton, linesOf_singleton]
    exact ⟨rfl, accepts_append.mpr ⟨haccepts, hcheck, trivial⟩⟩

/-- The first line of a file can be torn, and its entry appended again. -/
theorem Checked.continues_torn (hck : o.Checked k view) (hx : JsonRecord (o.stored x)) (hpos : 0 < c)
    (hlt : c < (toText (o.stored x)).length)
    (happend : ∀ h, view h = {} → ∃ p, o.append h x = .ok p) : o.Continues [] x c [x] := by
  obtain ⟨⟨h', last⟩, hfirst⟩ := happend o.created hck.created
  obtain ⟨-, -, rfl⟩ := hck.append hfirst
  obtain ⟨hpre, hne, hpart⟩ := take_torn hpos hlt
  have htake : (toText (o.stored x) ++ [newline]).take c = (toText (o.stored x)).take c :=
    List.take_append_of_le_length (Nat.le_of_lt hlt)
  have hnone : ∀ e ∈ ([] : List ε), RoundTrips e := fun e he => nomatch he
  have hload : k.load ((toText (o.stored x)).take c) {} = .ok {} :=
    load_torn hnone trivial (Nat.zero_le _) hx hpre hne hpart rfl
  have hresume := hck.refresh ((toText (o.stored x)).take c) o.created
  rw [hck.created, hload] at hresume
  cases hres : o.refresh ((toText (o.stored x)).take c) o.created with
  | error e =>
    rw [hres] at hresume
    exact nomatch hresume
  | ok h =>
    rw [hres] at hresume
    obtain ⟨⟨h₂, bytes⟩, hagain⟩ := happend h (Except.ok.inj hresume)
    refine ⟨(toText (o.stored x)).take c, h, h₂, bytes ++ [], ?_, hres, ?_⟩
    · refine ⟨o.created, [], h', _, rfl, hfirst, ?_, htake.symm⟩
      rw [List.length_append]
      omega
    · rw [JournalOps.appendAll, hagain]
      rfl

/-- Entries that are appended behind a whole line are resumed, and others are not. -/
theorem Checked.resumes_iff (hck : o.Checked k view)
    (hjson : ∀ e ∈ olds ++ [x] ++ news, JsonRecord (o.stored e))
    (hcontinues : o.Continues olds x c news) :
    o.Resumes olds x c news ↔ c = 0 ∨ c = (toText (o.stored x)).length + 1 ∨ news = [] := by
  have hjson' : ∀ e ∈ olds ++ [x], JsonRecord (o.stored e) := fun e he =>
    hjson e (List.mem_append_left _ he)
  have hx : JsonRecord (o.stored x) := hjson' x (by simp)
  constructor
  · intro hresumes
    by_contra hnot
    obtain ⟨hc₀, hnot⟩ := not_or.mp hnot
    obtain ⟨hc₁, hnews⟩ := not_or.mp hnot
    obtain ⟨image, h, h', bytes, hcut, hresume, happend⟩ := hcontinues
    have hreturns := (hresumes image hcut).2 h h' bytes hresume happend
    obtain ⟨off, -, -, rfl, -⟩ := hck.continued hcut hjson' hresume happend
    obtain ⟨haccepts, -, hc, rfl⟩ := hck.of_cut hcut
    obtain ⟨e, rest, rfl⟩ := List.exists_cons_of_ne_nil hnews
    rw [resume, hck.returns_iff, hck.created] at hreturns
    obtain ⟨j, hload, -⟩ := hreturns
    have hpre : ((toText (o.stored x) ++ [newline]).take c) <+: toText (o.stored x) ∧
        (toText (o.stored x) ++ [newline]).take c ≠ [] := by
      rcases take_line_cases hc with ⟨h, -⟩ | ⟨⟨hpos, hlt⟩, htake⟩ | ⟨-, htake⟩ | ⟨h, -⟩
      · exact absurd h hc₀
      · obtain ⟨hp, hne, -⟩ := take_torn hpos hlt
        rw [htake]
        exact ⟨hp, hne⟩
      · rw [htake]
        exact ⟨List.prefix_refl _, hx.text.nonempty⟩
      · exact absurd h hc₁
    have hcorrupt := load_continued (k := k) hjson' haccepts hpre.1 hpre.2
      (hjson e (by simp)) (rest.map o.stored)
    exact nomatch hload.symm.trans hcorrupt
  · intro hcond image hcut
    refine ⟨hck.returns_cut hcut hjson', fun h h' bytes hresume happend => ?_⟩
    obtain ⟨off, -, haccepts, rfl, -⟩ := hck.continued hcut hjson' hresume happend
    rcases or_assoc.mpr hcond with hwhole | rfl
    · obtain ⟨rfl, hsurvivors⟩ := hck.whole_of_cut hcut hwhole hx.text.nonempty
      have hall : ∀ e ∈ (o.survivors olds x c ++ news).map o.stored, RoundTrips e := by
        intro e he
        obtain ⟨y, hy, rfl⟩ := List.mem_map.mp he
        refine (hjson y (List.mem_append.mpr ((List.mem_append.mp hy).imp_left fun hy => ?_))).roundTrips
        rw [survivors] at hy
        split at hy
        · exact List.mem_append_left _ hy
        · exact hy
      rw [← linesOf_append, ← List.map_append, resume, hck.returns_iff, hck.created]
      refine ⟨_, load_whole hall ?_ (Nat.zero_le _) rfl, rfl⟩
      rw [List.map_append]
      exact accepts_append.mpr ⟨hsurvivors, haccepts⟩
    · rw [List.map_nil, linesOf_nil, List.append_nil, List.append_nil]
      exact hck.returns_cut hcut hjson'

/-- A handle that has appended cannot be refreshed. -/
theorem Checked.refreshes_iff (hck : o.Checked k view)
    (hjson : ∀ e ∈ olds ++ [x] ++ news, JsonRecord (o.stored e))
    (hcontinues : o.Continues olds x c news) : o.Refreshes olds x c news ↔ news = [] := by
  have hjson' : ∀ e ∈ olds ++ [x], JsonRecord (o.stored e) := fun e he =>
    hjson e (List.mem_append_left _ he)
  have hx : JsonRecord (o.stored x) := hjson' x (by simp)
  have hnone : ∀ e ∈ ([] : List ε), RoundTrips e := fun e he => nomatch he
  constructor
  · intro hrefreshes
    by_contra hnews
    obtain ⟨e, rest, rfl⟩ := List.exists_cons_of_ne_nil hnews
    obtain ⟨image, h, h', bytes, hcut, hresume, happend⟩ := hcontinues
    have hreturns := hrefreshes image hcut h h' bytes hresume happend
    obtain ⟨off, hview, haccepts, rfl, hoff, hleft⟩ := hck.continued hcut hjson' hresume happend
    have he : JsonRecord (o.stored e) := hjson e (by simp)
    rw [hck.returns_iff, hview] at hreturns
    obtain ⟨j, hload, -⟩ := hreturns
    have hle : off ≤ (image ++ linesOf ((e :: rest).map o.stored)).length := by
      rw [List.length_append]
      omega
    have hdrop : (image ++ linesOf ((e :: rest).map o.stored)).drop off = linesOf ([] : List ε) ++
        (image.drop off ++ (toText (o.stored e) ++ newline :: linesOf (rest.map o.stored))) := by
      rw [List.drop_append_of_le_length hoff, List.map_cons, linesOf_cons]
      rfl
    have hload' : ∃ y, k.load (image ++ linesOf ((e :: rest).map o.stored))
        { entries := (o.survivors olds x c).map o.stored ++ (e :: rest).map o.stored
          loadedBytes := off } = .error y := by
      rcases hleft with hleft | ⟨⟨hpos, hlt⟩, hleft⟩
      · -- the first entry is read a second time
        obtain ⟨y, hstale⟩ := hck.stale haccepts
        rw [hleft, List.nil_append] at hdrop
        rw [← List.append_nil (_ ++ _)] at hstale
        exact ⟨y, load_rejected hnone trivial hle he hstale hdrop⟩
      · obtain ⟨hpre, hne, -⟩ := take_torn hpos hlt
        rw [hleft, ← List.append_assoc (List.take _ _)] at hdrop
        exact ⟨_, load_corrupt hnone trivial hle
          ((hx.text.of_prefix hpre hne).append he.text).utf8 (hx.torn _ _ hpre hne) hdrop⟩
    obtain ⟨y, hload'⟩ := hload'
    exact nomatch hload.symm.trans hload'
  · rintro rfl image hcut h h' bytes hresume happend
    obtain ⟨off, hview, -, rfl, hoff, hleft⟩ := hck.continued hcut hjson' hresume happend
    rw [List.map_nil, List.append_nil] at hview
    rw [List.map_nil, linesOf_nil, List.append_nil, List.append_nil, hck.returns_iff, hview]
    rcases hleft with hleft | ⟨⟨hpos, hlt⟩, hleft⟩
    · have hdrop : image.drop off = linesOf ([] : List ε) := hleft
      exact ⟨_, load_whole hnone trivial hoff hdrop, List.append_nil _⟩
    · obtain ⟨hpre, hne, hpart⟩ := take_torn hpos hlt
      have hdrop : image.drop off = linesOf ([] : List ε) ++ (toText (o.stored x)).take c := hleft
      exact ⟨_, load_torn hnone trivial hoff hx hpre hne hpart hdrop, List.append_nil _⟩

end Crash

end JournalOps

/-! ### The ledger -/

section Ledger

variable [LedgerText]

def ledgerCheck : LineCheck LedgerEntry LedgerError where
  check := checkEntry
  shrank := .shrank
  notUtf8 := .notUtf8
  corrupt := .corrupt

def CommittedLedger.loaded (l : CommittedLedger) : Loaded LedgerEntry where
  entries := l.entries
  loadedBytes := l.loadedBytes

omit [LedgerText] in
private theorem length_readLine_le (data : Bytes) : (readLine data).length ≤ data.length := by
  have hle := (List.takeWhile_prefix (· != newline) (l := data)).length_le
  unfold readLine
  dsimp only
  split
  · rw [List.length_append, List.length_singleton]
    omega
  · exact hle

private theorem refreshLoop_idle (data : Bytes) (rounds : Nat) {r : Reader}
    (h : r.refreshing = none) : refreshLoop data rounds r = .ok r := by
  cases rounds with
  | zero => rfl
  | succ rounds => rw [refreshLoop, h]

/-- On a file that does not change, the rounds of a reader are those of `loadLines`. -/
theorem refreshLoop_eq_loadLines (data : Bytes) (rounds : Nat) {r : Reader} {p : Nat}
    (hrefreshing : r.refreshing = some (data.length, p)) (hp : p ≤ data.length)
    (hrounds : data.length < p + rounds) :
    (refreshLoop data rounds r).map (fun r => r.ledger.loaded)
      = ledgerCheck.loadLines data rounds p r.ledger.entries := by
  induction rounds generalizing r p with
  | zero => omega
  | succ rounds ih =>
    have hread := length_readLine_le (data.drop p)
    rw [List.length_drop] at hread
    rw [refreshLoop, hrefreshing, LineCheck.loadLines]
    dsimp only
    unfold refreshLine
    dsimp only
    by_cases hvalid : ¬ utf8Valid (readLine (data.drop p))
    · rw [if_pos hvalid, if_pos hvalid]
      rfl
    rw [if_neg hvalid, if_neg hvalid]
    by_cases hnil : readLine (data.drop p) = []
    · rw [if_pos hnil, if_pos hnil]
      show (refreshLoop data rounds (r.finish p)).map _ = _
      rw [refreshLoop_idle data rounds rfl]
      rfl
    rw [if_neg hnil, if_neg hnil]
    have hpos := List.length_pos_iff.mpr hnil
    by_cases htrim : trimEnd (readLine (data.drop p)) = []
    · rw [if_pos htrim, if_pos htrim]
      exact ih rfl (by omega) (by omega)
    rw [if_neg htrim, if_neg htrim]
    have hfrom : (fromText (trimEnd (readLine (data.drop p))) : Option LedgerEntry)
        = fromJson (trimEnd (readLine (data.drop p))) := rfl
    rw [hfrom]
    cases fromJson (trimEnd (readLine (data.drop p))) with
    | none =>
      dsimp only
      split
      · show (refreshLoop data rounds (r.finish p)).map _ = _
        rw [refreshLoop_idle data rounds rfl]
        rfl
      · rfl
    | some entry =>
      have hcheck : ledgerCheck.check = checkEntry := rfl
      dsimp only
      rw [hcheck]
      cases checkEntry r.ledger.entries entry with
      | error e => rfl
      | ok u => exact ih rfl (by omega) (by omega)

omit [LedgerText] in
private theorem except_map_map {ε α β γ : Type} (f : α → β) (g : β → γ) (x : Except ε α) :
    (x.map f).map g = x.map fun a => g (f a) := by
  cases x <;> rfl

private theorem sequence_of_checkEntry {es : List LedgerEntry} {e : LedgerEntry}
    (h : checkEntry es e = .ok ()) : e.sequence = nextSequence es := by
  unfold checkEntry at h
  split at h
  · exact nomatch h
  · rename_i hseq
    exact not_not.mp hseq

theorem ledgerJournal_checked : ledgerJournal.Checked ledgerCheck CommittedLedger.loaded where
  created := rfl
  entries _ := rfl
  append := by
    intro l entry l' bytes happend
    obtain ⟨hcontinues, rfl, rfl⟩ := append_eq_ok happend
    exact ⟨checkEntry_of_continues hcontinues, rfl, rfl⟩
  refresh := by
    rintro data ⟨entries, off⟩
    show ((refresh (some data) { ledger := { entries, loadedBytes := off } }).map Reader.ledger).map _
      = ledgerCheck.load data { entries, loadedBytes := off }
    unfold refresh refreshStart LineCheck.load
    dsimp only
    by_cases hlt : data.length < off
    · rw [if_pos hlt, if_pos hlt]
      rfl
    rw [if_neg hlt, if_neg hlt]
    by_cases heq : data.length = off
    · rw [if_pos heq, if_pos heq]
      rfl
    rw [if_neg heq, if_neg heq]
    have hloop := refreshLoop_eq_loadLines data (data.length + 1) (p := off)
      (r := { ledger := { entries, loadedBytes := off }, refreshing := some (data.length, off) })
      rfl (Nat.le_of_not_lt hlt) (by omega)
    rw [← hloop]
    exact except_map_map ..
  stale := by
    intro es e new haccepts
    have hnext : ∀ es (e : LedgerEntry), nextSequence (es ++ [e]) = e.sequence + 1 := by
      intro es e
      rw [nextSequence, List.getLast?_concat]
      rfl
    exact stale_of_sequence sequence_of_checkEntry hnext haccepts

end Ledger

/-! ### The replay map -/

theorem replayMapJournal_checked [SerdeJson ReplayMapEntry] :
    replayMapJournal.Checked replayMapCheck id where
  created := rfl
  entries _ := rfl
  append := by
    intro m entry m' bytes happend
    change ReplayMap.push m entry = _ at happend
    unfold ReplayMap.push at happend
    cases hcheck : validateNext m.entries entry with
    | error e =>
      rw [hcheck] at happend
      exact nomatch happend
    | ok u =>
      rw [hcheck] at happend
      obtain ⟨rfl, rfl⟩ := Prod.mk.inj (Except.ok.inj happend)
      exact ⟨hcheck, rfl, rfl⟩
  refresh := by
    intro data m
    show (replayMapCheck.load data m).map id = replayMapCheck.load data m
    cases replayMapCheck.load data m <;> rfl
  stale := by
    intro es e new haccepts
    let next : List ReplayMapEntry → Nat := fun es =>
      (es.getLast?.map fun e => e.logicalSequence + 1).getD 1
    have hseq : ∀ {es : List ReplayMapEntry} {e : ReplayMapEntry},
        replayMapCheck.check es e = .ok () → e.logicalSequence = next es := by
      intro es e hcheck
      change validateNext es e = _ at hcheck
      unfold validateNext at hcheck
      dsimp only at hcheck
      split at hcheck
      · exact nomatch hcheck
      · rename_i hseq
        exact not_not.mp hseq
    have hnext : ∀ es (e : ReplayMapEntry), next (es ++ [e]) = e.logicalSequence + 1 := by
      intro es e
      show ((es ++ [e]).getLast?.map _).getD 1 = _
      rw [List.getLast?_concat]
      rfl
    exact stale_of_sequence hseq hnext haccepts

end GrayDB.R1
