import GrayDB.R1.TornTails

/-!
# Torn tails of the intents

The log of intents has no handle: `readAll` parses all lines, the last one too when it has
no newline.  `intents_survive_iff` says at which cuts it succeeds, and `torn_tails_iff` puts
the three journals together.
-/

namespace GrayDB.R1

open Lib Log

section Intents

variable [SerdeJson TransactionPlan]

/-- Some appends. -/
def IntentLog.appendAll (l : IntentLog) (plans : List TransactionPlan) : IntentLog :=
  plans.foldl IntentLog.append l

/-- What a crash leaves: these plans were appended, and the last line is cut behind `n`
bytes. -/
def IntentLog.cut (plans : List TransactionPlan) (plan : TransactionPlan) (n : Nat) : IntentLog :=
  let before := IntentLog.appendAll {} plans
  let after := before.append plan
  { after with file := after.file.map fun data => data.take ((before.file.getD []).length + n) }

/-- On the file that is left, and on the file that further appends make of it, `readAll`
returns what is complete and what is new. -/
def IntentsSurvive (plans : List TransactionPlan) (plan : TransactionPlan) (n : Nat)
    (news : List TransactionPlan) : Prop :=
  let left := if n < (toText plan).length then plans else plans ++ [plan]
  (IntentLog.cut plans plan n).readAll = .ok left ∧
    ((IntentLog.cut plans plan n).appendAll news).readAll = .ok (left ++ news)

theorem file_appendAll (l : IntentLog) (plans : List TransactionPlan) :
    (l.appendAll plans).file.getD [] = l.file.getD [] ++ linesOf plans ∧
      (l.file.isSome → (l.appendAll plans).file.isSome) := by
  induction plans generalizing l with
  | nil => exact ⟨(List.append_nil _).symm, id⟩
  | cons plan plans ih =>
    obtain ⟨hfile, hsome⟩ := ih (l.append plan)
    refine ⟨?_, fun _ => hsome rfl⟩
    rw [linesOf_cons]
    show ((l.append plan).appendAll plans).file.getD [] = _
    rw [hfile]
    show l.file.getD [] ++ (toText plan ++ [newline]) ++ linesOf plans = _
    rw [List.append_assoc, List.append_assoc]
    rfl

theorem file_cut (plans : List TransactionPlan) (plan : TransactionPlan) (n : Nat) :
    (IntentLog.cut plans plan n).file
      = some (linesOf plans ++ (toText plan ++ [newline]).take n) := by
  have hbefore : (IntentLog.appendAll {} plans).file.getD [] = linesOf plans :=
    (file_appendAll {} plans).1
  show some (List.take _ ((IntentLog.appendAll {} plans).file.getD [] ++ _)) = _
  rw [hbefore, List.take_append, List.take_of_length_le (Nat.le_add_right _ _),
    Nat.add_sub_cancel_left]

/-- The file of a log that was cut and appended to. -/
theorem file_cut_appendAll (plans news : List TransactionPlan) (plan : TransactionPlan) (n : Nat) :
    ((IntentLog.cut plans plan n).appendAll news).file
      = some (linesOf plans ++ (toText plan ++ [newline]).take n ++ linesOf news) := by
  obtain ⟨hfile, hsome⟩ := file_appendAll (IntentLog.cut plans plan n) news
  rw [file_cut] at hfile hsome
  obtain ⟨data, hdata⟩ := Option.isSome_iff_exists.mp (hsome rfl)
  rw [hdata] at hfile ⊢
  exact congrArg some hfile

/-! ## Reading lines -/

omit [SerdeJson TransactionPlan] in
theorem stripEol_text {text : Bytes} (h : TextLine text) :
    stripEol text = text ∧ stripEol (text ++ [newline]) = text := by
  have hlast : ∀ b, b = newline ∨ b = 0x0D → text.getLast? ≠ some b := by
    intro b hb hlast
    obtain ⟨hnl, hcr⟩ := h.oneLine b (List.mem_of_getLast? hlast)
    exact hb.elim hnl hcr
  constructor
  · rw [stripEol, if_neg (hlast newline (.inl rfl))]
  · rw [stripEol, if_pos List.getLast?_concat, List.dropLast_concat]
    exact if_neg (hlast 0x0D (.inr rfl))

theorem parseLines_terminated {text : Bytes} (htext : TextLine text) (rest : Bytes) (n : Nat) :
    parseLines (n + 1) (text ++ newline :: rest) = match fromText text with
      | none => .error .json
      | some plan => (parseLines n rest).map fun plans => plan :: plans := by
  have hread := readLine_line htext.newline_notMem rest
  have hdrop : (text ++ newline :: rest).drop (text ++ [newline]).length = rest := by
    rw [show text ++ newline :: rest = text ++ [newline] ++ rest by simp, List.drop_left]
  rw [parseLines]
  simp only [hread, (stripEol_text htext).2, hdrop]
  rw [if_neg (not_not_intro htext.valid_line)]
  exact if_neg (by simp)

theorem parseLines_open {text : Bytes} (htext : TextLine text) (n : Nat) :
    parseLines (n + 1) text = match fromText text with
      | none => .error .json
      | some plan => (parseLines n []).map fun plans => plan :: plans := by
  have hread := readLine_of_notMem htext.newline_notMem
  rw [parseLines]
  simp only [hread, (stripEol_text htext).1, List.drop_length]
  rw [if_neg (not_not_intro (utf8Valid_ascii htext.ascii))]
  exact if_neg htext.nonempty

theorem parseLines_nil (n : Nat) : parseLines n [] = .ok [] := by
  cases n with
  | zero => rfl
  | succ n =>
    have hvalid : utf8Valid (readLine []) = true := utf8Valid_ascii (by simp [readLine])
    rw [parseLines, if_neg (not_not_intro hvalid)]
    rfl

theorem parseLines_lines {plans : List TransactionPlan} (hjson : ∀ p ∈ plans, JsonRecord p)
    (tail : Bytes) (n : Nat) : parseLines (n + plans.length) (linesOf plans ++ tail)
      = (parseLines n tail).map fun rest => plans ++ rest := by
  induction plans with
  | nil =>
    show parseLines n tail = _
    cases parseLines n tail <;> rfl
  | cons plan plans ih =>
    have hplan := hjson plan List.mem_cons_self
    rw [linesOf_cons, List.append_assoc, List.cons_append, List.length_cons, ← Nat.add_assoc,
      parseLines_terminated hplan.text, hplan.roundTrip]
    dsimp only
    rw [ih fun p hp => hjson p (List.mem_cons_of_mem plan hp)]
    cases parseLines n tail <;> rfl

/-- The whole lines of a file are read, and then its tail. -/
theorem parse_file {plans : List TransactionPlan} (hjson : ∀ p ∈ plans, JsonRecord p)
    (tail : Bytes) : ∃ n, parseLines ((linesOf plans ++ tail).length + 1) (linesOf plans ++ tail)
      = (parseLines (n + 1) tail).map fun rest => plans ++ rest := by
  have hlen := length_le_linesOf plans
  obtain ⟨n, hn⟩ : ∃ n, (linesOf plans ++ tail).length + 1 = n + 1 + plans.length := by
    refine ⟨(linesOf plans ++ tail).length - plans.length, ?_⟩
    rw [List.length_append]
    omega
  exact ⟨n, by rw [hn, parseLines_lines hjson]⟩

theorem parse_lines {plans : List TransactionPlan} (hjson : ∀ p ∈ plans, JsonRecord p) :
    parseLines ((linesOf plans).length + 1) (linesOf plans) = .ok plans := by
  obtain ⟨n, hparse⟩ := parse_file hjson []
  rw [List.append_nil, parseLines_nil] at hparse
  rw [hparse]
  exact congrArg Except.ok (List.append_nil plans)

/-- A last line without its newline is read, if it is JSON. -/
theorem parse_open {plans : List TransactionPlan} (hjson : ∀ p ∈ plans, JsonRecord p)
    {text : Bytes} (htext : TextLine text) :
    parseLines ((linesOf plans ++ text).length + 1) (linesOf plans ++ text)
      = match (fromText text : Option TransactionPlan) with
        | none => .error .json
        | some plan => .ok (plans ++ [plan]) := by
  obtain ⟨n, hparse⟩ := parse_file hjson text
  rw [hparse, parseLines_open htext]
  cases (fromText text : Option TransactionPlan) with
  | none => rfl
  | some plan =>
    dsimp only
    rw [parseLines_nil]
    rfl

theorem parse_corrupt {plans : List TransactionPlan} (hjson : ∀ p ∈ plans, JsonRecord p)
    {text : Bytes} (htext : TextLine text) (hnone : (fromText text : Option TransactionPlan) = none)
    (rest : Bytes) : parseLines ((linesOf plans ++ (text ++ newline :: rest)).length + 1)
      (linesOf plans ++ (text ++ newline :: rest)) = .error .json := by
  obtain ⟨n, hparse⟩ := parse_file hjson (text ++ newline :: rest)
  rw [hparse, parseLines_terminated htext, hnone]
  rfl

/-! ## The log that is left -/

variable {plans news : List TransactionPlan} {plan : TransactionPlan} {n : Nat}

theorem readAll_of_file {l : IntentLog} {data : Bytes} (h : l.file = some data) :
    l.readAll = parseLines (data.length + 1) data := by
  rw [IntentLog.readAll, h]

/-- The intents survive a cut between two lines, and a cut before the newline if nothing is
appended to that line. -/
theorem intents_survive_iff (hjson : ∀ p ∈ plans ++ [plan] ++ news, JsonRecord p)
    (hn : n ≤ (toText plan).length + 1) : IntentsSurvive plans plan n news ↔
      n = 0 ∨ n = (toText plan).length + 1 ∨ n = (toText plan).length ∧ news = [] := by
  have hplans : ∀ p ∈ plans, JsonRecord p := fun p hp => hjson p (by simp [hp])
  have hplan : JsonRecord plan := hjson plan (by simp)
  have hall : ∀ p ∈ plans ++ [plan], JsonRecord p := fun p hp =>
    hjson p (List.mem_append_left news hp)
  have hpos := List.length_pos_iff.mpr hplan.text.nonempty
  unfold IntentsSurvive
  dsimp only
  rw [readAll_of_file (file_cut plans plan n), readAll_of_file (file_cut_appendAll plans news plan n)]
  rcases take_line_cases hn with ⟨rfl, htake⟩ | ⟨⟨hn₀, hn₁⟩, htake⟩ | ⟨rfl, htake⟩ | ⟨rfl, htake⟩
  · have hnew : ∀ p ∈ plans ++ news, JsonRecord p := fun p hp =>
      hjson p (by simpa using (List.mem_append.mp hp).imp_right Or.inr)
    rw [htake, List.append_nil, ← linesOf_append, parse_lines hplans, parse_lines hnew, if_pos hpos]
    simp
  · obtain ⟨hpre, hne, hpart⟩ := take_torn hn₀ hn₁
    rw [htake, parse_open hplans (hplan.text.of_prefix hpre hne),
      hplan.cut _ hpre hpart hne]
    constructor
    · exact fun h => nomatch h.1
    · omega
  · rw [htake, parse_open hplans hplan.text, hplan.roundTrip, if_neg (Nat.lt_irrefl _)]
    constructor
    · rintro ⟨-, hread⟩
      refine Or.inr (Or.inr ⟨rfl, ?_⟩)
      by_contra hnews
      obtain ⟨new, rest, rfl⟩ := List.exists_cons_of_ne_nil hnews
      have hnew : JsonRecord new := hjson new (by simp)
      have hcorrupt := parse_corrupt hplans (hplan.text.append hnew.text)
        (hplan.torn _ new (List.prefix_refl _) hplan.text.nonempty) (linesOf rest)
      rw [List.append_assoc, linesOf_cons, ← List.append_assoc (toText plan), hcorrupt] at hread
      exact nomatch hread
    · rintro (h | h | ⟨-, rfl⟩)
      · omega
      · omega
      · rw [linesOf_nil, List.append_nil, List.append_nil, parse_open hplans hplan.text,
          hplan.roundTrip]
        exact ⟨rfl, rfl⟩
  · have hlines : linesOf plans ++ (toText plan ++ [newline]) = linesOf (plans ++ [plan]) := by
      rw [linesOf_append, linesOf_singleton]
    rw [htake, hlines, ← linesOf_append, parse_lines hall, parse_lines hjson, if_neg (by omega)]
    simp

end Intents

/-! ## All three journals -/

/-- **Torn tails.**  Whatever was appended to the three journals, and wherever the last line
is cut: the intents are read again if the cut is between two lines, or before the newline of
a line that nothing follows; the ledger and the replay map are resumed at any cut, and with
what is appended then if the cut is between two lines; and a handle that has appended cannot
be refreshed. -/
theorem torn_tails_iff [LedgerText] [SerdeJson TransactionPlan] [SerdeJson ReplayMapEntry]
    {plans planNews : List TransactionPlan} {plan : TransactionPlan} {n : Nat}
    {entries entryNews : List LedgerEntry} {entry : LedgerEntry} {c : Nat}
    {mapped mappedNews : List ReplayMapEntry} {mapping : ReplayMapEntry} {d : Nat}
    (hplans : ∀ p ∈ plans ++ [plan] ++ planNews, JsonRecord p) (hn : n ≤ (toText plan).length + 1)
    (hentries : ∀ e ∈ entries ++ [entry] ++ entryNews, JsonRecord (ledgerJournal.stored e))
    (hledger : ledgerJournal.Continues entries entry c entryNews)
    (hmapped : ∀ e ∈ mapped ++ [mapping] ++ mappedNews, JsonRecord (replayMapJournal.stored e))
    (hmap : replayMapJournal.Continues mapped mapping d mappedNews) :
    (IntentsSurvive plans plan n planNews ↔
        n = 0 ∨ n = (toText plan).length + 1 ∨ n = (toText plan).length ∧ planNews = []) ∧
      (ledgerJournal.Resumes entries entry c entryNews ↔
        c = 0 ∨ c = (toText (ledgerJournal.stored entry)).length + 1 ∨ entryNews = []) ∧
      (ledgerJournal.Refreshes entries entry c entryNews ↔ entryNews = []) ∧
      (replayMapJournal.Resumes mapped mapping d mappedNews ↔
        d = 0 ∨ d = (toText (replayMapJournal.stored mapping)).length + 1 ∨ mappedNews = []) ∧
      (replayMapJournal.Refreshes mapped mapping d mappedNews ↔ mappedNews = []) :=
  ⟨intents_survive_iff hplans hn, ledgerJournal_checked.resumes_iff hentries hledger,
    ledgerJournal_checked.refreshes_iff hentries hledger,
    replayMapJournal_checked.resumes_iff hmapped hmap,
    replayMapJournal_checked.refreshes_iff hmapped hmap⟩

/-! ## A run -/

/-- The JSON of one record. -/
@[reducible] def onlyJson {ε : Type} [DecidableEq ε] (only : ε) (text : Bytes) : SerdeJson ε where
  toText e := if e = only then text else [0x7B, 0x7D]
  fromText b := if b = text then some only else none

theorem jsonRecord_only {ε : Type} [DecidableEq ε] {only : ε} {text rest : Bytes}
    (htext : TextLine text) (hsplit : text = 0x7B :: rest) (hrest : (0x7B : UInt8) ∉ rest) :
    letI := onlyJson only text
    JsonRecord only := by
  let _ := onlyJson only text
  have honly : toText only = text := if_pos rfl
  refine ⟨?_, if_pos honly, ?_, ?_⟩
  · rw [honly]
    exact htext
  · intro p _ hpart _
    rw [honly] at hpart
    exact if_neg hpart
  · intro p e' hp hne
    apply if_neg
    intro heq
    obtain ⟨b, p, rfl⟩ := List.exists_cons_of_ne_nil hne
    have hmem : (0x7B : UInt8) ∈ toText e' := by
      show _ ∈ (if e' = only then text else [0x7B, 0x7D])
      split
      · rw [hsplit]
        exact List.mem_cons_self
      · exact List.mem_cons_self
    obtain ⟨-, hrest'⟩ := List.cons.inj (heq.trans hsplit)
    exact hrest (hrest' ▸ List.mem_append_right p hmem)

def firstPlan : TransactionPlan where
  sequence := 1
  logicalTimeMicros := 0
  operations := []
  operationSha256 := "4f53cda18c2baa0c0354bb5f9a3ecbe5ed12ab4d8e11ba873c2f11161202b945"

def planText : Bytes :=
  "\x7b\"sequence\":1,\"logical_time_micros\":0,\"operations\":[],\"operation_sha256\":\"4f53cda18c2baa0c0354bb5f9a3ecbe5ed12ab4d8e11ba873c2f11161202b945\"\x7d".toUTF8.toList

def firstMapping : ReplayMapEntry where
  logicalSequence := 1
  originalSourceLsn := 101
  replaySourceLsn := 201
  operationSha256 := "4f53cda18c2baa0c0354bb5f9a3ecbe5ed12ab4d8e11ba873c2f11161202b945"

def mappingText : Bytes :=
  "\x7b\"logical_sequence\":1,\"original_source_lsn\":101,\"replay_source_lsn\":201,\"operation_sha256\":\"4f53cda18c2baa0c0354bb5f9a3ecbe5ed12ab4d8e11ba873c2f11161202b945\"\x7d".toUTF8.toList

/-- JSON and SHA-256 of the first entry. -/
@[reducible] def firstLedgerText : LedgerText where
  toJson := (onlyJson firstEntry (plainJson firstEntry)).toText
  fromJson := (onlyJson firstEntry (plainJson firstEntry)).fromText
  sha256Hex _ := firstEntry.entrySha256

/-- A line of ASCII that is longer than 40 bytes, with one brace that opens. -/
def braced (text : Bytes) : Bool :=
  text.head? == some 0x7B && text.all (fun b => b < 0x80 && b != newline && b != 0x0D) &&
    !text.tail.contains 0x7B && 40 < text.length

theorem jsonRecord_braced {ε : Type} [DecidableEq ε] {only : ε} (text : Bytes)
    (h : braced text = true) : letI := onlyJson only text
    JsonRecord only ∧ 40 < (toText only).length := by
  let _ := onlyJson only text
  have honly : toText only = text := if_pos rfl
  simp only [braced, Bool.and_eq_true, beq_iff_eq, Bool.not_eq_true', decide_eq_true_eq] at h
  obtain ⟨⟨⟨hhead, hbytes⟩, htail⟩, hlen⟩ := h
  obtain ⟨rest, rfl⟩ := List.head?_eq_some_iff.mp hhead
  have htext : TextLine (0x7B :: rest) := by
    constructor
    · exact List.cons_ne_nil _ _
    · intro b hb
      have := List.all_eq_true.mp hbytes b hb
      simp only [Bool.and_eq_true, decide_eq_true_eq] at this
      exact this.1.1
    · intro b hb
      simpa using (by simpa [and_assoc] using List.all_eq_true.mp hbytes b hb : _ ∧ _).2
  refine ⟨jsonRecord_only htext rfl (by simpa using htail), ?_⟩
  rw [honly]
  exact hlen

theorem firstPlan_json : letI := onlyJson firstPlan planText
    JsonRecord firstPlan ∧ 40 < (toText firstPlan).length :=
  jsonRecord_braced planText (by decide +kernel)

/-- The first entry of the ledger is cut behind 40 bytes, and appended again. -/
theorem firstEntry_continues : letI := firstLedgerText
    (JsonRecord (ledgerJournal.stored firstEntry) ∧
        40 < (toText (ledgerJournal.stored firstEntry)).length) ∧
      ledgerJournal.Continues [] firstEntry 40 [firstEntry] := by
  let _ := firstLedgerText
  have hjson : JsonRecord (ledgerJournal.stored firstEntry) ∧
      40 < (toText (ledgerJournal.stored firstEntry)).length :=
    jsonRecord_braced (plainJson firstEntry) (by decide +kernel)
  refine ⟨hjson, ledgerJournal_checked.continues_torn hjson.1 (by decide) hjson.2 ?_⟩
  rintro ⟨entries, off⟩ hview
  obtain ⟨rfl, rfl⟩ := Loaded.mk.inj hview
  exact ⟨_, rfl⟩

/-- The first mapping is cut behind 40 bytes, and pushed again. -/
theorem firstMapping_continues : letI := onlyJson firstMapping mappingText
    (JsonRecord (replayMapJournal.stored firstMapping) ∧
        40 < (toText (replayMapJournal.stored firstMapping)).length) ∧
      replayMapJournal.Continues [] firstMapping 40 [firstMapping] := by
  let _ := onlyJson firstMapping mappingText
  have hjson : JsonRecord (replayMapJournal.stored firstMapping) ∧
      40 < (toText (replayMapJournal.stored firstMapping)).length :=
    jsonRecord_braced mappingText (by decide +kernel)
  refine ⟨hjson, replayMapJournal_checked.continues_torn hjson.1 (by decide) hjson.2 ?_⟩
  rintro h rfl
  exact ⟨_, rfl⟩

theorem torn_tails_first :
    let _ := firstLedgerText
    let _ := onlyJson firstPlan planText
    let _ := onlyJson firstMapping mappingText
    IntentsSurvive [] firstPlan 0 [firstPlan] ∧
      ¬ ledgerJournal.Resumes [] firstEntry 40 [firstEntry] ∧
      ¬ replayMapJournal.Refreshes [] firstMapping 40 [firstMapping] := by
  intro _ _ _
  obtain ⟨hplan, -⟩ := firstPlan_json
  obtain ⟨⟨hentry, hentryLen⟩, hledger⟩ := firstEntry_continues
  obtain ⟨⟨hmapping, -⟩, hmap⟩ := firstMapping_continues
  have hplans : ∀ p ∈ [] ++ [firstPlan] ++ [firstPlan], JsonRecord p := by simpa using hplan
  have hentries : ∀ e ∈ [] ++ [firstEntry] ++ [firstEntry], JsonRecord (ledgerJournal.stored e) := by
    simpa using hentry
  have hmapped : ∀ e ∈ [] ++ [firstMapping] ++ [firstMapping],
      JsonRecord (replayMapJournal.stored e) := by simpa using hmapping
  obtain ⟨hsurvive, hresume, -, -, hrefresh⟩ :=
    torn_tails_iff hplans (Nat.zero_le _) hentries hledger hmapped hmap
  refine ⟨hsurvive.mpr (Or.inl rfl), ?_, ?_⟩
  · rw [hresume]
    simp
    omega
  · rw [hrefresh]
    exact List.cons_ne_nil _ _

/-- A plan that is cut behind 10 bytes makes `readAll` fail.  An entry that is cut behind 40
bytes is skipped by `resume`, but `resume` fails when it is appended again; and then the
handle that has appended it cannot be refreshed. -/
theorem torn_tails_poison :
    let _ := firstLedgerText
    let _ := onlyJson firstPlan planText
    let _ := onlyJson firstMapping mappingText
    ¬ IntentsSurvive [] firstPlan 10 [] ∧ ¬ ledgerJournal.Resumes [] firstEntry 40 [firstEntry] ∧
      ¬ ledgerJournal.Refreshes [] firstEntry 40 [firstEntry] ∧
      ¬ replayMapJournal.Resumes [] firstMapping 40 [firstMapping] ∧
      ¬ replayMapJournal.Refreshes [] firstMapping 40 [firstMapping] := by
  intro _ _ _
  obtain ⟨hplan, hplanLen⟩ := firstPlan_json
  obtain ⟨⟨hentry, hentryLen⟩, hledger⟩ := firstEntry_continues
  obtain ⟨⟨hmapping, hmappingLen⟩, hmap⟩ := firstMapping_continues
  have hplans : ∀ p ∈ [] ++ [firstPlan] ++ [], JsonRecord p := by simpa using hplan
  have hentries : ∀ e ∈ [] ++ [firstEntry] ++ [firstEntry], JsonRecord (ledgerJournal.stored e) := by
    simpa using hentry
  have hmapped : ∀ e ∈ [] ++ [firstMapping] ++ [firstMapping],
      JsonRecord (replayMapJournal.stored e) := by simpa using hmapping
  have hn : 10 ≤ (toText firstPlan).length + 1 := by omega
  rw [intents_survive_iff hplans hn, ledgerJournal_checked.resumes_iff hentries hledger,
    ledgerJournal_checked.refreshes_iff hentries hledger,
    replayMapJournal_checked.resumes_iff hmapped hmap,
    replayMapJournal_checked.refreshes_iff hmapped hmap]
  simp
  omega

end GrayDB.R1
