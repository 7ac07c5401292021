import GrayDB.Lib.Text
import Mathlib.Data.List.Infix

/-!
# Batches of SQL statements

ClickHouse takes one statement at a time, so a file of statements is cut at its semicolons.
Comments go first, since they may hold semicolons.  Both scanners follow quoted strings, and
the second one reads what the first has left.

* `Symbol`, `WellFormed`: the texts that the scanners are for.
* `strip_text`: the first scanner leaves a text without its comments.
* `cutStatements_clean`: the second cuts what is left where the text has its semicolons.
* `exists_symbols`: every text is well formed up to a string that does not end.
* `split_statements` puts the scanners together.
-/

namespace GrayDB.R1

open Lib

def isQuote (c : Char) : Bool := c == '\'' || c == '"' || c == '\x60'

/-- The string that a scanner is in, and whether the character before was a backslash. -/
abbrev Quote := Option (Char × Bool)

def Quote.next (c : Char) : Quote → Quote
  | some (q, true) => some (q, false)
  | some (q, false) => if c = '\\' then some (q, true) else if c = q then none else some (q, false)
  | none => if isQuote c then some (c, false) else none

/-- Where the first scanner is. -/
inductive Scan where
  | text (quote : Quote)
  | comment

/-- Write in front of what follows. -/
def push (out : List Char) (r : List Char × Quote) : List Char × Quote := (out ++ r.1, r.2)

/-- The first scanner: the text without its comments, and the string that is open at the end. -/
def strip : Scan → List Char → List Char × Quote
  | .text quote, [] => ([], quote)
  | .comment, [] => ([], none)
  | .text quote, c :: cs =>
    if quote = none ∧ c = '-' ∧ cs.head? = some '-' then strip .comment cs
    else push [c] (strip (.text (quote.next c)) cs)
  | .comment, c :: cs => if c = '\n' then push [c] (strip (.text none) cs) else strip .comment cs

/-- Add a statement, if there is something in it. -/
def keep (statement : List Char) (rest : List (List Char)) : List (List Char) :=
  if (trim statement).isEmpty then rest else trim statement :: rest

/-- The second scanner, with the statement so far. -/
def cutStatements : Quote → List Char → List Char → List (List Char)
  | _, current, [] => keep current []
  | quote, current, c :: cs =>
    if quote = none ∧ c = ';' then keep current (cutStatements none [] cs)
    else cutStatements (quote.next c) (current ++ [c]) cs

def splitSqlStatements (sql : String) : Except String (List String) :=
  let filtered := strip (.text none) sql.toList
  if filtered.2.isSome then .error "unterminated quoted string in ClickHouse SQL"
  else .ok ((cutStatements none [] filtered.1).map String.ofList)

/-! ## Texts -/

/-- What may stand between two quotes `q`: any characters, with a backslash in front or a
quote doubled. -/
inductive Inside (q : Char) : List Char → Prop where
  | nil : Inside q []
  | plain {c : Char} {cs : List Char} : c ≠ q → c ≠ '\\' → Inside q cs → Inside q (c :: cs)
  | escaped {c : Char} {cs : List Char} : Inside q cs → Inside q ('\\' :: c :: cs)
  | doubled {cs : List Char} : Inside q cs → Inside q (q :: q :: cs)

/-- What a text is made of. -/
inductive Symbol where
  | semicolon
  | plain (c : Char)
  | quoted (q : Char) (body : List Char)
  | comment (text : List Char)
  deriving DecidableEq

namespace Symbol

def text : Symbol → List Char
  | semicolon => [';']
  | plain c => [c]
  | quoted q body => q :: (body ++ [q])
  | comment text => '-' :: '-' :: text

/-- Comments are removed. -/
def clean : Symbol → List Char
  | comment _ => []
  | symbol => symbol.text

def Ok : Symbol → Prop
  | semicolon => True
  | plain c => isQuote c = false ∧ c ≠ ';'
  | quoted q body => isQuote q = true ∧ Inside q body
  | comment text => '\n' ∉ text

/-- What may follow: two hyphens begin a comment, and it goes on to the end of its line. -/
def Fits : Symbol → List Char → Prop
  | plain c, rest => c = '-' → rest.head? ≠ some '-'
  | comment _, rest => rest = [] ∨ rest.head? = some '\n'
  | _, _ => True

end Symbol

def text (symbols : List Symbol) : List Char := symbols.flatMap Symbol.text

def clean (symbols : List Symbol) : List Char := symbols.flatMap Symbol.clean

/-- The symbols are those of a text that goes on with `tail`. -/
def WellFormed : List Symbol → List Char → Prop
  | [], _ => True
  | s :: symbols, tail => s.Ok ∧ s.Fits (text symbols ++ tail) ∧ WellFormed symbols tail

/-- A string that is open at the end of the text, perhaps with a backslash that nothing
follows. -/
def OpenString (tail : List Char) : Prop :=
  ∃ q body, tail = q :: body ∧ isQuote q = true ∧
    (Inside q body ∨ ∃ cs, body = cs ++ ['\\'] ∧ Inside q cs)

/-- A batch of statements. -/
structure Batch where
  symbols : List Symbol
  wellFormed : WellFormed symbols []

namespace Batch

def sql (batch : Batch) : String := String.ofList (text batch.symbols)

/-- The statements, which the semicolons separate. -/
def statements (batch : Batch) : List (List Symbol) := batch.symbols.splitOn .semicolon

end Batch

/-- The statements that are executed: without comments and outer white space, and not empty. -/
def executed (statements : List (List Symbol)) : List (List Char) :=
  ((statements.map clean).map trim).filter fun s => !s.isEmpty

/-- The text ends in a quoted string. -/
def EndsInString (sql : String) : Prop :=
  ∃ symbols tail, sql.toList = text symbols ++ tail ∧ WellFormed symbols tail ∧ OpenString tail

/-! ## The first scanner -/

section

variable {q : Char} {body cs rest tail : List Char} {s : Symbol} {symbols : List Symbol}

@[simp] theorem push_push (out out' : List Char) (r : List Char × Quote) :
    push out (push out' r) = push (out ++ out') r := by
  rw [push, push, push, List.append_assoc]

@[simp] theorem push_nil (r : List Char × Quote) : push [] r = r := rfl

/-- A quote is none of the other characters that the scanners look for. -/
theorem ne_of_isQuote (h : isQuote q = true) : q ≠ '-' ∧ q ≠ '\\' ∧ q ≠ ';' ∧ q ≠ '\n' := by
  refine ⟨?_, ?_, ?_, ?_⟩ <;>
    · rintro rfl
      exact absurd h (by decide)

theorem strip_quoted_cons (e : Bool) (c : Char) (cs : List Char) :
    strip (.text (some (q, e))) (c :: cs)
      = push [c] (strip (.text (Quote.next c (some (q, e)))) cs) := by
  rw [strip, if_neg (by simp)]

theorem strip_inside (hq : isQuote q = true) (h : Inside q body) (rest : List Char) :
    strip (.text (some (q, false))) (body ++ rest)
      = push body (strip (.text (some (q, false))) rest) := by
  obtain ⟨hhyphen, hbackslash, -, -⟩ := ne_of_isQuote hq
  induction h with
  | nil => rfl
  | @plain c cs hcq hcb h ih =>
    rw [List.cons_append, strip_quoted_cons, Quote.next, if_neg hcb, if_neg hcq, ih, push_push,
      List.singleton_append]
  | @escaped c cs h ih =>
    rw [List.cons_append, List.cons_append, strip_quoted_cons, Quote.next, if_pos rfl,
      strip_quoted_cons, Quote.next, ih, push_push, push_push]
    rfl
  | @doubled cs h ih =>
    -- the string is closed and opened again
    rw [List.cons_append, List.cons_append, strip_quoted_cons, Quote.next, if_neg hbackslash,
      if_pos rfl, strip, if_neg (by simp [hhyphen]), Quote.next, if_pos hq, ih, push_push, push_push]
    rfl

theorem strip_comment (h : '\n' ∉ cs) (rest : List Char) :
    strip .comment (cs ++ rest) = strip .comment rest := by
  induction cs with
  | nil => rfl
  | cons c cs ih =>
    rw [List.mem_cons, not_or] at h
    rw [List.cons_append, strip, if_neg (Ne.symm h.1), ih h.2]

/-- One symbol: a comment is passed over, and the rest is copied. -/
theorem strip_symbol (hok : s.Ok) (hfits : s.Fits rest) :
    strip (.text none) (s.text ++ rest) = push s.clean (strip (.text none) rest) := by
  cases s with
  | semicolon => rfl
  | plain c =>
    rw [Symbol.text, List.singleton_append, strip, if_neg fun h => hfits h.2.1 h.2.2, Quote.next,
      if_neg (by rw [hok.1]; exact Bool.false_ne_true)]
    rfl
  | quoted q body =>
    obtain ⟨hhyphen, hbackslash, -, -⟩ := ne_of_isQuote hok.1
    rw [Symbol.text, List.cons_append, strip, if_neg (by simp [hhyphen]), Quote.next, if_pos hok.1,
      List.append_assoc, strip_inside hok.1 hok.2, List.singleton_append, strip_quoted_cons,
      Quote.next, if_neg hbackslash, if_pos rfl, push_push, push_push]
    rfl
  | comment text =>
    have htext : '\n' ∉ text := hok
    have hskip : strip .comment (('-' :: text) ++ rest) = strip .comment rest :=
      strip_comment (by simpa using htext) rest
    have hopen : strip (.text none) ('-' :: '-' :: (text ++ rest))
        = strip .comment ('-' :: (text ++ rest)) := by
      rw [strip, if_pos ⟨rfl, rfl, rfl⟩]
    refine (hopen.trans hskip).trans ?_
    rcases hfits with rfl | hnewline
    · rfl
    · obtain ⟨rest, rfl⟩ := List.head?_eq_some_iff.mp hnewline
      rfl

/-- The first scanner leaves a text without its comments. -/
theorem strip_text (h : WellFormed symbols tail) :
    strip (.text none) (text symbols ++ tail)
      = push (clean symbols) (strip (.text none) tail) := by
  induction symbols with
  | nil => rfl
  | cons s symbols ih =>
    obtain ⟨hok, hfits, hrest⟩ := h
    rw [text, List.flatMap_cons, List.append_assoc]
    change strip (.text none) (s.text ++ (text symbols ++ tail)) = _
    rw [strip_symbol hok hfits, ih hrest, push_push]
    rfl

/-- A string that is open at the end of the text is open at the end of the scan. -/
theorem strip_open (h : OpenString tail) : (strip (.text none) tail).2 ≠ none := by
  obtain ⟨q, body, rfl, hq, hbody⟩ := h
  obtain ⟨hhyphen, -, -, -⟩ := ne_of_isQuote hq
  rw [strip, if_neg (by simp [hhyphen]), Quote.next, if_pos hq]
  rcases hbody with hinside | ⟨cs, rfl, hinside⟩
  · have hscan := strip_inside hq hinside []
    rw [List.append_nil] at hscan
    rw [hscan]
    exact nofun
  · rw [strip_inside hq hinside, strip_quoted_cons, Quote.next, if_pos rfl]
    exact nofun

/-! ## The second scanner -/

theorem cutStatements_quoted_cons (e : Bool) (c : Char) (current cs : List Char) :
    cutStatements (some (q, e)) current (c :: cs)
      = cutStatements (Quote.next c (some (q, e))) (current ++ [c]) cs := by
  rw [cutStatements, if_neg (by simp)]

theorem cutStatements_inside (hq : isQuote q = true) (h : Inside q body) (current rest : List Char) :
    cutStatements (some (q, false)) current (body ++ rest)
      = cutStatements (some (q, false)) (current ++ body) rest := by
  obtain ⟨-, hbackslash, hsemicolon, -⟩ := ne_of_isQuote hq
  induction h generalizing current with
  | nil => rw [List.append_nil, List.nil_append]
  | @plain c cs hcq hcb h ih =>
    rw [List.cons_append, cutStatements_quoted_cons, Quote.next, if_neg hcb, if_neg hcq, ih,
      List.append_assoc, List.singleton_append]
  | @escaped c cs h ih =>
    rw [List.cons_append, List.cons_append, cutStatements_quoted_cons, Quote.next, if_pos rfl,
      cutStatements_quoted_cons, Quote.next, ih, List.append_assoc, List.append_assoc]
    rfl
  | @doubled cs h ih =>
    rw [List.cons_append, List.cons_append, cutStatements_quoted_cons, Quote.next,
      if_neg hbackslash, if_pos rfl, cutStatements, if_neg (by simp [hsemicolon]), Quote.next,
      if_pos hq, ih, List.append_assoc, List.append_assoc]
    rfl

/-- One symbol within a statement. -/
theorem cutStatements_symbol (hok : s.Ok) (hs : s ≠ .semicolon) (current rest : List Char) :
    cutStatements none current (s.clean ++ rest)
      = cutStatements none (current ++ s.clean) rest := by
  cases s with
  | semicolon => exact absurd rfl hs
  | plain c =>
    rw [Symbol.clean, Symbol.text, List.singleton_append, cutStatements,
      if_neg fun h => hok.2 h.2, Quote.next, if_neg (by rw [hok.1]; exact Bool.false_ne_true)]
    exact nofun
  | quoted q body =>
    obtain ⟨-, hbackslash, hsemicolon, -⟩ := ne_of_isQuote hok.1
    rw [Symbol.clean, Symbol.text, List.cons_append, cutStatements, if_neg (by simp [hsemicolon]),
      Quote.next, if_pos hok.1, List.append_assoc, cutStatements_inside hok.1 hok.2,
      List.singleton_append, cutStatements_quoted_cons, Quote.next, if_neg hbackslash, if_pos rfl,
      List.append_assoc, List.append_assoc]
    · rfl
    · exact nofun
  | comment text => rw [Symbol.clean, List.append_nil, List.nil_append]

theorem WellFormed.ok (h : WellFormed symbols tail) : ∀ s ∈ symbols, s.Ok := by
  induction symbols with
  | nil => exact fun s hs => absurd hs List.not_mem_nil
  | cons s symbols ih => exact List.forall_mem_cons.mpr ⟨h.1, ih h.2.2⟩

/-- A statement that is added is trimmed and not empty. -/
theorem keep_filter (statement : List Char) (rest : List (List Char)) :
    keep statement (rest.filter fun s => !s.isEmpty)
      = (trim statement :: rest).filter fun s => !s.isEmpty := by
  rw [keep, List.filter_cons]
  cases (trim statement).isEmpty <;> rfl

/-- The second scanner cuts where the text has its semicolons. -/
theorem cutStatements_clean (hok : ∀ s ∈ symbols, s.Ok) (current : List Char)
    {first : List Symbol} {others : List (List Symbol)}
    (hsplit : symbols.splitOn .semicolon = first :: others) :
    cutStatements none current (clean symbols)
      = (((current ++ clean first) :: others.map clean).map trim).filter fun s => !s.isEmpty := by
  induction symbols generalizing current first others with
  | nil =>
    rw [List.splitOn_nil] at hsplit
    obtain ⟨rfl, rfl⟩ := List.cons.inj hsplit
    have hkeep := keep_filter current []
    rw [List.filter_nil] at hkeep
    change keep current [] = (trim (current ++ []) :: []).filter fun s => !s.isEmpty
    rw [hkeep, List.append_nil]
  | cons s symbols ih =>
    obtain ⟨hs, hrest⟩ := List.forall_mem_cons.mp hok
    obtain ⟨first', others', hsplit'⟩ :=
      List.exists_cons_of_ne_nil (List.splitOn_ne_nil Symbol.semicolon symbols)
    by_cases hsemicolon : s = .semicolon
    · subst hsemicolon
      have hcons : (Symbol.semicolon :: symbols).splitOn .semicolon
          = [] :: symbols.splitOn .semicolon := by
        rw [List.splitOn_cons_eq_if_modifyHead, if_pos (beq_self_eq_true _)]
      rw [hcons, hsplit'] at hsplit
      obtain ⟨rfl, rfl⟩ := List.cons.inj hsplit
      change cutStatements none current (';' :: clean symbols) = _
      rw [cutStatements, if_pos ⟨rfl, rfl⟩, ih hrest [] hsplit', keep_filter]
      change _ = (trim (current ++ []) :: _).filter fun s => !s.isEmpty
      rw [List.append_nil, List.nil_append, List.map_cons (f := clean)]
    · have hcons : (s :: symbols).splitOn .semicolon = (s :: first') :: others' := by
        rw [List.splitOn_cons_eq_if_modifyHead, if_neg (by simpa using hsemicolon), hsplit']
        rfl
      rw [hcons] at hsplit
      obtain ⟨rfl, rfl⟩ := List.cons.inj hsplit
      change cutStatements none current (s.clean ++ clean symbols) = _
      rw [cutStatements_symbol hs hsemicolon, ih hrest _ hsplit', List.append_assoc]
      rfl

/-! ## Every text -/

/-- Behind a quote, the string ends or the text does. -/
theorem exists_body (q : Char) : ∀ cs : List Char,
    (∃ body rest, cs = body ++ q :: rest ∧ Inside q body) ∨
      Inside q cs ∨ ∃ body, cs = body ++ ['\\'] ∧ Inside q body
  | [] => Or.inr (Or.inl .nil)
  | [c] => by
    by_cases hcq : c = q
    · exact Or.inl ⟨[], [], by rw [hcq]; rfl, .nil⟩
    · by_cases hcb : c = '\\'
      · exact Or.inr (Or.inr ⟨[], by rw [hcb]; rfl, .nil⟩)
      · exact Or.inr (Or.inl (.plain hcq hcb .nil))
  | c :: d :: cs => by
    by_cases hcq : c = q
    · exact Or.inl ⟨[], d :: cs, by rw [hcq]; rfl, .nil⟩
    by_cases hcb : c = '\\'
    · subst hcb
      obtain ⟨body, rest, rfl, hbody⟩ | hopen | ⟨body, rfl, hbody⟩ := exists_body q cs
      · exact Or.inl ⟨'\\' :: d :: body, rest, rfl, .escaped hbody⟩
      · exact Or.inr (Or.inl (.escaped hopen))
      · exact Or.inr (Or.inr ⟨'\\' :: d :: body, rfl, .escaped hbody⟩)
    · obtain ⟨body, rest, heq, hbody⟩ | hopen | ⟨body, heq, hbody⟩ := exists_body q (d :: cs)
      · exact Or.inl ⟨c :: body, rest, by rw [heq]; rfl, .plain hcq hcb hbody⟩
      · exact Or.inr (Or.inl (.plain hcq hcb hopen))
      · exact Or.inr (Or.inr ⟨c :: body, by rw [heq]; rfl, .plain hcq hcb hbody⟩)

theorem text_cons (s : Symbol) (symbols : List Symbol) :
    text (s :: symbols) = s.text ++ text symbols := List.flatMap_cons

/-- Every text is well formed up to a string that does not end. -/
theorem exists_symbols (cs : List Char) : ∃ symbols tail,
    cs = text symbols ++ tail ∧ WellFormed symbols tail ∧ (tail = [] ∨ OpenString tail) := by
  -- after its first symbol, a text is shorter
  have hcons : ∀ (s : Symbol) (rest : List Char), s.Ok → s.Fits rest →
      (∃ symbols tail, rest = text symbols ++ tail ∧ WellFormed symbols tail ∧
        (tail = [] ∨ OpenString tail)) →
      ∃ symbols tail, s.text ++ rest = text symbols ++ tail ∧ WellFormed symbols tail ∧
        (tail = [] ∨ OpenString tail) := by
    rintro s rest hok hfits ⟨symbols, tail, rfl, hwf, htail⟩
    exact ⟨s :: symbols, tail, by rw [text_cons, List.append_assoc], ⟨hok, hfits, hwf⟩, htail⟩
  induction hlen : cs.length using Nat.strongRecOn generalizing cs with
  | _ n ih =>
    subst hlen
    cases cs with
    | nil => exact ⟨[], [], rfl, trivial, Or.inl rfl⟩
    | cons c cs =>
      have hnext := ih cs.length (Nat.lt_succ_self _) cs rfl
      by_cases hquote : isQuote c = true
      · obtain ⟨body, rest, rfl, hbody⟩ | hopen := exists_body c cs
        · have hshorter : rest.length < (c :: (body ++ c :: rest)).length := by
            simp only [List.length_cons, List.length_append]
            omega
          have hrest := hcons (.quoted c body) rest ⟨hquote, hbody⟩ trivial
            (ih rest.length hshorter rest rfl)
          simpa [Symbol.text] using hrest
        · exact ⟨[], c :: cs, rfl, trivial, Or.inr ⟨c, cs, rfl, hquote, hopen⟩⟩
      by_cases hsemicolon : c = ';'
      · subst hsemicolon
        exact hcons .semicolon cs trivial trivial hnext
      by_cases hcomment : c = '-' ∧ cs.head? = some '-'
      · -- up to the end of the line
        obtain ⟨rfl, hhead⟩ := hcomment
        obtain ⟨cs, rfl⟩ := List.head?_eq_some_iff.mp hhead
        cases hline : splitAtFirst '\n' cs with
        | none =>
          have hrest := hcons (.comment cs) [] (splitAtFirst_eq_none.mp hline) (Or.inl rfl)
            ⟨[], [], rfl, trivial, Or.inl rfl⟩
          rwa [List.append_nil] at hrest
        | some parts =>
          obtain ⟨front, back⟩ := parts
          obtain ⟨rfl, hfront⟩ := splitAtFirst_eq_some.mp hline
          have hshorter : ('\n' :: back).length < ('-' :: '-' :: (front ++ '\n' :: back)).length := by
            simp only [List.length_cons, List.length_append]
            omega
          exact hcons (.comment front) ('\n' :: back) hfront (Or.inr rfl)
            (ih _ hshorter ('\n' :: back) rfl)
      · refine hcons (.plain c) cs ⟨by simpa using hquote, hsemicolon⟩ ?_ hnext
        exact fun hc hhead => hcomment ⟨hc, hhead⟩

theorem splitSqlStatements_batch (batch : Batch) :
    splitSqlStatements batch.sql = .ok ((executed batch.statements).map String.ofList) := by
  have hstrip : strip (.text none) (text batch.symbols) = (clean batch.symbols, none) := by
    have h := strip_text batch.wellFormed
    rw [List.append_nil] at h
    rw [h]
    exact congrArg (·, none) (List.append_nil _)
  obtain ⟨first, others, hsplit⟩ :=
    List.exists_cons_of_ne_nil (List.splitOn_ne_nil Symbol.semicolon batch.symbols)
  have hcut := cutStatements_clean batch.wellFormed.ok [] hsplit
  rw [splitSqlStatements, Batch.sql, String.toList_ofList, hstrip]
  change Except.ok ((cutStatements none [] (clean batch.symbols)).map String.ofList) = _
  rw [hcut, executed, Batch.statements, hsplit]
  rfl

theorem splitSqlStatements_error_iff (sql : String) :
    (∃ e, splitSqlStatements sql = .error e) ↔ EndsInString sql := by
  constructor
  · rintro ⟨e, he⟩
    obtain ⟨symbols, tail, heq, hwf, rfl | hopen⟩ := exists_symbols sql.toList
    · rw [List.append_nil] at heq
      have hok := splitSqlStatements_batch ⟨symbols, hwf⟩
      rw [Batch.sql, ← heq, String.ofList_toList, he] at hok
      exact nomatch hok
    · exact ⟨symbols, tail, heq, hwf, hopen⟩
  · rintro ⟨symbols, tail, heq, hwf, hopen⟩
    refine ⟨"unterminated quoted string in ClickHouse SQL", ?_⟩
    rw [splitSqlStatements, heq, strip_text hwf]
    exact if_pos (Option.isSome_iff_ne_none.mpr (strip_open hopen))

/-- **The statements of a batch** are executed in order, without comments; and a text is
refused exactly if it ends in a quoted string. -/
theorem split_statements :
    (∀ batch : Batch, splitSqlStatements batch.sql
      = .ok ((executed batch.statements).map String.ofList)) ∧
    ∀ sql : String, (∃ e, splitSqlStatements sql = .error e) ↔ EndsInString sql :=
  ⟨splitSqlStatements_batch, splitSqlStatements_error_iff⟩

/-- A quote in a comment, and what looks like a comment in a string. -/
example : (splitSqlStatements "-- it's; \nselect ';--' ; ").toOption = some ["select ';--'"] := by
  decide +kernel

end

end GrayDB.R1
