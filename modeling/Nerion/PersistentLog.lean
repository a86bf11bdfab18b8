import Nerion.EvmMessage
import Nerion.TransparencyLog
import Mathlib.Data.List.TakeWhile

/-!
# The transparency log on disk (`translog/src/persistent.ts`)

The log keeps its entries in memory and, as lines of hex, in a file that a later process reads.
Writing to the file may fail. What the file holds is what the constructor reads from it.

* `splitLines_append_line` — what the reader makes of a text that a line is added to;
* `entryLines_append` — when the reader finds one entry more;
* `construct_run_iff` — when it finds after some calls what is in memory;
* `restart_iff` — a log at a fresh path survives a restart exactly when no entry is empty;
* `memory_eq_file_iff` — a log opened on a file answers as a reader of the file would exactly when
  no write has failed, no entry is empty and the file did not end in the middle of a line.
-/

namespace Nerion

/-! ## Lines -/

/-- `text.split(/\r?\n/)`. -/
def splitLines : List Char → List (List Char)
  | [] => [[]]
  | '\r' :: '\n' :: cs => [] :: splitLines cs
  | '\n' :: cs => [] :: splitLines cs
  | c :: cs =>
    match splitLines cs with
    | line :: lines => (c :: line) :: lines
    | [] => [[c]]

/-- `line.trim()`. -/
def trim (line : List Char) : List Char :=
  let space : Char → Bool := fun c => isJsSpace c.toNat
  ((line.dropWhile space).reverse.dropWhile space).reverse

variable {line : List Char}

/-- A line without line breaks, its end, and the rest. -/
theorem splitLines_append (h : ∀ c ∈ line, c ≠ '\r' ∧ c ≠ '\n') (rest : List Char) :
    splitLines (line ++ '\n' :: rest) = line :: splitLines rest := by
  induction line with
  | nil => rw [List.nil_append, splitLines]
  | cons c line ih =>
    obtain ⟨hr, hn⟩ := h c List.mem_cons_self
    have hrest := ih fun c' hc' => h c' (List.mem_cons_of_mem _ hc')
    rw [List.cons_append, splitLines]
    · rw [hrest]
    · rintro cs rfl -
      exact hr rfl
    · exact hn

/-- **A line added to a text** goes on with the last line that is there, and a blank one follows.
An empty line turns a `\r` at the end of the text into a part of the line break. -/
theorem splitLines_append_line (h : ∀ c ∈ line, c ≠ '\r' ∧ c ≠ '\n') (text : List Char) :
    ∃ init last last', splitLines text = init ++ [last] ∧
      splitLines (text ++ (line ++ ['\n'])) = init ++ [last', []] ∧
      (last' = last ++ line ∨ line = [] ∧ last = last' ++ ['\r']) := by
  induction text using splitLines.induct with
  | case1 => exact ⟨[], [], line, rfl, splitLines_append h [], .inl rfl⟩
  | case2 cs ih =>
    obtain ⟨init, last, last', hold, hnew, hlast⟩ := ih
    refine ⟨[] :: init, last, last', ?_, ?_, hlast⟩
    · rw [splitLines, hold, List.cons_append]
    · rw [List.cons_append, List.cons_append, splitLines, hnew, List.cons_append]
  | case3 cs ih =>
    obtain ⟨init, last, last', hold, hnew, hlast⟩ := ih
    refine ⟨[] :: init, last, last', ?_, ?_, hlast⟩
    · rw [splitLines, hold, List.cons_append]
    · rw [List.cons_append, splitLines, hnew, List.cons_append]
  | case4 c cs hreturn hbreak first lines hcs ih =>
    obtain ⟨init, last, last', hold, hnew, hlast⟩ := ih
    by_cases hlone : c = '\r' ∧ cs = [] ∧ line = []
    · obtain ⟨rfl, rfl, rfl⟩ := hlone
      exact ⟨[], ['\r'], [], rfl, rfl, .inr ⟨rfl, rfl⟩⟩
    have htext : splitLines (c :: cs) = match splitLines cs with
        | line :: lines => (c :: line) :: lines
        | [] => [[c]] := by
      rw [splitLines]
      · exact hreturn
      · exact hbreak
    have hlonger : splitLines (c :: (cs ++ (line ++ ['\n']))) =
        match splitLines (cs ++ (line ++ ['\n'])) with
        | line :: lines => (c :: line) :: lines
        | [] => [[c]] := by
      rw [splitLines]
      · rintro cs' rfl hcs'
        cases cs with
        | nil =>
          cases line with
          | nil => exact hlone ⟨rfl, rfl, rfl⟩
          | cons d line => exact (h d List.mem_cons_self).2 (List.cons.inj hcs').1
        | cons d cs => exact hreturn cs rfl (congrArg (· :: cs) (List.cons.inj hcs').1)
      · exact hbreak
    rw [List.cons_append, htext, hlonger, hold, hnew]
    cases init with
    | nil =>
      refine ⟨[], c :: last, c :: last', rfl, rfl, ?_⟩
      rcases hlast with rfl | ⟨rfl, rfl⟩
      · exact .inl rfl
      · exact .inr ⟨rfl, rfl⟩
    | cons i init => exact ⟨(c :: i) :: init, last, last', rfl, rfl, hlast⟩
  | case5 c cs _ _ hcs ih =>
    obtain ⟨init, last, -, hold, -⟩ := ih
    exact absurd (hold.symm.trans hcs) (List.append_ne_nil_of_right_ne_nil _ (List.cons_ne_nil _ _))

theorem trim_eq_nil_iff : trim line = [] ↔ ∀ c ∈ line, isJsSpace c.toNat = true := by
  simp only [trim, List.reverse_eq_nil_iff, List.dropWhile_eq_nil_iff, List.mem_reverse]
  refine ⟨fun h => ?_, fun h c hc => h c ((List.dropWhile_sublist _).subset hc)⟩
  rw [← List.dropWhile_eq_nil_iff]
  by_contra hne
  have hhead := List.head_dropWhile_not (fun c : Char => isJsSpace c.toNat) hne
  rw [h _ (List.head_mem hne)] at hhead
  cases hhead

/-- A text without white space is not trimmed, and what is blank before it is. -/
theorem trim_append_of_not_space {blank line : List Char} (hblank : trim blank = [])
    (h : ∀ c ∈ line, isJsSpace c.toNat = false) : trim (blank ++ line) = line := by
  have hdrop : ∀ l : List Char, (∀ c ∈ l, isJsSpace c.toNat = false) →
      l.dropWhile (fun c => isJsSpace c.toNat) = l := by
    intro l hl
    cases l with
    | nil => rfl
    | cons c l => rw [List.dropWhile_cons_of_neg (by rw [hl c List.mem_cons_self]; decide)]
  have hreverse : ∀ c ∈ line.reverse, isJsSpace c.toNat = false :=
    fun c hc => h c (List.mem_reverse.mp hc)
  simp only [trim]
  rw [List.dropWhile_append_of_pos (trim_eq_nil_iff.mp hblank), hdrop line h,
    hdrop line.reverse hreverse, List.reverse_reverse]

/-! ## The log and its file -/

/-- `PersistentTransparencyLog`: its entries. -/
structure PersistentTransparencyLog where
  /-- the payloads, oldest first -/
  entries : List Bytes
deriving DecidableEq

namespace PersistentTransparencyLog

/-- The log in memory: roots and proofs are made from the entries as in `log.ts`. -/
def toLog (log : PersistentTransparencyLog) : TransparencyLog := ⟨log.entries⟩

def size (log : PersistentTransparencyLog) : ℕ := log.toLog.size

def root (H : Bytes → Bytes) (log : PersistentTransparencyLog) : Bytes := log.toLog.root H

def proveInclusion (H : Bytes → Bytes) (log : PersistentTransparencyLog) (index : JsNum) :
    Except JsError InclusionWitness :=
  log.toLog.proveInclusion H index

def proveConsistency (H : Bytes → Bytes) (log : PersistentTransparencyLog) (fromSize : ℕ) :
    Except JsError ConsistencyWitness :=
  log.toLog.proveConsistency H fromSize

/-- The loop of the constructor: lines that are blank are skipped. -/
def readLines (X : Externals) : List (List Char) → Except JsError (List Bytes)
  | [] => .ok []
  | line :: lines =>
    let t := trim line
    if 0 < t.length then do
      let entry ← X.hexToBytes (String.ofList t)
      let entries ← readLines X lines
      .ok (entry :: entries)
    else readLines X lines

/-- The constructor; `none` is a path without a file. -/
def construct (X : Externals) (file : Option (List Char)) :
    Except JsError PersistentTransparencyLog :=
  match file with
  | none => .ok ⟨[]⟩
  | some text => (readLines X (splitLines text)).map fun entries => ⟨entries⟩

end PersistentTransparencyLog

/-- A log and the file at its path. -/
structure LogOnDisk where
  log : PersistentTransparencyLog
  /-- the file, if there is one -/
  file : Option (List Char)

/-- A call of `append`, with what `appendFileSync` throws, if it does. -/
structure AppendCall where
  /-- the entry -/
  data : Bytes
  /-- what writing throws; the file is then as it was -/
  failure : Option JsError

namespace LogOnDisk

open PersistentTransparencyLog (construct readLines)

/-- A log constructed from the file at its path. -/
def opened (X : Externals) (file : Option (List Char)) : Except JsError LogOnDisk :=
  (construct X file).map fun log => ⟨log, file⟩

/-- A log at a fresh path. -/
def fresh : LogOnDisk := ⟨⟨[]⟩, none⟩

/-- The line of an entry. -/
def lineOf (X : Externals) (data : Bytes) : List Char := (X.bytesToHex data).toList ++ ['\n']

/-- `append`: the entry is in memory before it is written. -/
def append (X : Externals) (H : Bytes → Bytes) (s : LogOnDisk) (call : AppendCall) :
    Except JsError Appended × LogOnDisk :=
  let index := s.log.size
  let log : PersistentTransparencyLog := ⟨s.log.entries ++ [call.data]⟩
  match call.failure with
  | some e => (.error e, { s with log })
  | none =>
    (.ok ⟨index, log.size, log.root H⟩, ⟨log, some (s.file.getD [] ++ lineOf X call.data)⟩)

/-- Calls of `append`, one after the other. -/
def run (X : Externals) (H : Bytes → Bytes) (s : LogOnDisk) (calls : List AppendCall) : LogOnDisk :=
  calls.foldl (fun s call => (s.append X H call).2) s

/-- Calls that write what they are given. -/
def writes (entries : List Bytes) : List AppendCall := entries.map fun data => ⟨data, none⟩

variable {X : Externals} {H : Bytes → Bytes}

theorem run_cons (s : LogOnDisk) (call : AppendCall) (calls : List AppendCall) :
    s.run X H (call :: calls) = ((s.append X H call).2).run X H calls := rfl

/-- Every entry is in memory. -/
theorem entries_run (s : LogOnDisk) (calls : List AppendCall) :
    (s.run X H calls).log.entries = s.log.entries ++ calls.map (·.data) := by
  induction calls generalizing s with
  | nil => exact (List.append_nil _).symm
  | cons call calls ih =>
    have hstep : (s.append X H call).2.log.entries = s.log.entries ++ [call.data] := by
      rw [append]
      cases call.failure <;> rfl
    rw [run_cons, ih, hstep, List.append_assoc]
    rfl

/-! ## What a reader finds -/

/-- The lines of a text that the reader takes for entries. -/
def entryLines (text : List Char) : ℕ :=
  (splitLines text).countP fun line => decide (0 < (trim line).length)

/-- There is nothing but white space after the last line break of the text. -/
def EndsBlank (text : List Char) : Prop := trim ((splitLines text).getLastD []) = []

instance (text : List Char) : Decidable (EndsBlank text) :=
  inferInstanceAs (Decidable (trim ((splitLines text).getLastD []) = []))

/-- What the constructor reads; a path without a file is like an empty file. -/
theorem construct_eq (file : Option (List Char)) :
    construct X file = (readLines X (splitLines (file.getD []))).map fun entries => ⟨entries⟩ := by
  cases file with
  | none => rfl
  | some text => rfl

theorem readLines_append (xs : List (List Char)) {ys : List (List Char)} {es : List Bytes}
    (h : readLines X ys = .ok es) : readLines X (xs ++ ys) = (readLines X xs).map (· ++ es) := by
  induction xs with
  | nil => exact h
  | cons line xs ih =>
    rw [List.cons_append, readLines, readLines, ih]
    split
    · cases X.hexToBytes (String.ofList (trim line)) with
      | error e => rfl
      | ok entry => cases readLines X xs <;> rfl
    · rfl

theorem length_of_readLines {lines : List (List Char)} {es : List Bytes}
    (h : readLines X lines = .ok es) :
    es.length = lines.countP fun line => decide (0 < (trim line).length) := by
  induction lines generalizing es with
  | nil =>
    obtain rfl := Except.ok.inj h
    rfl
  | cons line lines ih =>
    rw [readLines] at h
    split at h
    · rename_i hline
      obtain ⟨entry, -, h⟩ := Except.bind_eq_ok h
      obtain ⟨es', hes', h⟩ := Except.bind_eq_ok h
      obtain rfl := Except.ok.inj h
      simp [ih hes', hline]
    · rename_i hline
      simp [ih h, hline]

section Restart

variable (hX : HexCodec X)
include hX

theorem hexDigit_of_mem {data : Bytes} {c : Char} (hc : c ∈ (X.bytesToHex data).toList) :
    48 ≤ c.toNat ∧ c.toNat ≤ 102 := by
  have hlower := hX.lower data
  rw [isLowerHex, List.all_eq_true] at hlower
  have hdigit := hlower c hc
  simp only [Bool.or_eq_true, decide_eq_true_eq, Char.le_def, UInt32.le_iff_toNat_le] at hdigit
  change 48 ≤ c.val.toNat ∧ c.val.toNat ≤ 57 ∨ 97 ≤ c.val.toNat ∧ c.val.toNat ≤ 102 at hdigit
  change 48 ≤ c.val.toNat ∧ c.val.toNat ≤ 102
  omega

theorem not_space_of_mem {data : Bytes} {c : Char} (hc : c ∈ (X.bytesToHex data).toList) :
    isJsSpace c.toNat = false := by
  have hdigit := hexDigit_of_mem hX hc
  simp only [isJsSpace, Bool.or_eq_false_iff, decide_eq_false_iff_not, List.mem_cons,
    List.not_mem_nil, or_false]
  omega

/-- The line of an entry after a text. -/
theorem splitLines_lineOf (text : List Char) (data : Bytes) :
    ∃ init last last', splitLines text = init ++ [last] ∧
      splitLines (text ++ lineOf X data) = init ++ [last', []] ∧
      (last' = last ++ (X.bytesToHex data).toList ∨
        (X.bytesToHex data).toList = [] ∧ last = last' ++ ['\r']) := by
  refine splitLines_append_line (fun c hc => ?_) text
  have hdigit := hexDigit_of_mem hX hc
  constructor
  · rintro rfl
    exact absurd hdigit.1 (by decide)
  · rintro rfl
    exact absurd hdigit.1 (by decide)

/-- Only the empty entry has an empty line. -/
theorem bytesToHex_eq_nil_iff (data : Bytes) : (X.bytesToHex data).toList = [] ↔ data = [] := by
  have hlength := hX.length data
  constructor
  · intro htext
    rw [String.toList_eq_nil_iff.mp htext] at hlength
    exact List.eq_nil_of_length_eq_zero (by change 0 = _ at hlength; omega)
  · rintro rfl
    have hunits : codeUnits (X.bytesToHex []) = [] := List.eq_nil_of_length_eq_zero hlength
    rw [codeUnits, List.flatMap_eq_nil_iff] at hunits
    refine List.eq_nil_iff_forall_not_mem.mpr fun c hc => ?_
    have hunit := hunits c hc
    rw [utf16Units] at hunit
    split at hunit <;> exact absurd hunit (List.cons_ne_nil _ _)

/-- **The line of an entry is one entry more** when the entry is not empty and begins a line, and
else none. The text ends with a line break then. -/
theorem entryLines_append (text : List Char) (data : Bytes) :
    EndsBlank (text ++ lineOf X data) ∧
      entryLines (text ++ lineOf X data) =
        entryLines text + if EndsBlank text ∧ data ≠ [] then 1 else 0 := by
  obtain ⟨init, last, last', htext, hlonger, hlast⟩ := splitLines_lineOf hX text data
  have hempty : trim [] = [] := rfl
  have hblank : trim last' = [] ↔ trim last = [] ∧ data = [] := by
    rw [← bytesToHex_eq_nil_iff hX data]
    rcases hlast with rfl | ⟨hline, rfl⟩
    · rw [trim_eq_nil_iff, trim_eq_nil_iff]
      simp only [List.mem_append, or_imp, forall_and]
      refine and_congr_right fun _ => ⟨fun h => ?_, fun h c hc => absurd (h ▸ hc) List.not_mem_nil⟩
      refine List.eq_nil_iff_forall_not_mem.mpr fun c hc => ?_
      exact absurd (h c hc) (ne_true_of_eq_false (not_space_of_mem hX hc))
    · rw [trim_eq_nil_iff, trim_eq_nil_iff]
      simp only [List.mem_append, List.mem_singleton, or_imp, forall_and, forall_eq, hline,
        and_true]
      exact (and_iff_left (by decide)).symm
  refine ⟨by rw [EndsBlank, hlonger]; simp [hempty], ?_⟩
  rw [entryLines, entryLines, htext, hlonger]
  have hends : EndsBlank text ↔ trim last = [] := by rw [EndsBlank, htext, List.getLastD_concat]
  simp only [List.countP_append, List.countP_cons, List.countP_nil, List.length_pos_iff, ne_eq,
    hempty, hblank]
  by_cases hl : trim last = [] <;> by_cases hd : data = [] <;> simp [hl, hd, hends]

/-- What the reader finds then. -/
theorem readLines_append_line {text : List Char} {data : Bytes} {es : List Bytes}
    (hblank : EndsBlank text) (hdata : data ≠ [])
    (h : readLines X (splitLines text) = .ok es) :
    readLines X (splitLines (text ++ lineOf X data)) =
      .ok (es ++ [data]) := by
  obtain ⟨init, last, last', htext, hlonger, hlast⟩ := splitLines_lineOf hX text data
  have hline : (X.bytesToHex data).toList ≠ [] := mt (bytesToHex_eq_nil_iff hX data).mp hdata
  obtain rfl := hlast.resolve_right fun h => hline h.1
  rw [EndsBlank, htext, List.getLastD_concat] at hblank
  have htrim : trim (last ++ (X.bytesToHex data).toList) = (X.bytesToHex data).toList :=
    trim_append_of_not_space hblank fun c hc => not_space_of_mem hX hc
  -- the last line was no entry, and is the new one
  have hnone : readLines X [last] = .ok [] := by
    rw [readLines, hblank]
    rfl
  have hone : readLines X [last ++ (X.bytesToHex data).toList, []] =
      .ok [data] := by
    rw [readLines, htrim, if_pos (List.length_pos_iff.mpr hline),
      String.ofList_toList, hX.decode]
    rfl
  rw [htext, readLines_append init hnone] at h
  rw [hlonger, readLines_append init hone]
  obtain ⟨es', hes', h⟩ := Except.map_eq_ok h
  rw [hes', ← h, List.append_nil]
  rfl

/-! ## What is in memory and what is in the file -/

/-- A call adds a line that the reader finds exactly when it writes an entry that is not empty at
the beginning of a line. -/
theorem entryLines_append_call (s : LogOnDisk) (call : AppendCall) :
    entryLines ((s.append X H call).2.file.getD []) = entryLines (s.file.getD []) +
      if call.failure = none ∧ EndsBlank (s.file.getD []) ∧ call.data ≠ [] then 1 else 0 := by
  rw [append]
  cases hfailure : call.failure with
  | some e => simp
  | none =>
    refine (entryLines_append hX (s.file.getD []) call.data).2.trans ?_
    simp

/-- Every call of a run counts only if the text ended with a line break before it. -/
theorem entryLines_run (s : LogOnDisk) (calls : List AppendCall) :
    entryLines ((s.run X H calls).file.getD []) ≤ entryLines (s.file.getD []) + calls.length ∧
    (entryLines ((s.run X H calls).file.getD []) = entryLines (s.file.getD []) + calls.length →
      calls = [] ∨ EndsBlank (s.file.getD []) ∧
        ∀ call ∈ calls, call.failure = none ∧ call.data ≠ []) := by
  induction calls generalizing s with
  | nil => exact ⟨le_rfl, fun _ => .inl rfl⟩
  | cons call calls ih =>
    obtain ⟨hle, heq⟩ := ih (s.append X H call).2
    have hcall := entryLines_append_call (H := H) hX s call
    rw [run_cons, List.length_cons]
    split at hcall
    · rename_i hgain
      refine ⟨by omega, fun htotal => .inr ⟨hgain.2.1, ?_⟩⟩
      rintro call' (_ | ⟨_, hmem⟩)
      · exact ⟨hgain.1, hgain.2.2⟩
      · rcases heq (by omega) with rfl | ⟨-, hall⟩
        · cases hmem
        · exact hall call' hmem
    · exact ⟨by omega, fun htotal => by omega⟩

/-- **When a reader finds what is in memory**: at once, or when the file ended with a line break
and every call since has written an entry that is not empty. -/
theorem construct_run_iff {s : LogOnDisk}
    (hs : construct X s.file = .ok s.log) (calls : List AppendCall) :
    construct X (s.run X H calls).file = .ok (s.run X H calls).log ↔
      calls = [] ∨ EndsBlank (s.file.getD []) ∧
        ∀ call ∈ calls, call.failure = none ∧ call.data ≠ [] := by
  constructor
  · intro h
    -- count the entries on both sides
    refine (entryLines_run (H := H) hX s calls).2 ?_
    rw [construct_eq] at hs h
    obtain ⟨es, hes, hlog⟩ := Except.map_eq_ok hs
    obtain ⟨es', hes', hlog'⟩ := Except.map_eq_ok h
    have hmemory : es = s.log.entries := congrArg PersistentTransparencyLog.entries hlog
    have hmemory' : es' = (s.run X H calls).log.entries :=
      congrArg PersistentTransparencyLog.entries hlog'
    rw [entryLines, entryLines, ← length_of_readLines hes, ← length_of_readLines hes', hmemory,
      hmemory', entries_run, List.length_append, List.length_map]
  · rintro (rfl | ⟨hblank, hall⟩)
    · exact hs
    induction calls generalizing s with
    | nil => exact hs
    | cons call calls ih =>
      obtain ⟨hfailure, hdata⟩ := hall call List.mem_cons_self
      have hstep : (s.append X H call).2 =
          ⟨⟨s.log.entries ++ [call.data]⟩, some (s.file.getD [] ++ lineOf X call.data)⟩ := by
        rw [append, hfailure]
      rw [run_cons, hstep]
      refine ih ?_ (entryLines_append hX _ _).1 fun c hc => hall c (List.mem_cons_of_mem _ hc)
      rw [construct_eq] at hs ⊢
      obtain ⟨es, hes, hlog⟩ := Except.map_eq_ok hs
      rw [Option.getD_some, readLines_append_line hX hblank hdata hes, ← hlog]
      rfl

end Restart

/-- Two logs answer every question alike. -/
structure SameAnswers (H : Bytes → Bytes) (log log' : PersistentTransparencyLog) : Prop where
  /-- the same entries in the same order -/
  entries : log'.entries = log.entries
  /-- the same size -/
  size : log'.size = log.size
  /-- the same root -/
  root : log'.root H = log.root H
  /-- the same inclusion witnesses -/
  proveInclusion : ∀ index, log'.proveInclusion H index = log.proveInclusion H index
  /-- the same consistency witnesses -/
  proveConsistency : ∀ fromSize, log'.proveConsistency H fromSize = log.proveConsistency H fromSize

/-- The answers are made from the entries, so a reader finds a log with the same answers when it
finds the log. -/
theorem exists_sameAnswers_iff {log : PersistentTransparencyLog}
    {read : Except JsError PersistentTransparencyLog} :
    (∃ log', read = .ok log' ∧ SameAnswers H log log') ↔ read = .ok log := by
  constructor
  · rintro ⟨⟨entries⟩, hread, hsame⟩
    obtain rfl : entries = log.entries := hsame.entries
    exact hread
  · exact fun hread => ⟨log, hread, rfl, rfl, rfl, fun _ => rfl, fun _ => rfl⟩

/-- **A restart.** Entries are written to a fresh path, and a new log is constructed there. It
answers as the first one does exactly when no entry is empty: the line of an empty entry is
blank, and the reader skips blank lines. -/
theorem restart_iff {X : Externals} (hX : HexCodec X) (H : Bytes → Bytes) (entries : List Bytes) :
    (∃ log',
      construct X (fresh.run X H (writes entries)).file = .ok log' ∧
      SameAnswers H (fresh.run X H (writes entries)).log log') ↔ ∀ data ∈ entries, data ≠ [] := by
  have hblank : EndsBlank (fresh.file.getD []) := by decide
  have hfresh : construct X fresh.file = .ok fresh.log := rfl
  rw [exists_sameAnswers_iff, construct_run_iff hX hfresh]
  simp only [writes, List.map_eq_nil_iff, hblank, List.forall_mem_map, true_and]
  refine ⟨fun h => ?_, .inr⟩
  rcases h with rfl | hall
  · exact fun data hdata => absurd hdata List.not_mem_nil
  · exact hall

/-- Two entries, read back. -/
theorem restart_two_entries :
    ∃ log', construct spellExternals.toExternals
        (fresh.run spellExternals.toExternals id (writes [[7], [0, 255]])).file = .ok log' ∧
      SameAnswers id (fresh.run spellExternals.toExternals id (writes [[7], [0, 255]])).log log' :=
  (restart_iff hexCodec_spell id [[7], [0, 255]]).mpr (by decide)

/-- An empty entry between two others is lost, and the last one moves to its index. -/
theorem restart_empty_entry :
    (fresh.run spellExternals.toExternals id (writes [[7], [], [8]])).log.entries = [[7], [], [8]] ∧
      (construct spellExternals.toExternals
        (fresh.run spellExternals.toExternals id (writes [[7], [], [8]])).file).map (·.entries) =
        .ok [[7], [8]] := by
  decide +kernel

/-! ## Failed writes -/

/-- **Memory and file.** After any calls on a log opened on any file, a reader of the file gets the
answers of the log exactly when there was no call, or the file did not end in the middle of a
line, no write has failed and no entry was empty: `append` pushes the entry before it writes, and
a write that throws leaves it in memory. -/
theorem memory_eq_file_iff {X : Externals} (hX : HexCodec X) (H : Bytes → Bytes)
    {file : Option (List Char)} {s : LogOnDisk} (hs : opened X file = .ok s)
    (calls : List AppendCall) :
    (∃ log', construct X (s.run X H calls).file = .ok log' ∧
      SameAnswers H (s.run X H calls).log log') ↔
    calls = [] ∨ EndsBlank (file.getD []) ∧
      ∀ call ∈ calls, call.failure = none ∧ call.data ≠ [] := by
  obtain ⟨log, hlog, rfl⟩ := Except.map_eq_ok hs
  rw [exists_sameAnswers_iff, construct_run_iff hX hlog]

/-- A log opened on a file of one line that gets two entries. -/
theorem memory_eq_file_reopened :
    ∃ s, opened spellExternals.toExternals (some "07\n".toList) = .ok s ∧
      ∃ log', construct spellExternals.toExternals
          (s.run spellExternals.toExternals id (writes [[8], [0, 255]])).file = .ok log' ∧
        SameAnswers id (s.run spellExternals.toExternals id (writes [[8], [0, 255]])).log log' := by
  have hread : construct spellExternals.toExternals
      (some "07\n".toList) = .ok ⟨[[7]]⟩ := by decide +kernel
  have hs : opened spellExternals.toExternals (some "07\n".toList) =
      .ok ⟨⟨[[7]]⟩, some "07\n".toList⟩ := by rw [opened, hread]; rfl
  exact ⟨_, hs, (memory_eq_file_iff hexCodec_spell id hs (writes [[8], [0, 255]])).mpr
    (.inr (by decide +kernel))⟩

/-- The write fails, and the log has an entry that no reader of the file finds: it is in the size
and in the root, and an inclusion witness is made for it. -/
theorem append_failed_keeps_entry :
    let call : AppendCall := ⟨[7], some (error "ENOSPC: no space left on device, write")⟩
    let s := (fresh.append plainExternals id call).2
    s.file = none ∧ (construct plainExternals s.file).map (·.entries) =
        .ok [] ∧ s.log.entries = [[7]] ∧ s.log.size = 1 ∧
      s.log.root id ≠ fresh.log.root id ∧ (s.log.proveInclusion id 0).isOk = true := by
  refine ⟨rfl, rfl, rfl, rfl, ?_, ?_⟩ <;> decide +kernel

end LogOnDisk

end Nerion
