import Nerion.MerkleSound

/-!
# The transparency log (`translog/src/log.ts`)

The log as a state machine: `append` is its only transition, the two `prove…` calls read
it. Over whole runs:

* the entries only grow (`isPrefix_run`);
* every witness the log hands out is accepted (`checkInclusion_proveInclusion`,
  `consistency_complete`), and its old root is the root the log had at that size.
-/

namespace Nerion

structure InclusionWitness where
  /-- claimed position of the entry -/
  index : JsNum
  /-- claimed size of the tree -/
  size : JsNum
  /-- the payload -/
  leaf : Bytes
  /-- the audit path -/
  proof : List Bytes
  /-- the root the log computed -/
  root : Bytes

/-- `ConsistencyWitness`; its sizes are `from` and `to` in the source. -/
structure ConsistencyWitness where
  /-- the older size -/
  fromSize : JsNum
  /-- the newer size -/
  toSize : JsNum
  /-- the proof nodes -/
  proof : List Bytes
  /-- root at the older size -/
  oldRoot : Bytes
  /-- root at the newer size -/
  newRoot : Bytes

structure TransparencyLog where
  /-- the payloads, oldest first -/
  entries : List Bytes

/-- What `append` returns. -/
structure Appended where
  /-- position of the new entry -/
  index : ℕ
  /-- size with the new entry -/
  size : ℕ
  /-- root with the new entry -/
  root : Bytes

namespace TransparencyLog

/-- A fresh log. -/
def empty : TransparencyLog := ⟨[]⟩

def size (log : TransparencyLog) : ℕ := log.entries.length

section Hash

variable (H : Bytes → Bytes)

def root (log : TransparencyLog) : Bytes := merkleRoot H log.entries

def append (log : TransparencyLog) (data : Bytes) : Appended × TransparencyLog :=
  let log' : TransparencyLog := ⟨log.entries ++ [data]⟩
  (⟨log.size, log'.size, log'.root H⟩, log')

/-- `this.entries[index]`: `undefined` off the array's own indices. -/
def entryAt (log : TransparencyLog) (index : JsNum) : Option Bytes :=
  if index.isInteger && !index.lt 0 then log.entries[index.toInt.toNat]? else none

def proveInclusion (log : TransparencyLog) (index : JsNum) : Except JsError InclusionWitness :=
  match log.entryAt index with
  | none => .error (rangeError "no such log entry")
  | some entry =>
    (inclusionProof H log.entries index.toInt.toNat).map fun proof =>
      ⟨index, log.size, entry, proof, log.root H⟩

def proveConsistency (log : TransparencyLog) (fromSize : ℕ) : Except JsError ConsistencyWitness :=
  (consistencyProof H log.entries fromSize log.size).map fun proof =>
    ⟨fromSize, log.size, proof, merkleRoot H (log.entries.take fromSize), log.root H⟩

end Hash

end TransparencyLog

section Checks

variable (H : Bytes → Bytes)

def checkInclusion (w : InclusionWitness) (gossipedRoot : Bytes) : Bool :=
  verifyInclusion H w.index w.size w.leaf w.proof gossipedRoot

def checkConsistency (w : ConsistencyWitness) : Bool :=
  verifyConsistency H w.fromSize w.toSize w.proof w.oldRoot w.newRoot

end Checks

/-! ## Runs -/

/-- The calls a client makes on a log. -/
inductive LogCall where
  /-- `append(data)` -/
  | append (data : Bytes)
  /-- `proveInclusion(index)` -/
  | proveInclusion (index : JsNum)
  /-- `proveConsistency(fromSize)` -/
  | proveConsistency (fromSize : ℕ)

namespace TransparencyLog

variable (H : Bytes → Bytes)

/-- The log after a call; a call that throws or only reads leaves it as it was. -/
def step (log : TransparencyLog) : LogCall → TransparencyLog
  | .append data => (log.append H data).2
  | .proveInclusion _ => log
  | .proveConsistency _ => log

/-- The log after a run of calls on a fresh log. -/
def run (calls : List LogCall) : TransparencyLog := calls.foldl (step H) empty

/-- One call keeps every entry in its place. -/
theorem isPrefix_step (log : TransparencyLog) (call : LogCall) :
    log.entries <+: (step H log call).entries := by
  cases call with
  | append data => exact ⟨[data], rfl⟩
  | proveInclusion index => exact List.prefix_rfl
  | proveConsistency fromSize => exact List.prefix_rfl

/-- **The log is append-only.** Whatever is called later, the entries of an earlier moment
are a prefix of the present ones. -/
theorem isPrefix_run (before after : List LogCall) :
    (run H before).entries <+: (run H (before ++ after)).entries := by
  unfold run
  rw [List.foldl_append]
  generalize before.foldl (step H) empty = log
  induction after generalizing log with
  | nil => exact List.prefix_rfl
  | cons call calls ih => exact (isPrefix_step H log call).trans (ih (step H log call))

/-- The witness of an entry. -/
theorem proveInclusion_eq_ok (log : TransparencyLog) {i : ℕ} {entry : Bytes}
    (he : log.entries[i]? = some entry) :
    log.proveInclusion H i =
      .ok ⟨i, log.size, entry, inclusionPath H log.entries i, log.root H⟩ := by
  have hi : i < log.entries.length := (List.getElem?_eq_some_iff.mp he).1
  have hentry : log.entryAt i = some entry := by
    rw [entryAt]
    rw [JsNum.isInteger_natCast, JsNum.toInt_natCast, Int.toNat_natCast,
      JsNum.zero_def, JsNum.lt_natCast, if_pos (by simp)]
    exact he
  rw [proveInclusion, inclusionProof]
  rw [hentry, JsNum.toInt_natCast, Int.toNat_natCast, if_neg (not_le.mpr hi)]
  rfl

/-- The audit path of an entry is accepted against the root, while the log is small enough. -/
theorem checkInclusion_path (log : TransparencyLog) {i : ℕ} {entry : Bytes}
    (he : log.entries[i]? = some entry) :
    checkInclusion H ⟨i, log.size, entry, inclusionPath H log.entries i, log.root H⟩
      (log.root H) = true ↔ log.size ≤ maxTreeSize := by
  have hi : i < log.size := (List.getElem?_eq_some_iff.mp he).1
  refine (verifyInclusion_iff H).trans ⟨fun h => h.2.1, fun hn => ?_⟩
  exact ⟨hi, hn, length_inclusionPath H hi, climb_inclusionPath H he⟩

/-- Inclusion witnesses are accepted against the log's root. -/
theorem checkInclusion_proveInclusion (log : TransparencyLog) {i : ℕ} (hi : i < log.size)
    (hn : log.size ≤ maxTreeSize) :
    ∃ w, log.proveInclusion H i = .ok w ∧ checkInclusion H w (log.root H) = true := by
  have he : log.entries[i]? = some _ := List.getElem?_eq_getElem (i := i) hi
  exact ⟨_, log.proveInclusion_eq_ok H he, (log.checkInclusion_path H he).mpr hn⟩

/-- Consistency witnesses are accepted, from every earlier size. -/
theorem checkConsistency_proveConsistency (log : TransparencyLog) {s : ℕ} (hs : s ≤ log.size)
    (hn : log.size ≤ maxTreeSize) :
    ∃ w, log.proveConsistency H s = .ok w ∧ w.oldRoot = merkleRoot H (log.entries.take s) ∧
      w.newRoot = log.root H ∧ checkConsistency H w = true := by
  obtain ⟨proof, hproof, hv⟩ := verifyConsistency_of_consistencyProof H hs le_rfl hn
  rw [show log.entries.take log.size = log.entries from List.take_length] at hv
  refine ⟨⟨s, log.size, proof, _, log.root H⟩, ?_, rfl, rfl, hv⟩
  rw [proveConsistency, hproof]
  rfl

/-- **Consistency completeness.** Generated proofs verify at every pair of sizes; hence at
every moment of every run, and for every earlier moment of it, the log's witness is
accepted and leads from the root the log had then to the root it has now. -/
theorem consistency_complete :
    (∀ (E : List Bytes) (m n : ℕ), m ≤ n → n ≤ E.length → n ≤ maxTreeSize →
      ∃ proof, consistencyProof H E m n = .ok proof ∧
        verifyConsistency H m n proof (merkleRoot H (E.take m)) (merkleRoot H (E.take n)) =
          true) ∧
    (∀ (calls : List LogCall) (s : ℕ), s ≤ (run H calls).size → (run H calls).size ≤ maxTreeSize →
      ∃ w, (run H calls).proveConsistency H s = .ok w ∧ checkConsistency H w = true) ∧
    ∀ before after : List LogCall, (run H (before ++ after)).size ≤ maxTreeSize →
      ∃ w, (run H (before ++ after)).proveConsistency H (run H before).size = .ok w ∧
        w.oldRoot = (run H before).root H ∧ w.newRoot = (run H (before ++ after)).root H ∧
        checkConsistency H w = true := by
  refine ⟨fun E m n hmn hn hmax => verifyConsistency_of_consistencyProof H hmn hn hmax,
    fun calls s hs hn => ?_, fun before after hn => ?_⟩
  · obtain ⟨w, hw, -, -, hv⟩ := checkConsistency_proveConsistency H (run H calls) hs hn
    exact ⟨w, hw, hv⟩
  · have hpre := isPrefix_run H before after
    obtain ⟨w, hw, hold, hnew, hv⟩ :=
      checkConsistency_proveConsistency H (run H (before ++ after)) hpre.length_le hn
    refine ⟨w, hw, ?_, hnew, hv⟩
    rw [hold, TransparencyLog.root]
    exact congrArg (merkleRoot H) (List.prefix_iff_eq_take.mp hpre).symm

/-- `consistency_complete` at the second of two appends. -/
theorem consistency_complete_two :
    ∃ w, (run id [.append [1], .append [2]]).proveConsistency id 1 = .ok w ∧
      w.oldRoot = (run id [.append [1]]).root id ∧
      w.newRoot = (run id [.append [1], .append [2]]).root id ∧ checkConsistency id w = true :=
  (consistency_complete id).2.2 [.append [1]] [.append [2]] (by decide)

end TransparencyLog

end Nerion
