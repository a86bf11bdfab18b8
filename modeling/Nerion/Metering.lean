import Nerion.Chain
import Nerion.JsonText

/-!
# Metering credits (`settlement/src/credits.ts`)

A ledger of one issuer. Credits are granted to accounts and metered down; a grant is used once for
its account and nonce, a charge once for its account and reference. A grant is signed, and the
signature is made after the books are written.

* `grantRejection_none`, `meterRejection_none` — what the checks establish;
* `verifyGrant_grant` — what is issued verifies exactly when the suite is an active one;
* `metering_conserves` — balances are what was granted less what was charged, exactly;
* `grant_replay_iff` — a grant is refused as a replay exactly when its pair has been credited;
* `failed_call_iff` — which calls that throw leave the ledger as it was.
-/

namespace Nerion

/-- `new SettlementError(m)`. -/
def settlementError (m : String) : JsError := ⟨"SettlementError", m⟩

/-- The strings and numbers of an array that is signed. -/
inductive JsScalar where
  /-- a string -/
  | text (s : JsText)
  /-- a number -/
  | num (x : JsNum)
  deriving DecidableEq

/-- The third-party code, with the encoder on arrays of any strings. -/
structure MeteringExternals extends Externals where
  /-- `encodeCanonical` of an array of strings and numbers; throws on what it cannot encode -/
  encodeArray : List JsScalar → Except JsError Bytes

structure CreditGrant where
  account : JsText
  /-- the credits -/
  amount : JsNum
  /-- hex public key of the issuer -/
  issuer : String
  nonce : JsText
  suite : JsText
  /-- the signature -/
  sig : Bytes
  deriving DecidableEq

structure MeterRecord where
  account : JsText
  cost : JsNum
  /-- what is metered -/
  ref : JsText
  deriving DecidableEq

/-- `GRANT_CONTEXT`. -/
def grantContext : JsText := JsText.ofString "polarseek-credit-grant-v1"

/-- `Number.MAX_SAFE_INTEGER`. -/
def maxSafeInteger : JsNum := ((2 ^ 53 - 1 : ℕ) : JsNum)

structure MeteringLedger where
  suite : JsText
  issuer : KeyPair
  balances : JsMap JsText JsNum
  /-- `consumedNonces`: the JSON texts of account and nonce -/
  consumedNonces : List JsText
  /-- `meteredRefs`: the JSON texts of account and reference -/
  meteredRefs : List JsText

namespace MeteringLedger

/-- `new MeteringLedger(suite, issuer)`. -/
def construct (suite : JsText) (issuer : KeyPair) : MeteringLedger :=
  ⟨suite, issuer, JsMap.empty, [], []⟩

def balance (l : MeteringLedger) (account : JsText) : JsNum := (l.balances.get? account).getD 0

/-! ## Grants -/

/-- What `grant` throws before it writes anything. -/
def grantRejection (l : MeteringLedger) (account : JsText) (amount : JsNum) (nonce : JsText) :
    Option JsError :=
  if !amount.isSafeInteger || JsNum.le amount 0 then
    some (settlementError "grant amount must be a positive safe integer")
  else if decide (JsText.stringifyPair account nonce ∈ l.consumedNonces) then
    some (settlementError "grant nonce already used for this account (replay rejected)")
  else if JsNum.lt (maxSafeInteger - amount) (l.balance account) then
    some (settlementError "grant would overflow the safe-integer balance range")
  else none

/-- What `grant` writes. -/
def credited (l : MeteringLedger) (account : JsText) (amount : JsNum) (nonce : JsText) :
    MeteringLedger :=
  { l with
    consumedNonces := l.consumedNonces ++ [JsText.stringifyPair account nonce]
    balances := l.balances.set account (l.balance account + amount) }

/-- The signature of a grant; it is made last, and it may throw. -/
def grantSignature (X : MeteringExternals) (l : MeteringLedger) (account : JsText) (amount : JsNum)
    (nonce : JsText) (entropy : Bytes) : Except JsError Bytes := do
  let signer ← X.signerFor l.suite.text
  let message ← X.encodeArray
    [.text grantContext, .text l.suite, .text account, .num amount, .text nonce]
  signer.sign message l.issuer.secretKey entropy

/-- `grant`: what it returns or throws, and the ledger afterwards. -/
def grant (X : MeteringExternals) (l : MeteringLedger) (account : JsText) (amount : JsNum)
    (nonce : JsText) (entropy : Bytes) : Except JsError CreditGrant × MeteringLedger :=
  match l.grantRejection account amount nonce with
  | some e => (.error e, l)
  | none =>
    ((l.grantSignature X account amount nonce entropy).map fun sig =>
      ⟨account, amount, X.bytesToHex l.issuer.publicKey, nonce, l.suite, sig⟩,
      l.credited account amount nonce)

def verifyGrant (X : MeteringExternals) (g : CreditGrant) (trustedIssuer : Option String) : Bool :=
  if trustedIssuer.any (g.issuer ≠ ·) then false
  else if !g.amount.isSafeInteger || JsNum.le g.amount 0 then false
  else
    X.verifies (activeSuiteIds.any fun id => decide (JsText.ofString id = g.suite)) g.suite.text
      g.sig (X.encodeArray
        [.text grantContext, .text g.suite, .text g.account, .num g.amount, .text g.nonce])
      (X.hexToBytes g.issuer)

/-! ## Charges -/

/-- What `meter` throws. -/
def meterRejection (l : MeteringLedger) (account : JsText) (cost : JsNum) (ref : JsText) :
    Option JsError :=
  if !cost.isSafeInteger || JsNum.lt cost 0 then
    some (settlementError "cost must be a non-negative safe integer")
  else if decide (JsText.stringifyPair account ref ∈ l.meteredRefs) then
    some (settlementError "ref already metered for this account (replay rejected)")
  else if JsNum.lt (l.balance account) cost then
    some (settlementError "insufficient metering credits")
  else none

/-- What `meter` writes. -/
def charged (l : MeteringLedger) (account : JsText) (cost : JsNum) (ref : JsText) :
    MeteringLedger :=
  { l with
    meteredRefs := l.meteredRefs ++ [JsText.stringifyPair account ref]
    balances := l.balances.set account (l.balance account - cost) }

/-- `meter`: what it returns or throws, and the ledger afterwards. -/
def meter (l : MeteringLedger) (account : JsText) (cost : JsNum) (ref : JsText) :
    Except JsError MeterRecord × MeteringLedger :=
  match l.meterRejection account cost ref with
  | some e => (.error e, l)
  | none => (.ok ⟨account, cost, ref⟩, l.charged account cost ref)

end MeteringLedger

/-! ## Runs -/

/-- A call of the ledger; `entropy` is what the signer draws. -/
inductive MeterCall where
  | grant (account : JsText) (amount : JsNum) (nonce : JsText) (entropy : Bytes)
  | meter (account : JsText) (cost : JsNum) (ref : JsText)

/-- What a call returns or throws. -/
inductive MeterReply where
  /-- of `grant` -/
  | grant (r : Except JsError CreditGrant)
  /-- of `meter` -/
  | meter (r : Except JsError MeterRecord)

/-- The account that a call is about. -/
def MeterCall.account : MeterCall → JsText
  | grant account _ _ _ => account
  | meter account _ _ => account

/-- Whether a call has thrown. -/
def MeterReply.threw : MeterReply → Bool
  | grant (.error _) => true
  | meter (.error _) => true
  | _ => false

/-- The calls made and the replies to them, oldest first. -/
abbrev MeterLog := List (MeterCall × MeterReply)

namespace MeteringLedger

/-- A call. -/
def call (X : MeteringExternals) (l : MeteringLedger) : MeterCall → MeterReply × MeteringLedger
  | .grant account amount nonce entropy =>
    let r := l.grant X account amount nonce entropy
    (.grant r.1, r.2)
  | .meter account cost ref =>
    let r := l.meter account cost ref
    (.meter r.1, r.2)

/-- Calls one after the other. -/
def run (X : MeteringExternals) (l : MeteringLedger) : List MeterCall → MeterLog × MeteringLedger
  | [] => ([], l)
  | c :: cs =>
    let r := l.call X c
    let rest := run X r.2 cs
    ((c, r.1) :: rest.1, rest.2)

/-- The call is not one in which the signature of a grant throws. -/
def Signs (X : MeteringExternals) (l : MeteringLedger) : MeterCall → Prop
  | .grant account amount nonce entropy => l.grantRejection account amount nonce = none →
      ∃ sig, l.grantSignature X account amount nonce entropy = .ok sig
  | .meter _ _ _ => True

/-- None of the calls of a run is. -/
def SignsAll (X : MeteringExternals) (l : MeteringLedger) : List MeterCall → Prop
  | [] => True
  | c :: cs => l.Signs X c ∧ SignsAll X (l.call X c).2 cs

/-! ## What the checks establish -/

/-- A positive safe integer. -/
theorem exists_natCast_of_positive {x : JsNum} (hsafe : x.isSafeInteger = true)
    (hpos : JsNum.le x 0 = false) : ∃ m : ℕ, x = m ∧ 0 < m := by
  have hlt : JsNum.lt x 0 = false := by
    refine (Bool.not_eq_true _).mp fun hlt => ?_
    rw [JsNum.le_of_lt hlt] at hpos
    cases hpos
  obtain ⟨m, rfl⟩ := JsNum.exists_natCast_of_isInteger (JsNum.isInteger_of_isSafeInteger hsafe) hlt
  rw [JsNum.zero_def, JsNum.le_natCast, decide_eq_false_iff_not] at hpos
  exact ⟨m, rfl, by omega⟩

/-- Every balance is a natural number below `2 ^ 53`. -/
def Sound (l : MeteringLedger) : Prop := ∀ a, ∃ n : ℕ, n < 2 ^ 53 ∧ l.balance a = n

theorem sound_construct (suite : JsText) (issuer : KeyPair) : (construct suite issuer).Sound :=
  fun _ => ⟨0, by decide, rfl⟩

theorem balance_set (l : MeteringLedger) (account a : JsText) (v : JsNum) :
    ((l.balances.set account v).get? a).getD 0 = if a = account then v else l.balance a := by
  rw [JsMap.get?_set]
  split
  · rfl
  · rfl

theorem balance_credited (l : MeteringLedger) (account : JsText) (amount : JsNum)
    (nonce a : JsText) : (l.credited account amount nonce).balance a =
      if a = account then l.balance account + amount else l.balance a :=
  l.balance_set account a _

theorem balance_charged (l : MeteringLedger) (account : JsText) (cost : JsNum) (ref a : JsText) :
    (l.charged account cost ref).balance a =
      if a = account then l.balance account - cost else l.balance a :=
  l.balance_set account a _

/-- **A grant that was issued** verifies if the suite is an active one, and only then. -/
theorem verifyGrant_grant {X : MeteringExternals} {l : MeteringLedger} {account nonce : JsText}
    {amount : JsNum} {entropy : Bytes} {g : CreditGrant}
    (hkey : ∀ signer, X.signerFor l.suite.text = .ok signer → l.issuer.Genuine signer)
    (hhex : X.hexToBytes (X.bytesToHex l.issuer.publicKey) = .ok l.issuer.publicKey)
    (h : (l.grant X account amount nonce entropy).1 = .ok g) :
    verifyGrant X g (some (X.bytesToHex l.issuer.publicKey)) =
      activeSuiteIds.any fun id => decide (JsText.ofString id = l.suite) := by
  rw [grant] at h
  cases hreject : l.grantRejection account amount nonce with
  | some e =>
    rw [hreject] at h
    cases h
  | none =>
    rw [hreject] at h
    have hamount : ¬ ((!amount.isSafeInteger || JsNum.le amount 0) = true) := by
      intro hbad
      rw [grantRejection, if_pos hbad] at hreject
      cases hreject
    cases hsign : l.grantSignature X account amount nonce entropy with
    | error e =>
      rw [hsign] at h
      cases h
    | ok sig =>
      rw [hsign] at h
      obtain rfl := Except.ok.inj h
      obtain ⟨signer, hsigner, hsign⟩ := Except.bind_eq_ok hsign
      obtain ⟨message, hmessage, hsign⟩ := Except.bind_eq_ok hsign
      rw [verifyGrant, if_neg (by simp), if_neg hamount]
      exact X.verifies_signed hsigner hmessage hsign (hkey signer hsigner) hhex

/-- A grant that passes: the amount is a positive natural, the nonce is new for the account, and
the new balance is exact. -/
theorem grantRejection_none {l : MeteringLedger} {account nonce : JsText} {amount : JsNum} {n : ℕ}
    (hbalance : l.balance account = n) (h : l.grantRejection account amount nonce = none) :
    ∃ m : ℕ, amount = m ∧ 0 < m ∧ n + m < 2 ^ 53 ∧
      JsText.stringifyPair account nonce ∉ l.consumedNonces ∧
      ∀ a, (l.credited account amount nonce).balance a =
        if a = account then ((n + m : ℕ) : JsNum) else l.balance a := by
  rw [grantRejection] at h
  split at h
  · cases h
  rename_i hamount
  split at h
  · cases h
  rename_i hnonce
  split at h
  · cases h
  rename_i hroom
  simp only [Bool.or_eq_true, Bool.not_eq_true', not_or, Bool.not_eq_false, Bool.not_eq_true]
    at hamount
  obtain ⟨hsafe, hpos⟩ := hamount
  obtain ⟨m, rfl, hm⟩ := exists_natCast_of_positive hsafe hpos
  have hm53 : m < 2 ^ 53 := JsNum.isSafeInteger_natCast.mp hsafe
  -- the overflow check subtracts, and below `2 ^ 53` that is exact
  have hsub : maxSafeInteger - (m : JsNum) = ((2 ^ 53 - 1 - m : ℕ) : JsNum) :=
    JsNum.sub_natCast (by omega) (by omega)
  rw [hsub, hbalance, JsNum.lt_natCast, decide_eq_true_iff] at hroom
  refine ⟨m, rfl, hm, by omega, fun hmem => hnonce (decide_eq_true hmem), fun a => ?_⟩
  rw [balance_credited, hbalance, JsNum.add_natCast (by omega)]

/-- A charge that passes: the cost is a natural that the balance covers, and the reference is new
for the account. -/
theorem meterRejection_none {l : MeteringLedger} {account ref : JsText} {cost : JsNum} {n : ℕ}
    (hn : n < 2 ^ 53) (hbalance : l.balance account = n)
    (h : l.meterRejection account cost ref = none) :
    ∃ m : ℕ, cost = m ∧ m ≤ n ∧ JsText.stringifyPair account ref ∉ l.meteredRefs ∧
      ∀ a, (l.charged account cost ref).balance a =
        if a = account then ((n - m : ℕ) : JsNum) else l.balance a := by
  rw [meterRejection] at h
  split at h
  · cases h
  rename_i hcost
  split at h
  · cases h
  rename_i href
  split at h
  · cases h
  rename_i hcovered
  simp only [Bool.or_eq_true, Bool.not_eq_true', not_or, Bool.not_eq_false, Bool.not_eq_true]
    at hcost
  obtain ⟨m, rfl⟩ := JsNum.exists_natCast_of_isInteger
    (JsNum.isInteger_of_isSafeInteger hcost.1) hcost.2
  rw [hbalance, JsNum.lt_natCast, decide_eq_true_iff, not_lt] at hcovered
  refine ⟨m, rfl, hcovered, fun hmem => href (decide_eq_true hmem), fun a => ?_⟩
  rw [balance_charged, hbalance, JsNum.sub_natCast hcovered (by omega)]

end MeteringLedger

/-! ## The books

What a ledger is for: the log of successful grants and charges, and the sums over it. -/

namespace MeterLog

/-- What an entry of the log adds to an account. -/
def credit (a : JsText) : MeterCall × MeterReply → ℤ
  | (.grant account amount _ _, .grant (.ok _)) => if account = a then amount.toInt else 0
  | _ => 0

/-- What an entry of the log takes from an account. -/
def charge (a : JsText) : MeterCall × MeterReply → ℤ
  | (.meter account cost _, .meter (.ok _)) => if account = a then cost.toInt else 0
  | _ => 0

/-- The sum of the amounts of the successful grants to an account. -/
def credits (log : MeterLog) (a : JsText) : ℤ := (log.map (credit a)).sum

/-- The sum of the costs of the successful charges of an account. -/
def charges (log : MeterLog) (a : JsText) : ℤ := (log.map (charge a)).sum

/-- Account and nonce of a successful grant. -/
def creditedPair : MeterCall × MeterReply → Option (JsText × JsText)
  | (.grant account _ nonce _, .grant (.ok _)) => some (account, nonce)
  | _ => none

/-- Account and reference of a successful charge. -/
def chargedPair : MeterCall × MeterReply → Option (JsText × JsText)
  | (.meter account _ ref, .meter (.ok _)) => some (account, ref)
  | _ => none

/-- Account and nonce of the successful grants. -/
def creditedPairs (log : MeterLog) : List (JsText × JsText) := log.filterMap creditedPair

/-- Account and reference of the successful charges. -/
def chargedPairs (log : MeterLog) : List (JsText × JsText) := log.filterMap chargedPair

theorem credits_snoc (log : MeterLog) (e : MeterCall × MeterReply) (a : JsText) :
    credits (log ++ [e]) a = log.credits a + credit a e := by
  simp [credits]

theorem charges_snoc (log : MeterLog) (e : MeterCall × MeterReply) (a : JsText) :
    charges (log ++ [e]) a = log.charges a + charge a e := by
  simp [charges]

theorem creditedPairs_snoc (log : MeterLog) (e : MeterCall × MeterReply) :
    creditedPairs (log ++ [e]) = log.creditedPairs ++ (creditedPair e).toList := by
  rw [creditedPairs, List.filterMap_append, creditedPairs]
  cases h : creditedPair e <;> simp [h]

theorem chargedPairs_snoc (log : MeterLog) (e : MeterCall × MeterReply) :
    chargedPairs (log ++ [e]) = log.chargedPairs ++ (chargedPair e).toList := by
  rw [chargedPairs, List.filterMap_append, chargedPairs]
  cases h : chargedPair e <;> simp [h]

end MeterLog

namespace MeteringLedger

/-- The JSON text of a pair. -/
def pairKey (p : JsText × JsText) : JsText := JsText.stringifyPair p.1 p.2

theorem pairKey_injective : Function.Injective pairKey := fun _ _ h =>
  Prod.ext_iff.mpr (JsText.stringifyPair_injective h)

/-- The ledger agrees with the log. -/
structure Books (l : MeteringLedger) (log : MeterLog) : Prop where
  /-- balances are the sums, below `2 ^ 53` -/
  balances : ∀ a, ∃ n : ℕ, n < 2 ^ 53 ∧ l.balance a = n ∧
    (n : ℤ) = log.credits a - log.charges a
  /-- the nonces are those of the successful grants -/
  nonces : l.consumedNonces = log.creditedPairs.map pairKey
  /-- the references are those of the successful charges -/
  refs : l.meteredRefs = log.chargedPairs.map pairKey
  /-- no pair is credited twice -/
  credited_once : log.creditedPairs.Nodup
  /-- no pair is charged twice -/
  charged_once : log.chargedPairs.Nodup

theorem books_construct (suite : JsText) (issuer : KeyPair) : (construct suite issuer).Books [] :=
  ⟨fun _ => ⟨0, by decide, rfl, rfl⟩, rfl, rfl, .nil, .nil⟩

variable {l : MeteringLedger} {log : MeterLog} {X : MeteringExternals}

/-- An entry that changes nothing. -/
theorem Books.snoc (h : l.Books log) {e : MeterCall × MeterReply}
    (hcredit : ∀ a, MeterLog.credit a e = 0) (hcharge : ∀ a, MeterLog.charge a e = 0)
    (hcredited : MeterLog.creditedPair e = none) (hcharged : MeterLog.chargedPair e = none) :
    l.Books (log ++ [e]) := by
  obtain ⟨hbalances, hnonces, hrefs, hcreditedOnce, hchargedOnce⟩ := h
  refine ⟨fun a => ?_, ?_, ?_, ?_, ?_⟩
  · rw [MeterLog.credits_snoc, MeterLog.charges_snoc, hcredit, hcharge, add_zero, add_zero]
    exact hbalances a
  · rw [MeterLog.creditedPairs_snoc, hcredited, Option.toList_none, List.append_nil, hnonces]
  · rw [MeterLog.chargedPairs_snoc, hcharged, Option.toList_none, List.append_nil, hrefs]
  · rw [MeterLog.creditedPairs_snoc, hcredited, Option.toList_none, List.append_nil]
    exact hcreditedOnce
  · rw [MeterLog.chargedPairs_snoc, hcharged, Option.toList_none, List.append_nil]
    exact hchargedOnce

theorem nodup_snoc_of_key {ps : List (JsText × JsText)} {keys : List JsText} (hps : ps.Nodup)
    (hkeys : keys = ps.map pairKey) {p : JsText × JsText} (hp : pairKey p ∉ keys) :
    (ps ++ [p]).Nodup := by
  refine List.nodup_append.mpr ⟨hps, List.nodup_singleton p, ?_⟩
  rintro q hq r hr rfl
  obtain rfl := List.mem_singleton.mp hr
  rw [hkeys] at hp
  exact hp (List.mem_map_of_mem hq)

/-- A grant that is signed. -/
theorem Books.credited (h : l.Books log) {account nonce : JsText} {amount : JsNum} {entropy : Bytes}
    {g : CreditGrant} (hpass : l.grantRejection account amount nonce = none) :
    (l.credited account amount nonce).Books
      (log ++ [(.grant account amount nonce entropy, .grant (.ok g))]) := by
  obtain ⟨n, -, hbalance, hsum⟩ := h.balances account
  obtain ⟨m, rfl, -, hlt, hnew, hafter⟩ := grantRejection_none hbalance hpass
  refine ⟨fun a => ?_, ?_, ?_, ?_, ?_⟩
  · rw [hafter, MeterLog.credits_snoc, MeterLog.charges_snoc]
    simp only [MeterLog.credit, MeterLog.charge, JsNum.toInt_natCast]
    by_cases ha : a = account
    · subst ha
      rw [if_pos rfl, if_pos rfl]
      exact ⟨n + m, hlt, rfl, by push_cast; omega⟩
    · rw [if_neg ha, if_neg (Ne.symm ha), add_zero, add_zero]
      exact h.balances a
  · rw [MeterLog.creditedPairs_snoc, MeteringLedger.credited, h.nonces]
    simp [MeterLog.creditedPair, pairKey]
  · rw [MeterLog.chargedPairs_snoc, MeteringLedger.credited, h.refs]
    simp [MeterLog.chargedPair]
  · rw [MeterLog.creditedPairs_snoc]
    exact nodup_snoc_of_key h.credited_once h.nonces hnew
  · rw [MeterLog.chargedPairs_snoc]
    simpa [MeterLog.chargedPair] using h.charged_once

/-- A charge. -/
theorem Books.charged (h : l.Books log) {account ref : JsText} {cost : JsNum} {r : MeterRecord}
    (hpass : l.meterRejection account cost ref = none) :
    (l.charged account cost ref).Books (log ++ [(.meter account cost ref, .meter (.ok r))]) := by
  obtain ⟨n, hn, hbalance, hsum⟩ := h.balances account
  obtain ⟨m, rfl, hle, hnew, hafter⟩ := meterRejection_none hn hbalance hpass
  refine ⟨fun a => ?_, ?_, ?_, ?_, ?_⟩
  · rw [hafter, MeterLog.credits_snoc, MeterLog.charges_snoc]
    simp only [MeterLog.credit, MeterLog.charge, JsNum.toInt_natCast]
    by_cases ha : a = account
    · subst ha
      rw [if_pos rfl, if_pos rfl]
      exact ⟨n - m, by omega, rfl, by omega⟩
    · rw [if_neg ha, if_neg (Ne.symm ha), add_zero, add_zero]
      exact h.balances a
  · rw [MeterLog.creditedPairs_snoc, MeteringLedger.charged, h.nonces]
    simp [MeterLog.creditedPair]
  · rw [MeterLog.chargedPairs_snoc, MeteringLedger.charged, h.refs]
    simp [MeterLog.chargedPair, pairKey]
  · rw [MeterLog.creditedPairs_snoc]
    simpa [MeterLog.creditedPair] using h.credited_once
  · rw [MeterLog.chargedPairs_snoc]
    exact nodup_snoc_of_key h.charged_once h.refs hnew

/-- **All that a call can do**: it throws before anything is written, or it writes the grant or the
charge; a grant that is written may still throw. -/
theorem call_cases (X : MeteringExternals) (l : MeteringLedger) (c : MeterCall) :
    (∃ account amount nonce entropy err, c = .grant account amount nonce entropy ∧
      (l.grantRejection account amount nonce).isSome = true ∧
      l.call X c = (.grant (.error err), l)) ∨
    (∃ account amount nonce entropy, c = .grant account amount nonce entropy ∧
      l.grantRejection account amount nonce = none ∧
      l.call X c = (.grant ((l.grantSignature X account amount nonce entropy).map fun sig =>
        ⟨account, amount, X.bytesToHex l.issuer.publicKey, nonce, l.suite, sig⟩),
        l.credited account amount nonce)) ∨
    (∃ account cost ref err, c = .meter account cost ref ∧ l.call X c = (.meter (.error err), l)) ∨
    (∃ account cost ref, c = .meter account cost ref ∧ l.meterRejection account cost ref = none ∧
      l.call X c = (.meter (.ok ⟨account, cost, ref⟩), l.charged account cost ref)) := by
  cases c with
  | grant account amount nonce entropy =>
    cases h : l.grantRejection account amount nonce with
    | some e =>
      exact .inl ⟨account, amount, nonce, entropy, e, rfl, by rw [h]; rfl, by simp [call, grant, h]⟩
    | none =>
      exact .inr (.inl ⟨account, amount, nonce, entropy, rfl, h, by simp [call, grant, h]⟩)
  | meter account cost ref =>
    cases h : l.meterRejection account cost ref with
    | some e =>
      exact .inr (.inr (.inl ⟨account, cost, ref, e, rfl, by simp [call, meter, h]⟩))
    | none => exact .inr (.inr (.inr ⟨account, cost, ref, rfl, h, by simp [call, meter, h]⟩))

/-- The step: a call in which no signature throws keeps the books. -/
theorem Books.call (h : l.Books log) {c : MeterCall} (hsigns : l.Signs X c) :
    (l.call X c).2.Books (log ++ [(c, (l.call X c).1)]) := by
  obtain ⟨account, amount, nonce, entropy, err, rfl, -, heq⟩ |
    ⟨account, amount, nonce, entropy, rfl, hpass, heq⟩ |
    ⟨account, cost, ref, err, rfl, heq⟩ | ⟨account, cost, ref, rfl, hpass, heq⟩ := call_cases X l c
  · rw [heq]
    exact h.snoc (fun _ => rfl) (fun _ => rfl) rfl rfl
  · obtain ⟨sig, hsig⟩ := hsigns hpass
    rw [heq, hsig]
    exact h.credited hpass
  · rw [heq]
    exact h.snoc (fun _ => rfl) (fun _ => rfl) rfl rfl
  · rw [heq]
    exact h.charged hpass

/-- The run. -/
theorem Books.run (h : l.Books log) {calls : List MeterCall} (hsigns : l.SignsAll X calls) :
    (l.run X calls).2.Books (log ++ (l.run X calls).1) := by
  induction calls generalizing l log with
  | nil =>
    rw [MeteringLedger.run, List.append_nil]
    exact h
  | cons c cs ih =>
    have hrest := ih (h.call hsigns.1) hsigns.2
    rw [List.append_assoc] at hrest
    exact hrest

/-- A call does not touch other accounts. -/
theorem balance_call_of_ne (X : MeteringExternals) (l : MeteringLedger) {c : MeterCall} {a : JsText}
    (ha : a ≠ c.account) : (l.call X c).2.balance a = l.balance a := by
  obtain ⟨account, amount, nonce, entropy, err, rfl, -, heq⟩ |
    ⟨account, amount, nonce, entropy, rfl, -, heq⟩ |
    ⟨account, cost, ref, err, rfl, heq⟩ | ⟨account, cost, ref, rfl, -, heq⟩ := call_cases X l c
  · rw [heq]
  · rw [heq, balance_credited]
    exact if_neg ha
  · rw [heq]
  · rw [heq, balance_charged]
    exact if_neg ha

/-- A call that throws, though no signature does, leaves the ledger as it is. -/
theorem call_of_threw {c : MeterCall} (hsigns : l.Signs X c)
    (hthrew : (l.call X c).1.threw = true) : (l.call X c).2 = l := by
  obtain ⟨account, amount, nonce, entropy, err, rfl, -, heq⟩ |
    ⟨account, amount, nonce, entropy, rfl, hpass, heq⟩ |
    ⟨account, cost, ref, err, rfl, heq⟩ | ⟨account, cost, ref, rfl, hpass, heq⟩ := call_cases X l c
  · rw [heq]
  · obtain ⟨sig, hsig⟩ := hsigns hpass
    rw [heq, hsig] at hthrew
    cases hthrew
  · rw [heq]
  · rw [heq] at hthrew
    cases hthrew

end MeteringLedger

open MeteringLedger in
/-- **Metering conserves credits.** After every run in which no signature throws, each balance is
exactly what was granted to the account less what was charged to it, and it is between zero and
`2 ^ 53 - 1`; no account and nonce were credited twice, no account and reference charged twice. A
further call that throws changes no balance, and none changes the balance of another account. -/
theorem metering_conserves {X : MeteringExternals} {suite : JsText} {issuer : KeyPair}
    {calls : List MeterCall} (hsigns : (construct suite issuer).SignsAll X calls) :
    let log := ((construct suite issuer).run X calls).1
    let l := ((construct suite issuer).run X calls).2
    (∀ a, l.balance a = ((log.credits a - log.charges a : ℤ) : JsNum) ∧
      0 ≤ log.credits a - log.charges a ∧ log.credits a - log.charges a ≤ 2 ^ 53 - 1) ∧
    log.creditedPairs.Nodup ∧ log.chargedPairs.Nodup ∧
    ∀ c, l.Signs X c →
      ((l.call X c).1.threw = true → ∀ a, (l.call X c).2.balance a = l.balance a) ∧
      ∀ a, a ≠ c.account → (l.call X c).2.balance a = l.balance a := by
  have hbooks := (books_construct suite issuer).run hsigns
  rw [List.nil_append] at hbooks
  refine ⟨fun a => ?_, hbooks.credited_once, hbooks.charged_once, fun c hc => ⟨?_, ?_⟩⟩
  · obtain ⟨n, hn, hbalance, hsum⟩ := hbooks.balances a
    rw [← hsum]
    exact ⟨hbalance, by omega, by omega⟩
  · intro hthrew a
    rw [call_of_threw hc hthrew]
  · intro a ha
    exact balance_call_of_ne X _ ha

/-- Externals for concrete runs, with an encoder that takes everything. -/
def plainMetering : MeteringExternals := ⟨plainExternals, fun _ => .ok []⟩

/-- Seven credits, two of them charged, and a charge that is not covered. -/
def sevenCredits : List MeterCall :=
  [.grant (.ofString "a") 7 (.ofString "n") [], .meter (.ofString "a") 2 (.ofString "r"),
    .meter (.ofString "a") 6 (.ofString "s")]

open MeteringLedger in
theorem metering_conserves_seven :
    ((construct (.ofString "PS-5") ⟨[], []⟩).run plainMetering sevenCredits).2.balance
      (.ofString "a") = 5 ∧
    (((construct (.ofString "PS-5") ⟨[], []⟩).run plainMetering sevenCredits).1.creditedPairs).Nodup
    := by
  have hsigns : (construct (.ofString "PS-5") ⟨[], []⟩).SignsAll plainMetering sevenCredits :=
    ⟨fun _ => ⟨[], by decide +kernel⟩, trivial, trivial, trivial⟩
  exact ⟨by decide +kernel, (metering_conserves hsigns).2.1⟩

open MeteringLedger in
/-- **No nonce stands for another.** After such a run, the replay check of a grant finds the JSON
text of account and nonce exactly when this account was credited with this nonce. -/
theorem grant_replay_iff {X : MeteringExternals} {suite : JsText} {issuer : KeyPair}
    {calls : List MeterCall} (hsigns : (construct suite issuer).SignsAll X calls)
    (account nonce : JsText) :
    JsText.stringifyPair account nonce ∈
        ((construct suite issuer).run X calls).2.consumedNonces ↔
      (account, nonce) ∈ ((construct suite issuer).run X calls).1.creditedPairs := by
  have hbooks := (books_construct suite issuer).run hsigns
  rw [List.nil_append] at hbooks
  rw [hbooks.nonces]
  exact @List.mem_map_of_injective _ _ _ pairKey_injective (account, nonce) _

/-! ## Calls that throw -/

namespace MeteringLedger

/-- The ledgers that calls lead to, whatever throws. -/
inductive Reachable (X : MeteringExternals) : MeteringLedger → Prop where
  /-- a new ledger -/
  | construct (suite : JsText) (issuer : KeyPair) : Reachable X (construct suite issuer)
  | call {l : MeteringLedger} (c : MeterCall) : Reachable X l → Reachable X (l.call X c).2

theorem Sound.call {X : MeteringExternals} {l : MeteringLedger} (hl : l.Sound) (c : MeterCall) :
    (l.call X c).2.Sound := by
  intro a
  by_cases ha : a = c.account
  · obtain ⟨account, amount, nonce, entropy, err, rfl, -, heq⟩ |
      ⟨account, amount, nonce, entropy, rfl, hpass, heq⟩ |
      ⟨account, cost, ref, err, rfl, heq⟩ | ⟨account, cost, ref, rfl, hpass, heq⟩ :=
      call_cases X l c
    · rw [heq]
      exact hl a
    · obtain ⟨n, -, hbalance⟩ := hl account
      obtain ⟨m, -, -, hlt, -, hafter⟩ := grantRejection_none hbalance hpass
      rw [heq, hafter]
      exact ⟨n + m, hlt, if_pos ha⟩
    · rw [heq]
      exact hl a
    · obtain ⟨n, hn, hbalance⟩ := hl account
      obtain ⟨m, -, -, -, hafter⟩ := meterRejection_none hn hbalance hpass
      rw [heq, hafter]
      exact ⟨n - m, by omega, if_pos ha⟩
  · rw [balance_call_of_ne X l ha]
    exact hl a

theorem Reachable.sound {X : MeteringExternals} {l : MeteringLedger} (hl : Reachable X l) :
    l.Sound := by
  induction hl with
  | construct suite issuer => exact sound_construct suite issuer
  | call c _ ih => exact ih.call c

/-- No balance and no later call tells the ledgers apart. -/
def Indistinguishable (X : MeteringExternals) (l l' : MeteringLedger) : Prop :=
  (∀ a, l'.balance a = l.balance a) ∧ ∀ calls, (l'.run X calls).1 = (l.run X calls).1

/-- A charge, or a grant that the checks before the books refuse. -/
def RefusedInTime (l : MeteringLedger) : MeterCall → Prop
  | .grant account amount nonce _ => (l.grantRejection account amount nonce).isSome = true
  | .meter _ _ _ => True

end MeteringLedger

open MeteringLedger in
/-- **Which calls that throw have no effect**: charges, and the grants that are refused before the
books are written. A grant that throws because it cannot be signed has credited the account. -/
theorem failed_call_iff {X : MeteringExternals} {l : MeteringLedger} (hl : Reachable X l)
    {c : MeterCall} (hthrew : (l.call X c).1.threw = true) :
    Indistinguishable X l (l.call X c).2 ↔ l.RefusedInTime c := by
  obtain ⟨account, amount, nonce, entropy, err, rfl, hsome, heq⟩ |
    ⟨account, amount, nonce, entropy, rfl, hpass, heq⟩ |
    ⟨account, cost, ref, err, rfl, heq⟩ | ⟨account, cost, ref, rfl, -, heq⟩ := call_cases X l c
  · rw [heq]
    exact ⟨fun _ => hsome, fun _ => ⟨fun _ => rfl, fun _ => rfl⟩⟩
  · rw [heq, RefusedInTime, hpass]
    refine ⟨fun h => ?_, fun h => absurd h Bool.false_ne_true⟩
    -- the amount is positive, and it has been added exactly
    obtain ⟨n, -, hbalance⟩ := hl.sound account
    obtain ⟨m, -, hpos, -, -, hafter⟩ := grantRejection_none hbalance hpass
    have hsame := h.1 account
    rw [hafter, if_pos rfl, hbalance] at hsame
    have hnat := JsNum.natCast_injective hsame
    omega
  · rw [heq]
    exact ⟨fun _ => trivial, fun _ => ⟨fun _ => rfl, fun _ => rfl⟩⟩
  · rw [heq] at hthrew
    cases hthrew

open MeteringLedger in
/-- A charge that is not covered leaves no trace. -/
theorem failed_call_uncovered :
    Indistinguishable plainMetering (construct (.ofString "PS-5") ⟨[], []⟩)
      ((construct (.ofString "PS-5") ⟨[], []⟩).call plainMetering
        (.meter (.ofString "a") 1 (.ofString "r"))).2 :=
  (failed_call_iff (.construct _ _) (by decide +kernel)).mpr trivial

open MeteringLedger in
/-- A ledger of a suite that is not registered: the grant throws, and the account is credited. -/
theorem failed_grant_credits :
    ((construct (.ofString "PS-9") ⟨[], []⟩).call plainMetering
      (.grant (.ofString "a") 5 (.ofString "n") [])).1.threw = true ∧
    ¬ Indistinguishable plainMetering (construct (.ofString "PS-9") ⟨[], []⟩)
      ((construct (.ofString "PS-9") ⟨[], []⟩).call plainMetering
        (.grant (.ofString "a") 5 (.ofString "n") [])).2 := by
  refine ⟨by decide +kernel, fun h => ?_⟩
  have hsame := h.1 (.ofString "a")
  revert hsame
  decide +kernel

end Nerion
