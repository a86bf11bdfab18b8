import Nerion.Basic
import Nerion.JsNumber
import Mathlib.Data.List.Infix
import Mathlib.Data.Set.Basic

/-!
# Chains of message authentication codes

A library on chains `hmac(… hmac(hmac(key, m₁), m₂) …, mₙ)` in a symbolic model: byte strings are
terms, `hmac` and the encoder are free constructors, and an attacker has what it can derive from
the terms it has seen. The key of the chains is one constant that no rule derives.

* `JsData` — values that carry byte strings of any type, as an encoder takes them;
* `MacTerm.Derives` — what an attacker can compute, decoding included;
* `MacTerm.Open` — the same without decoding, which nothing is lost by;
* `MacTerm.derives_chain` — who derives the end of a chain has seen the end of a prefix of it.
-/

namespace Nerion

/-! ## Values -/

/-- A value with byte strings of type `B`. -/
inductive JsData (B : Type) where
  | null
  /-- a boolean -/
  | bool (b : Bool)
  /-- a number -/
  | num (x : JsNum)
  /-- a string -/
  | text (s : String)
  /-- a byte string -/
  | bytes (b : B)
  | array (xs : List (JsData B))
  /-- an object -/
  | map (kvs : List (String × JsData B))

namespace JsData

variable {B : Type}

/-- The byte strings in a value. -/
inductive Carries : JsData B → B → Prop where
  /-- the value is one -/
  | bytes (b : B) : Carries (.bytes b) b
  /-- an item carries it -/
  | array {xs : List (JsData B)} {x : JsData B} {b : B} (hx : x ∈ xs) (hb : Carries x b) :
    Carries (.array xs) b
  /-- the value of a field carries it -/
  | map {kvs : List (String × JsData B)} {kv : String × JsData B} {b : B} (hkv : kv ∈ kvs)
    (hb : Carries kv.2 b) : Carries (.map kvs) b

end JsData

/-! ## Terms and what an attacker knows -/

/-- A byte string in the symbolic model. -/
inductive MacTerm where
  /-- bytes that anyone can write down -/
  | data (b : Bytes)
  /-- the secret key -/
  | key
  /-- the encoding of a value -/
  | encoded (v : JsData MacTerm)
  /-- a message authentication code -/
  | hmac (k m : MacTerm)

namespace MacTerm

/-- What can be computed from the terms in `K`. -/
inductive Derives (K : Set MacTerm) : MacTerm → Prop where
  /-- a term that was seen -/
  | seen {t : MacTerm} (ht : t ∈ K) : Derives K t
  /-- public bytes -/
  | data (b : Bytes) : Derives K (.data b)
  /-- a value is encoded -/
  | encode {v : JsData MacTerm} (hv : ∀ b, v.Carries b → Derives K b) : Derives K (.encoded v)
  /-- an encoding is decoded -/
  | decode {v : JsData MacTerm} {b : MacTerm} (hv : Derives K (.encoded v)) (hb : v.Carries b) :
    Derives K b
  /-- a code is computed with a key that is known -/
  | hmac {k m : MacTerm} (hk : Derives K k) (hm : Derives K m) : Derives K (.hmac k m)

/-- A term that does not depend on the secret key. -/
inductive Public : MacTerm → Prop where
  /-- bytes -/
  | data (b : Bytes) : Public (.data b)
  /-- the encoding of a value with public byte strings -/
  | encoded {v : JsData MacTerm} (hv : ∀ b, v.Carries b → Public b) : Public (.encoded v)
  /-- a code of public terms -/
  | hmac {k m : MacTerm} (hk : Public k) (hm : Public m) : Public (.hmac k m)

/-- The end of the chain over the messages. -/
def chain (ms : List MacTerm) : MacTerm := ms.foldl .hmac .key

@[simp] theorem chain_nil : chain [] = .key := rfl

@[simp] theorem chain_concat (ms : List MacTerm) (m : MacTerm) :
    chain (ms ++ [m]) = .hmac (chain ms) m := by
  rw [chain, List.foldl_append]
  rfl

/-- The end determines the messages. -/
theorem chain_injective : Function.Injective chain := by
  intro ms
  induction ms using List.reverseRecOn with
  | nil =>
    intro ms' h
    rcases List.eq_nil_or_concat' ms' with rfl | ⟨ms', m', rfl⟩
    · rfl
    · rw [chain_concat] at h
      exact MacTerm.noConfusion h
  | append_singleton ms m ih =>
    intro ms' h
    rcases List.eq_nil_or_concat' ms' with rfl | ⟨ms', m', rfl⟩
    · rw [chain_concat] at h
      exact MacTerm.noConfusion h
    · rw [chain_concat, chain_concat] at h
      obtain ⟨hchain, rfl⟩ := MacTerm.hmac.inj h
      rw [ih hchain]

/-- No chain ends in an encoding. -/
theorem chain_ne_encoded (ms : List MacTerm) (v : JsData MacTerm) : chain ms ≠ .encoded v := by
  intro h
  rcases List.eq_nil_or_concat' ms with rfl | ⟨ms, m, rfl⟩
  · exact MacTerm.noConfusion h
  · rw [chain_concat] at h
    exact MacTerm.noConfusion h

/-! ## Chains that were seen -/

/-- What can be computed from the ends of the chains in `S` and from public bytes, by encoding and
`hmac` alone. -/
inductive Open (S : Set (List MacTerm)) : MacTerm → Prop where
  /-- the end of a chain that was seen -/
  | seen {t : MacTerm} {ms : List MacTerm} (hms : ms ∈ S) (ht : t = chain ms) : Open S t
  /-- public bytes -/
  | data (b : Bytes) : Open S (.data b)
  /-- a value is encoded -/
  | encode {v : JsData MacTerm} (hv : ∀ b, v.Carries b → Open S b) : Open S (.encoded v)
  /-- a code is computed with a key that is known -/
  | hmac {k m : MacTerm} (hk : Open S k) (hm : Open S m) : Open S (.hmac k m)

variable {S : Set (List MacTerm)}

theorem Public.isOpen {t : MacTerm} (h : Public t) : Open S t := by
  induction h with
  | data b => exact .data b
  | encoded _ ih => exact .encode ih
  | hmac _ _ ihk ihm => exact .hmac ihk ihm

/-- Whoever has an encoding has encoded it, and so has had its parts. -/
theorem Open.of_encoded {v : JsData MacTerm} (h : Open S (.encoded v)) {b : MacTerm}
    (hb : v.Carries b) : Open S b := by
  cases h with
  | seen hms ht => exact absurd ht.symm (chain_ne_encoded _ v)
  | encode hv => exact hv b hb

/-- Decoding gives nothing new, if what was seen are public terms and ends of chains. -/
theorem Derives.isOpen {K : Set MacTerm} (hK : ∀ t ∈ K, Public t ∨ ∃ ms ∈ S, t = chain ms)
    {t : MacTerm} (h : Derives K t) : Open S t := by
  induction h with
  | seen ht =>
    rcases hK _ ht with hpublic | ⟨ms, hms, heq⟩
    · exact hpublic.isOpen
    · exact .seen hms heq
  | data b => exact .data b
  | encode _ ih => exact .encode ih
  | decode _ hb ih => exact ih.of_encoded hb
  | hmac _ _ ihk ihm => exact .hmac ihk ihm

/-- The end of a chain is open only if a prefix of the chain was seen. -/
theorem Open.exists_seen {ms : List MacTerm} (h : Open S (chain ms)) :
    ∃ ms' ∈ S, ms' <+: ms := by
  induction ms using List.reverseRecOn with
  | nil =>
    rw [chain_nil] at h
    cases h with
    | seen hms ht =>
      rw [← chain_nil] at ht
      exact ⟨_, hms, (chain_injective ht) ▸ List.prefix_refl _⟩
  | append_singleton ms m ih =>
    rw [chain_concat] at h
    cases h with
    | seen hms ht =>
      rw [← chain_concat] at ht
      exact ⟨_, hms, (chain_injective ht) ▸ List.prefix_refl _⟩
    | hmac hk hm =>
      obtain ⟨ms', hms', hprefix⟩ := ih hk
      exact ⟨ms', hms', hprefix.trans (List.prefix_append ms [m])⟩

/-- **Chains are only extended.** An attacker that has seen public terms and the ends of the chains
in `S` derives the end of a chain only if a prefix of it is in `S`. -/
theorem derives_chain {K : Set MacTerm} (hK : ∀ t ∈ K, Public t ∨ ∃ ms ∈ S, t = chain ms)
    {ms : List MacTerm} (h : Derives K (chain ms)) : ∃ ms' ∈ S, ms' <+: ms :=
  (h.isOpen hK).exists_seen

end MacTerm

end Nerion
