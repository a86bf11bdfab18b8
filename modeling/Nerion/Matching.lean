import Mathlib.Combinatorics.Hall.Basic
import Mathlib.Data.Finset.Sum

/-!
# Pairs that share nothing

A library on finite sets of pairs: how many of them can be chosen so that no two agree in a
component. Elements that cover all pairs, each pair by one of its components, bound the number
from above; there is a cover that reaches it (König's theorem), by Hall's theorem on a family with
spare elements.

* `Independent`, `Covers`;
* `card_le_of_covers` — a cover is at least as large;
* `exists_independent_iff` — there are `n` such pairs exactly when no cover is smaller than `n`;
* `exists_pairwise_iff` — the same for the items of a list that have two labels each.
-/

namespace Nerion

variable {α β : Type} [DecidableEq α]

/-- No two pairs share a component. -/
def Independent (M : Finset (α × β)) : Prop :=
  Set.InjOn Prod.fst (M : Set (α × β)) ∧ Set.InjOn Prod.snd (M : Set (α × β))

/-- Every pair has a component among the chosen ones. -/
def Covers (S : Finset (α × β)) (F : Finset α) (K : Finset β) : Prop :=
  ∀ e ∈ S, e.1 ∈ F ∨ e.2 ∈ K

/-- A cover has an element for each of the pairs. -/
theorem card_le_of_covers {S M : Finset (α × β)} {F : Finset α} {K : Finset β} (hM : M ⊆ S)
    (hind : Independent M) (hcov : Covers S F K) : M.card ≤ F.card + K.card := by
  have hfirst : (M.filter (·.1 ∈ F)).card ≤ F.card := by
    refine Finset.card_le_card_of_injOn Prod.fst ?_ ?_
    · intro e he
      exact (Finset.mem_filter.mp he).2
    · exact hind.1.mono (by exact_mod_cast Finset.filter_subset _ M)
  have hsecond : (M.filter (¬ ·.1 ∈ F)).card ≤ K.card := by
    refine Finset.card_le_card_of_injOn Prod.snd ?_ ?_
    · intro e he
      obtain ⟨he, hnot⟩ := Finset.mem_filter.mp he
      exact (hcov e (hM he)).resolve_left hnot
    · exact hind.2.mono (by exact_mod_cast Finset.filter_subset _ M)
  rw [← Finset.card_filter_add_card_filter_not (fun e : α × β => e.1 ∈ F)]
  exact Nat.add_le_add hfirst hsecond

variable [DecidableEq β]

/-- The second components that go with a first one. -/
def partners (S : Finset (α × β)) (a : α) : Finset β := (S.filter (·.1 = a)).image Prod.snd

theorem mem_partners {S : Finset (α × β)} {a : α} {b : β} : b ∈ partners S a ↔ (a, b) ∈ S := by
  simp [partners]

/-- First components left out, and the partners of the others, are a cover. -/
theorem covers_partners (S : Finset (α × β)) (A : Finset α) :
    Covers S (S.image Prod.fst \ A) (A.biUnion (partners S)) := by
  intro e he
  by_cases hA : e.1 ∈ A
  · exact .inr (Finset.mem_biUnion.mpr ⟨e.1, hA, mem_partners.mpr he⟩)
  · exact .inl (Finset.mem_sdiff.mpr ⟨Finset.mem_image_of_mem _ he, hA⟩)

/-- Hall's theorem with spare elements: every first component gets a partner of its own or one of
the spare elements, if these make up for what covers fall short of. -/
theorem exists_assignment {S : Finset (α × β)} {n : ℕ}
    (hcov : ∀ F K, Covers S F K → n ≤ F.card + K.card) :
    ∃ f : {a // a ∈ S.image Prod.fst} → β ⊕ Fin ((S.image Prod.fst).card - n),
      Function.Injective f ∧
        ∀ a : {a // a ∈ S.image Prod.fst}, f a ∈ (partners S a).disjSum Finset.univ := by
  refine (Finset.all_card_le_biUnion_card_iff_exists_injective
    fun a : {a // a ∈ S.image Prod.fst} => (partners S a).disjSum Finset.univ).mp ?_
  intro A
  rcases A.eq_empty_or_nonempty with rfl | hA
  · exact Nat.zero_le _
  have hspare : ((A.map (Function.Embedding.subtype _)).biUnion (partners S)).disjSum
      (Finset.univ : Finset (Fin ((S.image Prod.fst).card - n))) ⊆
      A.biUnion fun a => (partners S a).disjSum Finset.univ := by
    intro x hx
    rcases x with b | i
    · obtain ⟨a, ha, hb⟩ := Finset.mem_biUnion.mp (Finset.inl_mem_disjSum.mp hx)
      obtain ⟨a', ha', rfl⟩ := Finset.mem_map.mp ha
      exact Finset.mem_biUnion.mpr ⟨a', ha', Finset.inl_mem_disjSum.mpr hb⟩
    · obtain ⟨a, ha⟩ := hA
      exact Finset.mem_biUnion.mpr ⟨a, ha, Finset.inr_mem_disjSum.mpr (Finset.mem_univ i)⟩
  have hsub : A.map (Function.Embedding.subtype _) ⊆ S.image Prod.fst := by
    intro a ha
    obtain ⟨a', -, rfl⟩ := Finset.mem_map.mp ha
    exact a'.2
  have hcover := hcov _ _ (covers_partners S (A.map (Function.Embedding.subtype _)))
  have hall := hcov _ _ (covers_partners S ∅)
  have hle := Finset.card_le_card hspare
  rw [Finset.card_sdiff_of_subset hsub, Finset.card_map] at hcover
  rw [Finset.sdiff_empty, Finset.biUnion_empty, Finset.card_empty] at hall
  rw [Finset.card_disjSum, Finset.card_univ, Fintype.card_fin] at hle
  have hAcard := Finset.card_le_card hsub
  rw [Finset.card_map] at hAcard
  omega

/-- What an injective function takes to the left, if there are `d` values on the right. -/
theorem card_le_card_isLeft_add {ι : Type} [Fintype ι] {d : ℕ} {f : ι → β ⊕ Fin d}
    (hinj : Function.Injective f) :
    Fintype.card ι ≤ (Finset.univ.filter fun a => (f a).isLeft = true).card + d := by
  have hright : (Finset.univ.filter fun a => ¬ (f a).isLeft = true).card ≤ d := by
    have hsub : (Finset.univ.filter fun a => ¬ (f a).isLeft = true).image f ⊆
        (∅ : Finset β).disjSum Finset.univ := by
      intro x hx
      obtain ⟨a, ha, rfl⟩ := Finset.mem_image.mp hx
      have hnot := (Finset.mem_filter.mp ha).2
      cases hfa : f a with
      | inl b =>
        rw [hfa] at hnot
        exact absurd rfl hnot
      | inr i => exact Finset.inr_mem_disjSum.mpr (Finset.mem_univ i)
    have hle := Finset.card_le_card hsub
    rwa [Finset.card_image_of_injective _ hinj, Finset.card_disjSum, Finset.card_empty, zero_add,
      Finset.card_univ, Fintype.card_fin] at hle
  have hsplit := Finset.card_filter_add_card_filter_not (s := (Finset.univ : Finset ι))
    fun a => (f a).isLeft = true
  rw [Finset.card_univ] at hsplit
  omega

/-- **König's theorem.** There are `n` pairs that share nothing exactly when every cover has at
least `n` elements. -/
theorem exists_independent_iff {S : Finset (α × β)} {n : ℕ} :
    (∃ M ⊆ S, Independent M ∧ M.card = n) ↔ ∀ F K, Covers S F K → n ≤ F.card + K.card := by
  constructor
  · rintro ⟨M, hM, hind, rfl⟩ F K hcov
    exact card_le_of_covers hM hind hcov
  intro hcov
  obtain ⟨f, hinj, hf⟩ := exists_assignment hcov
  -- the pairs of a first component and the partner that it was given
  let M := S.filter fun e => ∃ h : e.1 ∈ S.image Prod.fst, f ⟨e.1, h⟩ = .inl e.2
  have hind : Independent M := by
    constructor
    · rintro ⟨a, b⟩ he ⟨a', b'⟩ he' heq
      obtain ⟨-, h, hfe⟩ := Finset.mem_filter.mp he
      obtain ⟨-, h', hfe'⟩ := Finset.mem_filter.mp he'
      obtain rfl : a = a' := heq
      exact Prod.ext rfl (Sum.inl.inj (hfe.symm.trans hfe'))
    · intro e he e' he' heq
      obtain ⟨-, h, hfe⟩ := Finset.mem_filter.mp he
      obtain ⟨-, h', hfe'⟩ := Finset.mem_filter.mp he'
      have hsame := hinj (hfe.trans ((congrArg Sum.inl heq).trans hfe'.symm))
      exact Prod.ext (congrArg Subtype.val hsame) heq
  have hgiven : (Finset.univ.filter fun a => (f a).isLeft = true).card ≤ M.card := by
    refine le_trans ?_ (Finset.card_image_le (f := Prod.fst))
    refine Finset.card_le_card_of_injOn Subtype.val ?_ Subtype.val_injective.injOn
    intro a ha
    obtain ⟨b, hb⟩ := Sum.isLeft_iff.mp (Finset.mem_filter.mp ha).2
    have hmem := hf a
    rw [hb] at hmem
    have hpair := mem_partners.mp (Finset.inl_mem_disjSum.mp hmem)
    exact Finset.mem_image.mpr ⟨(a.1, b), Finset.mem_filter.mpr ⟨hpair, a.2, hb⟩, rfl⟩
  have hcard : n ≤ M.card := by
    have hsum := card_le_card_isLeft_add hinj
    have hall := hcov _ _ (covers_partners S ∅)
    rw [Finset.sdiff_empty, Finset.biUnion_empty, Finset.card_empty] at hall
    rw [Fintype.card_coe] at hsum
    omega
  obtain ⟨M', hsub, hM'⟩ := Finset.exists_subset_card_eq hcard
  refine ⟨M', hsub.trans (Finset.filter_subset _ S), ⟨?_, ?_⟩, hM'⟩
  · exact hind.1.mono (by exact_mod_cast hsub)
  · exact hind.2.mono (by exact_mod_cast hsub)

/-! ## Items with two labels -/

variable {ι : Type} {f : ι → α} {g : ι → β}

/-- The pairs of labels of items that pairwise differ in both. -/
theorem independent_of_pairwise {items : List ι}
    (h : items.Pairwise fun a b => f a ≠ f b ∧ g a ≠ g b) :
    Independent (items.map fun e => (f e, g e)).toFinset ∧
      (items.map fun e => (f e, g e)).toFinset.card = items.length := by
  have hfirst : (items.map f).Nodup := List.pairwise_map.mpr (h.imp And.left)
  have hsecond : (items.map g).Nodup := List.pairwise_map.mpr (h.imp And.right)
  refine ⟨⟨?_, ?_⟩, ?_⟩
  · intro p hp q hq heq
    obtain ⟨a, ha, rfl⟩ := List.mem_map.mp (List.mem_toFinset.mp hp)
    obtain ⟨b, hb, rfl⟩ := List.mem_map.mp (List.mem_toFinset.mp hq)
    rw [List.inj_on_of_nodup_map hfirst ha hb heq]
  · intro p hp q hq heq
    obtain ⟨a, ha, rfl⟩ := List.mem_map.mp (List.mem_toFinset.mp hp)
    obtain ⟨b, hb, rfl⟩ := List.mem_map.mp (List.mem_toFinset.mp hq)
    rw [List.inj_on_of_nodup_map hsecond ha hb heq]
  · have hpairs : (items.map fun e => (f e, g e)).Nodup := by
      refine List.pairwise_map.mpr (h.imp fun hab heq => ?_)
      exact hab.1 (Prod.ext_iff.mp heq).1
    rw [List.toFinset_card_of_nodup hpairs, List.length_map]

/-- Items of the list, one for each of the pairs. -/
theorem exists_items {L : List ι} {M : Finset (α × β)}
    (hM : M ⊆ (L.map fun e => (f e, g e)).toFinset) (hind : Independent M) :
    ∃ items : List ι, items.length = M.card ∧ (∀ e ∈ items, e ∈ L) ∧
      items.Pairwise fun a b => f a ≠ f b ∧ g a ≠ g b := by
  have hitem : ∀ p : {p // p ∈ M}, ∃ e ∈ L, (f e, g e) = p.1 := fun p =>
    List.mem_map.mp (List.mem_toFinset.mp (hM p.2))
  choose item hmem heq using hitem
  refine ⟨M.attach.toList.map item, ?_, ?_, ?_⟩
  · rw [List.length_map, Finset.length_toList, Finset.card_attach]
  · intro e he
    obtain ⟨p, -, rfl⟩ := List.mem_map.mp he
    exact hmem p
  · refine List.pairwise_map.mpr ((Finset.nodup_toList _).imp fun {p q} hne => ?_)
    have hp := Prod.ext_iff.mp (heq p)
    have hq := Prod.ext_iff.mp (heq q)
    constructor
    · intro h
      exact hne (Subtype.ext (hind.1 p.2 q.2 (hp.1.symm.trans (h.trans hq.1))))
    · intro h
      exact hne (Subtype.ext (hind.2 p.2 q.2 (hp.2.symm.trans (h.trans hq.2))))

/-- **Items that share no label.** A list has `n` items that pairwise differ in both labels exactly
when fewer than `n` labels never cover all of its items. -/
theorem exists_pairwise_iff {L : List ι} {n : ℕ} :
    (∃ items : List ι, items.length = n ∧ (∀ e ∈ items, e ∈ L) ∧
      items.Pairwise fun a b => f a ≠ f b ∧ g a ≠ g b) ↔
    ∀ (F : Finset α) (K : Finset β), F.card + K.card < n → ∃ e ∈ L, f e ∉ F ∧ g e ∉ K := by
  have hcover : ∀ (F : Finset α) (K : Finset β),
      Covers (L.map fun e => (f e, g e)).toFinset F K ↔ ¬ ∃ e ∈ L, f e ∉ F ∧ g e ∉ K := by
    intro F K
    simp only [Covers, List.mem_toFinset, List.forall_mem_map]
    push Not
    exact forall₂_congr fun e _ => or_iff_not_imp_left
  constructor
  · rintro ⟨items, rfl, hmem, hpair⟩ F K hlt
    obtain ⟨hind, hcard⟩ := independent_of_pairwise hpair
    have hsub : (items.map fun e => (f e, g e)).toFinset ⊆
        (L.map fun e => (f e, g e)).toFinset := by
      intro p hp
      obtain ⟨e, he, rfl⟩ := List.mem_map.mp (List.mem_toFinset.mp hp)
      exact List.mem_toFinset.mpr (List.mem_map_of_mem (hmem e he))
    by_contra hnone
    have hle := card_le_of_covers hsub hind ((hcover F K).mpr hnone)
    omega
  · intro h
    have hcov : ∀ F K, Covers (L.map fun e => (f e, g e)).toFinset F K → n ≤ F.card + K.card := by
      intro F K hFK
      by_contra hlt
      exact (hcover F K).mp hFK (h F K (by omega))
    obtain ⟨M, hM, hind, rfl⟩ := exists_independent_iff.mpr hcov
    exact exists_items hM hind

end Nerion
