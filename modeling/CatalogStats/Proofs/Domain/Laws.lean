import CatalogStats.Proofs.Domain.Steps
import Mathlib.Data.Int.Interval
import Mathlib.Data.Set.Card

/-!
# Proofs/Domain/Laws — what neighbours and spans of a domain have in common

In every domain but the decimals a step leads strictly to its side, a step up undoes a step down, and
spans are symmetric and start at one (`Domain.Stepwise`).  In a numbered domain the values stand one
after the other: none is between neighbours, steps end at the least and at the greatest value only,
and a span is the number of values it covers, so it is the sum of those of its parts
(`Domain.Consecutive`).  Texts are only stepwise: between two neighbours there are other texts.
-/

namespace CatalogStats

namespace Domain

variable {α : Type}

/-- **Steps and spans of a single value or two.** -/
structure Stepwise (D : Domain α) : Prop where
  lt_of_next : ∀ {a b}, D.next a = .ok b → D.lt a b = true
  lt_of_previous : ∀ {a b}, D.previous a = .ok b → D.lt b a = true
  next_of_previous : ∀ {a b}, D.previous a = .ok b → D.next b = .ok a
  span_self : ∀ a, D.span a a = 1
  span_comm : ∀ a b, D.span a b = D.span b a
  one_le_span : ∀ a b, 1 ≤ D.span a b

/-- The values from one to the other, both included, in either order. -/
def valuesBetween (D : Domain α) (a b : α) : Set α :=
  {c | (D.le a c = true ∧ D.le c b = true) ∨ (D.le b c = true ∧ D.le c a = true)}

/-- **Values that stand one after the other**, from a least to a greatest, each counted by the spans
that cover it. -/
structure Consecutive (D : Domain α) : Prop where
  not_between : ∀ {a b}, D.next a = .ok b → ∀ c, ¬ (D.lt a c = true ∧ D.lt c b = true)
  exists_greatest : ∃ a, ∀ c, D.le c a = true
  no_next_iff : ∀ a, D.next a = .error (.noNext a) ↔ ∀ c, D.le c a = true
  exists_least : ∃ a, ∀ c, D.le a c = true
  no_previous_iff : ∀ a, D.previous a = .error (.noPrevious a) ↔ ∀ c, D.le a c = true
  span_eq_ncard : ∀ a b, D.span a b = (D.valuesBetween a b).ncard
  span_split : ∀ {a b k}, D.le a k = true → D.lt k b = true →
    ∃ n, D.next k = .ok n ∧ D.span a b = D.span a k + D.span n b

end Domain

/-! ## Numbered domains -/

namespace Numbering

variable {α : Type} (N : Numbering α) {name : String} {text : α → String} {a b : α}

/-- **The values between two** have the numbers between theirs. -/
theorem image_valuesBetween :
    N.index '' (N.domain name text).valuesBetween a b = Set.uIcc (N.index a) (N.index b) := by
  have hmem : ∀ c, c ∈ (N.domain name text).valuesBetween a b ↔
      N.index c ∈ Set.uIcc (N.index a) (N.index b) := by
    intro c
    rw [Set.mem_uIcc, ← domain_le, ← domain_le, ← domain_le, ← domain_le]
    rfl
  ext i
  constructor
  · rintro ⟨c, hc, rfl⟩
    exact (hmem c).1 hc
  · intro hi
    have ha := And.intro (N.first_le_index a) (N.index_le_last a)
    have hb := And.intro (N.first_le_index b) (N.index_le_last b)
    have hbounds : N.first ≤ i ∧ i ≤ N.last := by
      rcases Set.mem_uIcc.1 hi with hi | hi <;> omega
    obtain ⟨c, hc⟩ := N.exists_value? hbounds.1 hbounds.2
    obtain rfl := N.index_of_value? hc
    exact ⟨c, (hmem c).2 hi, rfl⟩

theorem stepwise : (N.domain name text).Stepwise where
  lt_of_next h := (N.strict name text).lt_of_next? (Domain.next_eq_ok_iff.1 h)
  lt_of_previous h := (N.strict name text).lt_of_previous? (Domain.previous_eq_ok_iff.1 h)
  next_of_previous {a b} h := by
    have hidx := index_of_previous? (Domain.previous_eq_ok_iff.1 h)
    rw [Domain.next_eq_ok_iff]
    change N.value? (N.index b + 1) = some a
    rw [hidx, Int.sub_add_cancel, N.value?_index]
  span_self a := by
    change (N.index a - N.index a).natAbs + 1 = 1
    omega
  span_comm a b := by
    change (N.index a - N.index b).natAbs + 1 = (N.index b - N.index a).natAbs + 1
    omega
  one_le_span _ _ := Nat.succ_pos _

/-- **Numbered values stand one after the other.** -/
theorem consecutive (hne : N.first ≤ N.last) : (N.domain name text).Consecutive where
  not_between h c := by
    have hidx := index_of_next? (Domain.next_eq_ok_iff.1 h)
    rintro ⟨hac, hcb⟩
    rw [domain_lt] at hac hcb
    omega
  exists_greatest := by
    obtain ⟨a, ha⟩ := N.exists_value? hne le_rfl
    exact ⟨a, fun c => domain_le.2 (N.index_of_value? ha ▸ N.index_le_last c)⟩
  no_next_iff a := by
    rw [Domain.next_eq_error_iff, next?_eq_none_iff]
    constructor
    · exact fun h c => domain_le.2 (h ▸ N.index_le_last c)
    · intro h
      obtain ⟨b, hb⟩ := N.exists_value? hne le_rfl
      exact (N.index_le_last a).antisymm (N.index_of_value? hb ▸ domain_le.1 (h b))
  exists_least := by
    obtain ⟨a, ha⟩ := N.exists_value? le_rfl hne
    exact ⟨a, fun c => domain_le.2 (N.index_of_value? ha ▸ N.first_le_index c)⟩
  no_previous_iff a := by
    rw [Domain.previous_eq_error_iff, previous?_eq_none_iff]
    constructor
    · exact fun h c => domain_le.2 (h ▸ N.first_le_index c)
    · intro h
      obtain ⟨b, hb⟩ := N.exists_value? le_rfl hne
      exact (N.index_of_value? hb ▸ domain_le.1 (h b)).antisymm (N.first_le_index a)
  span_eq_ncard a b := by
    have hinj : Function.Injective N.index := fun _ _ => N.index_inj
    rw [← Set.ncard_image_of_injective _ hinj, N.image_valuesBetween, ← Finset.coe_uIcc,
      Set.ncard_coe_finset, Int.card_uIcc]
    change (N.index a - N.index b).natAbs + 1 = _
    omega
  span_split {a b k} hak hkb := by
    rw [domain_le] at hak
    rw [domain_lt] at hkb
    have hlast := N.index_le_last b
    have hfirst := N.first_le_index k
    obtain ⟨n, hn⟩ := N.exists_value? (i := N.index k + 1) (by omega) (by omega)
    have hidx := N.index_of_value? hn
    refine ⟨n, Domain.next_eq_ok_iff.2 hn, ?_⟩
    change (N.index a - N.index b).natAbs + 1 =
      (N.index a - N.index k).natAbs + 1 + ((N.index n - N.index b).natAbs + 1)
    omega

end Numbering

/-! ## Texts -/

theorem Character.next?_of_previous? {c d : Char} (h : previous? c = some d) :
    next? d = some c := by
  rw [next?_eq, position_of_ofPosition? (previous?_eq c ▸ h), Int.sub_add_cancel,
    ofPosition?_position]

namespace Phrase

variable {step back : Char → Option Char} {cs ds : List Char}

theorem replaceLast_ne_nil (h : replaceLast step cs = some ds) : ds ≠ [] := by
  rintro rfl
  cases cs with
  | nil => cases h
  | cons c cs =>
    cases cs <;> obtain ⟨_, _, hnil⟩ := Option.map_eq_some_iff.1 h <;> cases hnil

/-- **A step back undoes a step** in the last place as it does for single characters. -/
theorem replaceLast_of_replaceLast (hback : ∀ {c d}, step c = some d → back d = some c)
    (h : replaceLast step cs = some ds) : replaceLast back ds = some cs := by
  induction cs generalizing ds with
  | nil => cases h
  | cons c cs ih =>
    cases cs with
    | nil =>
      obtain ⟨d, hd, rfl⟩ := Option.map_eq_some_iff.1 h
      rw [replaceLast, hback hd]
      rfl
    | cons c' cs =>
      obtain ⟨es, hes, rfl⟩ := Option.map_eq_some_iff.1 h
      rw [replaceLast, ih hes]
      · rfl
      · exact replaceLast_ne_nil hes

theorem next?_of_previous? {s t : String} (h : previous? s = some t) : next? t = some s := by
  obtain ⟨ds, hds, rfl⟩ := Option.map_eq_some_iff.1 h
  have hnext := replaceLast_of_replaceLast Character.next?_of_previous? hds
  rw [next?, String.toList_ofList]
  split
  case h_1 => exact absurd rfl (replaceLast_ne_nil hds)
  case h_2 => rw [hnext, Option.map_some, String.ofList_toList]

theorem gap_comm (a b : Char) : gap a b = gap b a := by
  rw [gap, gap]
  omega

theorem distance_comm (cs ds : List Char) : distance cs ds = distance ds cs := by
  induction cs, ds using distance.induct with
  | case1 => rfl
  | case2 c cs ih => rw [distance, distance, gap_comm, ih]
  | case3 d ds ih => rw [distance, distance, gap_comm, ih]
  | case4 c cs d ds ih => rw [distance, distance, gap_comm, ih]

theorem stepwise : Domain.phrase.Stepwise where
  lt_of_next h := strict.lt_of_next? (Domain.next_eq_ok_iff.1 h)
  lt_of_previous h := strict.lt_of_previous? (Domain.previous_eq_ok_iff.1 h)
  next_of_previous h :=
    Domain.next_eq_ok_iff.2 (next?_of_previous? (Domain.previous_eq_ok_iff.1 h))
  span_self s := congrArg (· + 1) (distance_self s.toList)
  span_comm s t := congrArg (· + 1) (distance_comm s.toList t.toList)
  one_le_span _ _ := Nat.succ_pos _

end Phrase

namespace Kind

variable {k : Kind}

/-- **The laws of the domains**: every domain but the decimals is stepwise, and every one but the
decimals and the texts has consecutive values. -/
theorem stepwise_and_consecutive (hk : ∀ scale, k ≠ .decimal scale) :
    k.domain.Stepwise ∧ (k ≠ .string → k.domain.Consecutive) := by
  cases k with
  | integer => exact ⟨Whole.numbering.stepwise, fun _ => Whole.numbering.consecutive (by decide)⟩
  | decimal scale => exact absurd rfl (hk scale)
  | date => exact ⟨Date.numbering.stepwise, fun _ => Date.numbering.consecutive (by decide)⟩
  | character =>
    exact ⟨Character.numbering.stepwise, fun _ => Character.numbering.consecutive (by decide)⟩
  | string => exact ⟨Phrase.stepwise, fun h => absurd rfl h⟩

/-- From the last character below the surrogates to the first above them there are two characters,
and a text that ends in the second is followed by what it was a step down from. -/
theorem stepwise_and_consecutive_letters :
    (Domain.character.valuesBetween '\uD7FF' '\uE000').ncard = 2 ∧
      Domain.phrase.next "a\uD7FF" = .ok "a\uE000" := by
  have hletters := (stepwise_and_consecutive (k := .character) nofun).2 nofun
  have htexts := (stepwise_and_consecutive (k := .string) nofun).1
  have hprevious : Domain.phrase.previous "a\uE000" = .ok "a\uD7FF" := by decide
  exact ⟨(hletters.span_eq_ncard _ _).symm, htexts.next_of_previous hprevious⟩

end Kind

end CatalogStats
