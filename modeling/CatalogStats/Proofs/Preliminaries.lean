import CatalogStats.Number.Power
import Mathlib.Algebra.BigOperators.Group.Finset.Piecewise
import Mathlib.Algebra.GroupWithZero.Nat
import Mathlib.Data.List.Forall2
import Mathlib.Data.List.SplitBy

/-!
# Proofs/Preliminaries — sums, runs and related lists

Facts about lists and results on which the theory of histograms rests: the sum of a list, the
longest run of a list in which what passes a test stands first, the parts into which a relation
between neighbours splits a list, and two lists that are related member by member.
-/

namespace CatalogStats

variable {α β ε : Type}

/-- A result of two steps comes from a result of the first. -/
theorem bind_eq_ok_iff {x : Except ε α} {f : α → Except ε β} {b : β} :
    (x >>= f) = .ok b ↔ ∃ a, x = .ok a ∧ f a = .ok b := by
  cases x with
  | error e => exact ⟨nofun, fun ⟨a, ha, _⟩ => nomatch ha⟩
  | ok a => exact ⟨fun h => ⟨a, rfl, h⟩, fun ⟨a', ha, h⟩ => Except.ok.inj ha ▸ h⟩

theorem map_eq_ok_iff {x : Except ε α} {f : α → β} {b : β} :
    x.map f = .ok b ↔ ∃ a, x = .ok a ∧ b = f a := by
  cases x with
  | error e => exact ⟨nofun, fun ⟨a, ha, _⟩ => nomatch ha⟩
  | ok a =>
    refine ⟨fun h => ⟨a, rfl, (Except.ok.inj h).symm⟩, ?_⟩
    rintro ⟨a', ha, rfl⟩
    exact Except.ok.inj ha ▸ rfl

theorem map_eq_error_iff {x : Except ε α} {f : α → β} {e : ε} :
    x.map f = .error e ↔ x = .error e := by
  cases x with
  | error e' => exact ⟨fun h => congrArg _ (Except.error.inj h), fun h => h ▸ rfl⟩
  | ok a => exact ⟨nofun, nofun⟩

/-- Results of all members are a list of results. -/
theorem mapM_eq_ok_iff {f : α → Except ε β} {as : List α} {bs : List β} :
    as.mapM f = .ok bs ↔ List.Forall₂ (fun a b => f a = .ok b) as bs := by
  induction as generalizing bs with
  | nil =>
    rw [List.mapM_nil, List.forall₂_nil_left_iff]
    exact ⟨fun h => (Except.ok.inj h).symm, fun h => h ▸ rfl⟩
  | cons a as ih =>
    rw [List.mapM_cons, bind_eq_ok_iff, List.forall₂_cons_left_iff]
    refine exists_congr fun b => ?_
    rw [bind_eq_ok_iff]
    constructor
    · rintro ⟨hb, bs', hbs', heq⟩
      exact ⟨bs', hb, ih.1 hbs', (Except.ok.inj heq).symm⟩
    · rintro ⟨bs', hb, hbs', rfl⟩
      exact ⟨hb, bs', ih.2 hbs', rfl⟩

/-- A result with a known part is one. -/
theorem exists_eq_ok {x : Except ε α} {f : α → β} {b : β} (h : x.toOption.map f = some b) :
    ∃ a, x = .ok a ∧ f a = b := by
  cases x with
  | error e => cases h
  | ok a => exact ⟨a, rfl, Option.some.inj h⟩

/-! ## Sums -/

theorem sumOf_eq_sum (ns : List ℕ) : sumOf ns = ns.sum := by
  induction ns with
  | nil => rfl
  | cons n ns ih => rw [sumOf_cons, ih, List.sum_cons]

theorem sumOf_reverse (ns : List ℕ) : sumOf ns.reverse = sumOf ns := by
  rw [sumOf_eq_sum, sumOf_eq_sum, List.sum_reverse]

theorem sumOf_perm {ms ns : List ℕ} (h : ms.Perm ns) : sumOf ms = sumOf ns := by
  rw [sumOf_eq_sum, sumOf_eq_sum, h.sum_eq]

theorem sumOf_map_add (f g : α → ℕ) (l : List α) :
    sumOf (l.map fun a => f a + g a) = sumOf (l.map f) + sumOf (l.map g) := by
  induction l with
  | nil => rfl
  | cons a l ih =>
    simp only [List.map_cons, sumOf_cons, ih]
    omega

theorem sumOf_map_le {f g : α → ℕ} {l : List α} (h : ∀ a ∈ l, f a ≤ g a) :
    sumOf (l.map f) ≤ sumOf (l.map g) := by
  induction l with
  | nil => exact Nat.le_refl _
  | cons a l ih =>
    obtain ⟨ha, hl⟩ := List.forall_mem_cons.1 h
    exact Nat.add_le_add ha (ih hl)

/-- A member is at most the sum. -/
theorem le_sumOf {n : ℕ} {ns : List ℕ} (h : n ∈ ns) : n ≤ sumOf ns := by
  rw [sumOf_perm (List.perm_cons_erase h), sumOf_cons]
  exact Nat.le_add_right _ _

theorem sumOf_eq_zero_iff {ns : List ℕ} : sumOf ns = 0 ↔ ∀ n ∈ ns, n = 0 := by
  induction ns with
  | nil => exact ⟨fun _ => nofun, fun _ => rfl⟩
  | cons n ns ih => rw [sumOf_cons, Nat.add_eq_zero_iff, ih, List.forall_mem_cons]

/-- A sum of sums can be taken in either order. -/
theorem sumOf_map_sumOf_map (f : α → β → ℕ) (as : List α) (bs : List β) :
    sumOf (as.map fun a => sumOf (bs.map (f a))) =
      sumOf (bs.map fun b => sumOf (as.map fun a => f a b)) := by
  induction as with
  | nil => exact (sumOf_eq_zero_iff.2 (List.forall_mem_map.2 fun _ _ => rfl)).symm
  | cons a as ih => simp only [List.map_cons, sumOf_cons, ih, sumOf_map_add]

/-- A sum is that over the members that pass a test and that over the others. -/
theorem sumOf_map_filter_add (f : α → ℕ) (p : α → Bool) (l : List α) :
    sumOf ((l.filter p).map f) + sumOf ((l.filter fun a => !p a).map f) = sumOf (l.map f) := by
  rw [← sumOf_append, ← List.map_append]
  exact sumOf_perm ((List.filter_append_perm p l).map f)

/-- What passes a test is counted with its weight. -/
theorem sumOf_map_ite (p : α → Bool) (c : ℕ) (l : List α) :
    sumOf (l.map fun a => if p a then c else 0) = l.countP p * c := by
  induction l with
  | nil => exact (Nat.zero_mul c).symm
  | cons a l ih =>
    rw [List.map_cons, sumOf_cons, ih, List.countP_cons, Nat.add_mul, Nat.add_comm]
    cases p a <;> simp

/-- Counting the members of a list without repetitions among the first `n` numbers. -/
theorem sumOf_range_ite {n c : ℕ} {l : List ℕ} (hl : l.Nodup) (hn : ∀ i ∈ l, i < n) :
    sumOf ((List.range n).map fun i => if i ∈ l then c else 0) = l.length * c := by
  have hset : (List.range n).toFinset ∩ l.toFinset = l.toFinset :=
    Finset.inter_eq_right.2 fun i hi =>
      List.mem_toFinset.2 (List.mem_range.2 (hn i (List.mem_toFinset.1 hi)))
  rw [sumOf_eq_sum, ← List.sum_toFinset _ List.nodup_range]
  simp only [← List.mem_toFinset (l := l)]
  rw [Finset.sum_ite_mem, hset, Finset.sum_const_nat fun _ _ => rfl, List.toFinset_card_of_nodup hl]

theorem eq_nil_iff_of_perm {as bs : List α} (h : as.Perm bs) : as = [] ↔ bs = [] :=
  ⟨fun has => (has ▸ h).nil_eq.symm, fun hbs => (hbs ▸ h).eq_nil⟩

/-- Two lists in one strict order are equal if they have the same members. -/
theorem eq_of_mem_iff_of_pairwise {r : α → α → Prop} {as bs : List α}
    (hr : ∀ a b, r a b → ¬ r b a) (has : as.Pairwise r) (hbs : bs.Pairwise r)
    (h : ∀ a, a ∈ as ↔ a ∈ bs) : as = bs := by
  have hne : ∀ {a b}, r a b → a ≠ b := by
    rintro a _ hab rfl
    exact hr a a hab hab
  have hp : as.Perm bs := (List.perm_ext_iff_of_nodup (has.imp hne) (hbs.imp hne)).2 h
  exact hp.eq_of_pairwise (fun a b _ _ hab hba => absurd hba (hr a b hab)) has hbs

/-- The only member of a list that has a value which no two members share. -/
theorem filter_eq_singleton [DecidableEq β] {f : α → β} {l : List α} {a : α}
    (h : (l.map f).Nodup) (ha : a ∈ l) : (l.filter fun b => f b = f a) = [a] := by
  have hinj := List.inj_on_of_nodup_map h
  refine List.perm_singleton.1 ((List.perm_ext_iff_of_nodup (h.of_map f |>.filter _)
    (List.nodup_singleton a)).2 fun b => ?_)
  rw [List.mem_filter, List.mem_singleton, decide_eq_true_eq]
  exact ⟨fun ⟨hb, heq⟩ => hinj hb ha heq, by rintro rfl; exact ⟨ha, rfl⟩⟩

/-- What is written member by member is read back member by member. -/
theorem mapM_map_eq_some {γ : Type} {write : α → β} {read? : β → Option γ} {g : α → γ} {l : List α}
    (h : ∀ a ∈ l, read? (write a) = some (g a)) : (l.map write).mapM read? = some (l.map g) := by
  induction l with
  | nil => rfl
  | cons a l ih =>
    obtain ⟨ha, hl⟩ := List.forall_mem_cons.1 h
    rw [List.map_cons, List.mapM_cons, ha, ih hl]
    rfl

/-! ## Runs -/

/-- In a list where what passes a test stands first, the longest run that passes is all of it. -/
theorem takeWhile_eq_filter {p : α → Bool} {l : List α}
    (h : l.Pairwise fun a b => p b = true → p a = true) : l.takeWhile p = l.filter p := by
  induction l with
  | nil => rfl
  | cons a l ih =>
    obtain ⟨ha, hl⟩ := List.pairwise_cons.1 h
    cases hp : p a with
    | true => rw [List.takeWhile_cons_of_pos hp, List.filter_cons_of_pos hp, ih hl]
    | false =>
      rw [List.takeWhile_cons_of_neg (by simp [hp]), eq_comm, List.filter_eq_nil_iff]
      intro b hb
      rcases List.mem_cons.1 hb with rfl | hb
      · simp [hp]
      · exact fun hpb => by simp [ha b hb hpb] at hp

/-- …and what follows is all that does not pass. -/
theorem dropWhile_eq_filter {p : α → Bool} {l : List α}
    (h : l.Pairwise fun a b => p b = true → p a = true) :
    l.dropWhile p = l.filter fun a => !p a := by
  induction l with
  | nil => rfl
  | cons a l ih =>
    obtain ⟨ha, hl⟩ := List.pairwise_cons.1 h
    cases hp : p a with
    | true => rw [List.dropWhile_cons_of_pos hp, List.filter_cons_of_neg (by simp [hp]), ih hl]
    | false =>
      rw [List.dropWhile_cons_of_neg (by simp [hp]), eq_comm, List.filter_eq_self]
      intro b hb
      rcases List.mem_cons.1 hb with rfl | hb
      · simp [hp]
      · cases hpb : p b with
        | true => simp [ha b hb hpb] at hp
        | false => rfl

/-- **A member of a list in strict order** is among the first `n` exactly when fewer than `n` members
stand before it. -/
theorem mem_take_iff_countP_lt {r : α → α → Bool} {l : List α} {a : α} {n : ℕ}
    (hself : ∀ a, r a a = false) (h : l.Pairwise fun a b => r a b = true ∧ r b a = false)
    (ha : a ∈ l) : a ∈ l.take n ↔ l.countP (r · a) < n := by
  obtain ⟨before, after, rfl⟩ := List.append_of_mem ha
  obtain ⟨_, hafter, hbefore⟩ := List.pairwise_append.1 h
  have hall : ∀ b ∈ before, r b a = true := fun b hb => (hbefore b hb a List.mem_cons_self).1
  have hnone : ∀ b ∈ a :: after, ¬ r b a = true := by
    refine List.forall_mem_cons.2 ⟨by simp [hself], fun b hb => ?_⟩
    simp [(List.rel_of_pairwise_cons hafter hb).2]
  have hcount : (before ++ a :: after).countP (r · a) = before.length := by
    rw [List.countP_append, List.countP_eq_length.2 hall, List.countP_eq_zero.2 hnone, Nat.add_zero]
  rw [hcount]
  constructor
  · intro hmem
    by_contra hle
    rw [List.take_append_of_le_length (Nat.not_lt.1 hle)] at hmem
    exact Bool.eq_false_iff.1 (hself a) (hall a (List.mem_of_mem_take hmem))
  · intro hlt
    rw [List.take_append, List.mem_append, ← Nat.succ_pred_eq_of_pos (Nat.sub_pos_of_lt hlt)]
    exact .inr List.mem_cons_self

/-! ## Parts -/

section Split

variable {r : α → α → Bool} {a b p q : α} {l : List α}

/-- The first part starts with the first member. -/
theorem exists_splitBy_cons (r : α → α → Bool) (a : α) (l : List α) :
    ∃ part parts, (a :: l).splitBy r = (a :: part) :: parts := by
  have hne : (a :: l).splitBy r ≠ [] := List.splitBy_ne_nil.2 (List.cons_ne_nil a l)
  obtain ⟨part, parts, hparts⟩ := List.exists_cons_of_ne_nil hne
  have hpart : part ≠ [] :=
    List.ne_nil_of_mem_splitBy (r := r) (l := a :: l) (hparts ▸ List.mem_cons_self)
  obtain ⟨a', part, rfl⟩ := List.exists_cons_of_ne_nil hpart
  have hflat := List.flatten_splitBy r (a :: l)
  rw [hparts, List.flatten_cons, List.cons_append] at hflat
  rw [hparts, (List.cons.inj hflat).1]
  exact ⟨part, parts, rfl⟩

/-- A member related to the next joins its part. -/
theorem splitBy_cons_cons_of_pos (h : r a b = true) {part : List α} {parts : List (List α)}
    (hparts : (b :: l).splitBy r = (b :: part) :: parts) :
    (a :: b :: l).splitBy r = (a :: b :: part) :: parts := by
  obtain ⟨hflat, hnil, hchain, hsplit⟩ := List.splitBy_eq_iff.1 hparts
  rw [List.mem_cons, not_or] at hnil
  obtain ⟨hfirst, hrest⟩ := List.forall_mem_cons.1 hchain
  refine List.splitBy_eq_iff.2 ⟨?_, ?_, ?_, ?_⟩
  · rw [hflat]
    rfl
  · rw [List.mem_cons, not_or]
    exact ⟨nofun, hnil.2⟩
  · exact List.forall_mem_cons.2 ⟨.cons_cons h hfirst, hrest⟩
  · rw [List.isChain_cons] at hsplit ⊢
    refine ⟨fun part' hpart' => ?_, hsplit.2⟩
    obtain ⟨_, hne, hlast⟩ := hsplit.1 part' hpart'
    exact ⟨List.cons_ne_nil _ _, hne, by rwa [List.getLast_cons (List.cons_ne_nil _ _)]⟩

/-- …and any other stands alone in front of the parts. -/
theorem splitBy_cons_cons_of_neg (h : r a b = false) :
    (a :: b :: l).splitBy r = [a] :: (b :: l).splitBy r := by
  have hsplit := List.splitBy_append_cons (l := [a]) l (r := r) (a := b) (by simpa using h)
  rwa [List.splitBy_of_isChain (List.cons_ne_nil a []) (.singleton a)] at hsplit

theorem exists_part_of_related (h : [p, q] <:+: l) (hpq : r p q = true) :
    ∃ part ∈ l.splitBy r, [p, q] <:+: part := by
  induction l with
  | nil => exact absurd (List.infix_nil.1 h) (List.cons_ne_nil _ _)
  | cons a l ih =>
    cases l with
    | nil => exact absurd h.length_le (Nat.not_succ_le_self 1)
    | cons b l =>
      obtain ⟨first, parts, hparts⟩ := exists_splitBy_cons r b l
      obtain hstart | hlater := List.infix_cons_iff.1 h
      · obtain ⟨rfl, htail⟩ := List.cons_prefix_cons.1 hstart
        obtain ⟨rfl, _⟩ := List.cons_prefix_cons.1 htail
        rw [splitBy_cons_cons_of_pos hpq hparts]
        exact ⟨_, List.mem_cons_self, [], first, rfl⟩
      obtain ⟨part, hpart, hin⟩ := ih hlater
      cases hab : r a b with
      | false =>
        rw [splitBy_cons_cons_of_neg hab]
        exact ⟨part, List.mem_cons_of_mem _ hpart, hin⟩
      | true =>
        rw [splitBy_cons_cons_of_pos hab hparts]
        rw [hparts] at hpart
        rcases List.mem_cons.1 hpart with rfl | hpart
        · exact ⟨_, List.mem_cons_self, List.infix_cons hin⟩
        · exact ⟨part, List.mem_cons_of_mem _ hpart, hin⟩

/-- **Neighbours share a part** exactly when they are related. -/
theorem exists_part_iff (h : [p, q] <:+: l) :
    (∃ part ∈ l.splitBy r, [p, q] <:+: part) ↔ r p q = true := by
  refine ⟨?_, exists_part_of_related h⟩
  rintro ⟨part, hpart, before, after, rfl⟩
  have hchain := List.isChain_of_mem_splitBy hpart
  rw [List.isChain_append, List.isChain_append] at hchain
  exact (List.isChain_cons_cons.1 hchain.1.2.1).1

/-- Where no neighbours are related every member is a part of its own. -/
theorem splitBy_eq_map_singleton (h : l.IsChain fun a b => r a b = false) :
    l.splitBy r = l.map fun a => [a] := by
  induction l with
  | nil => rfl
  | cons a l ih =>
    cases l with
    | nil => rfl
    | cons b l =>
      obtain ⟨hab, h⟩ := List.isChain_cons_cons.1 h
      rw [splitBy_cons_cons_of_neg hab, ih h, List.map_cons (a := a)]

end Split

/-! ## Related lists -/

section Related

open List

variable {R : α → β → Prop} {as : List α} {bs : List β}

theorem exists_right_of_forall₂ (h : Forall₂ R as bs) {a : α} (ha : a ∈ as) : ∃ b ∈ bs, R a b := by
  induction h with
  | nil => cases ha
  | cons hab _ ih =>
    rcases mem_cons.1 ha with rfl | ha
    · exact ⟨_, mem_cons_self, hab⟩
    · obtain ⟨b, hb, hr⟩ := ih ha
      exact ⟨b, mem_cons_of_mem _ hb, hr⟩

theorem exists_left_of_forall₂ (h : Forall₂ R as bs) {b : β} (hb : b ∈ bs) : ∃ a ∈ as, R a b :=
  exists_right_of_forall₂ (R := fun b a => R a b) h.flip hb

/-- Only the members matter for whether two lists are related. -/
theorem Forall₂.imp_mem {S : α → β → Prop} (h : Forall₂ R as bs)
    (himp : ∀ a ∈ as, ∀ b ∈ bs, R a b → S a b) : Forall₂ S as bs := by
  induction h with
  | nil => exact .nil
  | @cons a b as bs hab _ ih =>
    refine .cons (himp a mem_cons_self b mem_cons_self hab) (ih fun c hc d hd => ?_)
    exact himp c (mem_cons_of_mem _ hc) d (mem_cons_of_mem _ hd)

/-- …and where every member has a relative there is a list of them. -/
theorem exists_forall₂ (h : ∀ a ∈ as, ∃ b, R a b) : ∃ bs, Forall₂ R as bs := by
  induction as with
  | nil => exact ⟨[], .nil⟩
  | cons a as ih =>
    obtain ⟨b, hab⟩ := h a mem_cons_self
    obtain ⟨bs, hbs⟩ := ih fun c hc => h c (mem_cons_of_mem _ hc)
    exact ⟨b :: bs, .cons hab hbs⟩

end Related

/-! ## Expansion

A list in which every member is replaced by a list. -/

section Expansion

open List

variable {γ : Type} {R : α → List β → Prop} {S : β → List γ → Prop} {T : α → List γ → Prop}
  {a : α} {as as' : List α}

/-- The second list has a related list in the place of each member of the first. -/
def Expands (R : α → List β → Prop) (as : List α) (bs : List β) : Prop :=
  ∃ groups, Forall₂ R as groups ∧ bs = groups.flatten

theorem expands_nil_iff {bs : List β} : Expands R [] bs ↔ bs = [] := by
  simp only [Expands, forall₂_nil_left_iff, exists_eq_left, flatten_nil]

theorem expands_cons_iff {bs : List β} :
    Expands R (a :: as) bs ↔ ∃ g rest, R a g ∧ Expands R as rest ∧ bs = g ++ rest := by
  constructor
  · rintro ⟨groups, hg, rfl⟩
    cases hg with
    | cons ha hg => exact ⟨_, _, ha, ⟨_, hg, rfl⟩, flatten_cons⟩
  · rintro ⟨g, _, ha, ⟨groups, hg, rfl⟩, rfl⟩
    exact ⟨g :: groups, .cons ha hg, flatten_cons.symm⟩

theorem expands_singleton_iff {bs : List β} : Expands R [a] bs ↔ R a bs := by
  rw [expands_cons_iff]
  constructor
  · rintro ⟨g, rest, ha, hrest, rfl⟩
    rwa [expands_nil_iff.1 hrest, append_nil]
  · exact fun ha => ⟨bs, [], ha, expands_nil_iff.2 rfl, (append_nil bs).symm⟩

theorem expands_append_iff {bs : List β} : Expands R (as ++ as') bs ↔
    ∃ front back, Expands R as front ∧ Expands R as' back ∧ bs = front ++ back := by
  induction as generalizing bs with
  | nil =>
    simp only [nil_append, expands_nil_iff, exists_and_left, exists_eq_left, exists_eq_right']
  | cons a as ih =>
    simp only [cons_append, expands_cons_iff, ih]
    constructor
    · rintro ⟨g, _, ha, ⟨front, back, hfront, hback, rfl⟩, rfl⟩
      exact ⟨_, back, ⟨g, front, ha, hfront, rfl⟩, hback, (append_assoc ..).symm⟩
    · rintro ⟨_, back, ⟨g, front, ha, hfront, rfl⟩, hback, rfl⟩
      exact ⟨g, _, ha, ⟨front, back, hfront, hback, rfl⟩, append_assoc ..⟩

/-- **Expanding twice** is expanding once, if it is for each member. -/
theorem expands_comp_iff {cs : List γ}
    (h : ∀ a ∈ as, ∀ g, T a g ↔ ∃ mid, R a mid ∧ Expands S mid g) :
    Expands T as cs ↔ ∃ bs, Expands R as bs ∧ Expands S bs cs := by
  induction as generalizing cs with
  | nil => simp only [expands_nil_iff, exists_eq_left]
  | cons a as ih =>
    obtain ⟨ha, has⟩ := forall_mem_cons.1 h
    simp only [expands_cons_iff, ha, ih has]
    constructor
    · rintro ⟨g, rest, ⟨mid, hmid, hg⟩, ⟨bs, hbs, hrest⟩, rfl⟩
      exact ⟨mid ++ bs, ⟨mid, bs, hmid, hbs, rfl⟩, expands_append_iff.2 ⟨g, rest, hg, hrest, rfl⟩⟩
    · rintro ⟨_, ⟨mid, bs, hmid, hbs, rfl⟩, hcs⟩
      obtain ⟨g, rest, hg, hrest, rfl⟩ := expands_append_iff.1 hcs
      exact ⟨g, rest, ⟨mid, hmid, hg⟩, ⟨bs, hbs, hrest⟩, rfl⟩

end Expansion

end CatalogStats
