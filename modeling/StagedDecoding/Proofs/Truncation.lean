import StagedDecoding.Proofs.Ranking
import StagedDecoding.Proofs.Signs
import StagedDecoding.Scores.Draw

/-! What truncation keeps of a distribution.

Indices have one order: by descending entry, and equal entries by index. The largest entries are a
front of it, and so is the nucleus. What is taken away becomes zero, so that the front of the order
is still its front afterwards, and sums over it stay the same.
-/

set_option autoImplicit false

namespace StagedDecoding.Scores

def entry (probabilities : Scores) (i : Nat) : Float32 :=
  probabilities.getD i 0

/-- Index `i` comes before index `j`: its entry is larger, or equal and listed first. -/
def Ahead (probabilities : Scores) (i j : Nat) : Prop :=
  entry probabilities j < entry probabilities i ∨
    ¬ entry probabilities i < entry probabilities j ∧ i < j

/-- The first `count` indices by descending entry, the lower index first among equals. -/
structure Leading (count : Nat) (probabilities : Scores) (leading : List Nat) : Prop where
  counted : leading.length = count
  inside : ∀ i ∈ leading, i < probabilities.length
  ordered : leading.Pairwise (Ahead probabilities)
  ahead : ∀ i ∈ leading, ∀ j < probabilities.length, j ∉ leading → Ahead probabilities i j

def mass (probabilities : Scores) (indices : List Nat) : Float32 :=
  total (indices.map (entry probabilities))

/-- The shortest front, not empty, that holds the share `p` of the mass. All when none does. -/
structure Covering (p : Float32) (probabilities : Scores) (leading kept : List Nat) : Prop where
  front : ∃ count, 0 < count ∧ kept = leading.take count
  reaches : mass probabilities kept ≥ p * mass probabilities leading ∨ kept = leading
  shortest : ∀ count, 0 < count → count < kept.length →
    ¬ mass probabilities (leading.take count) ≥ p * mass probabilities leading

def topCount (k count : Nat) : Nat :=
  if k = 0 ∨ count ≤ k then count else k

def order (probabilities : Scores) : List Nat :=
  (ranked probabilities).map (·.1)

def Proper (probabilities : Scores) : Prop :=
  ∀ x ∈ probabilities, 0 ≤ x ∧ x ≤ 1

variable {probabilities : Scores} {indices leading kept : List Nat} {i j count k : Nat}

theorem entry_eq (inside : i < probabilities.length) :
    probabilities[i]? = some (entry probabilities i) := by
  rw [entry, List.getD_eq_getElem _ _ inside, List.getElem?_eq_getElem inside]

theorem Proper.bounds (proper : Proper probabilities) (i : Nat) :
    0 ≤ entry probabilities i ∧ entry probabilities i ≤ 1 := by
  rcases Nat.lt_or_ge i probabilities.length with inside | beyond
  · exact proper _ (List.mem_of_getElem? (entry_eq inside))
  · rw [entry, List.getD_eq_default _ _ beyond]
    exact ⟨by decide, by decide⟩

theorem Proper.clean (proper : Proper probabilities) (i : Nat) :
    (entry probabilities i).isNaN = false :=
  (isNaN_of_le (proper.bounds i).1).2

theorem Proper.above (proper : Proper probabilities) (i : Nat) : ¬ entry probabilities i < 0 :=
  not_lt_of_le (proper.bounds i).1

theorem Ahead.asymm (proper : Proper probabilities) (first : Ahead probabilities i j) :
    ¬ Ahead probabilities j i := by
  unfold Ahead at first ⊢
  rw [lt_iff_key (proper.clean _) (proper.clean _), lt_iff_key (proper.clean _) (proper.clean _)]
    at first ⊢
  rcases first with above | ⟨within, earlier⟩
  · rintro (below | ⟨below, -⟩)
    · exact lt_asymm above below
    · exact below above
  · rintro (below | ⟨-, later⟩)
    · exact within below
    · exact Nat.lt_asymm earlier later

theorem mem_ranked {pair : Nat × Float32} (member : pair ∈ ranked probabilities) :
    pair = (pair.1, entry probabilities pair.1) ∧ pair.1 < probabilities.length := by
  have listed := List.mem_mergeSort.mp member
  obtain ⟨n, inside, rfl⟩ := List.getElem_of_mem listed
  rw [List.length_zip, List.length_range, Nat.min_self] at inside
  simp only [List.getElem_zip, List.getElem_range, entry, List.getD_eq_getElem _ _ inside]
  exact ⟨trivial, inside⟩

theorem ranked_eq (probabilities : Scores) :
    ranked probabilities = (order probabilities).map fun i => (i, entry probabilities i) := by
  rw [order, List.map_map]
  exact (List.map_congr_left fun pair member => (mem_ranked member).1.symm).trans (List.map_id _)
    |>.symm

theorem order_perm (probabilities : Scores) :
    (order probabilities).Perm (List.range probabilities.length) := by
  have perm := (List.mergeSort_perm ((List.range probabilities.length).zip probabilities)
    fun a b => !(a.2 < b.2)).map Prod.fst
  rwa [List.map_fst_zip (by rw [List.length_range])] at perm

theorem order_nodup (probabilities : Scores) : (order probabilities).Nodup :=
  (order_perm probabilities).nodup_iff.mpr List.nodup_range

theorem mem_order : i ∈ order probabilities ↔ i < probabilities.length := by
  rw [(order_perm probabilities).mem_iff, List.mem_range]

theorem mem_drop_order (inside : j < probabilities.length) :
    j ∈ (order probabilities).drop count ↔ j ∉ (order probabilities).take count := by
  have distinct := order_nodup probabilities
  have listed := mem_order.mpr inside
  rw [← List.take_append_drop count (order probabilities)] at distinct listed
  exact ⟨fun dropped taken => List.disjoint_of_nodup_append distinct taken dropped,
    (List.mem_append.mp listed).resolve_left⟩

theorem length_order (probabilities : Scores) :
    (order probabilities).length = probabilities.length := by
  rw [(order_perm probabilities).length_eq, List.length_range]

theorem Proper.order_ahead (proper : Proper probabilities) :
    (order probabilities).Pairwise (Ahead probabilities) := by
  have listed : ((List.range probabilities.length).zip probabilities).Pairwise
      fun x y => x.1 < y.1 := by
    rw [← List.pairwise_map (R := (· < ·)), List.map_fst_zip (by rw [List.length_range])]
    exact List.pairwise_lt_range
  have clean : ∀ pair ∈ (List.range probabilities.length).zip probabilities,
      pair.2.isNaN = false := fun pair member =>
    (isNaN_of_le (proper _ (List.of_mem_zip member).2).1).2
  -- entries are no NaN, so the comparison is that of their keys
  have agrees : ∀ x ∈ (List.range probabilities.length).zip probabilities,
      ∀ y ∈ (List.range probabilities.length).zip probabilities,
        (!decide (x.2 < y.2)) = true ↔ key y.2 ≤ key x.2 := by
    intro x first y second
    rw [Bool.not_eq_true', decide_eq_false_iff_not, lt_iff_key (clean x first) (clean y second),
      not_lt]
  have pairs : (ranked probabilities).Pairwise fun x y =>
      key y.2 < key x.2 ∨ key y.2 ≤ key x.2 ∧ x.1 < y.1 :=
    mergeSort_stable (fun pair : Nat × Float32 => key pair.2) agrees listed
  rw [ranked_eq, List.pairwise_map] at pairs
  refine pairs.imp fun {i j} before => ?_
  rw [Ahead, lt_iff_key (proper.clean _) (proper.clean _),
    lt_iff_key (proper.clean _) (proper.clean _), not_lt]
  exact before

/-- The leading indices are the front of the order, whatever they were found by. -/
theorem Leading.order_eq (given : Leading count probabilities leading)
    (proper : Proper probabilities) :
    order probabilities = leading ++ (order probabilities).filter (· ∉ leading) := by
  -- both sides list the same indices in the same strict order
  have irrefl : ∀ i, ¬ Ahead probabilities i i := fun i own => Ahead.asymm proper own own
  have ordered : (leading ++ (order probabilities).filter (· ∉ leading)).Pairwise
      (Ahead probabilities) := by
    refine List.pairwise_append.mpr ⟨given.ordered, proper.order_ahead.filter _,
      fun i first j second => ?_⟩
    obtain ⟨there, other⟩ := List.mem_filter.mp second
    exact given.ahead i first j (mem_order.mp there) (of_decide_eq_true other)
  have distinct : (leading ++ (order probabilities).filter (· ∉ leading)).Nodup :=
    ordered.imp fun {i j} (before : Ahead probabilities i j) (same : i = j) =>
      irrefl i (same ▸ before)
  have perm : (order probabilities).Perm
      (leading ++ (order probabilities).filter (· ∉ leading)) := by
    refine (List.perm_ext_iff_of_nodup (order_nodup _) distinct).mpr fun i => ?_
    rw [List.mem_append, List.mem_filter, decide_eq_true_iff]
    by_cases member : i ∈ leading
    · simp [member, mem_order.mpr (given.inside i member)]
    · simp [member]
  exact perm.eq_of_pairwise (fun i j _ _ first second =>
    absurd second (Ahead.asymm proper first)) proper.order_ahead ordered

theorem Proper.leading_take (proper : Proper probabilities) (within : count ≤ probabilities.length) :
    Leading count probabilities ((order probabilities).take count) := by
  have sorted := proper.order_ahead
  rw [← List.take_append_drop count (order probabilities)] at sorted
  obtain ⟨first, -, across⟩ := List.pairwise_append.mp sorted
  refine ⟨?_, fun i member => mem_order.mp (List.mem_of_mem_take member), first,
    fun i member j inside other => across i member j ((mem_drop_order inside).mpr other)⟩
  rw [List.length_take, length_order, Nat.min_eq_left within]

@[simp] theorem length_clear (indices : List Nat) (probabilities : Scores) :
    (clear indices probabilities).length = probabilities.length := by
  unfold clear
  induction indices generalizing probabilities with
  | nil => rfl
  | cons i rest ih => rw [List.foldl_cons, ih, List.length_set]

theorem getElem?_clear (indices : List Nat) (probabilities : Scores) (i : Nat) :
    (clear indices probabilities)[i]? =
      if i ∈ indices then probabilities[i]?.map fun _ => 0 else probabilities[i]? := by
  unfold clear
  induction indices generalizing probabilities with
  | nil => rfl
  | cons j rest ih =>
    rw [List.foldl_cons, ih]
    by_cases same : j = i
    · subst same
      by_cases inside : j < probabilities.length
      · simp [inside]
      · have beyond := Nat.le_of_not_lt inside
        simp [List.set_eq_of_length_le beyond, List.getElem?_eq_none beyond]
    · simp [List.getElem?_set_ne same, List.mem_cons, Ne.symm same]

theorem entry_clear_of_mem (member : i ∈ indices) : entry (clear indices probabilities) i = 0 := by
  rw [entry, List.getD_eq_getElem?_getD, getElem?_clear, if_pos member]
  cases probabilities[i]? <;> rfl

theorem entry_clear_of_not_mem (other : i ∉ indices) :
    entry (clear indices probabilities) i = entry probabilities i := by
  rw [entry, List.getD_eq_getElem?_getD, getElem?_clear, if_neg other, entry,
    List.getD_eq_getElem?_getD]

theorem Proper.clear (proper : Proper probabilities) (indices : List Nat) :
    Proper (clear indices probabilities) := by
  intro x member
  obtain ⟨i, inside, rfl⟩ := List.getElem_of_mem member
  have found := entry_eq inside
  rw [List.getElem?_eq_getElem inside, Option.some.injEq] at found
  rw [found]
  by_cases cleared : i ∈ indices
  · rw [entry_clear_of_mem cleared]
    exact ⟨by decide, by decide⟩
  · rw [entry_clear_of_not_mem cleared]
    exact proper.bounds i

theorem topCount_le (k count : Nat) : topCount k count ≤ count := by
  unfold topCount
  split
  · exact Nat.le_refl _
  · omega

theorem keepTop_eq (k : Nat) (probabilities : Scores) :
    keepTop k probabilities =
      clear ((order probabilities).drop (topCount k probabilities.length)) probabilities := by
  unfold keepTop topCount
  by_cases all : k = 0 ∨ probabilities.length ≤ k
  · rw [if_pos all, if_pos (by simpa using all), List.drop_eq_nil_of_le (length_order _).le]
    rfl
  · rw [if_neg all, if_neg (by simpa using all), List.map_drop]
    rfl

theorem Leading.clear (given : Leading count probabilities leading) (proper : Proper probabilities)
    (others : ∀ j < probabilities.length, j ∈ indices ↔ j ∉ leading) :
    Leading count (Scores.clear indices probabilities) leading := by
  have same : ∀ i ∈ leading, entry (Scores.clear indices probabilities) i = entry probabilities i :=
    fun i member => entry_clear_of_not_mem fun cleared =>
      (others i (given.inside i member)).mp cleared member
  refine ⟨given.counted, fun i member => ?_, ?_, fun i member j inside other => ?_⟩
  · rw [length_clear]
    exact given.inside i member
  · refine given.ordered.imp_of_mem fun {i j} first second before => ?_
    rwa [Ahead, same i first, same j second]
  · rw [length_clear] at inside
    rw [Ahead, same i member, entry_clear_of_mem ((others j inside).mpr other)]
    -- an entry that is not ahead of zero by its size is zero, and then the index decides
    have low := (proper.bounds i).1
    have least := (proper.bounds j).1
    have before := given.ahead i member j inside other
    rw [Ahead, lt_iff_key (proper.clean _) (proper.clean _),
      lt_iff_key (proper.clean _) (proper.clean _), not_lt] at before
    rw [lt_iff_key rfl (proper.clean _), lt_iff_key (proper.clean _) rfl, not_lt]
    rw [le_iff_key rfl (proper.clean _)] at low least
    rcases before with above | ⟨within, earlier⟩
    · exact .inl (least.trans_lt above)
    · exact .inr ⟨low, earlier⟩

theorem countToReach_spec (goal sum : Float32) (entries : Scores) :
    countToReach goal sum entries ≤ entries.length ∧
      (entries ≠ [] → 0 < countToReach goal sum entries) ∧
      ((entries.take (countToReach goal sum entries)).foldl (· + ·) sum ≥ goal ∨
        countToReach goal sum entries = entries.length) ∧
      ∀ count, 0 < count → count < countToReach goal sum entries →
        ¬ (entries.take count).foldl (· + ·) sum ≥ goal := by
  induction entries generalizing sum with
  | nil => exact ⟨Nat.le_refl _, fun some => absurd rfl some, .inr rfl, fun _ pos less => by
      rw [countToReach] at less
      omega⟩
  | cons x rest ih =>
    rw [countToReach]
    split
    · next reached =>
      exact ⟨Nat.succ_le_succ (Nat.zero_le _), fun _ => Nat.one_pos, .inl reached,
        fun count pos less => by omega⟩
    · next short =>
      -- short of the goal, the rest goes on from the larger sum
      obtain ⟨within, -, reaches, before⟩ := ih (sum + x)
      rw [Nat.add_comm 1]
      refine ⟨Nat.succ_le_succ within, fun _ => Nat.succ_pos _, ?_, fun count pos less => ?_⟩
      · exact reaches.imp id (congrArg (· + 1))
      · obtain ⟨count, rfl⟩ := Nat.exists_eq_succ_of_ne_zero (Nat.ne_of_gt pos)
        rcases Nat.eq_zero_or_pos count with rfl | later
        · exact short
        · exact before count later (by omega)

theorem keepNucleus_eq (p : Float32) (probabilities : Scores) :
    keepNucleus p probabilities =
      clear ((order probabilities).drop (countToReach
        (p * mass probabilities (order probabilities)) 0
        ((order probabilities).map (entry probabilities)))) probabilities := by
  have sorted : (ranked probabilities).map (·.2) =
      (order probabilities).map (entry probabilities) := by
    rw [ranked_eq, List.map_map]
    rfl
  simp only [keepNucleus, sorted, List.map_drop]
  rfl

/-- Entries that are zero behind the leading ones do not change the goal. -/
theorem mass_append_zeros (proper : Proper probabilities) (leading : List Nat) {rest : List Nat}
    (zeros : ∀ j ∈ rest, entry probabilities j = 0) (p : Float32) :
    p * mass probabilities (leading ++ rest) = p * mass probabilities leading := by
  refine mul_congr p ?_
  rw [mass, total, List.map_append, List.foldl_append]
  refine unpack_foldl_zeros (unminused_foldl unminused_zero ?_) ?_
  · rw [List.forall_mem_map]
    exact fun i _ => proper.above i
  · rw [List.forall_mem_map]
    exact fun j member => ⟨.positive, by rw [zeros j member]; rfl⟩

theorem covering_take (nonempty : leading ≠ []) (rest : List Nat) (p : Float32) :
    Covering p probabilities leading (leading.take (countToReach (p * mass probabilities leading) 0
      ((leading ++ rest).map (entry probabilities)))) := by
  obtain ⟨-, some, reaches, before⟩ := countToReach_spec (p * mass probabilities leading) 0
    ((leading ++ rest).map (entry probabilities))
  generalize countToReach (p * mass probabilities leading) 0
    ((leading ++ rest).map (entry probabilities)) = enough at some reaches before ⊢
  simp only [← List.map_take, List.length_map, List.length_append] at reaches before
  have pos : 0 < enough := some (by
    rw [ne_eq, List.map_eq_nil_iff, List.append_eq_nil_iff]
    exact fun none => nonempty none.1)
  refine ⟨⟨enough, pos, rfl⟩, ?_, fun count first less => ?_⟩
  · rcases Nat.lt_or_ge enough leading.length with inside | beyond
    · left
      rcases reaches with reached | all
      · rwa [List.take_append_of_le_length (Nat.le_of_lt inside)] at reached
      · omega
    · exact .inr (List.take_of_length_le beyond)
  · rw [List.length_take] at less
    have short := before count first (by omega)
    rwa [List.take_append_of_le_length (by omega)] at short

theorem Leading.covering (given : Leading count probabilities leading)
    (proper : Proper probabilities) (nonempty : leading ≠ [])
    (zeros : ∀ j < probabilities.length, j ∉ leading → entry probabilities j = 0) (p : Float32) :
    ∃ kept, Covering p probabilities leading kept ∧
      (∀ i ∈ kept, entry (keepNucleus p probabilities) i = entry probabilities i) ∧
      ∀ j < probabilities.length, j ∉ kept → entry (keepNucleus p probabilities) j = 0 := by
  obtain ⟨rest, split⟩ : ∃ rest, order probabilities = leading ++ rest := ⟨_, given.order_eq proper⟩
  have distinct := order_nodup probabilities
  rw [split] at distinct
  have outside : ∀ j ∈ rest, entry probabilities j = 0 := fun j member =>
    zeros j (mem_order.mp (split ▸ List.mem_append_right _ member))
      fun both => List.disjoint_of_nodup_append distinct both member
  have covering := @covering_take probabilities leading nonempty rest p
  have kept_eq := keepNucleus_eq p probabilities
  rw [split, mass_append_zeros proper leading outside, ← split] at kept_eq
  rw [← split] at covering
  generalize countToReach (p * mass probabilities leading) 0
    ((order probabilities).map (entry probabilities)) = enough at covering kept_eq
  have front : (order probabilities).take enough =
      leading.take enough ++ rest.take (enough - leading.length) := by
    rw [split, List.take_append]
  refine ⟨_, covering, fun i member => ?_, fun j inside other => ?_⟩
  · have bound := given.inside i (List.mem_of_mem_take member)
    rw [kept_eq, entry_clear_of_not_mem]
    rw [mem_drop_order bound, not_not, front]
    exact List.mem_append_left _ member
  · rw [kept_eq]
    by_cases cleared : j ∈ (order probabilities).drop enough
    · exact entry_clear_of_mem cleared
    · -- what is kept behind the leading ones is zero anyway
      rw [entry_clear_of_not_mem cleared]
      rw [mem_drop_order inside, not_not, front, List.mem_append] at cleared
      exact outside j (List.mem_of_mem_take (cleared.resolve_left other))

end StagedDecoding.Scores
