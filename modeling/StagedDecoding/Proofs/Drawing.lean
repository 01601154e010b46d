import StagedDecoding.Proofs.Truncation

/-! A draw from a truncated distribution.

A draw walks over the entries in the order of their indices, not in the order that truncation sorts
them by. A zero entry leaves the running sum as it is, so the walk never stops at one, however large
or small the number drawn is. An entry that is positive is one that was kept.
-/

set_option autoImplicit false

namespace StagedDecoding.Scores

open Binary32

variable {probabilities entries : Scores} {target sum : Float32} {leading kept : List Nat}
  {count i k : Nat}

theorem unit_not_lt (word : UInt32) : ¬ WordStream.unit word < 0 := by
  have number : Unminused (word >>> 8).toFloat32.toModel.unpack :=
    Unminused.packed (.inl (unsigned_normalize (Int.natCast_nonneg (word >>> 8).toNat) 0))
  exact mul_not_lt (not_lt_iff.mpr number.not_lt) (not_lt_iff.mpr rfl)

theorem pos_of_exceeds {x : Float32} (left : Unminused sum.toModel.unpack) (above : ¬ x < 0)
    (within : ¬ target < sum) (exceeds : target < sum + x) : 0 < x := by
  by_contra none
  rcases unpack_of_neither above none with ⟨sign, zero⟩ | undefined
  · rw [lt_iff_unpack, unpack_add_zero left zero, ← lt_iff_unpack] at exceeds
    exact within exceeds
  · have number := (isNaN_of_lt exceeds).2
    rw [add_undefined (.inr (isNaN_of_unpack undefined))] at number
    cases number

/-- A walk that has not stopped yet stops at a positive entry, or returns the last positive index
so far when none is left. -/
theorem locate_positive (left : Unminused sum.toModel.unpack) (above : ∀ x ∈ entries, ¬ x < 0)
    (within : ¬ target < sum) (i lastPositive : Nat) :
    (∃ j x, entries[j]? = some x ∧ 0 < x ∧ locate target i sum lastPositive entries = i + j) ∨
      (∀ x ∈ entries, ¬ 0 < x) ∧ locate target i sum lastPositive entries = lastPositive := by
  -- along the walk; the running sum keeps its sign and has not passed the number yet
  induction entries generalizing i sum lastPositive with
  | nil => exact .inr ⟨by simp, rfl⟩
  | cons x rest ih =>
    obtain ⟨first, others⟩ := List.forall_mem_cons.mp above
    rw [locate]
    split
    · next exceeds => exact .inl ⟨0, x, rfl, pos_of_exceeds left first within exceeds, rfl⟩
    · next inside =>
      rcases ih (unminused_add left first) others inside (i + 1) (if x > 0 then i else lastPositive)
        with ⟨j, y, found, positive, stopped⟩ | ⟨none, stopped⟩
      · exact .inl ⟨j + 1, y, found, positive, stopped.trans (Nat.add_right_comm i 1 j)⟩
      · by_cases positive : 0 < x
        · exact .inl ⟨0, x, rfl, positive, by rw [stopped]; exact if_pos positive⟩
        · exact .inr ⟨List.forall_mem_cons.mpr ⟨positive, none⟩, by
            rw [stopped]
            exact if_neg positive⟩

theorem locate_unit (above : ∀ x ∈ probabilities, ¬ x < 0) (word : UInt32) :
    (∃ x, probabilities[locate (WordStream.unit word * total probabilities) 0 0 0 probabilities]? =
        some x ∧ 0 < x) ∨
      (∀ x ∈ probabilities, ¬ 0 < x) ∧
        locate (WordStream.unit word * total probabilities) 0 0 0 probabilities = 0 := by
  have mass : Unminused (total probabilities).toModel.unpack := unminused_foldl unminused_zero above
  rcases locate_positive unminused_zero above (mul_not_lt (unit_not_lt word) (not_lt_iff.mpr mass.not_lt)) 0 0 with
    ⟨j, y, found, positive, stopped⟩ | none
  · left
    rw [stopped, Nat.zero_add]
    exact ⟨y, found, positive⟩
  · exact .inr none

theorem locate_unit_positive (above : ∀ x ∈ probabilities, ¬ x < 0)
    (nonzero : ∃ x ∈ probabilities, 0 < x) (word : UInt32) :
    ∃ x, probabilities[locate (WordStream.unit word * total probabilities) 0 0 0 probabilities]? =
      some x ∧ 0 < x := by
  obtain ⟨x, member, positive⟩ := nonzero
  exact (locate_unit above word).resolve_right fun none => none.1 x member positive

theorem draw_eq (above : ∀ x ∈ probabilities, ¬ x < 0) (nonzero : ∃ x ∈ probabilities, 0 < x)
    (stream : WordStream) :
    draw probabilities stream = (locate (WordStream.unit stream.next.1 * total probabilities) 0 0 0
      probabilities, stream.next.2) := by
  obtain ⟨x, member, positive⟩ := nonzero
  exact if_neg (foldl_not_le unminused_zero above
    (.inr ⟨x, member, fun within => not_lt_of_le within positive⟩))

theorem draw_positive (above : ∀ x ∈ probabilities, ¬ x < 0) (nonzero : ∃ x ∈ probabilities, 0 < x)
    (stream : WordStream) :
    ∃ x, probabilities[(draw probabilities stream).1]? = some x ∧ 0 < x := by
  rw [draw_eq above nonzero]
  exact locate_unit_positive above nonzero stream.next.1

theorem mass_congr {other : Scores} {indices : List Nat}
    (same : ∀ i ∈ indices, entry other i = entry probabilities i) :
    mass other indices = mass probabilities indices := by
  rw [mass, mass, List.map_congr_left same]

theorem Covering.congr {p : Float32} {other : Scores}
    (same : ∀ i ∈ leading, entry other i = entry probabilities i)
    (covering : Covering p other leading kept) : Covering p probabilities leading kept := by
  have front : ∀ count, mass other (leading.take count) = mass probabilities (leading.take count) :=
    fun count => mass_congr fun i member => same i (List.mem_of_mem_take member)
  obtain ⟨⟨count, pos, rfl⟩, reaches, shortest⟩ := covering
  rw [front, mass_congr same] at reaches
  refine ⟨⟨count, pos, rfl⟩, reaches, fun other first less => ?_⟩
  rw [← front, ← mass_congr same]
  exact shortest other first less

theorem Leading.head_positive (given : Leading count probabilities leading)
    (proper : Proper probabilities) (nonzero : ∃ x ∈ probabilities, 0 < x) {first : Nat}
    {rest : List Nat} (begins : leading = first :: rest) : 0 < entry probabilities first := by
  obtain ⟨x, member, positive⟩ := nonzero
  obtain ⟨j, inside, rfl⟩ := List.getElem_of_mem member
  have found : entry probabilities j = probabilities[j] := List.getD_eq_getElem _ _ inside
  rw [← found] at positive
  by_cases same : j = first
  · exact same ▸ positive
  · -- the first leading index comes before all others, leading or not
    have before : Ahead probabilities first j := by
      by_cases lead : j ∈ rest
      · have ordered := given.ordered
        rw [begins] at ordered
        exact (List.pairwise_cons.mp ordered).1 j lead
      · refine given.ahead first (by simp [begins]) j inside ?_
        rw [begins, List.mem_cons]
        exact not_or.mpr ⟨same, lead⟩
    have zero : (0 : Float32).isNaN = false := rfl
    rw [Ahead, lt_iff_key (proper.clean _) (proper.clean _),
      lt_iff_key (proper.clean _) (proper.clean _), not_lt] at before
    rw [lt_iff_key zero (proper.clean _)] at positive ⊢
    exact positive.trans_le (before.elim le_of_lt And.left)

theorem topCount_pos (nonempty : probabilities ≠ []) : 0 < topCount k probabilities.length := by
  have long := List.length_pos_iff.mpr nonempty
  unfold topCount
  split <;> omega

theorem Leading.kept_positive (given : Leading count probabilities leading) (some : 0 < count)
    (proper : Proper probabilities) (nonzero : ∃ x ∈ probabilities, 0 < x) {p : Float32}
    (covering : Covering p probabilities leading kept) :
    ∃ i ∈ kept, i < probabilities.length ∧ 0 < entry probabilities i := by
  obtain ⟨⟨enough, pos, rfl⟩, -, -⟩ := covering
  cases begins : leading with
  | nil =>
    have none := given.counted
    rw [begins, List.length_nil] at none
    omega
  | cons first rest =>
    obtain ⟨enough, rfl⟩ := Nat.exists_eq_succ_of_ne_zero (Nat.ne_of_gt pos)
    exact ⟨first, List.mem_cons_self, given.inside first (by simp [begins]),
      given.head_positive proper nonzero begins⟩

theorem Proper.truncated (proper : Proper probabilities) (nonempty : probabilities ≠ []) (k : Nat)
    (p : Float32) :
    ∃ leading kept, Leading (topCount k probabilities.length) probabilities leading ∧
      Covering p probabilities leading kept ∧
      (∀ i ∈ kept, entry (keepNucleus p (keepTop k probabilities)) i = entry probabilities i) ∧
      ∀ i < probabilities.length, i ∉ kept →
        entry (keepNucleus p (keepTop k probabilities)) i = 0 := by
  have within := topCount_le k probabilities.length
  have some := @topCount_pos probabilities k nonempty
  have lead := proper.leading_take within
  have others : ∀ j < probabilities.length,
      j ∈ (order probabilities).drop (topCount k probabilities.length) ↔
        j ∉ (order probabilities).take (topCount k probabilities.length) :=
    fun j inside => mem_drop_order inside
  -- all that is used of these entries from here on is that they lead
  generalize (order probabilities).take (topCount k probabilities.length) = leading at lead others
  have same : ∀ i ∈ leading, entry (keepTop k probabilities) i = entry probabilities i :=
    fun i member => by
      rw [keepTop_eq, entry_clear_of_not_mem]
      exact fun cleared => (others i (lead.inside i member)).mp cleared member
  obtain ⟨kept, covering, unchanged, zero⟩ := Leading.covering
    (keepTop_eq k probabilities ▸ lead.clear proper others) (keepTop_eq k probabilities ▸ proper.clear _)
    (fun none => by
      have none := congrArg List.length none
      rw [lead.counted, List.length_nil] at none
      omega)
    (fun j inside other => by
      rw [keepTop_eq, length_clear] at inside
      rw [keepTop_eq, entry_clear_of_mem ((others j inside).mpr other)]) p
  refine ⟨leading, kept, lead, covering.congr same, fun i member => ?_, fun i inside other => ?_⟩
  · obtain ⟨⟨count, -, rfl⟩, -, -⟩ := covering
    rw [unchanged i member, same i (List.mem_of_mem_take member)]
  · exact zero i (by rwa [keepTop_eq, length_clear]) other

/-- Truncation keeps a shortest front of the leading entries that holds the share of their mass, and
clears all others. A draw from it, whatever number the generator gives, is an index that was kept and
has a positive entry. -/
theorem draws_from_kept (proper : Proper probabilities) (nonzero : ∃ x ∈ probabilities, 0 < x)
    (k : Nat) (p : Float32) :
    let truncated := keepNucleus p (keepTop k probabilities)
    ∃ leading kept, Leading (topCount k probabilities.length) probabilities leading ∧
      Covering p probabilities leading kept ∧
      truncated.length = probabilities.length ∧
      (∀ i ∈ kept, truncated[i]? = probabilities[i]?) ∧
      (∀ i < probabilities.length, i ∉ kept → truncated[i]? = some 0) ∧
      (∀ stream, (draw truncated stream).1 ∈ kept ∧
        ∃ x, truncated[(draw truncated stream).1]? = some x ∧ 0 < x) ∧
      ∀ word, locate (WordStream.unit word * total truncated) 0 0 0 truncated ∈ kept ∧
        ∃ x, truncated[locate (WordStream.unit word * total truncated) 0 0 0 truncated]? = some x ∧
          0 < x := by
  intro truncated
  have nonempty : probabilities ≠ [] := by
    rintro rfl
    obtain ⟨x, member, -⟩ := nonzero
    cases member
  obtain ⟨leading, kept, lead, covering, unchanged, zero⟩ := proper.truncated nonempty k p
  have long : truncated.length = probabilities.length := by
    simp only [truncated, keepNucleus_eq, keepTop_eq, length_clear]
  have bounded : Proper truncated := by
    simp only [truncated, keepNucleus_eq, keepTop_eq]
    exact (proper.clear _).clear _
  have above : ∀ x ∈ truncated, ¬ x < 0 := fun x member => not_lt_of_le (bounded x member).1
  have found : ∀ {i}, i < probabilities.length → truncated[i]? = some (entry truncated i) :=
    fun inside => entry_eq (long.symm ▸ inside)
  have inside : ∀ i ∈ kept, i < probabilities.length := by
    obtain ⟨⟨count, -, rfl⟩, -, -⟩ := covering
    exact fun i member => lead.inside i (List.mem_of_mem_take member)
  have positive : ∃ x ∈ truncated, 0 < x := by
    obtain ⟨i, member, bound, above⟩ := lead.kept_positive (topCount_pos nonempty) proper nonzero
      covering
    exact ⟨_, List.mem_of_getElem? (found bound), (unchanged i member).symm ▸ above⟩
  have chosen : ∀ i, (∃ x, truncated[i]? = some x ∧ 0 < x) → i ∈ kept := by
    rintro i ⟨x, there, above⟩
    by_contra other
    have bound : i < probabilities.length := long ▸ (List.getElem?_eq_some_iff.mp there).1
    rw [found bound, zero i bound other, Option.some.injEq] at there
    subst there
    exact absurd above (by decide)
  refine ⟨leading, kept, lead, covering, long, fun i member => ?_, fun i bound other => ?_,
    fun stream => ?_, fun word => ?_⟩
  · rw [found (inside i member), unchanged i member, entry_eq (inside i member)]
  · rw [found bound, zero i bound other]
  · have drawn := draw_positive above positive stream
    exact ⟨chosen _ drawn, drawn⟩
  · have drawn := locate_unit_positive above positive word
    exact ⟨chosen _ drawn, drawn⟩

theorem draws_from_kept_zeros :
    let truncated := keepNucleus 2 (keepTop 3 [0, 0.25, 0, 0.5, 0])
    ∀ word, ∃ x,
      truncated[locate (WordStream.unit word * total truncated) 0 0 0 truncated]? = some x ∧
        0 < x := by
  have proper : Proper [0, 0.25, 0, 0.5, 0] := by
    unfold Proper
    decide +kernel
  obtain ⟨_, _, -, -, -, -, -, -, drawn⟩ :=
    draws_from_kept proper ⟨0.5, by simp, by decide +kernel⟩ 3 2
  exact fun word => (drawn word).2

end StagedDecoding.Scores
