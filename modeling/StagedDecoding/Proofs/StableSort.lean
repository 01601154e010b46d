import Mathlib.Data.List.Induction
import StagedDecoding.Proofs.Ranking

/-! Stable sorts, one value after the other.

A stable sort by descending keys puts a value that comes last behind all that do not have a smaller
key. So the first of everything that ever came can be had from the first of what came before, and
what may be forgotten is the latest of the lowest.
-/

set_option autoImplicit false

namespace StagedDecoding

variable {α κ : Type} [LinearOrder κ] (key : α → κ)

def descending (values : List α) : List α :=
  values.mergeSort fun x y => decide (key y ≤ key x)

def numbered (values : List α) : List (α × Nat) :=
  values.zipIdx.mergeSort fun x y => decide (key y.1 ≤ key x.1)

/-- Put a value behind all that do not have a smaller key. -/
def settle (x : α) : List α → List α
  | [] => [x]
  | y :: rest => if key x ≤ key y then y :: settle x rest else x :: y :: rest

/-- Numbered values, by descending keys; among equal keys by their numbers. -/
def Earlier (x y : α × Nat) : Prop :=
  key y.1 < key x.1 ∨ key y.1 ≤ key x.1 ∧ x.2 < y.2

variable {key} {values earlier later : List α} {x lowest : α}

theorem mem_settle {sorted : List α} {y : α} : y ∈ settle key x sorted ↔ y = x ∨ y ∈ sorted := by
  induction sorted with
  | nil => simp [settle]
  | cons z rest ih =>
    unfold settle
    split
    · rw [List.mem_cons, ih, List.mem_cons, or_left_comm]
    · rw [List.mem_cons]

theorem settle_perm (sorted : List α) : (settle key x sorted).Perm (x :: sorted) := by
  induction sorted with
  | nil => exact List.Perm.refl _
  | cons y rest ih =>
    unfold settle
    split
    · exact (ih.cons y).trans (List.Perm.swap x y rest)
    · exact List.Perm.refl _

theorem map_settle {β : Type} (f : β → α) (x : β) (sorted : List β) :
    (settle (fun y => key (f y)) x sorted).map f = settle key (f x) (sorted.map f) := by
  induction sorted with
  | nil => rfl
  | cons y rest ih =>
    rw [List.map_cons]
    unfold settle
    split
    · rw [List.map_cons, ih]
    · rfl

theorem settle_earlier {sorted : List (α × Nat)} {next : α × Nat}
    (ordered : sorted.Pairwise (Earlier key)) (fresh : ∀ y ∈ sorted, y.2 < next.2) :
    (settle (fun y => key y.1) next sorted).Pairwise (Earlier key) := by
  induction sorted with
  | nil => exact List.pairwise_singleton _ _
  | cons y rest ih =>
    obtain ⟨first, others⟩ := List.pairwise_cons.mp ordered
    unfold settle
    split
    case isTrue level =>
      refine List.pairwise_cons.mpr ⟨fun z member => ?_, ih others fun z member =>
        fresh z (List.mem_cons_of_mem y member)⟩
      rcases mem_settle.mp member with rfl | behind
      · exact .inr ⟨level, fresh y (by simp)⟩
      · exact first z behind
    -- everything behind is no higher than what the value came in front of
    case isFalse above =>
      have below : key y.1 < key next.1 := not_le.mp above
      refine List.pairwise_cons.mpr ⟨fun z member => .inl ?_, ordered⟩
      rcases List.mem_cons.mp member with rfl | behind
      · exact below
      · rcases first z behind with lower | ⟨level, -⟩
        · exact lower.trans below
        · exact level.trans_lt below

theorem numbered_perm (values : List α) : (numbered key values).Perm values.zipIdx :=
  List.mergeSort_perm _ _

theorem numbered_earlier (values : List α) : (numbered key values).Pairwise (Earlier key) := by
  have listed : values.zipIdx.Pairwise fun x y => x.2 < y.2 := by
    rw [← List.pairwise_map (R := (· < ·)), List.zipIdx_map_snd]
    exact List.pairwise_lt_range'
  exact mergeSort_stable (fun x : α × Nat => key x.1) (fun _ _ _ _ => decide_eq_true_iff) listed

theorem numbered_eq {ranked : List (α × Nat)} (perm : ranked.Perm values.zipIdx)
    (ordered : ranked.Pairwise (Earlier key)) : numbered key values = ranked := by
  refine List.Perm.eq_of_pairwise (fun x y _ _ before after => ?_) (numbered_earlier values)
    ordered ((numbered_perm values).trans perm.symm)
  rcases before with before | ⟨level, before⟩ <;> rcases after with after | ⟨level', after⟩
  · exact absurd (before.trans after) (lt_irrefl _)
  · exact absurd (before.trans_le level') (lt_irrefl _)
  · exact absurd (after.trans_le level) (lt_irrefl _)
  · exact absurd (before.trans after) (Nat.lt_irrefl _)

theorem map_numbered (values : List α) :
    (numbered key values).map Prod.fst = descending key values := by
  have forgotten := List.map_mergeSort (f := Prod.fst) (l := values.zipIdx)
    (r := fun x y => decide (key y.1 ≤ key x.1)) (s := fun x y => decide (key y ≤ key x))
    fun _ _ _ _ => rfl
  rwa [List.zipIdx_map_fst] at forgotten

theorem number_lt {x : α × Nat} (member : x ∈ numbered key values) : x.2 < values.length :=
  (List.getElem?_eq_some_iff.mp
    (List.mem_zipIdx_iff_getElem?.mp ((numbered_perm values).subset member))).1

theorem numbered_concat (values : List α) (x : α) : numbered key (values ++ [x]) =
    settle (fun y => key y.1) (x, values.length) (numbered key values) := by
  refine numbered_eq ?_ (settle_earlier (numbered_earlier values) fun y => number_lt)
  rw [List.zipIdx_append, List.zipIdx_singleton, Nat.zero_add]
  exact (settle_perm _).trans
    (((numbered_perm values).cons _).trans (List.perm_append_singleton _ _).symm)

theorem descending_concat (values : List α) (x : α) :
    descending key (values ++ [x]) = settle key x (descending key values) := by
  rw [← map_numbered, ← map_numbered, numbered_concat]
  exact map_settle Prod.fst _ _

theorem descending_perm (values : List α) : (descending key values).Perm values :=
  List.mergeSort_perm _ _

theorem length_descending (values : List α) : (descending key values).length = values.length :=
  List.length_mergeSort _

theorem take_settle (count : Nat) (sorted : List α) :
    (settle key x (sorted.take count)).take count = (settle key x sorted).take count := by
  induction sorted generalizing count with
  | nil => rw [List.take_nil]
  | cons y rest ih =>
    cases count with
    | zero => rw [List.take_zero, List.take_zero]
    | succ count =>
      rw [List.take_succ_cons]
      unfold settle
      split
      · rw [List.take_succ_cons, List.take_succ_cons, ih]
      · have shorter : (y :: rest.take count).take count = (y :: rest).take count := by
          rw [← List.take_succ_cons, List.take_take, Nat.min_eq_left (Nat.le_succ count)]
        rw [List.take_succ_cons, List.take_succ_cons, shorter]

theorem settle_low {sorted : List α} (low : ∀ y ∈ sorted, key x ≤ key y) :
    settle key x sorted = sorted ++ [x] := by
  induction sorted with
  | nil => rfl
  | cons y rest ih =>
    rw [settle, if_pos (low y (by simp)), ih fun z member => low z (by simp [member]),
      List.cons_append]

theorem mem_take_settle {sorted : List α} (above : ∃ y ∈ sorted, key y < key x) :
    x ∈ (settle key x sorted).take sorted.length := by
  induction sorted with
  | nil =>
    obtain ⟨y, member, -⟩ := above
    cases member
  | cons y rest ih =>
    obtain ⟨z, member, lower⟩ := above
    unfold settle
    split
    case isTrue level =>
      rw [List.length_cons, List.take_succ_cons]
      refine List.mem_cons_of_mem y (ih ⟨z, ?_, lower⟩)
      rcases List.mem_cons.mp member with rfl | member
      · exact absurd lower (not_lt.mpr level)
      · exact member
    case isFalse =>
      rw [List.length_cons, List.take_succ_cons]
      exact List.mem_cons_self

/-- A value that comes last is not among the first few if these are complete and none is lower. -/
theorem absent_iff {count : Nat} :
    (∀ place ∈ (numbered key (values ++ [x])).take count, place.2 ≠ values.length) ↔
      count ≤ values.length ∧ ∀ y ∈ (descending key values).take count, key x ≤ key y := by
  have old : ∀ place ∈ (numbered key values).take count, place.2 < values.length :=
    fun _ member => number_lt (List.mem_of_mem_take member)
  have long : (numbered key values).length = values.length := by
    rw [(numbered_perm values).length_eq, List.length_zipIdx]
  rw [numbered_concat, ← take_settle, ← map_numbered, ← List.map_take, List.forall_mem_map]
  constructor
  · intro absent
    have full : count ≤ values.length := by
      refine Nat.le_of_not_lt fun room => absent (x, values.length) ?_ rfl
      rw [List.take_of_length_le]
      · exact mem_settle.mpr (.inl rfl)
      · rw [(settle_perm _).length_eq, List.length_cons, List.length_take, long]
        omega
    refine ⟨full, fun place member => not_lt.mp fun above => ?_⟩
    -- a value above one of the first few settles among them
    have first : (x, values.length) ∈ (settle (fun y => key y.1) (x, values.length)
        ((numbered key values).take count)).take ((numbered key values).take count).length :=
      mem_take_settle ⟨place, member, above⟩
    rw [List.length_take, long, Nat.min_eq_left full] at first
    exact absent _ first rfl
  · rintro ⟨full, low⟩ place member
    rw [settle_low low, List.take_left' (by rw [List.length_take, long, Nat.min_eq_left full])]
      at member
    exact (old place member).ne

theorem settle_concat {sorted : List α} (above : key lowest < key x) :
    settle key x (sorted ++ [lowest]) = settle key x sorted ++ [lowest] := by
  induction sorted with
  | nil => exact if_neg (not_le.mpr above)
  | cons y rest ih =>
    rw [List.cons_append]
    unfold settle
    split
    · rw [ih, List.cons_append]
    · rfl

theorem descending_lowest (before : ∀ y ∈ earlier, key lowest ≤ key y)
    (behind : ∀ y ∈ later, key lowest < key y) :
    descending key (earlier ++ lowest :: later) =
      descending key (earlier ++ later) ++ [lowest] := by
  induction later using List.reverseRecOn with
  | nil =>
    rw [List.append_nil, descending_concat, settle_low]
    exact fun y member => before y ((descending_perm earlier).subset member)
  | append_singleton later x ih =>
    have above : key lowest < key x := behind x (by simp)
    rw [← List.cons_append, ← List.append_assoc, ← List.append_assoc, descending_concat,
      descending_concat, ih fun y member => behind y (by simp [member]), settle_concat above]

end StagedDecoding
