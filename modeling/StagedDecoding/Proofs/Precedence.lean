import StagedDecoding.Pipeline.TableBuffers
import StagedDecoding.Proofs.Constraints
import StagedDecoding.Proofs.Wiring
import StagedDecoding.Session.Buffers

/-! Which tensor a stage is given.

A step calls the model once for every stage that runs, in order. What a call is given follows from
the calls before it: a managed tensor if there is one, otherwise what the latest stage hands on under
the name. The order in which the pool is gone through does not matter, nor what earlier steps left
bound.
-/

set_option autoImplicit false

namespace StagedDecoding

theorem filter_eraseDups {α : Type} [BEq α] [LawfulBEq α] (p : α → Bool) :
    (values : List α) → (values.filter p).eraseDups = values.eraseDups.filter p
  | [] => by simp
  | value :: rest => by
    have shorter : (rest.filter fun other => !other == value).length < rest.length + 1 :=
      Nat.lt_succ_of_le (List.length_filter_le _ _)
    have later := filter_eraseDups p (rest.filter fun other => !other == value)
    rw [List.eraseDups_cons, List.filter_cons, List.filter_cons, ← later, List.filter_filter]
    cases passes : p value with
    | true =>
      rw [if_pos rfl, if_pos rfl, List.eraseDups_cons, List.filter_filter]
      simp only [Bool.and_comm]
    | false =>
      rw [if_neg Bool.false_ne_true, if_neg Bool.false_ne_true]
      congr 1
      refine List.filter_congr fun other _ => ?_
      cases same : other == value with
      | true => rw [eq_of_beq same, passes, Bool.false_and]
      | false => rw [Bool.not_false, Bool.and_true]
termination_by values => values.length

namespace Named

variable {α : Type}

def Distinct (values : Named α) : Prop := (values.map (·.1)).Nodup

theorem Distinct.insert {values : Named α} (distinct : values.Distinct) (name : String)
    (value : α) : (values.insert name value).Distinct := by
  induction values with
  | nil => exact List.nodup_singleton _
  | cons entry rest ih =>
    obtain ⟨absent, others⟩ := List.nodup_cons.mp distinct
    unfold Named.insert
    split
    · next here =>
      rw [beq_iff_eq] at here
      exact List.nodup_cons.mpr ⟨here ▸ absent, others⟩
    · next other =>
      refine List.nodup_cons.mpr ⟨fun member => ?_, ih others⟩
      obtain ⟨inside, there, same⟩ := List.mem_map.mp member
      rcases mem_insert there with rfl | there
      · exact other (by simpa using same.symm)
      · exact absent (List.mem_map.mpr ⟨inside, there, same⟩)

theorem get?_of_mem {values : Named α} (distinct : values.Distinct) {entry : String × α}
    (member : entry ∈ values) : values.get? entry.1 = some entry.2 := by
  induction values with
  | nil => cases member
  | cons first rest ih =>
    obtain ⟨absent, others⟩ := List.nodup_cons.mp distinct
    rw [get?_cons]
    rcases List.mem_cons.mp member with rfl | member
    · rw [if_pos rfl]
    · have other : first.1 ≠ entry.1 := fun same =>
        absent (List.mem_map.mpr ⟨entry, member, same.symm⟩)
      rw [if_neg other, ih others member]

theorem get?_perm {values other : Named α} (distinct : values.Distinct)
    (perm : other.Perm values) (name : String) : other.get? name = values.get? name := by
  have distinct' : other.Distinct := by
    unfold Distinct at distinct ⊢
    exact (perm.map (·.1)).nodup_iff.mpr distinct
  cases found : values.get? name with
  | some value => exact get?_of_mem distinct' (perm.symm.subset (mem_of_get? found))
  | none =>
    cases found' : other.get? name with
    | none => rfl
    | some value =>
      have there := get?_of_mem distinct (perm.subset (mem_of_get? found'))
      rw [found] at there
      cases there

end Named

namespace Stage

theorem requested_foldl (names : List String) (stage : Stage) :
    (names.foldl (fun stage name => stage.request name) stage).requested =
      stage.requested ++ (names.filter fun name => !stage.requested.contains name).eraseDups := by
  induction names generalizing stage with
  | nil => simp
  | cons name rest ih =>
    rw [List.foldl_cons, ih]
    unfold request
    cases there : stage.requested.contains name with
    | true => rw [if_pos rfl, List.filter_cons, there, if_neg (by simp)]
    | false =>
      rw [if_neg Bool.false_ne_true, List.filter_cons, there, if_pos (by simp),
        List.eraseDups_cons, List.filter_filter, List.append_assoc, List.singleton_append]
      congr 3
      refine List.filter_congr fun other _ => ?_
      rw [List.contains_append, Bool.not_or, Bool.and_comm, List.contains_cons, List.contains_nil,
        Bool.or_false]

end Stage

class FixedOutputs (μ : Type) [ManagedBuffers μ] : Prop where
  isOutput_store : ∀ {name : String} {tensor : Tensor} {buffers next : μ},
    ManagedBuffers.store name tensor buffers = .ok next → ∀ other,
      ManagedBuffers.isOutput other next = ManagedBuffers.isOutput other buffers

instance : FixedOutputs TableBuffers where
  isOutput_store stored _ := by
    rw [← Except.ok.inj stored]
    rfl

instance : FixedOutputs Buffers where
  isOutput_store := by
    intro name tensor buffers next stored other
    unfold ManagedBuffers.store at stored
    change Buffers.store name tensor buffers = .ok next at stored
    unfold Buffers.store at stored
    split at stored
    · rw [← Except.ok.inj stored]
      rfl
    · split at stored
      · rw [← Except.ok.inj stored]
        rfl
      · cases stored

namespace Pipeline

variable {μ : Type} [ManagedBuffers μ] {β : Type}

def storeOutputs (managed : String → Bool) (outputs : Named Tensor) (names : List String)
    (buffers : μ) : Except Failure μ :=
  (names.filter managed).foldlM (fun buffers name =>
    match outputs.get? name with
    | some tensor => ManagedBuffers.store name tensor buffers
    | none => .ok buffers) buffers

def carriers (managed : String → Bool) (stage : Stage) (carried : String)
    (names : List String) : List String :=
  names.filter fun output => !managed output && stage.forwardedName output == carried

/-- What is left to the stages that follow under a name: the last of the outputs that carry it. -/
def handed (managed : String → Bool) (stage : Stage) (outputs : Named Tensor) (names : List String)
    (carried : String) : Option Tensor :=
  (carriers managed stage carried names).getLast?.bind outputs.get?

variable {managed : String → Bool} {stage : Stage} {outputs pool pool' : Named Tensor}
  {names : List String} {buffers buffers' : μ}

theorem storeOutputs_managed {name : String} {tensor : Tensor} (own : managed name = true)
    (found : outputs.get? name = some tensor)
    (kept : ManagedBuffers.store name tensor buffers = .ok buffers') :
    storeOutputs managed outputs (name :: names) buffers =
      storeOutputs managed outputs names buffers' := by
  rw [storeOutputs, List.filter_cons, own, if_pos rfl, List.foldlM_cons, found]
  simp only [kept]
  rfl

theorem storeOutputs_unmanaged {name : String} (own : managed name = false) :
    storeOutputs managed outputs (name :: names) buffers =
      storeOutputs managed outputs names buffers := by
  rw [storeOutputs, List.filter_cons, own, if_neg Bool.false_ne_true, storeOutputs]

theorem handed_managed {name carried : String} (own : managed name = true) :
    handed managed stage outputs (name :: names) carried =
      handed managed stage outputs names carried := by
  rw [handed, handed, carriers, carriers, List.filter_cons, own, Bool.not_true, Bool.false_and,
    if_neg Bool.false_ne_true]

theorem handed_unmanaged {name carried : String} {tensor : Tensor} (own : managed name = false)
    (found : outputs.get? name = some tensor)
    (all : ∀ other ∈ names, ∃ tensor, outputs.get? other = some tensor) :
    handed managed stage outputs (name :: names) carried =
      (handed managed stage outputs names carried).or
        (if stage.forwardedName name = carried then some tensor else none) := by
  rw [handed, handed, carriers, carriers, List.filter_cons, own, Bool.not_false, Bool.true_and]
  by_cases carries : stage.forwardedName name = carried
  · rw [if_pos carries, if_pos (beq_iff_eq.mpr carries), List.getLast?_cons, Option.bind_some]
    cases last : (names.filter fun output =>
        !managed output && stage.forwardedName output == carried).getLast? with
    | none => rw [Option.bind_none, Option.none_or, Option.getD_none, found]
    | some other =>
      have inside := List.mem_of_mem_filter (List.mem_of_getLast? last)
      obtain ⟨later, there⟩ := all other inside
      rw [Option.bind_some, Option.getD_some, there, Option.some_or]
  · rw [if_neg carries, if_neg (by simpa using carries), Option.or_none]

variable [FixedOutputs μ]

theorem deliver_returns (fixed : ∀ name, ManagedBuffers.isOutput name buffers = managed name)
    (distinct : pool.Distinct)
    (ran : Step.Returns (deliver stage outputs names pool) buffers pool' buffers') :
    (∀ name ∈ names, ∃ tensor, outputs.get? name = some tensor) ∧
      storeOutputs managed outputs names buffers = .ok buffers' ∧
      (∀ name, ManagedBuffers.isOutput name buffers' = managed name) ∧ pool'.Distinct ∧
      ∀ carried, pool'.get? carried =
        (handed managed stage outputs names carried).or (pool.get? carried) := by
  induction names generalizing pool buffers with
  | nil =>
    obtain ⟨rfl, rfl⟩ := Step.returns_pure.mp ran
    exact ⟨by simp, rfl, fixed, distinct, fun _ => rfl⟩
  | cons name rest ih =>
    obtain ⟨tensor, found, ⟨own, next, kept, passed⟩ | ⟨own, passed⟩⟩ :=
      deliver_cons_returns.mp ran
    · rw [fixed] at own
      obtain ⟨all, stored, still, unique, given⟩ := ih
        (fun other => (FixedOutputs.isOutput_store kept other).trans (fixed other)) distinct passed
      refine ⟨?_, ?_, still, unique, fun carried => ?_⟩
      · exact List.forall_mem_cons.mpr ⟨⟨tensor, found⟩, all⟩
      · exact (storeOutputs_managed own found kept).trans stored
      · rw [given, handed_managed own]
    · rw [fixed] at own
      obtain ⟨all, stored, still, unique, given⟩ :=
        ih fixed (distinct.insert (stage.forwardedName name) tensor) passed
      refine ⟨?_, ?_, still, unique, fun carried => ?_⟩
      · exact List.forall_mem_cons.mpr ⟨⟨tensor, found⟩, all⟩
      · exact (storeOutputs_unmanaged own).trans stored
      · -- a later tensor of the same carried name is found first
        rw [given, Named.get?_insert, handed_unmanaged own found all, Option.or_assoc]
        split
        · rw [Option.some_or]
        · rw [Option.none_or]

/-- A delivery that fails gives the buffers what comes first. -/
theorem deliver_fails {failure : Failure}
    (fixed : ∀ name, ManagedBuffers.isOutput name buffers = managed name)
    (failed : Step.Fails (deliver stage outputs names pool) buffers failure buffers') :
    ∃ first, first <+: names ∧ storeOutputs managed outputs first buffers = .ok buffers' := by
  induction names generalizing pool buffers with
  | nil => exact (Step.fails_pure.mp failed).elim
  | cons name rest ih =>
    obtain ⟨-, -, rfl⟩ | ⟨tensor, found, ⟨own, ⟨-, rfl⟩ | ⟨next, kept, later⟩⟩ | ⟨own, later⟩⟩ :=
      deliver_cons_fails.mp failed
    · exact ⟨[], List.nil_prefix, rfl⟩
    · exact ⟨[], List.nil_prefix, rfl⟩
    · obtain ⟨first, front, stored⟩ := ih
        (fun other => (FixedOutputs.isOutput_store kept other).trans (fixed other)) later
      refine ⟨name :: first, List.cons_prefix_cons.mpr ⟨rfl, front⟩, ?_⟩
      exact (storeOutputs_managed (fixed name ▸ own) found kept).trans stored
    · obtain ⟨first, front, stored⟩ := ih fixed later
      refine ⟨name :: first, List.cons_prefix_cons.mpr ⟨rfl, front⟩, ?_⟩
      exact (storeOutputs_unmanaged (fixed name ▸ own)).trans stored

end Pipeline

end StagedDecoding
