import Mathlib.Data.List.Nodup
import StagedDecoding.Proofs.Step
import StagedDecoding.Session.LayerCache

/-! The names of the layers.

A pattern has the number of a layer put in every place, so that its digits may touch those of the
pattern or of the next place. Still the number can be told from the name: all places are of one
length, so names of one length have numbers of one length, and these can be compared in the first
place. A pattern without a place gives every layer the same name.
-/

set_option autoImplicit false

namespace StagedDecoding

variable {pattern : String} {layers : Nat}

def places : List Char → Nat
  | [] => 0
  | '%' :: 'd' :: rest => places rest + 1
  | _ :: rest => places rest

theorem places_pos {chars : List Char} : 0 < places chars ↔ ['%', 'd'] <:+: chars := by
  fun_induction places chars with
  | case1 => simp
  | case2 rest ih => exact iff_of_true (Nat.succ_pos _) ⟨[], rest, rfl⟩
  | case3 c rest unmarked ih =>
    rw [ih, List.infix_cons_iff, or_iff_right]
    rintro ⟨rest', same⟩
    obtain ⟨rfl, rfl⟩ := List.cons.inj same
    exact unmarked rest' rfl rfl

theorem expandPattern_length (digits chars : List Char) :
    (expandPattern digits chars).length =
      (expandPattern [] chars).length + places chars * digits.length := by
  fun_induction places chars with
  | case1 => simp [expandPattern]
  | case2 rest ih =>
    simp only [expandPattern, List.length_append, List.length_nil, ih, Nat.succ_mul]
    omega
  | case3 c rest unmarked ih =>
    simp only [expandPattern.eq_3 _ _ _ unmarked, List.length_cons, ih]
    omega

theorem expandPattern_cancel {one other chars : List Char} (placed : 0 < places chars)
    (long : one.length = other.length)
    (same : expandPattern one chars = expandPattern other chars) : one = other := by
  fun_induction places chars with
  | case1 => simp at placed
  | case2 rest ih => exact (List.append_inj same long).1
  | case3 c rest unmarked ih =>
    simp only [expandPattern.eq_3 _ _ _ unmarked] at same
    exact ih placed (List.cons.inj same).2

theorem expandPattern_unplaced {digits chars : List Char} (unplaced : places chars = 0) :
    expandPattern digits chars = chars := by
  fun_induction places chars with
  | case1 => rfl
  | case2 rest ih => simp at unplaced
  | case3 c rest unmarked ih => rw [expandPattern.eq_3 _ _ _ unmarked, ih unplaced]

theorem layerName_unplaced (unplaced : ¬ ['%', 'd'] <:+: pattern.toList) (layer : Nat) :
    layerName pattern layer = pattern := by
  have none := Nat.eq_zero_of_not_pos (mt places_pos.mp unplaced)
  rw [layerName, expandPattern_unplaced none, String.ofList_toList]

/-- Layers have different names exactly if the pattern has a place for their numbers. -/
theorem layerName_injective_iff :
    Function.Injective (layerName pattern) ↔ ['%', 'd'] <:+: pattern.toList := by
  constructor
  · intro injective
    by_contra unplaced
    have same : layerName pattern 0 = layerName pattern 1 := by
      rw [layerName_unplaced unplaced, layerName_unplaced unplaced]
    exact absurd (injective same) (by decide)
  · intro placed i j same
    have some := places_pos.mpr placed
    have expanded := String.ofList_injective same
    have long := congrArg List.length expanded
    rw [expandPattern_length i.repr.toList, expandPattern_length j.repr.toList] at long
    have digits := expandPattern_cancel some
      (Nat.eq_of_mul_eq_mul_left some (Nat.add_left_cancel long)) expanded
    -- a number is read back from its digits
    have read : ∀ n : Nat, Nat.ofDigitChars 10 n.repr.toList 0 = n := fun n => by
      rw [Nat.toList_repr, Nat.ofDigitChars_ten_toDigits]
    rw [← read i, ← read j, digits]

def layerSeries (pattern : String) (layers : Nat) : List String :=
  (List.range layers).map (layerName pattern)

theorem layerSeries_nodup : (layerSeries pattern layers).Nodup ↔
    ['%', 'd'] <:+: pattern.toList ∨ layers ≤ 1 := by
  constructor
  · refine fun distinct => or_iff_not_imp_left.mpr fun unplaced => ?_
    have same : layerSeries pattern layers = List.replicate layers pattern := by
      rw [layerSeries, List.map_congr_left fun layer _ => layerName_unplaced unplaced layer,
        List.map_const', List.length_range]
    exact List.nodup_replicate.mp (same ▸ distinct)
  · rintro (placed | few)
    · exact List.nodup_range.map (layerName_injective_iff.mpr placed)
    · rcases Nat.le_one_iff_eq_zero_or_eq_one.mp few with rfl | rfl <;> simp [layerSeries]

namespace LayerCache

variable {decoder : DecoderConfig} {rows : Nat} {cache : LayerCache}

/-- The slots of a cache, with those of the keys and of the values of every layer in turn. Each kind
has the names that two patterns give to the layers. -/
structure Slotted (decoder : DecoderConfig) (cache : LayerCache)
    (keys values : List CacheSlot) : Prop where
  slots : cache.slots = (keys.zip values).flatMap fun layer => [layer.1, layer.2]
  pastKeys : keys.map (·.pastName) = layerSeries decoder.inputs.pastKeys decoder.layers
  pastValues : values.map (·.pastName) = layerSeries decoder.inputs.pastValues decoder.layers
  presentKeys : keys.map (·.presentName) = layerSeries decoder.outputs.presentKeys decoder.layers
  presentValues :
    values.map (·.presentName) = layerSeries decoder.outputs.presentValues decoder.layers

theorem exists_slotted (created : ofConfig decoder rows = .ok cache) :
    ∃ keys values, Slotted decoder cache keys values := by
  simp only [ofConfig, Outcome.bind_eq_ok, Outcome.pure_eq_ok] at created
  obtain ⟨type, -, rfl⟩ := created
  let slot (past present : String) (layer : Nat) : CacheSlot :=
    ⟨layerName past layer, layerName present layer,
      .filled type [rows, decoder.cacheHeads, 0, decoder.headSize] (.whole 0), none⟩
  let layered (past present : String) : List CacheSlot :=
    (List.range decoder.layers).map (slot past present)
  refine ⟨layered decoder.inputs.pastKeys decoder.outputs.presentKeys,
    layered decoder.inputs.pastValues decoder.outputs.presentValues, ⟨?_, ?_, ?_, ?_, ?_⟩⟩
  · rw [List.zip_map', List.flatMap_map]
  all_goals exact List.map_map

/-- A pattern gives different names to all layers exactly if it has a place for their numbers. So of
the names that a new cache takes from one pattern, none are equal if the pattern has a place, and
all are if it has none. -/
theorem layer_names_apart (created : ofConfig decoder rows = .ok cache) :
    (∀ pattern, (∀ i j, i ≠ j → layerName pattern i ≠ layerName pattern j) ↔
      ['%', 'd'] <:+: pattern.toList) ∧
    ∃ keys values, Slotted decoder cache keys values ∧
      ∀ pattern, (layerSeries pattern decoder.layers).Nodup ↔
        ['%', 'd'] <:+: pattern.toList ∨ decoder.layers ≤ 1 := by
  obtain ⟨keys, values, slotted⟩ := exists_slotted created
  refine ⟨fun pattern => ?_, keys, values, slotted, fun _ => layerSeries_nodup⟩
  rw [← layerName_injective_iff]
  constructor
  · intro apart i j same
    by_contra differ
    exact apart i j differ same
  · intro injective i j differ same
    exact differ (injective same)

def crowded : DecoderConfig := { DecoderConfig.standard with
  layers := 12
  inputs := { InputNames.standard with pastKeys := "%d%d", pastValues := "1%d1" }
  outputs := { OutputNames.standard with presentKeys := "%%d%d%", presentValues := "%d.%" } }

theorem crowded_names_apart : ∃ cache, ofConfig crowded 1 = .ok cache ∧
    ∃ keys values, Slotted crowded cache keys values ∧
      keys.map (·.pastName) = ["00", "11", "22", "33", "44", "55", "66", "77", "88", "99", "1010",
        "1111"] ∧
      (keys.map (·.pastName)).Nodup ∧ (values.map (·.pastName)).Nodup ∧
      (keys.map (·.presentName)).Nodup ∧ (values.map (·.presentName)).Nodup := by
  have created : ofConfig crowded 1 = .ok _ := rfl
  obtain ⟨-, keys, values, slotted, distinct⟩ := layer_names_apart created
  have placed : ∀ pattern ∈ ["%d%d", "1%d1", "%%d%d%", "%d.%"],
      (layerSeries pattern crowded.layers).Nodup := fun pattern member =>
    (distinct pattern).mpr (.inl (places_pos.mp (by revert pattern; decide +kernel)))
  refine ⟨_, created, keys, values, slotted, ?_, ?_, ?_, ?_, ?_⟩
  · rw [slotted.pastKeys]
    decide +kernel
  · exact slotted.pastKeys ▸ placed _ (by simp [crowded])
  · exact slotted.pastValues ▸ placed _ (by simp [crowded])
  · exact slotted.presentKeys ▸ placed _ (by simp [crowded])
  · exact slotted.presentValues ▸ placed _ (by simp [crowded])

end LayerCache

end StagedDecoding
