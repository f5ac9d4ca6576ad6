import ZydecoDb.Sstable
import ZydecoDb.Lib.Float64

namespace ZydecoDb

open Lib

structure CompactionConfig where
  l0Trigger : Nat
  levelSizeMultiplier : Nat
  l1TargetBytes : Nat
  targetFileBytes : Nat
  maxLevel : Nat
  l2GcMinReclaimBytes : Nat
  optimizeFiltersForHits : Bool
deriving DecidableEq, Repr

def CompactionConfig.default : CompactionConfig where
  l0Trigger := 4
  levelSizeMultiplier := 10
  l1TargetBytes := 256 * 1024 * 1024
  targetFileBytes := 64 * 1024 * 1024
  maxLevel := 2
  l2GcMinReclaimBytes := 4 * 1024 * 1024
  optimizeFiltersForHits := true

structure CompactionJob where
  inputs : List Nat
  inputLevel : Nat
  outputLevel : Nat
deriving DecidableEq, Repr

def overlaps (aMin aMax bMin bMax : Bytes) : Bool := !(aMax < bMin || bMax < aMin)

def SstableMeta.overlapsSpan (m : SstableMeta) (span : Bytes × Bytes) : Bool :=
  overlaps m.minKey m.maxKey span.1 span.2

def keySpan : List SstableMeta → Option (Bytes × Bytes)
  | [] => none
  | first :: rest =>
    some (rest.foldl (fun span m =>
      (if m.minKey < span.1 then m.minKey else span.1,
        if span.2 < m.maxKey then m.maxKey else span.2)) (first.minKey, first.maxKey))

def sameLevelCompactionWouldMakeProgress (inputMetas : List SstableMeta) (targetFileBytes : Nat) :
    Bool :=
  if inputMetas.length < 2 then false
  else if inputMetas.any fun m => m.sizeBytes < targetFileBytes / 2 then true
  else !decide (inputMetas.Pairwise fun a b => overlaps a.minKey a.maxKey b.minKey b.maxKey = false)

namespace CompactionPlanner

variable (metas : List SstableMeta) (cfg : CompactionConfig)

def atLevel (level : Nat) : List SstableMeta := metas.filter fun m => m.level = level

def levelBytes (level : Nat) : Nat := ((atLevel metas level).map SstableMeta.sizeBytes).sum

def levelFileCount (level : Nat) : Nat := (atLevel metas level).length

def minLevelBytes : Nat := cfg.l1TargetBytes / max cfg.levelSizeMultiplier 1

def nominalMaxLevelTarget : Nat :=
  (List.range (cfg.maxLevel - 1)).foldl (fun t _ => min u64Max (t * cfg.levelSizeMultiplier))
    cfg.l1TargetBytes

/-- The byte target of the level that many levels above the bottom one: the bottom is sized by what it
holds, each level above by the one below it, and a target under the minimum is none. -/
def targetAbove : Nat → Nat
  | 0 =>
    let maxActual := levelBytes metas cfg.maxLevel
    if 0 < maxActual then maxActual else nominalMaxLevelTarget cfg
  | d + 1 =>
    let computed := targetAbove d / max cfg.levelSizeMultiplier 1
    if minLevelBytes cfg ≤ computed then computed else 0

def effectiveLevelTarget (level : Nat) : Nat :=
  if level = 0 then 0 else targetAbove metas cfg (cfg.maxLevel - level)

def middleLevels : List Nat := List.range' 1 (cfg.maxLevel - 1)

def baseLevel : Nat :=
  ((middleLevels cfg).find? fun level => 0 < effectiveLevelTarget metas cfg level).getD cfg.maxLevel

def levelByteScore (level target : Nat) : Rat :=
  if 0 < target then f64Div (f64OfNat (levelBytes metas level)) (f64OfNat target) else 0

def computeLevelScores : List (Nat × Rat) :=
  let l0FileScore := f64Div (f64OfNat (levelFileCount metas 0)) (f64OfNat (max cfg.l0Trigger 1))
  (0, max l0FileScore (levelByteScore metas 0 cfg.l1TargetBytes)) ::
    (middleLevels cfg).map fun level =>
      (level, levelByteScore metas level (effectiveLevelTarget metas cfg level))

def levelsByScore : List Nat :=
  (((computeLevelScores metas cfg).filter fun p => 1 ≤ p.2).insertionSort
    fun a b => b.2 < a.2 ∨ a.2 = b.2 ∧ a.1 ≤ b.1).map Prod.fst

def planL0 : Option CompactionJob :=
  let l0 := atLevel metas 0
  if l0.length < cfg.l0Trigger then none
  else
    let base := baseLevel metas cfg
    (keySpan l0).map fun span =>
      { inputs := l0.map SstableMeta.id ++
          ((atLevel metas base).filter fun m => m.overlapsSpan span).map SstableMeta.id
        inputLevel := 0
        outputLevel := base }

def planLevel (level : Nat) : Option CompactionJob :=
  let target := effectiveLevelTarget metas cfg level
  if target = 0 then none
  else if levelBytes metas level ≤ target then none
  else
    ((atLevel metas level).argmin SstableMeta.id).map fun oldest =>
      { inputs := oldest.id :: ((atLevel metas (level + 1)).filter fun m =>
          m.overlapsSpan (oldest.minKey, oldest.maxKey)).map SstableMeta.id
        inputLevel := level
        outputLevel := level + 1 }

def planL2Gc : Option CompactionJob :=
  ((atLevel metas cfg.maxLevel).argmin SstableMeta.id).bind fun oldest =>
    let inputs := oldest.id :: ((atLevel metas cfg.maxLevel).filter fun m =>
      m.id ≠ oldest.id && m.overlapsSpan (oldest.minKey, oldest.maxKey)).map SstableMeta.id
    if inputs.length < 2 then none
    else
      let inputBytes := ((metas.filter fun m => m.id ∈ inputs).map SstableMeta.sizeBytes).sum
      if inputBytes - inputBytes / 2 < cfg.l2GcMinReclaimBytes then none
      else some { inputs, inputLevel := cfg.maxLevel, outputLevel := cfg.maxLevel }

def planForLevel (level : Nat) : Option CompactionJob :=
  if level = 0 then planL0 metas cfg else planLevel metas cfg level

def plan : Option CompactionJob :=
  ((levelsByScore metas cfg).findSome? (planForLevel metas cfg)).or (planL2Gc metas cfg)

end CompactionPlanner

/-- The engine's own checks of a plan: every input is in the catalog once, and a job within one level
other than the bottom must make progress. -/
def planCompactionJob (metas : List SstableMeta) (cfg : CompactionConfig) :
    Option (CompactionJob × List SstableMeta) :=
  (CompactionPlanner.plan metas cfg).bind fun job =>
    let inputMetas := metas.filter fun m => m.id ∈ job.inputs
    if inputMetas.length ≠ job.inputs.length then none
    else if job.inputLevel = job.outputLevel ∧
        ¬ (job.inputLevel = job.outputLevel ∧ job.inputLevel = cfg.maxLevel) ∧
        sameLevelCompactionWouldMakeProgress inputMetas cfg.targetFileBytes = false then none
    else some (job, inputMetas)

namespace CompactionPlanner

variable {metas : List SstableMeta} {cfg : CompactionConfig}

theorem mem_atLevel {level : Nat} {m : SstableMeta} :
    m ∈ atLevel metas level ↔ m ∈ metas ∧ m.level = level := by
  simp [atLevel]

theorem mem_middleLevels {level : Nat} : level ∈ middleLevels cfg ↔ 1 ≤ level ∧ level < cfg.maxLevel := by
  simp only [middleLevels, List.mem_range'_1]
  omega

theorem baseLevel_cases : baseLevel metas cfg = cfg.maxLevel ∨
    1 ≤ baseLevel metas cfg ∧ baseLevel metas cfg < cfg.maxLevel := by
  unfold baseLevel
  cases h : (middleLevels cfg).find? fun level => 0 < effectiveLevelTarget metas cfg level with
  | none => exact Or.inl rfl
  | some level => exact Or.inr (mem_middleLevels.mp (List.mem_of_find?_eq_some h))

theorem mem_levelsByScore {level : Nat} (h : level ∈ levelsByScore metas cfg) :
    level = 0 ∨ 1 ≤ level ∧ level < cfg.maxLevel := by
  simp only [levelsByScore, List.mem_map, List.mem_insertionSort, List.mem_filter] at h
  obtain ⟨p, ⟨hp, -⟩, rfl⟩ := h
  simp only [computeLevelScores, List.mem_cons, List.mem_map] at hp
  rcases hp with rfl | ⟨level, hl, rfl⟩
  · exact Or.inl rfl
  · exact Or.inr (mem_middleLevels.mp hl)

theorem plan_cases {job : CompactionJob} (h : plan metas cfg = some job) :
    planL0 metas cfg = some job ∨
      (∃ level, 1 ≤ level ∧ level < cfg.maxLevel ∧ planLevel metas cfg level = some job) ∨
      planL2Gc metas cfg = some job := by
  rw [plan, Option.or_eq_some_iff] at h
  rcases h with h | ⟨-, h⟩
  · obtain ⟨level, hl, hp⟩ := List.exists_of_findSome?_eq_some h
    unfold planForLevel at hp
    split at hp
    next => exact Or.inl hp
    next hne =>
      obtain ⟨h1, h2⟩ := (mem_levelsByScore hl).resolve_left hne
      exact Or.inr (Or.inl ⟨level, h1, h2, hp⟩)
  · exact Or.inr (Or.inr h)

end CompactionPlanner

end ZydecoDb
