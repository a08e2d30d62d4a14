import Cadence.Bench.Impl.PersistVerify
import Cadence.Stats.Median

/-!
This module contains what the passes of the disk-write benchmark write into each cell of the table,
and when its verdict is the one of the plan.
-/

namespace Bench
namespace PersistVerify

theorem medianF64_eq (xs : List ℚ) : medianF64 xs = Stats.median xs := by
  unfold medianF64
  split
  . next h =>
    subst h
    simp [Stats.median, Stats.sort]
  . simp only [List.length_insertionSort]
    rfl

def throughput (timings : Timings) (kind : WriterKind) (batch : Nat) (dur : Durability) : ℚ :=
  Stats.median ((timings kind batch dur).map Prod.snd)

section Passes

variable (timings : Timings) (kinds : List WriterKind) (batch : Nat) (dur : Durability)

theorem runCell_median (kind : WriterKind)
    : (runCell timings kind batch dur).throughputMbSMedian = throughput timings kind batch dur := by
  apply medianF64_eq

/--
A cell after both passes.
-/
def finalCell (kind : WriterKind) : CellResult :=
  if 0 < throughput timings .stdBufWriter batch dur then
    fillRatio (throughput timings .stdBufWriter batch dur) batch (runCell timings kind batch dur)
  else
    runCell timings kind batch dur

theorem finalCell_writer (kind : WriterKind)
    : (finalCell timings batch dur kind).writer = kind := by
  unfold finalCell
  split <;> rfl

theorem finalCell_batchSize (kind : WriterKind)
    : (finalCell timings batch dur kind).batchSize = batch := by
  unfold finalCell
  split <;> rfl

theorem finalCell_durability (kind : WriterKind)
    : (finalCell timings batch dur kind).durability = dur := by
  unfold finalCell
  split <;> rfl

theorem finalCell_median (kind : WriterKind)
    : (finalCell timings batch dur kind).throughputMbSMedian = throughput timings kind batch dur := by
  rw [← runCell_median]
  unfold finalCell
  split <;> rfl

theorem finalCell_ratio (kind : WriterKind)
    : (finalCell timings batch dur kind).ratioVsStd
        =
      if 0 < throughput timings .stdBufWriter batch dur then
        some (throughput timings kind batch dur / throughput timings .stdBufWriter batch dur)
      else
        none := by
  rw [← runCell_median timings batch dur kind]
  unfold finalCell
  split <;> rfl

theorem finalCell_passes_iff (kind : WriterKind)
    : (finalCell timings batch dur kind).passes15x = some true
        ↔
      kind = .ioUringWriteFixed ∧ 64 ≤ batch ∧ 0 < throughput timings .stdBufWriter batch dur
        ∧ 1.5 * throughput timings .stdBufWriter batch dur ≤ throughput timings kind batch dur := by
  unfold finalCell
  split
  . next hpos =>
    unfold fillRatio
    dsimp only
    simp only [runCell_median, le_div_iff₀ hpos]
    by_cases hkind : kind = .ioUringWriteFixed
    . simp [runCell, hkind, hpos, and_comm]
    . simp [runCell, hkind]
  . next hpos => simp [runCell, hpos]

theorem foldl_visitKind (results : List CellResult) (stdMed : Option ℚ)
    : kinds.foldl (visitKind timings batch dur) (results, stdMed)
        =
      (results ++ kinds.map fun kind => runCell timings kind batch dur,
        if .stdBufWriter ∈ kinds then some (throughput timings .stdBufWriter batch dur)
        else stdMed) := by
  induction kinds generalizing results stdMed with
  | nil => simp
  | cons kind kinds ih =>
    rw [List.foldl_cons, visitKind, ih]
    by_cases hkind : kind = .stdBufWriter
    . simp [hkind, runCell_median]
    . simp [hkind, Ne.symm hkind]

variable {timings kinds batch dur}

/--
The second pass reaches the cells of its own group only, which are the ones just pushed.
-/
theorem runGroup_eq {results : List CellResult} (hstd : .stdBufWriter ∈ kinds)
    (hother : ∀ r ∈ results, ¬ (r.batchSize = batch ∧ r.durability = dur))
    : runGroup timings kinds dur results batch
        =
      results ++ kinds.map (finalCell timings batch dur) := by
  unfold runGroup
  rw [foldl_visitKind, if_pos hstd]
  dsimp only
  by_cases hpos : 0 < throughput timings .stdBufWriter batch dur
  . have hold : ∀ r ∈ results, (if r.batchSize = batch ∧ r.durability = dur then
        fillRatio (throughput timings .stdBufWriter batch dur) batch r else r) = r :=
      fun r hr => if_neg (hother r hr)
    rw [Option.filter_some, if_pos (decide_eq_true hpos)]
    dsimp only
    unfold secondPass
    rw [List.map_append, List.map_map, List.map_congr_left hold, List.map_id']
    congr 1
    apply List.map_congr_left
    intro kind _
    unfold finalCell
    rw [if_pos hpos]
    exact if_pos ⟨rfl, rfl⟩
  . rw [Option.filter_some, if_neg (by simpa using hpos)]
    dsimp only
    congr 1
    apply List.map_congr_left
    intro kind _
    unfold finalCell
    rw [if_neg hpos]

theorem foldl_runGroup {results : List CellResult} {batches : List Nat}
    (hstd : .stdBufWriter ∈ kinds) (hnodup : batches.Nodup)
    (hother : ∀ r ∈ results, r.durability = dur → r.batchSize ∉ batches)
    : batches.foldl (runGroup timings kinds dur) results
        =
      results ++ batches.flatMap fun batch => kinds.map (finalCell timings batch dur) := by
  induction batches generalizing results with
  | nil => simp
  | cons batch batches ih =>
    have hbatch := List.nodup_cons.mp hnodup
    rw [List.foldl_cons, runGroup_eq hstd, ih hbatch.2]
    . simp
    . intro r hr hdur
      rcases List.mem_append.mp hr with hr | hr
      . intro hmem
        exact hother r hr hdur (List.mem_cons_of_mem _ hmem)
      . rcases List.mem_map.mp hr with ⟨kind, -, rfl⟩
        rw [finalCell_batchSize]
        exact hbatch.1
    . rintro r hr ⟨rfl, hdur⟩
      exact hother r hr hdur List.mem_cons_self

theorem runAll_eq (hstd : .stdBufWriter ∈ kinds)
    : runAll timings kinds
        =
      [Durability.syncEnd, .syncPerBatch].flatMap fun dur =>
        batchSizes.flatMap fun batch => kinds.map (finalCell timings batch dur) := by
  have hnodup : batchSizes.Nodup := by decide
  have hnone : ∀ r ∈ ([] : List CellResult), r.durability = .syncEnd → r.batchSize ∉ batchSizes := by
    simp
  unfold runAll
  rw [List.foldl_cons, List.foldl_cons, List.foldl_nil, foldl_runGroup hstd hnodup hnone,
    foldl_runGroup hstd hnodup]
  . simp
  . intro r hr hdur
    simp only [List.nil_append, List.mem_flatMap, List.mem_map] at hr
    rcases hr with ⟨batch, -, kind, -, rfl⟩
    rw [finalCell_durability] at hdur
    contradiction

end Passes

theorem stdBufWriter_mem_writerKinds (linux : Bool) : .stdBufWriter ∈ writerKinds linux := by
  cases linux <;> decide

theorem ioUringWriteFixed_mem_writerKinds_iff {linux : Bool}
    : .ioUringWriteFixed ∈ writerKinds linux ↔ linux = true := by
  cases linux <;> decide

theorem mem_main {linux : Bool} {timings : Timings} {r : CellResult}
    : r ∈ (main linux timings).1
        ↔
      ∃ dur batch kind, batch ∈ batchSizes ∧ kind ∈ writerKinds linux
        ∧ r = finalCell timings batch dur kind := by
  have hdurs : ∀ dur, dur ∈ [Durability.syncEnd, .syncPerBatch] := by
    intro dur
    cases dur <;> decide
  unfold main
  dsimp only
  rw [runAll_eq (stdBufWriter_mem_writerKinds linux)]
  simp only [List.mem_flatMap, List.mem_map, hdurs, true_and]
  constructor
  . rintro ⟨dur, batch, hbatch, kind, hkind, rfl⟩
    exact ⟨dur, batch, kind, hbatch, hkind, rfl⟩
  . rintro ⟨dur, batch, kind, hbatch, hkind, rfl⟩
    exact ⟨dur, batch, hbatch, kind, hkind, rfl⟩

def passLine : String := "Claim D (WriteFixed ≥1.5× std at batch≥64): PASS (see ratio_vs_std)"

theorem claimLine_eq_iff (results : List CellResult)
    : claimLine results = passLine ↔ proven results = true := by
  unfold claimLine
  split
  . next h =>
    rw [h]
    simp only [iff_true]
    decide
  . next h =>
    simp only [h]
    decide

def Gains (timings : Timings) (dur : Durability) (batch : Nat) : Prop :=
  1.5 * throughput timings .stdBufWriter batch dur ≤ throughput timings .ioUringWriteFixed batch dur

theorem main_passes_iff {linux : Bool} {timings : Timings}
    : (main linux timings).2 = passLine
        ↔
      linux = true ∧ ∃ dur batch, batch ∈ batchSizes ∧ 64 ≤ batch
        ∧ 0 < throughput timings .stdBufWriter batch dur ∧ Gains timings dur batch := by
  have hproven : proven (main linux timings).1 = true
      ↔ ∃ r ∈ (main linux timings).1, r.passes15x = some true := by
    unfold proven
    simp only [List.any_eq_true, decide_eq_true_eq]
  have hline : (main linux timings).2 = claimLine (main linux timings).1 := rfl
  rw [hline, claimLine_eq_iff, hproven]
  constructor
  . rintro ⟨r, hr, hpasses⟩
    rcases mem_main.mp hr with ⟨dur, batch, kind, hbatch, hkind, rfl⟩
    rcases (finalCell_passes_iff timings batch dur kind).mp hpasses with ⟨rfl, hlarge, hpos, hgains⟩
    exact ⟨ioUringWriteFixed_mem_writerKinds_iff.mp hkind, dur, batch, hbatch, hlarge, hpos, hgains⟩
  . rintro ⟨hlinux, dur, batch, hbatch, hlarge, hpos, hgains⟩
    refine ⟨finalCell timings batch dur .ioUringWriteFixed, ?_, ?_⟩
    . exact mem_main.mpr
        ⟨dur, batch, _, hbatch, ioUringWriteFixed_mem_writerKinds_iff.mpr hlinux, rfl⟩
    . rw [finalCell_passes_iff]
      exact ⟨rfl, hlarge, hpos, hgains⟩

/--
What the plan asks of the table and of the last line.
-/
structure MatchesPlan (linux : Bool) (timings : Timings) : Prop where
  cells : (main linux timings).1.map (fun r => (r.durability, r.batchSize, r.writer))
    = [Durability.syncEnd, .syncPerBatch].flatMap fun dur => batchSizes.flatMap fun batch =>
        (writerKinds linux).map fun kind => (dur, batch, kind)
  ratios : ∀ r ∈ (main linux timings).1,
    r.throughputMbSMedian = throughput timings r.writer r.batchSize r.durability
      ∧ r.ratioVsStd =
        if 0 < throughput timings .stdBufWriter r.batchSize r.durability then
          some (throughput timings r.writer r.batchSize r.durability
            / throughput timings .stdBufWriter r.batchSize r.durability)
        else
          none
  verdict : (main linux timings).2 = passLine → ∃ r ∈ (main linux timings).1,
    r.writer = .ioUringWriteFixed ∧ 64 ≤ r.batchSize ∧ r.durability = .syncPerBatch
      ∧ 1.5 * throughput timings .stdBufWriter r.batchSize r.durability
        ≤ throughput timings r.writer r.batchSize r.durability

theorem main_cells (linux : Bool) (timings : Timings)
    : (main linux timings).1.map (fun r => (r.durability, r.batchSize, r.writer))
        =
      [Durability.syncEnd, .syncPerBatch].flatMap fun dur => batchSizes.flatMap fun batch =>
        (writerKinds linux).map fun kind => (dur, batch, kind) := by
  unfold main
  dsimp only
  rw [runAll_eq (stdBufWriter_mem_writerKinds linux)]
  simp only [List.map_flatMap, List.map_map]
  congr
  funext dur
  congr
  funext batch
  apply List.map_congr_left
  intro kind _
  simp only [Function.comp_apply, finalCell_writer, finalCell_batchSize, finalCell_durability]

theorem main_ratios {linux : Bool} {timings : Timings} {r : CellResult}
    (h : r ∈ (main linux timings).1)
    : r.throughputMbSMedian = throughput timings r.writer r.batchSize r.durability
        ∧
      r.ratioVsStd =
        if 0 < throughput timings .stdBufWriter r.batchSize r.durability then
          some (throughput timings r.writer r.batchSize r.durability
            / throughput timings .stdBufWriter r.batchSize r.durability)
        else
          none := by
  rcases mem_main.mp h with ⟨dur, batch, kind, -, -, rfl⟩
  rw [finalCell_writer, finalCell_batchSize, finalCell_durability]
  exact ⟨finalCell_median timings batch dur kind, finalCell_ratio timings batch dur kind⟩

/--
The table is right, but a gain that is seen under sync-end only is reported as a PASS.
-/
theorem main_matchesPlan_iff (linux : Bool) (timings : Timings)
    : MatchesPlan linux timings
        ↔
      (linux = true → (∃ batch ∈ batchSizes, 64 ≤ batch
          ∧ 0 < throughput timings .stdBufWriter batch .syncEnd ∧ Gains timings .syncEnd batch) →
        ∃ batch ∈ batchSizes, 64 ≤ batch ∧ Gains timings .syncPerBatch batch) := by
  constructor
  . rintro plan hlinux ⟨batch, hbatch, hlarge, hpos, hgains⟩
    have hpasses := main_passes_iff.mpr ⟨hlinux, .syncEnd, batch, hbatch, hlarge, hpos, hgains⟩
    rcases plan.verdict hpasses with ⟨r, hr, hwriter, hlarge', hdur, hgains'⟩
    rcases mem_main.mp hr with ⟨dur, batch', kind, hbatch', hkind, rfl⟩
    rw [finalCell_writer] at hwriter hgains'
    rw [finalCell_durability] at hdur hgains'
    rw [finalCell_batchSize] at hlarge' hgains'
    rw [hwriter, hdur] at hgains'
    exact ⟨batch', hbatch', hlarge', hgains'⟩
  . intro hgain
    refine ⟨main_cells linux timings, fun r hr => main_ratios hr, ?_⟩
    intro hpasses
    rcases main_passes_iff.mp hpasses with ⟨hlinux, dur, batch, hbatch, hlarge, hpos, hgains⟩
    -- whichever mode the PASS comes from, the durable one has a gain
    have hdurable : ∃ batch ∈ batchSizes, 64 ≤ batch ∧ Gains timings .syncPerBatch batch := by
      cases dur with
      | syncEnd => exact hgain hlinux ⟨batch, hbatch, hlarge, hpos, hgains⟩
      | syncPerBatch => exact ⟨batch, hbatch, hlarge, hgains⟩
    rcases hdurable with ⟨batch', hbatch', hlarge', hgains'⟩
    refine ⟨finalCell timings batch' .syncPerBatch .ioUringWriteFixed, ?_, ?_⟩
    . exact mem_main.mpr
        ⟨_, batch', _, hbatch', ioUringWriteFixed_mem_writerKinds_iff.mpr hlinux, rfl⟩
    . rw [finalCell_writer, finalCell_batchSize, finalCell_durability]
      exact ⟨rfl, hlarge', rfl, hgains'⟩

def bufferedGain : Timings
  | .ioUringWriteFixed, _, .syncEnd => [(3, 3)]
  | _, _, _ => [(1, 1)]

theorem throughput_bufferedGain (kind : WriterKind) (batch : Nat) (dur : Durability)
    : throughput bufferedGain kind batch dur
        =
      if kind = .ioUringWriteFixed ∧ dur = .syncEnd then 3 else 1 := by
  cases kind <;> cases dur <;> simp [throughput, bufferedGain]

theorem main_not_matchesPlan
    : ¬ ∀ (linux : Bool) (timings : Timings),
        (∀ kind batch dur, 0 ≤ throughput timings kind batch dur) → MatchesPlan linux timings := by
  intro h
  have hnonneg : ∀ kind batch dur, 0 ≤ throughput bufferedGain kind batch dur := by
    intro kind batch dur
    rw [throughput_bufferedGain]
    split <;> norm_num
  have hpasses : (main true bufferedGain).2 = passLine := by
    refine main_passes_iff.mpr ⟨rfl, .syncEnd, 64, by decide, Nat.le_refl 64, ?_, ?_⟩
    . rw [throughput_bufferedGain]
      decide
    . unfold Gains
      rw [throughput_bufferedGain, throughput_bufferedGain]
      decide +kernel
  rcases (h true bufferedGain hnonneg).verdict hpasses with ⟨r, hr, hwriter, -, hdur, hgains⟩
  rw [hwriter, hdur, throughput_bufferedGain, throughput_bufferedGain] at hgains
  revert hgains
  decide +kernel

end PersistVerify
end Bench
