import Cadence.Bench.Impl.Knobs
import Cadence.Bench.Lemmas.PersistVerify
import Cadence.Bench.Lemmas.Workload

/-!
This module contains what the verdict of the disk-write benchmark rests on: its writers are compared
by the times that they take for the same number of messages.
-/

namespace Bench
namespace PersistVerify

/--
What an onlooker with a clock sees of a trial: how many messages it has counted, and in which time.
-/
structure Trial where
  total : Nat
  secs : ℚ

/--
A run of `time_writer` that has got to its end and returned `result`.
-/
def Timed (kind : WriterKind) (batch : Nat) (dur : Durability) (msgCount : Nat) (trial : Trial)
    (result : ℚ × ℚ) : Prop :=
  0 < trial.secs ∧ ∃ acts s es,
    (timeWriter kind batch dur msgCount).Reaches acts s es ∧ s.pc = .finished
      ∧ trial.total = s.total ∧ result = speeds s.total trial.secs

/--
The timings of a run of the benchmark with the given settings, and its trials.
-/
def Measured (linux : Bool) (msgsVar trialsVar : Option String)
    (seen : WriterKind → Nat → Durability → List Trial) (timings : Timings) : Prop :=
  ∀ kind ∈ writerKinds linux, ∀ batch ∈ batchSizes, ∀ dur,
    List.Forall₂ (Timed kind batch dur (msgs msgsVar).toNat) (seen kind batch dur)
        (timings kind batch dur)
      ∧
    (seen kind batch dur).length = (trials trialsVar).toNat

/--
The median of how many such trials fit into a second.
-/
def pace (seen : List Trial) : ℚ :=
  Stats.median (seen.map (·.secs⁻¹))

/--
The messages of one trial: its last batch is a whole one.
-/
def counted (batch msgCount : Nat) : Nat :=
  batch * ((msgCount + batch - 1) / batch)

def megabytes (batch msgCount : Nat) : ℚ :=
  counted batch msgCount * 64 / (1024 * 1024)

theorem batchSizes_pos {batch : Nat} (h : batch ∈ batchSizes) : 0 < batch := by
  revert h batch
  decide

theorem megabytes_nonneg (batch msgCount : Nat) : 0 ≤ megabytes batch msgCount := by
  unfold megabytes
  positivity

theorem megabytes_pos_iff {batch msgCount : Nat} (hbatch : 0 < batch)
    : 0 < megabytes batch msgCount ↔ 0 < msgCount := by
  unfold megabytes counted
  rw [div_pos_iff_of_pos_right (by norm_num), mul_pos_iff_of_pos_right (by norm_num), Nat.cast_pos,
    Nat.mul_pos_iff_of_pos_left hbatch, Nat.div_pos_iff]
  omega

section Cell

variable {kind : WriterKind} {batch : Nat} {dur : Durability} {msgCount : Nat}

theorem Timed.total_eq {trial : Trial} {result : ℚ × ℚ} (hbatch : 0 < batch)
    (h : Timed kind batch dur msgCount trial result) : trial.total = counted batch msgCount := by
  rcases h with ⟨-, acts, s, es, hreach, hfinished, htotal, -⟩
  have counts := Workload.workload_counts hreach
  rw [htotal, counts.total_of_finished hfinished, counts.batches_of_finished hbatch hfinished]
  rfl

theorem Timed.result_eq {trial : Trial} {result : ℚ × ℚ}
    (h : Timed kind batch dur msgCount trial result) : result = speeds trial.total trial.secs := by
  rcases h with ⟨-, acts, s, es, -, -, htotal, hresult⟩
  rw [htotal, hresult]

theorem Timed.snd_eq {trial : Trial} {result : ℚ × ℚ} (hbatch : 0 < batch)
    (h : Timed kind batch dur msgCount trial result)
    : result.2 = megabytes batch msgCount * trial.secs⁻¹ := by
  rw [h.result_eq, h.total_eq hbatch]
  unfold speeds megabytes
  ring

theorem map_snd_of_timed {seen : List Trial} {results : List (ℚ × ℚ)} (hbatch : 0 < batch)
    (h : List.Forall₂ (Timed kind batch dur msgCount) seen results)
    : results.map Prod.snd = (seen.map (·.secs⁻¹)).map (megabytes batch msgCount * ·) := by
  induction h with
  | nil => rfl
  | cons htimed hrest ih =>
    simp only [List.map_cons] at ih ⊢
    rw [ih, htimed.snd_eq hbatch]

theorem forall_of_timed {seen : List Trial} {results : List (ℚ × ℚ)} (hbatch : 0 < batch)
    (h : List.Forall₂ (Timed kind batch dur msgCount) seen results)
    : ∀ trial ∈ seen, 0 < trial.secs ∧ trial.total = counted batch msgCount := by
  induction h with
  | nil => simp
  | cons htimed hrest ih =>
    rw [List.forall_mem_cons]
    exact ⟨⟨htimed.1, htimed.total_eq hbatch⟩, ih⟩

end Cell

theorem megabytes_pos {msgsVar : Option String} {batch : Nat} (hbatch : batch ∈ batchSizes)
    (hmsgs : 0 < msgs msgsVar) : 0 < megabytes batch (msgs msgsVar).toNat :=
  (megabytes_pos_iff (batchSizes_pos hbatch)).mpr (UInt64.lt_iff_toNat_lt.mp hmsgs)

namespace Measured

variable {linux : Bool} {msgsVar trialsVar : Option String} {timings : Timings}
variable {seen : WriterKind → Nat → Durability → List Trial}
variable {kind : WriterKind} {batch : Nat} {dur : Durability}

theorem throughput_eq (h : Measured linux msgsVar trialsVar seen timings)
    (hkind : kind ∈ writerKinds linux) (hbatch : batch ∈ batchSizes)
    : throughput timings kind batch dur
        =
      megabytes batch (msgs msgsVar).toNat * pace (seen kind batch dur) := by
  unfold throughput pace
  rw [map_snd_of_timed (batchSizes_pos hbatch) (h kind hkind batch hbatch dur).1,
    Stats.median_map_mul (megabytes_nonneg _ _)]

theorem pace_pos_iff (h : Measured linux msgsVar trialsVar seen timings)
    (hkind : kind ∈ writerKinds linux) (hbatch : batch ∈ batchSizes)
    : 0 < pace (seen kind batch dur) ↔ 0 < trials trialsVar := by
  rcases h kind hkind batch hbatch dur with ⟨htimed, hlength⟩
  have hpos : 0 < trials trialsVar ↔ seen kind batch dur ≠ [] := by
    rw [UInt64.lt_iff_toNat_lt, ← hlength]
    exact List.length_pos_iff
  rw [hpos]
  constructor
  . intro hpace hnil
    rw [hnil] at hpace
    simp [pace, Stats.median, Stats.sort] at hpace
  . intro hne
    apply Stats.median_pos
    . simpa using hne
    . intro a ha
      rcases List.mem_map.mp ha with ⟨trial, htrial, rfl⟩
      apply inv_pos.mpr
      apply (forall_of_timed (batchSizes_pos hbatch) htimed trial htrial).1

theorem std_pos_iff (h : Measured linux msgsVar trialsVar seen timings) (hbatch : batch ∈ batchSizes)
    : 0 < throughput timings .stdBufWriter batch dur ↔ 0 < msgs msgsVar ∧ 0 < trials trialsVar := by
  have hstd := stdBufWriter_mem_writerKinds linux
  have hmegabytes := @megabytes_pos_iff batch (msgs msgsVar).toNat (batchSizes_pos hbatch)
  have hpace : 0 < pace (seen .stdBufWriter batch dur) ↔ 0 < trials trialsVar :=
    h.pace_pos_iff hstd hbatch
  rw [h.throughput_eq hstd hbatch, ← hpace, UInt64.lt_iff_toNat_lt, UInt64.toNat_zero, ← hmegabytes]
  constructor
  . intro hpos
    have hne := hpos.ne'
    have hmegabytes := (megabytes_nonneg batch (msgs msgsVar).toNat).lt_of_ne
      (left_ne_zero_of_mul hne).symm
    exact ⟨hmegabytes, (mul_pos_iff_of_pos_left hmegabytes).mp hpos⟩
  . rintro ⟨hmegabytes, hpace⟩
    exact mul_pos hmegabytes hpace

theorem gains_iff (h : Measured linux msgsVar trialsVar seen timings) (hlinux : linux = true)
    (hbatch : batch ∈ batchSizes) (hmsgs : 0 < msgs msgsVar)
    : Gains timings dur batch
        ↔
      1.5 * pace (seen .stdBufWriter batch dur) ≤ pace (seen .ioUringWriteFixed batch dur) := by
  unfold Gains
  rw [h.throughput_eq (stdBufWriter_mem_writerKinds linux) hbatch,
    h.throughput_eq (ioUringWriteFixed_mem_writerKinds_iff.mpr hlinux) hbatch, mul_left_comm]
  apply mul_le_mul_iff_right₀ (megabytes_pos hbatch hmsgs)

end Measured

/--
All trials of a group count the same number of messages, so the ratios and the verdict compare how
often they fit into a second. Without messages or without trials there are no ratios and no pass.
-/
structure ComparesTimes (linux : Bool) (msgsVar trialsVar : Option String)
    (seen : WriterKind → Nat → Durability → List Trial) (timings : Timings) : Prop where
  totals : ∀ kind ∈ writerKinds linux, ∀ batch ∈ batchSizes, ∀ dur, ∀ trial ∈ seen kind batch dur,
    trial.total = counted batch (msgs msgsVar).toNat
  ratios : ∀ r ∈ (main linux timings).1,
    r.ratioVsStd
      =
    if 0 < msgs msgsVar ∧ 0 < trials trialsVar then
      some (pace (seen r.writer r.batchSize r.durability)
        / pace (seen .stdBufWriter r.batchSize r.durability))
    else
      none
  passes : (main linux timings).2 = passLine
      ↔
    linux = true ∧ 0 < msgs msgsVar ∧ 0 < trials trialsVar ∧ ∃ dur batch, batch ∈ batchSizes
      ∧ 64 ≤ batch
      ∧ 1.5 * pace (seen .stdBufWriter batch dur) ≤ pace (seen .ioUringWriteFixed batch dur)

theorem verdict_of_times {linux : Bool} {msgsVar trialsVar : Option String} {timings : Timings}
    {seen : WriterKind → Nat → Durability → List Trial}
    (h : Measured linux msgsVar trialsVar seen timings)
    : ComparesTimes linux msgsVar trialsVar seen timings where
  totals := by
    intro kind hkind batch hbatch dur trial htrial
    exact (forall_of_timed (batchSizes_pos hbatch) (h kind hkind batch hbatch dur).1 trial htrial).2
  ratios := by
    intro r hr
    rw [(main_ratios hr).2]
    rcases mem_main.mp hr with ⟨dur, batch, kind, hbatch, hkind, rfl⟩
    rw [finalCell_writer, finalCell_batchSize, finalCell_durability]
    apply if_ctx_congr (h.std_pos_iff hbatch) _ (fun _ => rfl)
    rintro ⟨hmsgs, -⟩
    rw [h.throughput_eq hkind hbatch, h.throughput_eq (stdBufWriter_mem_writerKinds linux) hbatch,
      mul_div_mul_left _ _ (megabytes_pos hbatch hmsgs).ne']
  passes := by
    rw [main_passes_iff]
    constructor
    . rintro ⟨hlinux, dur, batch, hbatch, hlarge, hpos, hgains⟩
      rcases (h.std_pos_iff hbatch).mp hpos with ⟨hmsgs, htrials⟩
      exact ⟨hlinux, hmsgs, htrials, dur, batch, hbatch, hlarge,
        (h.gains_iff hlinux hbatch hmsgs).mp hgains⟩
    . rintro ⟨hlinux, hmsgs, htrials, dur, batch, hbatch, hlarge, hpace⟩
      exact ⟨hlinux, dur, batch, hbatch, hlarge, (h.std_pos_iff hbatch).mpr ⟨hmsgs, htrials⟩,
        (h.gains_iff hlinux hbatch hmsgs).mpr hpace⟩

/--
Trials may take any times.
-/
theorem exists_measured (linux : Bool) (msgsVar : Option String) {trialsVar : Option String}
    (secs : WriterKind → Nat → Durability → List ℚ)
    (hpos : ∀ kind batch dur, ∀ time ∈ secs kind batch dur, 0 < time)
    (hlength : ∀ kind batch dur, (secs kind batch dur).length = (trials trialsVar).toNat)
    : ∃ seen timings, Measured linux msgsVar trialsVar seen timings
        ∧ ∀ kind batch dur, (seen kind batch dur).map Trial.secs = secs kind batch dur := by
  let msgCount := (msgs msgsVar).toNat
  have htimed : ∀ kind batch dur time, batch ∈ batchSizes → 0 < time →
      Timed kind batch dur msgCount ⟨counted batch msgCount, time⟩
        (speeds (counted batch msgCount) time) := by
    intro kind batch dur time hbatch htime
    have hbatch := batchSizes_pos hbatch
    rcases Workload.exists_finished (c := ⟨buildWriter kind batch, batch, dur = .syncPerBatch,
      msgCount⟩) hbatch with ⟨acts, s, es, hreach, hfinished⟩
    have counts := Workload.workload_counts hreach
    have htotal : counted batch msgCount = s.total := by
      rw [counts.total_of_finished hfinished, counts.batches_of_finished hbatch hfinished]
      rfl
    exact ⟨htime, acts, s, es, hreach, hfinished, htotal, by rw [htotal]⟩
  refine ⟨fun kind batch dur => (secs kind batch dur).map (⟨counted batch msgCount, ·⟩),
    fun kind batch dur => (secs kind batch dur).map (speeds (counted batch msgCount)), ?_, ?_⟩
  . intro kind _ batch hbatch dur
    refine ⟨?_, by rw [List.length_map, hlength]⟩
    rw [List.forall₂_map_left_iff, List.forall₂_map_right_iff, List.forall₂_same]
    intro time htime
    exact htimed kind batch dur time hbatch (hpos kind batch dur time htime)
  . intro kind batch dur
    simp [Function.comp_def]

def threeTimes : WriterKind → List ℚ
  | .stdBufWriter => [3, 6, 3]
  | .ioUringWrite => [2, 5, 4]
  | .ioUringWriteFixed => [1, 4, 2]

/--
The median of `WriteFixed` is two seconds and that of `StdWriter` three, which is just enough.
-/
theorem verdict_of_times_hundred
    : ∃ seen timings, Measured true (some "100") (some "3") seen timings
        ∧
      (∀ kind batch dur, (seen kind batch dur).map Trial.secs = threeTimes kind)
        ∧
      (main true timings).2 = passLine
        ∧
      ComparesTimes true (some "100") (some "3") seen timings := by
  have hpos : ∀ kind, ∀ time ∈ threeTimes kind, 0 < time := by
    intro kind
    cases kind <;> simp [threeTimes]
  have hlength : ∀ kind, (threeTimes kind).length = (trials (some "3")).toNat := by
    intro kind
    cases kind <;> decide +kernel
  rcases exists_measured true (some "100") (fun kind _ _ => threeTimes kind)
    (fun kind _ _ => hpos kind) (fun kind _ _ => hlength kind) with ⟨seen, timings, h, hsecs⟩
  have compares := verdict_of_times h
  have hpace : ∀ kind batch dur, pace (seen kind batch dur)
      = Stats.median ((threeTimes kind).map (·⁻¹)) := by
    intro kind batch dur
    unfold pace
    rw [← hsecs kind batch dur, List.map_map]
    rfl
  refine ⟨seen, timings, h, hsecs, ?_, compares⟩
  rw [compares.passes]
  refine ⟨rfl, by decide +kernel, by decide +kernel, .syncEnd, 64, by decide, by decide, ?_⟩
  rw [hpace, hpace]
  decide +kernel

end PersistVerify
end Bench
