import Cadence.Bench.Impl.Workload
import Cadence.Persist.Lemmas.History

/-!
This module contains what a timed run of the disk benchmarks has written when its clock is read: the
same records for every writer, as many batches as it takes to reach the wanted number, all synced.
-/

open Lts Persist

namespace Bench
namespace Workload

variable {c : Config} {s s' : State} {past es : List Output}

def Output.env? : Output → Option Env
  | .wrote env _ => some env
  | .synced _ => none

/--
The calls of `write_batch` that have returned.
-/
def calls (c : Config) (es : List Output) : List Call :=
  (es.filterMap Output.env?).map fun env => (batchMsgs c.batchSize, env)

theorem calls_append (es es' : List Output) : calls c (es ++ es') = calls c es ++ calls c es' := by
  simp [calls]

theorem length_batchMsgs (batchSize : Nat) : (batchMsgs batchSize).length = batchSize := by
  simp [batchMsgs]

theorem flatMap_fst_calls (es : List Output)
    : (calls c es).flatMap Prod.fst
        =
      (List.replicate (calls c es).length (batchMsgs c.batchSize)).flatten := by
  unfold calls
  induction es.filterMap Output.env? with
  | nil => rfl
  | cons env envs ih =>
    rw [List.map_cons, List.flatMap_cons, ih, List.length_cons, List.replicate_succ,
      List.flatten_cons]

theorem length_calls_wrote (es : List Output) (env : Env) (outcome : Outcome)
    : (calls c (es ++ [.wrote env outcome])).length = (calls c es).length + 1 := by
  rw [calls_append, List.length_append]
  rfl

theorem calls_synced (es : List Output) (error : Option Errno)
    : calls c (es ++ [.synced error]) = calls c es := by
  rw [calls_append]
  apply List.append_nil

inductive Step (c : Config) (s : State) : Act → State → List Output → Prop where
  | buffered {env log n} (hpc : s.pc = .looping) (hlt : s.total < c.msgCount)
      (hlog : Writer.writeBatch s.log (batchMsgs c.batchSize) env = (log, .ok n))
      (hsync : c.syncPerBatch = false)
    : Step c s (.writeBatch env) { s with log := log, total := s.total + n } [.wrote env (.ok n)]
  | toSync {env log n} (hpc : s.pc = .looping) (hlt : s.total < c.msgCount)
      (hlog : Writer.writeBatch s.log (batchMsgs c.batchSize) env = (log, .ok n))
      (hsync : c.syncPerBatch = true)
    : Step c s (.writeBatch env) { s with log := log, pc := .syncing n } [.wrote env (.ok n)]
  | refused {env log outcome} (hpc : s.pc = .looping) (hlt : s.total < c.msgCount)
      (hlog : Writer.writeBatch s.log (batchMsgs c.batchSize) env = (log, outcome))
      (hne : ∀ n, outcome ≠ .ok n)
    : Step c s (.writeBatch env) { s with log := log, pc := .panicked } [.wrote env outcome]
  | synced {n} (hpc : s.pc = .syncing n)
    : Step c s (.sync none) { s with synced := s.log.2, total := s.total + n, pc := .looping }
        [.synced none]
  | finished (hpc : s.pc = .looping) (hreached : c.msgCount ≤ s.total)
    : Step c s (.sync none) { s with synced := s.log.2, pc := .finished } [.synced none]
  | unsynced {errno}
    : Step c s (.sync (some errno)) { s with pc := .panicked } [.synced (some errno)]

theorem Step.of_step {a : Act} (h : s.step c a = some (s', es)) : Step c s a s' es := by
  cases a with
  | writeBatch env =>
    simp only [State.step] at h
    split at h
    . next hpc =>
      rw [Option.ite_none_right_eq_some, Option.some.injEq] at h
      rcases h with ⟨hlt, hwrote⟩
      rcases hlog : Writer.writeBatch s.log (batchMsgs c.batchSize) env with ⟨log, outcome⟩
      rw [hlog] at hwrote
      cases outcome with
      | ok n =>
        simp only [State.wrote] at hwrote
        split at hwrote <;> simp only [Prod.mk.injEq] at hwrote <;> rcases hwrote with ⟨rfl, rfl⟩
        . exact .toSync hpc hlt hlog ‹_›
        . exact .buffered hpc hlt hlog (Bool.eq_false_of_not_eq_true ‹_›)
      | err error =>
        simp only [State.wrote, Prod.mk.injEq] at hwrote
        rcases hwrote with ⟨rfl, rfl⟩
        exact .refused hpc hlt hlog (by simp)
      | panicked =>
        simp only [State.wrote, Prod.mk.injEq] at hwrote
        rcases hwrote with ⟨rfl, rfl⟩
        exact .refused hpc hlt hlog (by simp)
    . contradiction
  | sync error =>
    simp only [State.step] at h
    split at h
    . next hpc =>
      rw [Option.ite_none_left_eq_some, Option.some.injEq] at h
      cases error with
      | none =>
        simp only [State.sync, Prod.mk.injEq] at h
        rcases h with ⟨hreached, rfl, rfl⟩
        exact .finished hpc (Nat.le_of_not_lt hreached)
      | some errno =>
        simp only [State.sync, Prod.mk.injEq] at h
        rcases h with ⟨hreached, rfl, rfl⟩
        exact .unsynced
    . next n hpc =>
      rw [Option.some.injEq] at h
      cases error with
      | none =>
        simp only [State.sync, Prod.mk.injEq] at h
        rcases h with ⟨rfl, rfl⟩
        exact .synced hpc
      | some errno =>
        simp only [State.sync, Prod.mk.injEq] at h
        rcases h with ⟨rfl, rfl⟩
        exact .unsynced
    . contradiction

def Pc.pending : Pc → Nat
  | .syncing n => n
  | _ => 0

/--
Where a run is: the calls that it has made, of which `total` counts those in front of the batch that
is being synced.
-/
structure Counts (c : Config) (s : State) (es : List Output) : Prop where
  total : s.pc ≠ .panicked → s.total + s.pc.pending = c.batchSize * (calls c es).length
  -- the last batch was started below the wanted number
  needed : (calls c es).length ≠ 0 → c.batchSize * ((calls c es).length - 1) < c.msgCount
  reached : s.pc = .finished → c.msgCount ≤ s.total

namespace Counts

theorem init (c : Config) : Counts c (.init c) [] where
  total := fun _ => rfl
  needed := fun h => absurd rfl h
  reached := fun h => by contradiction

theorem total_of_looping (counts : Counts c s past) (hpc : s.pc = .looping)
    : s.total = c.batchSize * (calls c past).length := by
  have htotal := counts.total (by simp [hpc])
  rw [hpc] at htotal
  apply htotal

theorem needed_of_lt (counts : Counts c s past) (hpc : s.pc = .looping) (hlt : s.total < c.msgCount)
    (env : Env) (outcome : Outcome)
    : (calls c (past ++ [.wrote env outcome])).length ≠ 0 →
        c.batchSize * ((calls c (past ++ [.wrote env outcome])).length - 1) < c.msgCount := by
  intro _
  rw [length_calls_wrote, Nat.add_sub_cancel, ← counts.total_of_looping hpc]
  apply hlt

theorem step {a : Act} (counts : Counts c s past) (h : Step c s a s' es)
    : Counts c s' (past ++ es) := by
  cases h with
  | @buffered env log n hpc hlt hlog hsync =>
    have htotal := counts.total_of_looping hpc
    have hn := Writer.length_of_ok hlog
    rw [length_batchMsgs] at hn
    exact {
      total := by
        intro _
        rw [length_calls_wrote, Nat.mul_add, ← htotal, hpc, hn, Nat.mul_one]
        rfl
      needed := counts.needed_of_lt hpc hlt _ _
      reached := fun h => by
        rw [hpc] at h
        contradiction
    }
  | @toSync env log n hpc hlt hlog hsync =>
    have htotal := counts.total_of_looping hpc
    have hn := Writer.length_of_ok hlog
    rw [length_batchMsgs] at hn
    exact {
      total := by
        intro _
        rw [length_calls_wrote, Nat.mul_add, ← htotal, hn, Nat.mul_one]
        rfl
      needed := counts.needed_of_lt hpc hlt _ _
      reached := fun h => by contradiction
    }
  | refused hpc hlt hlog hne =>
    exact {
      total := fun h => absurd rfl h
      needed := counts.needed_of_lt hpc hlt _ _
      reached := fun h => by contradiction
    }
  | synced hpc =>
    have htotal := counts.total (by simp [hpc])
    rw [hpc] at htotal
    exact {
      total := by
        intro _
        rw [calls_synced]
        apply htotal
      needed := by
        rw [calls_synced]
        exact counts.needed
      reached := fun h => by contradiction
    }
  | finished hpc hreached =>
    exact {
      total := by
        intro _
        rw [calls_synced]
        apply counts.total_of_looping hpc
      needed := by
        rw [calls_synced]
        exact counts.needed
      reached := fun _ => hreached
    }
  | unsynced =>
    exact {
      total := fun h => absurd rfl h
      needed := by
        rw [calls_synced]
        exact counts.needed
      reached := fun h => by contradiction
    }

end Counts

theorem workload_counts {acts : List Act} (hreach : (workload c).Reaches acts s es)
    : Counts c s es := by
  apply System.reaches_inv (Counts c) _ (Counts.init c) hreach
  intro s past a s' es counts hstep
  exact counts.step (.of_step hstep)

/--
The kernel reports no failure and transfers every operation in full.
-/
def Full (c : Config) (_ : State) : Act → Prop
  | .writeBatch env => c.kind.Full (batchMsgs c.batchSize, env)
  | .sync _ => True

structure Inv (c : Config) (s : State) (es : List Output) : Prop where
  history : History c.kind [] s.log (calls c es)
  full : ∀ call ∈ calls c es, c.kind.Full call
  synced : s.pc = .finished → s.synced = s.log.2

namespace Inv

theorem init (c : Config) : Inv c (.init c) [] where
  history := .create c.kind []
  full := fun call h => absurd h List.not_mem_nil
  synced := fun h => by contradiction

theorem file_eq (inv : Inv c s es)
    : s.log.2
        =
      Message.encode (List.replicate (calls c es).length (batchMsgs c.batchSize)).flatten := by
  rw [← flatMap_fst_calls, inv.history.file_eq, Kind.wrote_nil_eq_encode_iff]
  exact complete_of_full inv.full

theorem ok_of_full (inv : Inv c s past) {env : Env} {log : Writer × File} {outcome : Outcome}
    (hfull : c.kind.Full (batchMsgs c.batchSize, env))
    (hlog : Writer.writeBatch s.log (batchMsgs c.batchSize) env = (log, outcome))
    : outcome = .ok c.batchSize := by
  have hok := inv.history.ok_of_noFailure hfull.1
  rw [hlog, length_batchMsgs] at hok
  exact hok

theorem wrote (inv : Inv c s past) {env : Env} {log : Writer × File} {outcome : Outcome}
    (hfull : c.kind.Full (batchMsgs c.batchSize, env))
    (hlog : Writer.writeBatch s.log (batchMsgs c.batchSize) env = (log, outcome))
    (hlog' : s'.log = log) (hpc : s'.pc ≠ .finished)
    : Inv c s' (past ++ [.wrote env outcome]) := by
  have hcalls : calls c (past ++ [.wrote env outcome])
      = calls c past ++ [(batchMsgs c.batchSize, env)] := by
    rw [calls_append]
    rfl
  have hhistory := (inv.history.writeBatch hfull.1.wholeSubmits
    (inv.history.ok_of_noFailure hfull.1)).2
  rw [hlog] at hhistory
  exact {
    history := by
      rw [hcalls, hlog']
      exact hhistory
    full := by
      rw [hcalls, List.forall_mem_append, List.forall_mem_singleton]
      exact ⟨inv.full, hfull⟩
    synced := fun h => absurd h hpc
  }

theorem sync (inv : Inv c s past) {error : Option Errno} (hlog : s'.log = s.log)
    (hsynced : s'.pc = .finished → s'.synced = s.log.2) : Inv c s' (past ++ [.synced error]) where
  history := by
    rw [calls_synced, hlog]
    exact inv.history
  full := by
    rw [calls_synced]
    exact inv.full
  synced := by
    rw [hlog]
    exact hsynced

theorem step {a : Act} (inv : Inv c s past) (hfull : Full c s a) (h : Step c s a s' es)
    : Inv c s' (past ++ es) := by
  cases h with
  | buffered hpc hlt hlog hsync => exact inv.wrote hfull hlog rfl (by simp [hpc])
  | toSync hpc hlt hlog hsync => exact inv.wrote hfull hlog rfl (by simp)
  | refused hpc hlt hlog hne => exact absurd (inv.ok_of_full hfull hlog) (hne _)
  | synced hpc => exact inv.sync rfl (fun h => by contradiction)
  | finished hpc hreached => exact inv.sync rfl (fun _ => rfl)
  | unsynced => exact inv.sync rfl (fun h => by contradiction)

end Inv

theorem workload_inv {acts : List Act} (hfull : (workload c).Meets (Full c) (.init c) acts)
    (hreach : (workload c).Reaches acts s es) : Inv c s es := by
  apply System.reaches_inv_of_meets (Inv c) _ (Inv.init c) hfull hreach
  intro s past a s' es inv hC hstep
  exact inv.step hC (.of_step hstep)

/--
The number of batches of `b` messages after which at least `m` are reached, and not before.
-/
theorem eq_ceil_div {b m k : Nat} (hpos : 0 < b) (hreached : m ≤ b * k)
    (hneeded : k ≠ 0 → b * (k - 1) < m) : k = (m + b - 1) / b := by
  symm
  apply Nat.div_eq_of_lt_le
  . cases k with
    | zero => simp
    | succ k =>
      have hlt := hneeded (Nat.succ_ne_zero k)
      rw [Nat.succ_sub_one] at hlt
      rw [Nat.succ_mul, Nat.mul_comm]
      omega
  . rw [Nat.succ_mul, Nat.mul_comm]
    omega

namespace Counts

theorem total_of_finished (counts : Counts c s es) (hfinished : s.pc = .finished)
    : s.total = c.batchSize * (calls c es).length := by
  have htotal := counts.total (by simp [hfinished])
  rw [hfinished] at htotal
  apply htotal

theorem batches_of_finished (counts : Counts c s es) (hpos : 0 < c.batchSize)
    (hfinished : s.pc = .finished)
    : (calls c es).length = (c.msgCount + c.batchSize - 1) / c.batchSize := by
  have hreached := counts.reached hfinished
  rw [counts.total_of_finished hfinished] at hreached
  apply eq_ceil_div hpos hreached counts.needed

theorem length_calls_le (counts : Counts c s es) (hpos : 0 < c.batchSize)
    : (calls c es).length ≤ (c.msgCount + c.batchSize - 1) / c.batchSize := by
  rw [Nat.le_div_iff_mul_le hpos]
  cases hlength : (calls c es).length with
  | zero => simp
  | succ k =>
    have hneeded := counts.needed (by simp [hlength])
    rw [hlength, Nat.succ_sub_one] at hneeded
    rw [Nat.succ_mul, Nat.mul_comm]
    omega

end Counts

/--
An operating system that answers nothing out of the ordinary.
-/
theorem full_quiet (kind : Kind) (msgs : List Message) : kind.Full (msgs, ⟨[], []⟩) := by
  have hunits : ∀ units, ∀ t ∈ transfers [] units, t.data.length ≤ t.count := by
    intro units
    induction units with
    | nil => simp [transfers]
    | cons data units ih =>
      intro t ht
      rcases List.mem_cons.mp ht with rfl | ht
      . exact Nat.le_refl _
      . exact ih t ht
  have hchunks : ∀ {ω : Type} (W : ChunkWriter ω) chunks,
      ∀ t ∈ W.batchTransfers chunks [], t.data.length ≤ t.count := by
    intro ω W chunks
    induction chunks with
    | nil => simp [ChunkWriter.batchTransfers]
    | cons chunk chunks ih =>
      intro t ht
      rcases List.mem_append.mp ht with ht | ht
      . exact hunits _ t ht
      . exact ih t ht
  refine ⟨⟨fun reply h => absurd h List.not_mem_nil, fun chunk h => absurd h List.not_mem_nil⟩, ?_⟩
  cases kind with
  | std bufCap => exact fun t h => absurd h List.not_mem_nil
  | uring ringDepth h => exact hchunks _ _
  | fixed capMsgs hpos hle => exact hchunks _ _

/--
What a finished run has done: how many batches, the content of the file and what the numbers that it
reports are computed from.
-/
structure Measures (c : Config) (s : State) (es : List Output) : Prop where
  batches : (calls c es).length = (c.msgCount + c.batchSize - 1) / c.batchSize
  total : s.total = c.batchSize * ((c.msgCount + c.batchSize - 1) / c.batchSize)
  file : s.log.2
    = Message.encode
        (List.replicate ((c.msgCount + c.batchSize - 1) / c.batchSize) (batchMsgs c.batchSize)).flatten
  bytes : s.log.2.length = 64 * s.total
  synced : s.synced = s.log.2

theorem workload_measures {acts : List Act} (hpos : 0 < c.batchSize)
    (hfull : (workload c).Meets (Full c) (.init c) acts) (hreach : (workload c).Reaches acts s es)
    (hfinished : s.pc = .finished) : Measures c s es := by
  have inv := workload_inv hfull hreach
  have counts := workload_counts hreach
  have htotal := counts.total_of_finished hfinished
  have hbatches := counts.batches_of_finished hpos hfinished
  exact {
    batches := hbatches
    total := by rw [htotal, hbatches]
    file := by rw [inv.file_eq, hbatches]
    bytes := by
      rw [inv.file_eq, Message.length_encode, List.length_flatten, List.map_replicate,
        List.sum_replicate_nat, length_batchMsgs, htotal, Nat.mul_comm c.batchSize]
    synced := inv.synced hfinished
  }

def twoOfThree : Config := ⟨.uring 1 (by decide), 2, true, 3⟩

/--
Three messages in batches of two make four.
-/
def twoBatches : List Act :=
  [.writeBatch ⟨[], []⟩, .sync none, .writeBatch ⟨[], []⟩, .sync none, .sync none]

theorem workload_measures_four
    : ∃ s es,
        (workload twoOfThree).Reaches twoBatches s es
          ∧
        s.total = 4
          ∧
        Measures twoOfThree s es := by
  have hreach := (workload twoOfThree).reaches_get twoBatches (by decide +kernel)
  refine ⟨_, _, hreach, by decide +kernel,
    workload_measures (by decide) ?_ hreach (by decide +kernel)⟩
  apply System.meets_of_forall
  intro s a ha
  simp only [twoBatches, List.mem_cons, List.not_mem_nil, or_false] at ha
  rcases ha with rfl | rfl | rfl | rfl | rfl
  . exact full_quiet _ _
  . trivial
  . exact full_quiet _ _
  . trivial
  . trivial

def Undisturbed (c : Config) (s : State) : Act → Prop
  | .writeBatch env => Full c s (.writeBatch env)
  | .sync error => error = none

theorem full_of_undisturbed {a : Act} (h : Undisturbed c s a) : Full c s a := by
  cases a with
  | writeBatch env => exact h
  | sync error => trivial

/--
How many calls a run can have made: a batch is followed by at most one sync.
-/
def Bounded (c : Config) (s : State) (es : List Output) : Prop :=
  match s.pc with
  | .looping => es.length ≤ 2 * (calls c es).length
  | .syncing _ => es.length + 1 ≤ 2 * (calls c es).length
  | .finished => es.length ≤ 2 * (calls c es).length + 1
  | .panicked => False

theorem Bounded.step {a : Act} (bounded : Bounded c s past) (inv : Inv c s past)
    (hundisturbed : Undisturbed c s a) (h : Step c s a s' es) : Bounded c s' (past ++ es) := by
  cases h with
  | buffered hpc hlt hlog hsync =>
    simp only [Bounded, hpc] at bounded
    simp only [Bounded, hpc, length_calls_wrote, List.length_append, List.length_singleton]
    omega
  | toSync hpc hlt hlog hsync =>
    simp only [Bounded, hpc] at bounded
    simp only [Bounded, length_calls_wrote, List.length_append, List.length_singleton]
    omega
  | refused hpc hlt hlog hne => exact absurd (inv.ok_of_full hundisturbed hlog) (hne _)
  | synced hpc =>
    simp only [Bounded, hpc] at bounded
    simp only [Bounded, calls_synced, List.length_append, List.length_singleton]
    apply bounded
  | finished hpc hreached =>
    simp only [Bounded, hpc] at bounded
    simp only [Bounded, calls_synced, List.length_append, List.length_singleton]
    omega
  | unsynced => contradiction

theorem Bounded.length_le (bounded : Bounded c s es) (counts : Counts c s es) (hpos : 0 < c.batchSize)
    : es.length ≤ 2 * ((c.msgCount + c.batchSize - 1) / c.batchSize) + 1 := by
  have hcalls := counts.length_calls_le hpos
  cases hpc : s.pc <;> simp only [Bounded, hpc] at bounded <;> omega

theorem Bounded.enabled (bounded : Bounded c s es) (hpc : s.pc ≠ .finished)
    : ∃ a, Undisturbed c s a ∧ (s.step c a).isSome := by
  cases h : s.pc with
  | looping =>
    by_cases hlt : s.total < c.msgCount
    . exact ⟨.writeBatch ⟨[], []⟩, full_quiet _ _, by simp [State.step, h, hlt]⟩
    . exact ⟨.sync none, rfl, by simp [State.step, h, hlt]⟩
  | syncing n => exact ⟨.sync none, rfl, by simp [State.step, h]⟩
  | finished => exact absurd h hpc
  | panicked => simp [Bounded, h] at bounded

theorem Step.length_eq {a : Act} (h : Step c s a s' es) : es.length = 1 := by
  cases h <;> rfl

/--
Every call emits what it returns.
-/
theorem length_acts {acts : List Act} (hreach : (workload c).Reaches acts s es)
    : acts.length = es.length := by
  refine System.reaches_inv_inputs
    (fun (acts : List Act) (_ : State) (es : List Output) => acts.length = es.length) ?_ rfl hreach
  intro acts s past a s' es ih hstep
  rw [List.length_append, List.length_append, ih, (Step.of_step hstep).length_eq]
  rfl

theorem Bounded.exists_finished (hpos : 0 < c.batchSize) (n : Nat) (inv : Inv c s past)
    (counts : Counts c s past) (bounded : Bounded c s past)
    (hn : 2 * ((c.msgCount + c.batchSize - 1) / c.batchSize) + 1 < past.length + n)
    : ∃ acts s' es, (workload c).run s acts = some (s', es)
        ∧ (workload c).Meets (Undisturbed c) s acts ∧ s'.pc = .finished := by
  induction n generalizing s past with
  | zero =>
    have := bounded.length_le counts hpos
    omega
  | succ n ih =>
    by_cases hpc : s.pc = .finished
    . exact ⟨[], s, [], rfl, trivial, hpc⟩
    . rcases bounded.enabled hpc with ⟨a, ha, hsome⟩
      rcases Option.isSome_iff_exists.mp hsome with ⟨⟨s', es⟩, hstep⟩
      have hcase := Step.of_step hstep
      have hlength : (past ++ es).length = past.length + 1 := by
        rw [List.length_append, hcase.length_eq]
      rcases ih (inv.step (full_of_undisturbed ha) hcase) (counts.step hcase)
        (bounded.step inv ha hcase) (by omega) with ⟨acts, s'', es', hrun, hmeets, hfinished⟩
      have hstep' : (workload c).step s a = some (s', es) := hstep
      refine ⟨a :: acts, s'', es ++ es', ?_, ⟨ha, ?_⟩, hfinished⟩
      . rw [System.run_cons_eq_some]
        exact ⟨s', es, es', hstep, hrun, rfl⟩
      . rw [hstep']
        exact hmeets

theorem exists_finished (hpos : 0 < c.batchSize)
    : ∃ acts s es, (workload c).Reaches acts s es ∧ s.pc = .finished := by
  rcases Bounded.exists_finished hpos (2 * ((c.msgCount + c.batchSize - 1) / c.batchSize) + 2)
    (Inv.init c) (Counts.init c) (Nat.le_refl 0) (by simp) with ⟨acts, s, es, hrun, -, hfinished⟩
  exact ⟨acts, s, es, hrun, hfinished⟩

/--
A run of the calls `acts` has not panicked, has made no more calls than there may be, is stuck only
when it has finished, and can be finished.
-/
structure Finishes (c : Config) (acts : List Act) (s : State) : Prop where
  unpanicked : s.pc ≠ .panicked
  bounded : acts.length ≤ 2 * ((c.msgCount + c.batchSize - 1) / c.batchSize) + 1
  enabled : s.pc ≠ .finished → ∃ a, Undisturbed c s a ∧ (s.step c a).isSome
  ends : ∃ acts' s' es', (workload c).run s acts' = some (s', es')
    ∧ (workload c).Meets (Undisturbed c) s acts' ∧ s'.pc = .finished

/--
If the operating system refuses nothing, a run panics nowhere, makes a bounded number of calls, and
is stuck only when it has finished.
-/
theorem workload_finishes {acts : List Act} (hpos : 0 < c.batchSize)
    (hundisturbed : (workload c).Meets (Undisturbed c) (.init c) acts)
    (hreach : (workload c).Reaches acts s es) : Finishes c acts s := by
  have hinit : Bounded c (.init c) [] := Nat.le_refl 0
  have counts := workload_counts hreach
  have h := System.reaches_inv_of_meets (fun s es => Inv c s es ∧ Bounded c s es)
    (fun s past a s' es h hC hstep =>
      ⟨h.1.step (full_of_undisturbed hC) (.of_step hstep), h.2.step h.1 hC (.of_step hstep)⟩)
    ⟨Inv.init c, hinit⟩ hundisturbed hreach
  exact {
    unpanicked := by
      intro hpc
      have bounded := h.2
      simp [Bounded, hpc] at bounded
    bounded := by
      rw [length_acts hreach]
      exact h.2.length_le counts hpos
    enabled := h.2.enabled
    ends := h.2.exists_finished hpos (2 * ((c.msgCount + c.batchSize - 1) / c.batchSize) + 2) h.1
      counts (by omega)
  }

/--
The five calls that there may be at most.
-/
theorem workload_finishes_four
    : ∃ s es,
        (workload twoOfThree).Reaches twoBatches s es
          ∧
        s.pc = .finished
          ∧
        twoBatches.length = 5
          ∧
        Finishes twoOfThree twoBatches s := by
  have hreach := (workload twoOfThree).reaches_get twoBatches (by decide +kernel)
  refine ⟨_, _, hreach, by decide +kernel, rfl, workload_finishes (by decide) ?_ hreach⟩
  apply System.meets_of_forall
  intro s a ha
  simp only [twoBatches, List.mem_cons, List.not_mem_nil, or_false] at ha
  rcases ha with rfl | rfl | rfl | rfl | rfl
  . exact full_quiet _ _
  . rfl
  . exact full_quiet _ _
  . rfl
  . rfl

/--
A benchmark of empty batches would never end.
-/
theorem workload_empty (hzero : c.batchSize = 0) (hcount : 0 < c.msgCount) {acts : List Act}
    (hreach : (workload c).Reaches acts s es) : s.pc ≠ .finished := by
  intro hfinished
  have counts := workload_counts hreach
  have htotal := counts.total_of_finished hfinished
  have hreached := counts.reached hfinished
  rw [hzero, Nat.zero_mul] at htotal
  omega

end Workload
end Bench
