import Cadence.Persist.Lemmas.Recovery

/-!
This module contains the simulation of the calls on a `StdWriter` by its steps: what `write_batch`
computes from the answers of the operating system is a run of steps. What the steps keep of the log
carries over to the calls.
-/

open Lts

namespace Persist

variable (initial : File)

def StdState.afterFlush (synced : File) (msgs rest : List Message)
    : File × List UInt8 × List Reply × Option IoError → StdState × List StdOutput
  | (file, _, _, none) => StdState.flushed ⟨[], file, synced, .idle⟩ msgs rest
  | (file, buf, _, some error) => (⟨buf, file, synced, .idle⟩, [.returned msgs (.err error)])

def StdState.afterWrite (synced : File) (msgs rest : List Message)
    : StdWriter × File × List Reply × Option IoError → StdState × List StdOutput
  | (w, file, _, none) => (⟨w.buf, file, synced, .writing msgs rest⟩, [])
  | (w, file, _, some error) => (⟨w.buf, file, synced, .idle⟩, [.returned msgs (.err error)])

variable {initial} in
theorem run_cons {s s' : StdState} {a : StdAct} {acts : List StdAct}
    {result : StdState × List StdOutput} (hstep : s.step a = some (s', []))
    (hrun : (stdSteps initial).run s' acts = some result)
    : (stdSteps initial).run s (a :: acts) = some result := by
  rw [System.run_cons_eq_some]
  exact ⟨s', [], result.2, hstep, hrun, rfl⟩

section

variable {file synced : File} {buf : List UInt8} {written : Nat} {msgs rest : List Message}

theorem run_flushed (hdrop : buf.drop written = [])
    : (stdSteps initial).run ⟨buf, file, synced, .flushing msgs rest written⟩ [.run]
        = some (StdState.flushed ⟨[], file, synced, .idle⟩ msgs rest) := by
  rw [List.drop_eq_nil_iff] at hdrop
  apply System.run_one
  simp only [stdSteps, StdState.step, hdrop, if_true]
  cases rest <;> rfl

theorem step_reply (hdrop : buf.drop written ≠ []) (reply : Reply)
    : StdState.step ⟨buf, file, synced, .flushing msgs rest written⟩ (.reply reply)
        = some (StdState.answer ⟨buf, file, synced, .flushing msgs rest written⟩ msgs rest written
            reply) := by
  rw [Ne, List.drop_eq_nil_iff] at hdrop
  simp only [StdState.step]
  rw [if_pos (by omega)]

theorem step_transferred (hdrop : buf.drop written ≠ []) {n : Nat} (hn : n ≠ 0)
    : StdState.step ⟨buf, file, synced, .flushing msgs rest written⟩ (.reply (.transferred n))
        = some (⟨buf, file ++ (buf.drop written).take n, synced, .flushing msgs rest (written + n)⟩,
            []) := by
  rw [step_reply hdrop]
  simp only [StdState.answer, if_neg hn]

end

theorem run_flush (file synced : File) (buf : List UInt8) (written : Nat) (msgs rest : List Message)
    (replies : List Reply)
    : ∃ acts,
        (stdSteps initial).run ⟨buf, file, synced, .flushing msgs rest written⟩ acts
          =
        some (StdState.afterFlush synced msgs rest (writeLoop file (buf.drop written) replies)) := by
  generalize hdata : buf.drop written = data
  fun_induction writeLoop file data replies generalizing written with
  | case1 file data =>
    by_cases hnil : data = []
    . subst hnil
      rw [List.append_nil]
      exact ⟨[.run], run_flushed initial hdata⟩
    . -- the rest is transferred in one go
      subst hdata
      have hlength : (buf.drop written).length ≠ 0 := by
        rwa [Ne, List.length_eq_zero_iff]
      refine ⟨[.reply (.transferred (buf.drop written).length), .run],
        run_cons (step_transferred hnil hlength) ?_⟩
      rw [List.take_length]
      apply run_flushed
      rw [← List.drop_drop, List.drop_length]
  | case2 file reply replies => exact ⟨[.run], run_flushed initial hdata⟩
  | case3 file data replies hne =>
    subst hdata
    exact ⟨[.reply (.transferred 0)], System.run_one _ (step_reply hne _)⟩
  | case4 file data replies hne n hn ih =>
    subst hdata
    rcases ih (written + n) (by rw [← List.drop_drop]) with ⟨acts, hrun⟩
    exact ⟨.reply (.transferred n) :: acts, run_cons (step_transferred hne hn) hrun⟩
  | case5 file data replies hne errno hintr ih =>
    subst hdata
    rcases ih written rfl with ⟨acts, hrun⟩
    refine ⟨.reply (.failed errno) :: acts, run_cons ?_ hrun⟩
    rw [step_reply hne]
    simp only [StdState.answer, if_pos hintr]
  | case6 file data replies hne errno hintr =>
    subst hdata
    refine ⟨[.reply (.failed errno)], System.run_one _ ?_⟩
    refine (step_reply hne _).trans ?_
    simp only [StdState.answer, if_neg hintr]
    rfl

theorem run_writeAll (w : StdWriter) (hcapacity : w.capacity = stdBufCap) (file synced : File)
    (msgs : List Message) (msg : Message) (rest : List Message) (replies : List Reply)
    : ∃ acts,
        (stdSteps initial).run ⟨w.buf, file, synced, .writing msgs (msg :: rest)⟩ acts
          =
        some (StdState.afterWrite synced msgs rest (w.writeAll file msg.toBytes.toList replies)) := by
  have hlength := msg.length_toBytes
  have hroom : ¬ stdBufCap - w.buf.length < 64 →
      (stdSteps initial).run ⟨w.buf, file, synced, .writing msgs (msg :: rest)⟩ [.run]
        = some (⟨w.buf ++ msg.toBytes.toList, file, synced, .writing msgs rest⟩, []) := by
    intro hspare
    apply System.run_one
    simp only [stdSteps, StdState.step, if_neg hspare]
    rfl
  unfold StdWriter.writeAll
  rw [hlength, hcapacity]
  split
  . exact ⟨[.run], hroom (by omega)⟩
  . unfold StdWriter.writeAllCold StdWriter.makeRoom
    rw [hlength, hcapacity]
    by_cases hspare : stdBufCap - w.buf.length < 64
    . rw [if_pos hspare]
      rcases run_flush initial file synced w.buf 0 msgs (msg :: rest) replies with ⟨acts, hrun⟩
      have hrest := writeLoop_rest file w.buf replies
      have hstep : StdState.step ⟨w.buf, file, synced, .writing msgs (msg :: rest)⟩ .run
          = some (⟨w.buf, file, synced, .flushing msgs (msg :: rest) 0⟩, []) := by
        simp only [StdState.step, if_pos hspare]
      refine ⟨.run :: acts, run_cons hstep (hrun.trans ?_)⟩
      rw [List.drop_zero]
      unfold StdWriter.flushBuf
      generalize writeLoop file w.buf replies = result at hrest
      rcases result with ⟨file', buf, replies', _ | error⟩
      . have hbuf : buf = [] := hrest rfl
        subst hbuf
        dsimp only
        rw [if_neg (by rw [hcapacity]; decide)]
        rfl
      . rfl
    . rw [if_neg hspare]
      refine ⟨[.run], (hroom hspare).trans ?_⟩
      dsimp only
      rw [if_neg (by rw [hcapacity]; decide)]
      rfl

theorem run_writeMsgs (w : StdWriter) (hcapacity : w.capacity = stdBufCap) (file synced : File)
    (msgs rest : List Message) (replies : List Reply)
    : ∃ acts,
        (stdSteps initial).run ⟨w.buf, file, synced, .writing msgs rest⟩ acts
          =
        some (StdState.afterWrite synced msgs [] (w.writeMsgs file rest replies)) := by
  induction rest generalizing w file replies with
  | nil => exact ⟨[], rfl⟩
  | cons msg rest ih =>
    rcases run_writeAll initial w hcapacity file synced msgs msg rest replies with ⟨acts, hrun⟩
    have hcapacity' := (w.writeAll_capacity file msg.toBytes.toList replies).trans hcapacity
    unfold StdWriter.writeMsgs
    generalize w.writeAll file msg.toBytes.toList replies = result at hrun hcapacity'
    rcases result with ⟨w', file', replies', _ | error⟩
    . rcases ih w' hcapacity' file' replies' with ⟨acts', hrun'⟩
      exact ⟨acts ++ acts', System.run_append _ hrun hrun'⟩
    . exact ⟨acts, hrun⟩

theorem run_writeBatch (w : StdWriter) (hcapacity : w.capacity = stdBufCap) (file synced : File)
    (msgs : List Message) (replies : List Reply)
    : ∃ acts,
        (stdSteps initial).run ⟨w.buf, file, synced, .idle⟩ acts
          =
        some (⟨(w.writeBatch file msgs replies).1.1.buf, (w.writeBatch file msgs replies).1.2, synced,
            .idle⟩, [.returned msgs (w.writeBatch file msgs replies).2]) := by
  rcases run_writeMsgs initial w hcapacity file synced msgs msgs replies with ⟨acts, hrun⟩
  have hcall : StdState.step ⟨w.buf, file, synced, .idle⟩ (.writeBatch msgs)
      = some (⟨w.buf, file, synced, .writing msgs msgs⟩, []) := rfl
  unfold StdWriter.writeBatch
  generalize w.writeMsgs file msgs replies = result at hrun
  rcases result with ⟨w', file', replies', _ | error⟩
  . rcases run_flush initial file' synced w'.buf 0 msgs [] replies' with ⟨acts', hflush⟩
    have hstep : StdState.step ⟨w'.buf, file', synced, .writing msgs []⟩ .run
        = some (⟨w'.buf, file', synced, .flushing msgs [] 0⟩, []) := rfl
    have hrun' := run_cons hcall (System.run_append _ hrun (run_cons hstep hflush))
    have hrest := writeLoop_rest file' w'.buf replies'
    rw [List.drop_zero] at hrun'
    unfold StdWriter.flushBuf
    dsimp only
    generalize writeLoop file' w'.buf replies' = flushed at hrest hrun'
    rcases flushed with ⟨file'', buf, replies'', _ | error⟩
    . have hbuf : buf = [] := hrest rfl
      subst hbuf
      exact ⟨_, hrun'⟩
    . exact ⟨_, hrun'⟩
  . exact ⟨_, run_cons hcall hrun⟩

theorem stdCalls_refines_stdSteps
    : Simulation (stdCalls initial) (stdSteps initial)
        fun t s => s = ⟨t.1.buf, t.2.1, t.2.2, .idle⟩ ∧ t.1.capacity = stdBufCap where
  init := ⟨rfl, rfl⟩
  step := by
    rintro ⟨w, file, synced⟩ _ (⟨msgs, replies⟩ | error) s' es ⟨rfl, hcapacity⟩ hstep
    . rcases run_writeBatch initial w hcapacity file synced msgs replies with ⟨acts, hrun⟩
      simp only [stdCalls, Option.some.injEq, Prod.mk.injEq] at hstep
      rcases hstep with ⟨rfl, rfl⟩
      exact ⟨acts, _, hrun, rfl, (w.writeBatch_capacity file msgs replies).trans hcapacity⟩
    . simp only [stdCalls, Option.some.injEq, Prod.mk.injEq] at hstep
      rcases hstep with ⟨rfl, rfl⟩
      refine ⟨[.sync error], _, System.run_one _ ?_, rfl, hcapacity⟩
      cases error with
      | none => rfl
      | some errno => rfl

def StdCall.batch? : StdCall → Option (List Message)
  | .writeBatch msgs _ => some msgs
  | .sync _ => none

theorem stdCalls_calls {calls : List StdCall} {t : StdWriter × File × File} {es : List StdOutput}
    (hreach : (stdCalls initial).Reaches calls t es)
    : calls.filterMap StdCall.batch? = (batches es).map Prod.fst := by
  refine System.reaches_inv_inputs
    (fun calls _ es => calls.filterMap StdCall.batch? = (batches es).map Prod.fst) ?_ rfl hreach
  intro calls t past call t' es ih hstep
  rw [List.filterMap_append, ih, batches_append, List.map_append]
  cases call with
  | writeBatch msgs replies =>
    simp only [stdCalls, Option.some.injEq, Prod.mk.injEq] at hstep
    rcases hstep with ⟨rfl, rfl⟩
    rfl
  | sync error =>
    simp only [stdCalls, Option.some.injEq, Prod.mk.injEq] at hstep
    rcases hstep with ⟨rfl, rfl⟩
    rfl

/--
The log of a `StdWriter` on a file of the records `old` after `calls` of `write_batch` and `sync`, of
whose batches it keeps `kept`, and what a reader finds in what a crash leaves of the file.
-/
structure LogOfCalls (old : List Message) (calls : List StdCall) (w : StdWriter) (file synced : File)
    (es : List StdOutput) (kept : List (List Message)) : Prop where
  given : calls.filterMap StdCall.batch? = (batches es).map Prod.fst
  records : List.Forall₂ Kept (batches es) kept
  bytes : ∃ added, file = Message.encode old ++ added ∧ added ++ w.buf = Message.encode kept.flatten
  empty : ∀ msgs n, (batches es).getLast? = some (msgs, Outcome.ok n) → w.buf = []
  recovers : ∀ content, synced <+: content → content <+: file → ∃ recovered,
    (∀ i, Message.decodeAt content i = recovered[i]?)
      ∧ recovered <+: old ++ kept.flatten
      ∧ content.length < 64 * recovered.length + 64
      ∧ (content = file → ∀ k msgs n, (batches es)[k]? = some (msgs, Outcome.ok n) →
          old ++ (kept.take (k + 1)).flatten <+: recovered)
      ∧ ∀ before after t past, calls = before ++ .sync none :: after →
          (stdCalls (Message.encode old)).Reaches before t past →
          ∀ k msgs n, (batches past)[k]? = some (msgs, Outcome.ok n) →
            old ++ (kept.take (k + 1)).flatten <+: recovered

/--
Whatever the operating system answers to the calls of `write_batch` and `sync`, the log holds the
batches in order, each `Ok` one whole, and a reader finds after a crash what had been acknowledged
and synced.
-/
theorem stdCalls_log {old : List Message} {calls : List StdCall} {w : StdWriter} {file synced : File}
    {es : List StdOutput}
    (hreach : (stdCalls (Message.encode old)).Reaches calls (w, file, synced) es)
    : ∃ kept, LogOfCalls old calls w file synced es kept := by
  rcases (stdCalls_refines_stdSteps (Message.encode old)).trace hreach with ⟨acts, s, hacts, rfl, -⟩
  rcases stdSteps_inv hacts with ⟨kept, current, inv⟩
  have keeps := inv.keepsRecords hacts
  -- no batch is in progress between two calls
  have hcurrent : current = [] := (List.append_eq_nil_iff.mp keeps.progress.symm).1
  subst hcurrent
  refine ⟨kept, ?_⟩
  exact {
    given := stdCalls_calls _ hreach
    records := keeps.records
    bytes := by
      rcases keeps.bytes with ⟨added, hfile, hencode⟩
      rw [List.append_nil] at hencode
      exact ⟨added, hfile, hencode⟩
    empty := keeps.empty rfl
    recovers := by
      intro content hsynced hfile
      have recovery := inv.recovery hacts ⟨hsynced, hfile⟩
      rw [List.append_nil] at recovery
      have horder := recovery.order
      rw [List.append_nil] at horder
      refine ⟨_, recovery.read, horder, recovery.torn, recovery.acknowledged, ?_⟩
      rintro before after t past rfl hpast k msgs n hk
      rcases System.reaches_split hreach hpast with ⟨t', es₁, es₂, hsync, -, hes⟩
      simp only [stdCalls, Option.some.injEq, Prod.mk.injEq] at hsync
      have hkept := inv.synced past es₂ (by rw [hes, ← hsync.2]; simp) k msgs n hk
      rw [← Message.encode_append] at hkept
      apply Message.isPrefix_take_of_encode _ (hkept.trans hsynced)
      rw [List.prefix_append_right_inj]
      exact (List.take_prefix _ _).flatten
  }

/--
The first call fails in the middle of its second record, the second one writes the rest of it, and
the machine goes down after the `sync`, in the middle of a third call that fails too.
-/
def tornCalls : List StdCall :=
  [.writeBatch [.new "a" [], .new "b" []] [.transferred 70, .transferred 0],
    .writeBatch [.new "c" []] [], .sync none,
    .writeBatch [.new "d" []] [.transferred 10, .transferred 0]]

theorem stdCalls_log_torn
    : ∃ w file synced es,
        (stdCalls (Message.encode [.new "o" []])).Reaches tornCalls (w, file, synced) es
          ∧
        (batches es).map Prod.snd = [.err .writeZero, .ok 1, .err .writeZero]
          ∧
        synced = Message.encode [.new "o" [], .new "a" [], .new "b" [], .new "c" []]
          ∧
        file.length = synced.length + 10
          ∧
        ∃ kept, LogOfCalls [.new "o" []] tornCalls w file synced es kept := by
  have hreach := (stdCalls (Message.encode [.new "o" []])).reaches_get tornCalls (by decide +kernel)
  exact ⟨_, _, _, _, hreach, by decide +kernel, by decide +kernel, by decide +kernel,
    stdCalls_log hreach⟩

end Persist
