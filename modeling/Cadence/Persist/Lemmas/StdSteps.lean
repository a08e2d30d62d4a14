import Cadence.Persist.Impl.StdSteps
import Cadence.Persist.Lemmas.Std

/-!
This module contains what a `StdWriter` keeps under faults: whatever the operating system answers,
its log consists of whole records in order.
-/

open Lts

namespace Persist

def StdOutput.batch? : StdOutput → Option (List Message × Outcome)
  | .returned msgs outcome => some (msgs, outcome)
  | .synced _ => none

def batches (es : List StdOutput) : List (List Message × Outcome) :=
  es.filterMap StdOutput.batch?

@[simp]
theorem batches_append (es es' : List StdOutput) : batches (es ++ es') = batches es ++ batches es' :=
  List.filterMap_append

/--
What may be left in the log of a batch: all of it after an `Ok`, and some of its first messages after
an error.
-/
def Kept (batch : List Message × Outcome) (kept : List Message) : Prop :=
  match batch.2 with
  | .ok n => n = batch.1.length ∧ kept = batch.1
  | .err _ => kept <+: batch.1
  | .panicked => False

def StdAct.batch? : StdAct → Option (List Message)
  | .writeBatch msgs => some msgs
  | _ => none

/--
The batch of the call in progress.
-/
def StdPc.called : StdPc → List (List Message)
  | .idle => []
  | .writing msgs _ => [msgs]
  | .flushing msgs _ _ => [msgs]

def StdPc.batch : StdPc → List Message
  | .idle => []
  | .writing msgs _ => msgs
  | .flushing msgs _ _ => msgs

def StdPc.rest : StdPc → List Message
  | .idle => []
  | .writing _ rest => rest
  | .flushing _ rest _ => rest

theorem StdState.unwritten_writing {s : StdState} {msgs rest : List Message}
    (hpc : s.pc = .writing msgs rest) : s.unwritten = s.buf := by
  unfold unwritten
  rw [hpc]

theorem StdState.unwritten_flushing {s : StdState} {msgs rest : List Message} {written : Nat}
    (hpc : s.pc = .flushing msgs rest written) : s.unwritten = s.buf.drop written := by
  unfold unwritten
  rw [hpc]

/--
The log behind the batches that have returned, of which it keeps `kept`, and the messages `current`
of the batch in progress.
-/
structure StdInv (initial : File) (s : StdState) (es : List StdOutput)
    (kept : List (List Message)) (current : List Message) : Prop where
  records : List.Forall₂ Kept (batches es) kept
  progress : s.pc.batch = current ++ s.pc.rest
  bytes : ∃ added,
    s.file = initial ++ added
      ∧
    added ++ s.unwritten = Message.encode (kept.flatten ++ current)
  empty : s.pc = .idle → ∀ msgs n, (batches es).getLast? = some (msgs, Outcome.ok n) → s.buf = []
  written : ∀ k msgs n, (batches es)[k]? = some (msgs, Outcome.ok n) →
    initial ++ Message.encode (kept.take (k + 1)).flatten <+: s.file
  synced_file : s.synced <+: s.file
  synced : ∀ before after, es = before ++ .synced none :: after →
    ∀ k msgs n, (batches before)[k]? = some (msgs, Outcome.ok n) →
      initial ++ Message.encode (kept.take (k + 1)).flatten <+: s.synced

theorem StdInv.create (initial : File) : StdInv initial (.create initial) [] [] [] where
  records := .nil
  progress := rfl
  bytes := ⟨[], (List.append_nil _).symm, rfl⟩
  empty := fun _ _ _ h => by contradiction
  written := fun _ _ _ h => by contradiction
  synced_file := List.nil_prefix
  synced := fun before after h => by simp at h

namespace StdInv

variable {initial : File} {s s' : StdState} {es es' : List StdOutput} {kept : List (List Message)}
variable {current current' : List Message}

theorem quiet (inv : StdInv initial s es kept current) (hpc : s'.pc ≠ .idle)
    (hsynced : s'.synced = s.synced) {data : List UInt8} (hfile : s'.file = s.file ++ data)
    (hprogress : s'.pc.batch = current' ++ s'.pc.rest) {appended : List UInt8}
    (hbytes : data ++ s'.unwritten = s.unwritten ++ appended)
    (happended : Message.encode current' = Message.encode current ++ appended)
    : StdInv initial s' es kept current' where
  records := inv.records
  progress := hprogress
  bytes := by
    rcases inv.bytes with ⟨added, hadded, hencode⟩
    refine ⟨added ++ data, ?_, ?_⟩
    . rw [hfile, hadded, List.append_assoc]
    . rw [List.append_assoc, hbytes, ← List.append_assoc, hencode, Message.encode_append,
        Message.encode_append, happended, List.append_assoc]
  empty := fun hidle => absurd hidle hpc
  written := by
    intro k msgs n hk
    rw [hfile]
    exact (inv.written k msgs n hk).trans (List.prefix_append _ _)
  synced_file := by
    rw [hsynced, hfile]
    exact inv.synced_file.trans (List.prefix_append _ _)
  synced := by
    rw [hsynced]
    exact inv.synced

theorem of_concat {α : Type} {l before after : List α} {a b : α}
    (h : l ++ [b] = before ++ a :: after)
    : before <+: l ∧ (a = b ∨ ∃ after', l = before ++ a :: after') := by
  rcases List.eq_nil_or_concat after with rfl | ⟨after', c, rfl⟩
  . have := List.append_inj' h rfl
    rw [List.cons.injEq] at this
    exact ⟨⟨[], by rw [List.append_nil, this.1]⟩, .inl this.2.1.symm⟩
  . rw [List.concat_eq_append, ← List.cons_append, ← List.append_assoc] at h
    have := List.append_inj' h rfl
    exact ⟨⟨a :: after', this.1.symm⟩, .inr ⟨after', this.1⟩⟩

theorem lt_of_batch (inv : StdInv initial s es kept current) {before : List StdOutput}
    (hbefore : before <+: es) {k : Nat} {batch : List Message × Outcome}
    (hk : (batches before)[k]? = some batch) : k < kept.length := by
  have hlt := (List.getElem?_eq_some_iff.mp hk).1
  have hle : (batches before).length ≤ (batches es).length := (hbefore.filterMap _).length_le
  rw [← inv.records.length_eq]
  omega

theorem returned (inv : StdInv initial s es kept current) {msgs : List Message}
    {outcome : Outcome} (hkept : Kept (msgs, outcome) current) (hpc : s'.pc = .idle)
    (hsynced : s'.synced = s.synced) (hfile : s'.file = s.file) (hbuf : s'.buf = s.unwritten)
    (hempty : ∀ n, outcome = .ok n → s'.buf = [])
    : StdInv initial s' (es ++ [.returned msgs outcome]) (kept ++ [current]) [] := by
  have hbatches : batches (es ++ [.returned msgs outcome]) = batches es ++ [(msgs, outcome)] :=
    batches_append _ _
  have hunwritten : s'.unwritten = s.unwritten := by
    unfold StdState.unwritten
    rw [hpc]
    exact hbuf
  have htake : ∀ {before k batch}, before <+: es → (batches before)[k]? = some batch →
      (kept ++ [current]).take (k + 1) = kept.take (k + 1) := by
    intro before k batch hbefore hk
    apply List.take_append_of_le_length
    exact inv.lt_of_batch hbefore hk
  rcases inv.bytes with ⟨added, hadded, hencode⟩
  exact {
    records := by
      rw [hbatches]
      exact List.rel_append inv.records (.cons hkept .nil)
    progress := by rw [hpc]; rfl
    bytes := by
      refine ⟨added, hfile.trans hadded, ?_⟩
      rw [hunwritten, hencode]
      simp
    empty := by
      intro _ msgs' n hlast
      rw [hbatches, List.getLast?_concat, Option.some.injEq, Prod.mk.injEq] at hlast
      exact hempty n hlast.2
    written := by
      intro k msgs' n hk
      rw [hbatches] at hk
      by_cases hlt : k < (batches es).length
      . rw [List.getElem?_append_left hlt] at hk
        rw [htake (List.prefix_refl es) hk, hfile]
        exact inv.written k msgs' n hk
      . -- the batch itself, whose `Ok` leaves nothing in the buffer
        have hlength := inv.records.length_eq
        rw [List.getElem?_append_right (by omega), List.getElem?_singleton] at hk
        split at hk
        . next hk0 =>
          rw [Option.some.injEq, Prod.mk.injEq] at hk
          rw [← hbuf, hempty n hk.2, List.append_nil] at hencode
          rw [List.take_of_length_le (by rw [List.length_append, List.length_singleton]; omega),
            hfile, hadded, hencode]
          simp
        . contradiction
    synced_file := by
      rw [hsynced, hfile]
      exact inv.synced_file
    synced := by
      intro before after heq k msgs' n hk
      rcases of_concat heq with ⟨hbefore, hlast | ⟨after', hes⟩⟩
      . contradiction
      . rw [htake hbefore hk, hsynced]
        exact inv.synced before after' hes k msgs' n hk
  }

theorem sync (inv : StdInv initial s es kept current) (error : Option Errno)
    : StdInv initial (if error.isNone then { s with synced := s.file } else s)
        (es ++ [.synced error]) kept current := by
  have hbatches : batches (es ++ [.synced error]) = batches es := by
    rw [batches_append]
    exact List.append_nil _
  cases error with
  | some errno =>
    rw [if_neg (by simp)]
    exact { inv with
      records := by rw [hbatches]; exact inv.records
      empty := by rw [hbatches]; exact inv.empty
      written := by rw [hbatches]; exact inv.written
      synced := by
        intro before after heq
        rcases of_concat heq with ⟨-, hlast | ⟨after', hes⟩⟩
        . simp at hlast
        . exact inv.synced before after' hes
    }
  | none =>
    rw [if_pos Option.isNone_none]
    exact {
      records := by rw [hbatches]; exact inv.records
      progress := inv.progress
      bytes := by
        have hunwritten : ({ s with synced := s.file } : StdState).unwritten = s.unwritten := rfl
        rw [hunwritten]
        exact inv.bytes
      empty := by rw [hbatches]; exact inv.empty
      written := by rw [hbatches]; exact inv.written
      synced_file := List.prefix_refl _
      synced := by
        intro before after heq k msgs n hk
        rcases of_concat heq with ⟨⟨es', rfl⟩, -⟩
        apply inv.written k msgs n
        rw [batches_append, List.getElem?_append_left (List.getElem?_eq_some_iff.mp hk).1, hk]
    }

theorem fail (inv : StdInv initial s es kept current) {msgs rest : List Message}
    {written : Nat} (hpc : s.pc = .flushing msgs rest written) (error : IoError)
    : StdInv initial (s.fail msgs written error).1 (es ++ (s.fail msgs written error).2)
        (kept ++ [current]) [] := by
  have hprogress := inv.progress
  rw [hpc] at hprogress
  apply inv.returned
  . exact ⟨rest, hprogress.symm⟩
  . rfl
  . rfl
  . rfl
  . exact (StdState.unwritten_flushing hpc).symm
  . intro n h
    contradiction

theorem append (inv : StdInv initial s es kept current) {msgs rest : List Message}
    {msg : Message} (hbatch : s.pc.batch = msgs) (hrest : s.pc.rest = msg :: rest)
    {buf : List UInt8} (hbuf : s.unwritten = buf)
    : StdInv initial ({ s with buf := buf }.append msgs msg rest) es kept (current ++ [msg]) := by
  have hprogress := inv.progress
  rw [hbatch, hrest] at hprogress
  have hmsgs : msgs = current ++ [msg] ++ rest := by
    rw [hprogress, List.append_assoc]
    rfl
  refine inv.quiet (by simp [StdState.append]) rfl (List.append_nil _).symm hmsgs ?_
    (Message.encode_append _ _)
  rw [hbuf, Message.encode_cons, Message.encode_nil, List.append_nil]
  rfl

theorem answer (inv : StdInv initial s es kept current) {msgs rest : List Message}
    {written : Nat} (hpc : s.pc = .flushing msgs rest written) (reply : Reply)
    : ∃ kept' current',
        StdInv initial (s.answer msgs rest written reply).1
          (es ++ (s.answer msgs rest written reply).2) kept' current' := by
  have hprogress := inv.progress
  rw [hpc] at hprogress
  unfold StdState.answer
  cases reply with
  | transferred n =>
    dsimp only
    split
    . exact ⟨_, _, inv.fail hpc .writeZero⟩
    . refine ⟨kept, current, ?_⟩
      rw [List.append_nil]
      refine inv.quiet (by simp) rfl rfl hprogress ?_ (List.append_nil _).symm
      rw [StdState.unwritten_flushing hpc, StdState.unwritten_flushing rfl, List.append_nil,
        ← List.drop_drop, List.take_append_drop]
  | failed errno =>
    dsimp only
    split
    . refine ⟨kept, current, ?_⟩
      rw [List.append_nil]
      exact inv
    . exact ⟨_, _, inv.fail hpc (.os errno)⟩

theorem flushed (inv : StdInv initial s es kept current) {msgs rest : List Message}
    {written : Nat} (hpc : s.pc = .flushing msgs rest written) (hle : s.buf.length ≤ written)
    : ∃ kept' current',
        StdInv initial (s.flushed msgs rest).1 (es ++ (s.flushed msgs rest).2) kept' current' := by
  have hprogress := inv.progress
  rw [hpc] at hprogress
  have hunwritten : s.unwritten = [] := by
    rw [StdState.unwritten_flushing hpc]
    exact List.drop_of_length_le hle
  cases rest with
  | nil =>
    -- `flush` returns, and with it the batch
    have hmsgs : msgs = current := hprogress.trans (List.append_nil _)
    refine ⟨kept ++ [current], [], ?_⟩
    apply inv.returned
    . exact ⟨rfl, hmsgs.symm⟩
    . rfl
    . rfl
    . rfl
    . exact hunwritten.symm
    . intro n _
      rfl
  | cons msg rest =>
    refine ⟨kept, current ++ [msg], ?_⟩
    rw [show (s.flushed msgs (msg :: rest)).2 = [] from rfl, List.append_nil]
    exact inv.append (by rw [hpc]; rfl) (by rw [hpc]; rfl) hunwritten

theorem writeBatch (inv : StdInv initial s es kept current) (hpc : s.pc = .idle)
    (msgs : List Message)
    : StdInv initial { s with pc := .writing msgs msgs } es kept [] := by
  have hprogress := inv.progress
  rw [hpc] at hprogress
  have hcurrent : current = [] := (List.append_eq_nil_iff.mp hprogress.symm).1
  refine inv.quiet (by simp) rfl (List.append_nil _).symm rfl ?_ (by rw [hcurrent]; rfl)
  unfold StdState.unwritten
  rw [hpc, List.append_nil]
  rfl

theorem flush (inv : StdInv initial s es kept current) {msgs rest : List Message}
    (hpc : s.pc = .writing msgs rest)
    : StdInv initial { s with pc := .flushing msgs rest 0 } es kept current := by
  have hprogress := inv.progress
  rw [hpc] at hprogress
  refine inv.quiet (by simp) rfl (List.append_nil _).symm hprogress ?_ (List.append_nil _).symm
  rw [StdState.unwritten_writing hpc, List.append_nil]
  rfl

theorem step (inv : StdInv initial s es kept current) {a : StdAct}
    (hstep : s.step a = some (s', es'))
    : ∃ kept' current', StdInv initial s' (es ++ es') kept' current' := by
  cases StdStep.of_step hstep with
  | writeBatch hpc =>
    refine ⟨kept, [], ?_⟩
    rw [List.append_nil]
    exact inv.writeBatch hpc _
  | final hpc =>
    refine ⟨kept, current, ?_⟩
    rw [List.append_nil]
    exact inv.flush hpc
  | makeRoom hpc hfull =>
    refine ⟨kept, current, ?_⟩
    rw [List.append_nil]
    exact inv.flush hpc
  | @append msgs msg rest hpc hroom =>
    refine ⟨kept, current ++ [msg], ?_⟩
    rw [List.append_nil]
    exact inv.append (by rw [hpc]; rfl) (by rw [hpc]; rfl) (StdState.unwritten_writing hpc)
  | flushed hpc hle => exact inv.flushed hpc hle
  | reply hpc hlt => exact inv.answer hpc _
  | sync hpc => exact ⟨kept, current, inv.sync _⟩

end StdInv

theorem stdSteps_inv {initial : File} {acts : List StdAct} {s : StdState} {es : List StdOutput}
    (hreach : (stdSteps initial).Reaches acts s es)
    : ∃ kept current, StdInv initial s es kept current := by
  refine System.reaches_inv (fun s es => ∃ kept current, StdInv initial s es kept current) ?_
    ⟨[], [], StdInv.create initial⟩ hreach
  rintro s past a s' es ⟨kept, current, inv⟩ hstep
  exact inv.step hstep

theorem StdState.called_fail (s : StdState) (msgs : List Message) (written : Nat) (error : IoError)
    : (batches (s.fail msgs written error).2).map Prod.fst ++ (s.fail msgs written error).1.pc.called
        =
      [msgs] := rfl

theorem StdState.called_answer {s : StdState} {msgs rest : List Message} {written : Nat}
    (hpc : s.pc = .flushing msgs rest written) (reply : Reply)
    : (batches (s.answer msgs rest written reply).2).map Prod.fst
          ++ (s.answer msgs rest written reply).1.pc.called
        =
      [msgs] := by
  unfold answer
  cases reply with
  | transferred n =>
    dsimp only
    split
    . exact s.called_fail msgs written _
    . rfl
  | failed errno =>
    dsimp only
    split
    . rw [hpc]
      rfl
    . exact s.called_fail msgs written _

theorem StdState.called_flushed (s : StdState) (msgs rest : List Message)
    : (batches (s.flushed msgs rest).2).map Prod.fst ++ (s.flushed msgs rest).1.pc.called
        = [msgs] := by
  cases rest with
  | nil => rfl
  | cons msg rest => rfl

/--
Every call of `write_batch` returns for the messages that it was given.
-/
theorem stdSteps_calls {initial : File} {acts : List StdAct} {s : StdState} {es : List StdOutput}
    (hreach : (stdSteps initial).Reaches acts s es)
    : acts.filterMap StdAct.batch? = (batches es).map Prod.fst ++ s.pc.called := by
  refine System.reaches_inv_inputs (fun acts (s : StdState) es =>
    acts.filterMap StdAct.batch? = (batches es).map Prod.fst ++ s.pc.called) ?_ rfl hreach
  intro acts s past a s' es ih hstep
  rw [List.filterMap_append, ih, batches_append, List.map_append, List.append_assoc,
    List.append_assoc]
  congr 1
  cases StdStep.of_step hstep with
  | writeBatch hpc => simp [hpc, StdPc.called, StdAct.batch?, batches]
  | final hpc => simp [hpc, StdPc.called, StdAct.batch?, batches]
  | makeRoom hpc hfull => simp [hpc, StdPc.called, StdAct.batch?, batches]
  | append hpc hroom => simp [hpc, StdPc.called, StdAct.batch?, batches, StdState.append]
  | @flushed msgs rest written hpc hle =>
    rw [hpc, s.called_flushed]
    rfl
  | reply hpc hlt =>
    rw [StdState.called_answer hpc, hpc]
    rfl
  | @sync error hpc =>
    have hcalled : (if error.isNone then { s with synced := s.file } else s).pc.called
        = s.pc.called := by
      split <;> rfl
    rw [hcalled, hpc]
    rfl

/--
The log of a `StdWriter` after `acts`. The batches are those given to `write_batch`, the log keeps
`kept` of those that have returned and `current` of the one in progress, and a `sync` that succeeds
covers every batch that had returned `Ok`.
-/
structure KeepsRecords (initial : File) (acts : List StdAct) (s : StdState) (es : List StdOutput)
    (kept : List (List Message)) (current : List Message) : Prop where
  calls : acts.filterMap StdAct.batch? = (batches es).map Prod.fst ++ s.pc.called
  records : List.Forall₂ Kept (batches es) kept
  progress : s.pc.batch = current ++ s.pc.rest
  bytes : ∃ added,
    s.file = initial ++ added
      ∧
    added ++ s.unwritten = Message.encode (kept.flatten ++ current)
  empty : s.pc = .idle → ∀ msgs n, (batches es).getLast? = some (msgs, Outcome.ok n) → s.buf = []
  written : ∀ k msgs n, (batches es)[k]? = some (msgs, Outcome.ok n) →
    initial ++ Message.encode (kept.take (k + 1)).flatten <+: s.file
  synced : ∀ before after m past, acts = before ++ .sync none :: after →
    (stdSteps initial).Reaches before m past →
    ∀ k msgs n, (batches past)[k]? = some (msgs, Outcome.ok n) →
      initial ++ Message.encode (kept.take (k + 1)).flatten <+: s.synced

theorem StdInv.keepsRecords {initial : File} {acts : List StdAct} {s : StdState} {es : List StdOutput}
    {kept : List (List Message)} {current : List Message} (inv : StdInv initial s es kept current)
    (hreach : (stdSteps initial).Reaches acts s es)
    : KeepsRecords initial acts s es kept current where
  __ := inv
  calls := stdSteps_calls hreach
  synced := by
    rintro before after m past rfl hpast k msgs n hk
    rcases System.reaches_split hreach hpast with ⟨m', es₁, es₂, hsync, -, hes⟩
    have hstep : m.step (.sync none) = some (m', es₁) := hsync
    cases StdStep.of_step hstep with
    | sync hpc => exact inv.synced past es₂ (by simpa using hes) k msgs n hk

/--
Under any faults, the log consists of whole records: all of every batch that returned `Ok` and the
first ones of every other batch, in order. What is acknowledged is in the file, and what a `sync`
finds in the file stays synced.
-/
theorem std_keeps_records {initial : File} {acts : List StdAct} {s : StdState} {es : List StdOutput}
    (hreach : (stdSteps initial).Reaches acts s es)
    : ∃ kept current, KeepsRecords initial acts s es kept current := by
  rcases stdSteps_inv hreach with ⟨kept, current, inv⟩
  exact ⟨kept, current, inv.keepsRecords hreach⟩

/--
The flush of the first batch stops in the middle of its second record, and the flush of the second
batch completes it.
-/
def tornRun : List StdAct :=
  [.writeBatch [.new "a" [], .new "b" []], .run, .run, .run, .reply (.transferred 70),
    .reply (.failed ⟨27, by decide⟩), .writeBatch [.new "c" []], .run, .run,
    .reply (.transferred 122), .run, .sync none]

theorem std_keeps_records_torn
    : ∃ s es,
        (stdSteps []).Reaches tornRun s es
          ∧
        (batches es).map Prod.snd = [.err (.os ⟨27, by decide⟩), .ok 1]
          ∧
        s.file = Message.encode [.new "a" [], .new "b" [], .new "c" []]
          ∧
        s.synced = s.file
          ∧
        ∃ kept current, KeepsRecords [] tornRun s es kept current := by
  have hreach := (stdSteps []).reaches_get tornRun (by decide +kernel)
  exact ⟨_, _, hreach, by decide +kernel, by decide +kernel, by decide +kernel,
    std_keeps_records hreach⟩

end Persist
